import BeamChart.Proofs.Relocation.Offer

/-!
# Connections in relocated charts

An item is connected alike in a chart and in a relocation of it: the parents and
placeholders that are found under a symbol are the same ones, in the same order, and
a child stands where a rule wants it if it did before (`Relocates.placed`).
Connections nest, so this is shown with less room first (`tracks_connectWithin`).
-/

namespace BeamChart

namespace Chart

variable {m : Relocation} {connect : Connector} {c c' : Chart} {u v : ItemId} {s : SymbolId}

/-- What an item stands for is not forgotten. -/
theorem Extends.located
    (h : Extends c c')
    (hu : (c.item u).present = true) :
    (c'.item u).located = true :=
  Item.located_of_present (h.present u hu)

theorem has_store
    {x : CandidateId}
    (hx : c.Has x)
    (y : Candidate) :
    (c.store y).2.Has x := by
  rcases store_cases c y with ⟨-, heq⟩ | heq <;> rw [heq]
  · exact Nat.lt_of_lt_of_le hx (by simp)
  · exact hx

/-- Folds go together if each of their rounds does. -/
theorem foldl_related
    {σ α : Type}
    (chart : σ → Chart)
    {R : σ → σ → Prop}
    {f g : σ → α → σ}
    (entries : List α)
    {s t : σ}
    (h : R s t)
    (hclean : m.Clean (chart (entries.foldl g t)))
    (hreturns : ∀ s a, Returns (chart s) (chart (g s a)))
    (hstep : ∀ s t, ∀ a ∈ entries, R s t → m.Clean (chart (g t a)) → R (f s a) (g t a)) :
    R (entries.foldl f s) (entries.foldl g t) := by
  induction entries generalizing s t with
  | nil => exact h
  | cons a rest ih =>
    rw [List.foldl_cons] at hclean ⊢
    rw [List.foldl_cons]
    have hfirst : m.Clean (chart (g t a)) :=
      hclean.before (.foldl chart g rest _ hreturns)
    exact ih (hstep s t a List.mem_cons_self h hfirst) hclean
      fun s t b hb => hstep s t b (List.mem_cons_of_mem a hb)

section Placement

/-- A child stands where a rule wants it, wherever the two are. -/
theorem Relocates.placed
    (h : Relocates m c c')
    (hu : (c.item u).located = true)
    (hv : (c.item v).located = true)
    (rule : Rule SymbolId) :
    c'.placed (m.item u) (m.item v) rule = c.placed u v rule := by
  have hsame : ∀ a b : Nat, (a + m.distance == b + m.distance) = (a == b) := by
    intro a b
    rw [Bool.eq_iff_iff, beq_iff_eq, beq_iff_eq, Nat.add_right_cancel_iff]
  simp only [Chart.placed, h.item, m.position_moved hu, m.position_moved hv, m.stop_moved hu,
    m.stop_moved hv, h.settings, hsame, Nat.add_le_add_iff_right, Nat.add_lt_add_iff_right,
    Nat.add_sub_add_right]

theorem Mirrors.chain
    (h : Mirrors m c c')
    (hkind : c.grammar.kind = .positional)
    (hu : (c.item u).located = true) :
    Mirrors m (c.chain u) (c'.chain (m.item u)) := by
  refine h.evolve (chain_evolves h.sound hkind u) ?_
  have htail : c'.tail.filter (fun t => t ≠ m.item u) =
      (c.tail.filter fun t => t ≠ u).map m.item := by
    rw [h.tail]
    cases c.tail with
    | none => rfl
    | some t => by_cases ht : t = u <;> simp [Option.filter, ht]
  unfold Chart.chain
  rw [htail]
  cases hbehind : c.tail.filter fun t => t ≠ u with
  | none => exact h.toRelocates
  | some t =>
    have ht : (c.item t).located = true :=
      Item.located_of_present (h.closed.tail t (Option.mem_filter_iff.1 hbehind).1)
    simp only [Option.map_some, h.item, m.position_moved hu, m.stop_moved ht, m.pool_moved,
      Nat.add_lt_add_iff_right]
    split
    · exact h.toRelocates
    · split
      · rename_i former _ own rest hformer hown
        have hfmem : former ∈ (c.item t).pool := by rw [hformer]; exact List.mem_cons_self
        have homem : own ∈ (c.item u).pool := by rw [hown]; exact List.mem_cons_self
        have htry : Agrees (Relocates m)
            (c.tryAttach own former .next fun p d => p.attach .next ⟨former, 0⟩ d)
            (c'.tryAttach own former .next fun p d => p.attach .next ⟨former, 0⟩ d) :=
          h.toRelocates.tryAttach (h.closed.has_of_mem homem) (h.closed.has_of_mem hfmem)
            (m.candidate_attach _ _ _ _).symm
        generalize c.tryAttach own former .next _ = result at htry ⊢
        generalize c'.tryAttach own former .next _ = result' at htry ⊢
        obtain ⟨outcome, c₁, c₁', htried⟩ := htry
        cases outcome with
        | attached id => exact htried.setPool _
        | slotTaken => exact htried
        | conflict => exact htried
        | exhausted => exact htried
      · exact h.toRelocates

end Placement

theorem Mirrors.offerWith_extends
    (h : Mirrors m c c')
    (hconnect : Tracks m connect)
    (u v : ItemId)
    (rule : Rule SymbolId)
    (hclean : m.Clean (Chart.offerWith connect c' (m.item u) (m.item v) rule).2) :
    Agrees (fun d d' => Mirrors m d d' ∧ Extends c d) (Chart.offerWith connect c u v rule)
      (Chart.offerWith connect c' (m.item u) (m.item v) rule) := by
  have hgrows : Extends c (Chart.offerWith connect c u v rule).2 :=
    (offerWith_evolves hconnect.stepwise h.sound False.elim).grows
  have hoffer := h.offerWith hconnect u v rule hclean
  generalize Chart.offerWith connect c u v rule = result at hoffer hgrows ⊢
  generalize Chart.offerWith connect c' _ _ rule = result' at hoffer ⊢
  obtain ⟨taken, d, d', hoffered⟩ := hoffer
  exact ⟨taken, d, d', hoffered, hgrows⟩

section Fulfilling

theorem Mirrors.takeOverWith
    (h : Mirrors m c c')
    (hconnect : Tracks m connect)
    (hu : (c.item u).present = true)
    (placeholder : ItemId)
    (s : SymbolId)
    (hclean : m.Clean (takeOverWith connect c' (m.item u) (m.item placeholder) s)) :
    Mirrors m (takeOverWith connect c u placeholder s)
      (takeOverWith connect c' (m.item u) (m.item placeholder) s) := by
  have hfinal := takeOverWith_evolves hconnect.stepwise h.sound (u := u) placeholder (s := s)
    False.elim
  refine h.evolve hfinal ?_
  unfold Chart.takeOverWith at hclean ⊢
  rw [h.pool] at hclean ⊢
  cases hpool : (c.item placeholder).pool.head? with
  | none => exact h.toRelocates
  | some x =>
    have hx : c.Has x := h.closed.has_of_mem (List.mem_of_mem_head? hpool)
    rw [hpool] at hclean
    dsimp only at hclean ⊢
    rw [h.candidate x hx, m.slots_candidate] at hclean ⊢
    refine (foldl_related (m := m) id (R := fun d d' => Mirrors m d d' ∧ Extends c d) _
      ⟨h, .refl c⟩ hclean ?_ ?_).1.toRelocates
    · intro d e
      dsimp only [id]
      split
      · exact .refl d
      · split
        · exact .refl d
        · split
          · exact .refl d
          · split
            · exact offerWith_returns hconnect.returns ..
            · exact .refl d
    · rintro d d' e he ⟨hd, hext⟩ hclean
      have hchild : d.Has e.2.child :=
        hext.has (h.closed.has_child hx ((Slots.mem_filled _ e.1 e.2).1 he))
      have hu' : (d.item u).located = true := hext.located hu
      dsimp only [id] at hclean ⊢
      rw [hd.candidate _ hchild, m.root_candidate, hd.symbol] at hclean ⊢
      simp only [m.item_inj] at hclean ⊢
      split
      · exact ⟨hd, hext⟩
      · rename_i hne
        rw [if_neg hne] at hclean
        cases hsymbol : (d.item (d.candidate e.2.child).root).symbol with
        | none => exact ⟨hd, hext⟩
        | some q =>
          have hv' := Item.located_of_symbol hsymbol
          rw [hsymbol, hd.grammar] at hclean
          rw [hd.grammar]
          dsimp only at hclean ⊢
          cases hrule : d.grammar.ruleFor? s e.1 q with
          | none => exact ⟨hd, hext⟩
          | some rule =>
            rw [hrule] at hclean
            dsimp only at hclean ⊢
            rw [hd.placed hu' hv'] at hclean ⊢
            split
            · rename_i hplaced
              rw [if_pos hplaced] at hclean
              have hoffer :=
                hd.offerWith_extends hconnect u (d.candidate e.2.child).root rule hclean
              generalize Chart.offerWith connect d u _ rule = result at hoffer ⊢
              generalize Chart.offerWith connect d' _ _ rule = result' at hoffer ⊢
              obtain ⟨taken, d₁, d₁', hoffered, hgrows⟩ := hoffer
              exact ⟨hoffered, hext.trans hgrows⟩
            · exact ⟨hd, hext⟩

theorem Relocates.awaits
    (h : Relocates m c c')
    (p : ItemId)
    (s : SymbolId) :
    c'.awaits (m.item p) s = c.awaits p s := by
  simp only [Chart.awaits, h.present, h.symbol]

theorem Mirrors.fulfilWith
    (h : Mirrors m c c')
    (hconnect : Tracks m connect)
    (hu : (c.item u).present = true)
    (s : SymbolId)
    (hclean : m.Clean (fulfilWith connect c' (m.item u) s)) :
    Mirrors m (fulfilWith connect c u s) (fulfilWith connect c' (m.item u) s) := by
  have hround : ∀ level d p, Returns d
      (if (p ≠ m.item u && d.awaits p level) = true then
        Chart.takeOverWith connect d (m.item u) p level else d) := by
    intro level d p
    split
    · exact takeOverWith_returns hconnect.returns ..
    · exact .refl d
  unfold Chart.fulfilWith at hclean ⊢
  rw [h.grammar] at hclean ⊢
  refine (foldl_related (m := m) id (R := fun d d' => Mirrors m d d' ∧ Extends c d) _
    ⟨h, .refl c⟩ hclean ?_ ?_).1
  · exact fun d level => .foldl id _ _ d (hround level)
  · rintro d d' level - ⟨hd, hext⟩ hclean
    dsimp only [id] at hclean ⊢
    rw [hd.itemsOf, List.foldl_map] at hclean ⊢
    refine foldl_related (m := m) id (R := fun d d' => Mirrors m d d' ∧ Extends c d) _
      ⟨hd, hext⟩ hclean (fun d p => hround level d (m.item p)) ?_
    rintro e e' p - ⟨he, hext⟩ hclean
    dsimp only [id] at hclean ⊢
    simp only [he.awaits, ne_eq, m.item_inj] at hclean ⊢
    split
    · rename_i hawaits
      rw [if_pos hawaits] at hclean
      exact ⟨he.takeOverWith hconnect (hext.present u hu) p level hclean,
        hext.trans (takeOverWith_evolves hconnect.stepwise he.sound p False.elim).grows⟩
    · exact ⟨he, hext⟩

end Fulfilling

section Predicting

theorem Relocates.liftPool
    (h : Relocates m c c')
    (u : ItemId)
    (r : Relation)
    (pool : List CandidateId)
    (hpool : ∀ x ∈ pool, c.Has x) :
    Agrees (Relocates m) (liftPool u r c pool) (liftPool (m.item u) r c' pool) := by
  induction pool generalizing c c' with
  | nil => exact ⟨_, _, _, h⟩
  | cons x rest ih =>
    have hrest : ∀ y ∈ rest, c.Has y := fun y hy => hpool y (List.mem_cons_of_mem x hy)
    unfold Chart.liftPool
    simp only [h.candidate x (hpool x List.mem_cons_self), m.isEmpty_candidate,
      ← m.candidate_seed, ← m.candidate_attach]
    split
    · exact ih h hrest
    · have hhas : ∀ y ∈ rest,
          (c.store ((Candidate.seed u).attach r ⟨x, 0⟩ (c.candidate x))).2.Has y :=
        fun y hy => has_store (hrest y hy) _
      have hstore := h.store ((Candidate.seed u).attach r ⟨x, 0⟩ (c.candidate x))
      generalize c.store _ = result at hstore hhas ⊢
      generalize c'.store _ = result' at hstore ⊢
      obtain ⟨outcome, c₁, c₁', hstored⟩ := hstore
      cases outcome with
      | error e => exact ⟨_, _, _, hstored⟩
      | ok id =>
        have htail := ih hstored hhas
        dsimp only
        generalize Chart.liftPool u r c₁ rest = result at htail ⊢
        generalize Chart.liftPool (m.item u) r c₁' rest = result' at htail ⊢
        obtain ⟨ids, c₂, c₂', hlifted⟩ := htail
        exact ⟨_, _, _, hlifted⟩

theorem Mirrors.implyWith
    {rule : Rule SymbolId}
    (h : Mirrors m c c')
    (hconnect : Tracks m connect)
    (hitem : u.index < c.items.size)
    (hfresh : (c.item u).Fresh)
    (hsymbol : (c.item u).symbol = some s)
    (htoken : (c.item u).token = none)
    (hbare : ∀ x, c.Has x → (c.candidate x).root ≠ u)
    (hclean : m.Clean (implyWith connect c' (m.item u) (m.item v) rule)) :
    Mirrors m (implyWith connect c u v rule)
      (implyWith connect c' (m.item u) (m.item v) rule) := by
  have hstore := h.store (Candidate.seed u)
  unfold Chart.implyWith at hclean ⊢
  rw [← m.candidate_seed] at hclean ⊢
  rcases store_cases c (Candidate.seed u) with ⟨hroom, heq⟩ | heq
  · rw [heq] at hstore ⊢
    generalize c'.store _ = result' at hstore hclean ⊢
    obtain ⟨_, _, c₁', hstored⟩ := hstore
    have hready : Mirrors m (c.implied u)
        (c₁'.modifyItem (m.item u) fun i =>
          { i with pool := i.pool ++ [c.nextCandidate], present := true }) := by
      refine h.evolve (implied_spec False hroom hitem hfresh htoken hbare).1 (hstored.modifyItem ?_)
      have hlocated : (c.item u).located = true := Item.located_of_symbol hsymbol
      have hseen : ({ c.item u with
          pool := (c.item u).pool ++ [c.nextCandidate], present := true } : Item).located = true :=
        Item.located_of_present rfl
      simp only [item_pushCandidate, Relocation.moved, hlocated, hseen, if_true]
    dsimp only at hclean ⊢
    rw [← implied]
    generalize c.implied u = d at hready ⊢
    generalize c₁'.modifyItem (m.item u) _ = d' at hready hclean ⊢
    have hoffer := hready.offerWith hconnect u v rule
      (hclean.of_register.before (hconnect.returns _ _))
    generalize Chart.offerWith connect d u v rule = result at hoffer ⊢
    generalize Chart.offerWith connect d' _ _ rule = result' at hoffer hclean ⊢
    obtain ⟨taken, c₂, c₂', hoffered⟩ := hoffer
    exact (hoffered.connected hconnect hclean.of_register).register u
  · rw [heq] at hstore ⊢
    generalize c'.store _ = result' at hstore hclean ⊢
    obtain ⟨_, _, c₁', hstored⟩ := hstore
    exact h.evolve (evolves_refused c) hstored

theorem Relocates.predicted
    (h : Relocates m c c')
    (hv : (c.item v).symbol.isSome = true)
    (s : SymbolId) :
    Relocates m (c.predicted v s) (c'.predicted (m.item v) s) := by
  have hpush : Relocates m
      ((c.pushItem {}).count fun t => { t with predictions := t.predictions + 1 })
      ((c'.pushItem {}).count fun t => { t with predictions := t.predictions + 1 }) :=
    (h.pushItem {}).count fun _ _ he => he
  have hlocated : ((c.pushItem {}).item v).located = true := by
    rw [item_pushItem_of_lt _ (lt_size_of_symbol hv)]
    obtain ⟨q, hq⟩ := Option.isSome_iff_exists.1 hv
    exact Item.located_of_symbol hq
  unfold Chart.predicted
  dsimp only
  rw [h.nextItem]
  refine hpush.modifyItem ?_
  simp only [hpush.item, item_count, m.position_moved hlocated, m.extent_moved]
  simp [Relocation.moved, Item.located]

theorem Mirrors.predictWith
    {rule : Rule SymbolId}
    (h : Mirrors m c c')
    (hconnect : Tracks m connect)
    (hv : (c.item v).symbol.isSome = true)
    (s : SymbolId)
    (hclean : m.Clean (predictWith connect c' (m.item v) s rule)) :
    Mirrors m (predictWith connect c v s rule) (predictWith connect c' (m.item v) s rule) := by
  refine h.evolve (predictWith_evolves hconnect.stepwise h.sound False.elim) ?_
  have hallocate : m.Clean c'.allocateItem.2 := by
    rcases allocateItem_cases c' with ⟨-, heq⟩ | heq
    · rw [heq]
      have hstart : m.Clean c' := hclean.before (predictWith_returns hconnect.returns c' _ s rule)
      exact hstart
    · unfold Chart.predictWith at hclean
      rwa [heq] at hclean ⊢
  rcases h.allocateItem hallocate with ⟨hroom, heq, heq'⟩ | ⟨heq, heq'⟩
  · rw [h.nextItem.symm] at heq'
    rw [predictWith_eq connect heq]
    rw [predictWith_eq connect heq'] at hclean ⊢
    rw [h.nextItem] at hclean ⊢
    obtain ⟨hready, hlt, hfresh, hsymbol, htoken, hbare⟩ :=
      predicted_spec False h.sound hroom v s
    have hplaced : Mirrors m (c.predicted v s) (c'.predicted (m.item v) s) :=
      h.evolve hready (h.toRelocates.predicted hv s)
    generalize c.predicted v s = d at hplaced hlt hfresh hsymbol htoken hbare ⊢
    generalize c'.predicted _ s = d' at hplaced hclean ⊢
    split
    · rename_i himplied
      rw [if_pos himplied] at hclean
      exact (hplaced.implyWith hconnect hlt hfresh hsymbol htoken hbare hclean).toRelocates
    · have hlift := hplaced.liftPool c.nextItem rule.relation
        ((d.item v).pool.take d.settings.beamWidth)
        fun x hx => hplaced.closed.has_of_mem (List.mem_of_mem_take hx)
      rw [hplaced.pool, hplaced.settings]
      generalize Chart.liftPool c.nextItem rule.relation d _ = result at hlift ⊢
      generalize Chart.liftPool (m.item c.nextItem) rule.relation d' _ = result' at hlift ⊢
      obtain ⟨pool, d₁, d₁', hlifted⟩ := hlift
      exact (hlifted.setPool pool).register c.nextItem
  · unfold Chart.predictWith
    rw [heq, heq']
    exact h.refused

end Predicting

section Seeking

theorem Mirrors.tryParentWith
    (h : Mirrors m c c')
    (hconnect : Tracks m connect)
    (hv : (c.item v).symbol = some s)
    (u : ItemId)
    (r : Relation)
    (hclean : m.Clean (tryParentWith connect c' (m.item v) (m.item u) s r).2) :
    Agrees (fun d d' => Mirrors m d d' ∧ Extends c d) (tryParentWith connect c v u s r)
      (tryParentWith connect c' (m.item v) (m.item u) s r) := by
  unfold Chart.tryParentWith at hclean ⊢
  simp only [m.item_inj, h.present, h.symbol, h.grammar] at hclean ⊢
  by_cases hseen : (decide (u = v) || !(c.item u).present) = true
  · rw [if_pos hseen, if_pos hseen]
    exact ⟨_, _, _, h, .refl c⟩
  · rw [if_neg hseen] at hclean ⊢
    rw [if_neg hseen]
    cases hsymbol : (c.item u).symbol with
    | none => exact ⟨_, _, _, h, .refl c⟩
    | some q =>
      rw [hsymbol] at hclean
      dsimp only at hclean ⊢
      cases hrule : c.grammar.ruleFor? q r s with
      | none => exact ⟨_, _, _, h, .refl c⟩
      | some rule =>
        rw [hrule] at hclean
        dsimp only at hclean ⊢
        rw [h.placed (Item.located_of_symbol hsymbol) (Item.located_of_symbol hv)] at hclean ⊢
        split
        · rename_i hplaced
          rw [if_pos hplaced] at hclean
          exact h.offerWith_extends hconnect u v rule hclean
        · exact ⟨_, _, _, h, .refl c⟩

theorem Mirrors.seekParentWith
    (h : Mirrors m c c')
    (hconnect : Tracks m connect)
    (v : ItemId)
    (level : SymbolId)
    (parentRule : Rule SymbolId)
    (hclean : m.Clean (seekParentWith connect c' (m.item v) level parentRule)) :
    Mirrors m (seekParentWith connect c v level parentRule)
      (seekParentWith connect c' (m.item v) level parentRule) := by
  unfold Chart.seekParentWith at hclean ⊢
  rw [h.symbol, h.grammar] at hclean ⊢
  cases hv : (c.item v).symbol with
  | none => exact h
  | some s =>
    cases hrule : c.grammar.ruleFor? parentRule.target parentRule.relation level with
    | none => exact h
    | some rule =>
      rw [hv, hrule, h.itemsOf] at hclean
      rw [h.itemsOf]
      dsimp only at hclean ⊢
      rw [List.foldl_map] at hclean ⊢
      have hround : ∀ (acc : Bool × Chart) (p : ItemId), Returns acc.2
          (acc.1 || (Chart.tryParentWith connect acc.2 (m.item v) (m.item p) s
              parentRule.relation).1,
            (Chart.tryParentWith connect acc.2 (m.item v) (m.item p) s
              parentRule.relation).2).2 :=
        fun acc p => tryParentWith_returns hconnect.returns ..
      have htry := foldl_related (m := m) Prod.snd
        (R := Agrees fun d d' => Mirrors m d d' ∧ Extends c d)
        (c.itemsOf parentRule.target) (s := (false, c)) (t := (false, c'))
        (f := fun acc p =>
          (acc.1 || (Chart.tryParentWith connect acc.2 v p s parentRule.relation).1,
            (Chart.tryParentWith connect acc.2 v p s parentRule.relation).2))
        ⟨_, _, _, h, .refl c⟩ (hclean.before ?_) hround ?_
      · generalize (c.itemsOf parentRule.target).foldl _ (false, c) = result at htry ⊢
        generalize (c.itemsOf parentRule.target).foldl _ (false, c') = result' at htry hclean ⊢
        obtain ⟨taken, c₁, c₁', h₁, hext⟩ := htry
        cases taken with
        | true => exact h₁
        | false =>
          exact h₁.predictWith hconnect (by rw [hext.symbol hv]; rfl) parentRule.target hclean
      · generalize (c.itemsOf parentRule.target).foldl _ (false, c') = result
        obtain ⟨taken, c₁⟩ := result
        cases taken with
        | true => exact .refl c₁
        | false => exact predictWith_returns hconnect.returns ..
      · rintro s₁ s₁' p - ⟨taken, d, d', hd, hext⟩ hclean
        have hone := hd.tryParentWith hconnect (hext.symbol hv) p parentRule.relation hclean
        dsimp only
        generalize Chart.tryParentWith connect d v p s _ = result at hone ⊢
        generalize Chart.tryParentWith connect d' _ _ s _ = result' at hone ⊢
        obtain ⟨more, d₁, d₁', hd₁, hext₁⟩ := hone
        exact ⟨_, _, _, hd₁, hext.trans hext₁⟩

theorem Mirrors.seekParentsWith
    (h : Mirrors m c c')
    (hconnect : Tracks m connect)
    (u : ItemId)
    (s : SymbolId)
    (hclean : m.Clean (seekParentsWith connect c' (m.item u) s)) :
    Mirrors m (seekParentsWith connect c u s) (seekParentsWith connect c' (m.item u) s) := by
  unfold Chart.seekParentsWith at hclean ⊢
  rw [h.grammar] at hclean ⊢
  refine foldl_related (m := m) id _ h hclean ?_ ?_
  · exact fun d level => .foldl id _ _ d fun d rule =>
      seekParentWith_returns hconnect.returns ..
  · intro d d' level _ hd hclean
    have hrules : d'.parentRules level = d.parentRules level := by
      rw [parentRules, parentRules, hd.grammar]
    dsimp only [id] at hclean ⊢
    rw [hrules] at hclean ⊢
    refine foldl_related (m := m) id _ hd hclean (fun d rule =>
      seekParentWith_returns hconnect.returns ..) ?_
    exact fun e e' rule _ he hclean => he.seekParentWith hconnect u level rule hclean

end Seeking

section Connecting

theorem Relocates.connectable?
    (h : Relocates m c c')
    (u : ItemId) :
    c'.connectable? (m.item u) = c.connectable? u := by
  rw [Chart.connectable?, Chart.connectable?, h.present, h.recognized?, h.grammar]

theorem present_of_connectable?
    {entry : Symbol}
    (h : c.connectable? u = some entry) :
    (c.item u).present = true := by
  by_contra hnone
  rw [Chart.connectable?, if_neg hnone] at h
  cases h

theorem Mirrors.connectBody
    (h : Mirrors m c c')
    (hconnect : Tracks m connect)
    (hu : (c.item u).present = true)
    (entry : Symbol)
    (hclean : m.Clean (connectBody connect c' (m.item u) entry)) :
    Relocates m (connectBody connect c u entry) (connectBody connect c' (m.item u) entry) := by
  unfold Chart.connectBody at hclean ⊢
  rw [h.grammar] at hclean ⊢
  by_cases hkind : c.grammar.kind = .positional
  · rw [if_pos hkind, if_pos hkind]
    exact (h.chain hkind (Item.located_of_present hu)).toRelocates
  · rw [if_neg hkind] at hclean ⊢
    rw [if_neg hkind]
    by_cases hrules : entry.hasRules = true
    · rw [if_pos hrules] at hclean ⊢
      rw [if_pos hrules]
      have hfulfil := h.fulfilWith hconnect hu entry.id
        (hclean.before (seekParentsWith_returns hconnect.returns ..))
      exact (hfulfil.seekParentsWith hconnect u entry.id hclean).toRelocates
    · rw [if_neg hrules] at hclean ⊢
      rw [if_neg hrules]
      exact (h.seekParentsWith hconnect u entry.id hclean).toRelocates

/-- Nested connections go together, so connections with more room do. -/
theorem tracks_connectWithin (m : Relocation) (room : Nat) :
    Tracks m (connectWithin room) := by
  induction room with
  | zero =>
    refine ⟨connectWithin_evolves 0, connectWithin_returns 0, fun c c' u h _ => ?_⟩
    unfold Chart.connectWithin
    rw [h.connectable?, h.settings, h.depth]
    cases c.connectable? u with
    | none => exact h.toRelocates
    | some entry =>
      dsimp only
      split <;> exact h.count fun _ _ he => he
  | succ room ih =>
    refine ⟨connectWithin_evolves _, connectWithin_returns _, fun c c' u h hclean => ?_⟩
    unfold Chart.connectWithin at hclean ⊢
    rw [h.connectable?, h.settings, h.depth] at hclean ⊢
    cases hentry : c.connectable? u with
    | none => exact h.toRelocates
    | some entry =>
      rw [hentry] at hclean
      dsimp only at hclean ⊢
      by_cases hdeep : c.settings.maxDepth ≤ c.depth
      · rw [if_pos hdeep, if_pos hdeep]
        exact h.count fun _ _ he => he
      · rw [if_neg hdeep] at hclean ⊢
        rw [if_neg hdeep]
        have henter : Mirrors m c.enter c'.enter := by
          refine h.evolve (.single (.note _ _ rfl rfl rfl (Nat.le_refl _))) ?_
          refine h.note (congrArg (· + 1) h.depth) h.attempts fun hexact => ?_
          rw [h.tally hexact]
        have hpresent : (c.enter.item u).present = true := present_of_connectable? hentry
        have hbody := henter.connectBody ih hpresent entry hclean
        exact hbody.note (congrArg (· - 1) hbody.depth) hbody.attempts hbody.tally

end Connecting

end Chart

end BeamChart
