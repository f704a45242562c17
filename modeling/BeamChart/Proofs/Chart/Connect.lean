import BeamChart.Proofs.Chart.Offer

/-!
# Connecting in steps

Connections nest, so the result is proved along the bound of the nesting
(`connectWithin_evolves`). In a strict chart each offer is licensed: by the rule
and the position that have been looked at before, or by the rule that a parent
that counts as present has been made for.
-/

namespace BeamChart

theorem Grammar.relation_of_ruleFor?
    {g : Grammar}
    {parent child : SymbolId}
    {r : Relation}
    {rule : Rule SymbolId}
    (h : g.ruleFor? parent r child = some rule) :
    rule.relation = r := by
  rw [ruleFor?, Option.bind_eq_some_iff] at h
  obtain ⟨entry, -, hrule⟩ := h
  have hmem : rule ∈ entry.rulesAt r := by
    dsimp only at hrule
    split at hrule
    · rename_i found hfound
      cases hrule
      exact List.mem_of_find?_eq_some hfound
    · exact List.mem_of_find?_eq_some hrule
  exact ((Definition.mem_rulesAt _ _ _).1 hmem).2

namespace Chart

variable {strict : Prop} {connect : Connector} {c c' : Chart} {u v : ItemId} {r : Relation}

theorem chain_evolves
    (hc : Sound strict c)
    (hkind : c.grammar.kind = .positional)
    (u : ItemId) :
    Evolves strict c (c.chain u) := by
  have htried : ∀ {v former own} {more rest : List CandidateId}, c.tail = some v →
      (c.item v).pool = former :: more → (c.item u).pool = own :: rest →
      Evolves strict c (c.tryAttach own former .next (·.attach .next ⟨former, 0⟩ ·)).2 ∧
        ∀ id, (c.tryAttach own former .next (·.attach .next ⟨former, 0⟩ ·)).1 = .attached id →
          (c.tryAttach own former .next (·.attach .next ⟨former, 0⟩ ·)).2.Has id ∧
            (c.candidate own).slot .next = none ∧
            (c.tryAttach own former .next (·.attach .next ⟨former, 0⟩ ·)).2.candidate id =
              (c.candidate own).attach .next ⟨former, 0⟩ (c.candidate former) := by
    intro v former own more rest htail hformer hown
    have hfmem : former ∈ (c.item v).pool := by rw [hformer]; exact List.mem_cons_self
    have homem : own ∈ (c.item u).pool := by rw [hown]; exact List.mem_cons_self
    refine tryAttach_spec strict _ (hc.closed.has_of_mem homem) (hc.closed.has_of_mem hfmem)
      fun hfits => .chained hfits hkind ?_
    rw [hc.closed.root_of_mem hfmem]
    exact hc.closed.tail v htail
  cases chaining c u with
  | idle heq =>
    rw [heq]
    exact .refl c
  | refused htail hformer hown heq =>
    rw [heq]
    exact (htried htail hformer hown).1
  | @chained v former own more rest c₁ htail hformer hown htry heq =>
    obtain ⟨hsteps, hnew⟩ := htried htail hformer hown
    have hitems := items_tryAttach c own former .next (·.attach .next ⟨former, 0⟩ ·)
    have homem : own ∈ (c.item u).pool := by rw [hown]; exact List.mem_cons_self
    rw [htry] at hsteps hnew hitems
    obtain ⟨hid, hfree, hmade⟩ := hnew _ rfl
    rw [heq]
    refine hsteps.trans (.single (.pool ?_ (fun hs => ?_) (fun _ _ => Or.inl ?_)
      fun _ _ h => by cases h))
    · intro x hx
      rcases List.mem_cons.1 hx with rfl | hrest
      · refine ⟨hid, ?_⟩
        rw [hmade]
        exact hc.closed.root_of_mem homem
      · refine hsteps.grows.rootedAt (hc.closed.pool u) x ?_
        rw [hown]
        exact List.mem_cons_of_mem own hrest
    · have hsingle := ((hc.lawful hs).ranks u).single hkind
      rw [hown, List.length_cons] at hsingle
      have hrest : rest = [] := List.length_eq_zero_iff.1 (by omega)
      rw [hrest]
      exact ranks_singleton c₁ _
    · rw [item_of_items_eq hitems, hown]
      intro y hy
      rcases List.mem_cons.1 hy with rfl | hrest
      · refine ⟨own, List.mem_cons_self, keeps_of_slot fun q s hs => ?_⟩
        rw [hsteps.grows.slot (hc.closed.has_of_mem homem)] at hs
        have hq : q ≠ .next := by
          rintro rfl
          rw [hfree] at hs
          cases hs
        rw [hmade, Candidate.slot_attach_of_ne _ _ _ hq]
        exact hs
      · exact ⟨y, List.mem_cons_of_mem own hrest, .refl c₁ u y⟩

/-- A present item follows the rules of a symbol. -/
structure Follows (c : Chart) (u : ItemId) (level : SymbolId) : Prop where
  kind : c.grammar.kind ≠ .positional
  present : (c.item u).present = true
  level : ∃ s, (c.item u).symbol = some s ∧ c.grammar.Level s level

theorem Follows.extend
    {level : SymbolId}
    (hf : c.Follows u level)
    (h : Extends c c') :
    c'.Follows u level where
  kind := by
    rw [h.grammar]
    exact hf.kind
  present := h.present u hf.present
  level := by
    obtain ⟨s, hs, hlevel⟩ := hf.level
    rw [h.grammar]
    exact ⟨s, h.symbol hs, hlevel⟩

/-- A child that stands where a rule wants it is licensed. -/
theorem Follows.licensed
    {level d : SymbolId}
    {rule : Rule SymbolId}
    (hf : c.Follows u level)
    (hpresent : (c.item v).present = true)
    (hchild : (c.item v).symbol = some d)
    (hrule : c.grammar.ruleFor? level r d = some rule)
    (hplaced : c.placed u v rule = true) :
    c.Licensed u v rule.relation where
  kind := hf.kind
  parent := hf.present
  child := hpresent
  grounds := by
    obtain ⟨s, hs, hlevel⟩ := hf.level
    rw [Grammar.relation_of_ruleFor? hrule]
    exact .placed hs hchild hlevel hrule hplaced

theorem takeOverWith_evolves
    (hconnect : connect.Stepwise strict)
    (hc : Sound strict c)
    (placeholder : ItemId)
    {s : SymbolId}
    (hstrict : strict → c.Follows u s) :
    Evolves strict c (takeOverWith connect c u placeholder s) := by
  unfold takeOverWith
  split
  · exact .refl c
  · rename_i x hhead
    have hx : c.Has x := hc.closed.has_of_mem (List.mem_of_mem_head? hhead)
    refine evolves_foldl (fun c => c) _ _ c ?_
    intro c₁ e he hsteps
    have hslot : (c.candidate x).slot e.1 = some e.2 := (Slots.mem_filled _ e.1 e.2).1 he
    have hroot : (c₁.candidate e.2.child).root = (c.candidate e.2.child).root :=
      hsteps.grows.root (hc.closed.has_child hx hslot)
    dsimp only
    split
    · exact .refl c₁
    · split
      · exact .refl c₁
      · rename_i d hchild
        split
        · exact .refl c₁
        · rename_i rule hrule
          split
          · rename_i hplaced
            refine offerWith_evolves hconnect (hsteps.sound hc) fun hs => ?_
            refine ((hstrict hs).extend hsteps.grows).licensed ?_ hchild hrule hplaced
            rw [hroot]
            exact hsteps.grows.present _ ((hc.lawful hs).child x e.1 e.2 hx hslot)
          · exact .refl c₁

theorem fulfilWith_evolves
    (hconnect : connect.Stepwise strict)
    (hc : Sound strict c)
    {s : SymbolId}
    (hstrict : strict → ∀ level ∈ c.grammar.ancestry s, c.Follows u level) :
    Evolves strict c (fulfilWith connect c u s) := by
  refine evolves_foldl (fun c => c) _ _ c ?_
  intro c₁ level hlevel hsteps
  refine evolves_foldl (fun c => c) _ _ c₁ ?_
  intro c₂ p _ hmore
  split
  · refine takeOverWith_evolves hconnect ((hsteps.trans hmore).sound hc) p fun hs => ?_
    exact (hstrict hs level hlevel).extend (hsteps.trans hmore).grows
  · exact .refl c₂

section Predicting

/-- A blank item that no candidate is rooted at. -/
structure Vacant (c : Chart) (u : ItemId) : Prop where
  lt : u.index < c.items.size
  blank : c.item u = {}
  bare : ∀ x, c.Has x → (c.candidate x).root ≠ u

theorem vacant_pushItem (hc : Closed c) :
    (c.pushItem {}).Vacant c.nextItem where
  lt := by simp [nextItem, pushItem]
  blank := item_pushItem_nextItem c {}
  bare _ hx := hc.root_ne_nextItem hx

theorem Vacant.fill
    (strict : Prop)
    {place : Item → Item}
    (h : c.Vacant u)
    (hfresh : (place {}).Fresh)
    (hnamed : (place {}).Named) :
    Evolves strict c (c.modifyItem u place) ∧ (c.modifyItem u place).item u = place {} := by
  refine ⟨.single (.fill place h.lt h.blank hfresh hnamed), ?_⟩
  rw [item_modifyItem_self place h.lt, h.blank]

@[simp] theorem items_liftPool
    (c : Chart)
    (u : ItemId)
    (r : Relation)
    (pool : List CandidateId) :
    (liftPool u r c pool).2.items = c.items := by
  induction pool generalizing c with
  | nil => rfl
  | cons x rest ih =>
    unfold liftPool
    dsimp only
    split
    · exact ih c
    · rcases store_cases c ((Candidate.seed u).attach r ⟨x, 0⟩ (c.candidate x)) with
        ⟨-, heq⟩ | heq <;> rw [heq]
      · exact (ih _).trans rfl
      · rfl

/-- Lifted candidates stand for a part of the pool, in its order. -/
theorem liftPool_spec
    (strict : Prop)
    (pool : List CandidateId)
    (hitem : u.index < c.items.size)
    (hpool : c.RootedAt v pool)
    (hstrict : strict → (c.item v).present = true ∧
      ((c.item u).present = false ∨ (c.item v).fixedParent = some (u, r))) :
    Evolves strict c (liftPool u r c pool).2 ∧
      ∃ xs, xs.Sublist pool ∧
        List.Forall₂ ((liftPool u r c pool).2.Lifts u r) (liftPool u r c pool).1 xs := by
  induction pool generalizing c with
  | nil => exact ⟨.refl c, [], List.Sublist.refl _, List.Forall₂.nil⟩
  | cons x rest ih =>
    obtain ⟨hx, hroot⟩ := hpool x List.mem_cons_self
    have hrest : c.RootedAt v rest := fun y hy => hpool y (List.mem_cons_of_mem x hy)
    unfold liftPool
    dsimp only
    split
    · obtain ⟨hsteps, xs, hsub, hlifts⟩ := ih hitem hrest hstrict
      exact ⟨hsteps, xs, hsub.cons x, hlifts⟩
    · rcases store_cases c ((Candidate.seed u).attach r ⟨x, 0⟩ (c.candidate x)) with
        ⟨hroom, heq⟩ | heq
      · rw [heq]
        have hmade : Made strict c ((Candidate.seed u).attach r ⟨x, 0⟩ (c.candidate x)) :=
          .lifted hitem hx (by rw [hroot]; exact hstrict)
        have hstore : Evolves strict c (c.pushCandidate _) := .single (.store hroom hmade)
        obtain ⟨hsteps, xs, hsub, hlifts⟩ := ih
          (c := c.pushCandidate ((Candidate.seed u).attach r ⟨x, 0⟩ (c.candidate x)))
          hitem (hstore.grows.rootedAt hrest) hstrict
        exact ⟨hstore.trans hsteps, x :: xs, hsub.cons_cons x,
          .cons ((lifts_pushCandidate hx).extend hsteps.grows) hlifts⟩
      · rw [heq]
        exact ⟨evolves_refused c, [], List.nil_sublist _, List.Forall₂.nil⟩

/-- A rule gives a reason for predicting a parent of a symbol over a child. -/
structure Predicts (c : Chart) (v : ItemId) (s : SymbolId) (rule : Rule SymbolId) : Prop where
  kind : c.grammar.kind ≠ .positional
  child : (c.item v).present = true
  reason : ∃ d level parentRule, (c.item v).symbol = some d ∧ c.grammar.Level d level ∧
    parentRule ∈ c.parentRules level ∧ parentRule.target = s ∧
      c.grammar.ruleFor? s parentRule.relation level = some rule

theorem Predicts.extend
    {s : SymbolId}
    {rule : Rule SymbolId}
    (hp : c.Predicts v s rule)
    (h : Extends c c') :
    c'.Predicts v s rule where
  kind := by
    rw [h.grammar]
    exact hp.kind
  child := h.present v hp.child
  reason := by
    obtain ⟨d, level, parentRule, hd, hlevel, hmem, htarget, hrule⟩ := hp.reason
    have hmem' : parentRule ∈ c'.parentRules level := by
      rw [parentRules, h.grammar]
      exact hmem
    rw [h.grammar]
    exact ⟨d, level, parentRule, h.symbol hd, hlevel, hmem', htarget, hrule⟩

theorem Predicts.licensed
    {s : SymbolId}
    {rule : Rule SymbolId}
    (hp : c.Predicts v s rule)
    (hpresent : (c.item u).present = true)
    (hsymbol : (c.item u).symbol = some s)
    (himplied : rule.implied = true) :
    c.Licensed u v rule.relation where
  kind := hp.kind
  parent := hpresent
  child := hp.child
  grounds := by
    obtain ⟨d, level, parentRule, hd, hlevel, hmem, htarget, hrule⟩ := hp.reason
    rw [Grammar.relation_of_ruleFor? hrule]
    exact .implied hsymbol hd hlevel hmem htarget rfl hrule himplied

/-- The chart in which an item counts as present, with a candidate that holds nothing. -/
def implied (c : Chart) (u : ItemId) : Chart :=
  (c.pushCandidate (Candidate.seed u)).modifyItem u fun i =>
    { i with pool := i.pool ++ [c.nextCandidate], present := true }

theorem implied_spec
    (strict : Prop)
    (hroom : c.candidatesFull = false)
    (hitem : u.index < c.items.size)
    (hfresh : (c.item u).Fresh)
    (htoken : (c.item u).token = none)
    (hbare : ∀ x, c.Has x → (c.candidate x).root ≠ u) :
    Evolves strict c (c.implied u) ∧ ((c.implied u).item u).present = true := by
  have hstore : Evolves strict c (c.pushCandidate (Candidate.seed u)) :=
    .single (.store hroom (.seed hitem fun _ => hfresh.2.1))
  have hpool : Evolves strict (c.pushCandidate (Candidate.seed u))
      ((c.pushCandidate (Candidate.seed u)).setPool u [c.nextCandidate]) :=
    evolves_setPool_nextCandidate rfl fun _ => hfresh.2.1
  have hlt : u.index <
      ((c.pushCandidate (Candidate.seed u)).setPool u [c.nextCandidate]).items.size := by
    rw [setPool, size_items_modifyItem]
    exact hitem
  have hunsown : ¬ ((c.pushCandidate (Candidate.seed u)).setPool u [c.nextCandidate]).Sown u := by
    intro hsown
    have hnone : (((c.pushCandidate (Candidate.seed u)).setPool u [c.nextCandidate]).item
        u).token = none := (field_modifyItem Item.token rfl u).trans htoken
    have hsome := hsown.token
    rw [hnone] at hsome
    cases hsome
  have happear : Evolves strict
      ((c.pushCandidate (Candidate.seed u)).setPool u [c.nextCandidate])
      (((c.pushCandidate (Candidate.seed u)).setPool u [c.nextCandidate]).markPresent u) :=
    .single (.appear hlt
      ((field_modifyItem Item.isAggregate rfl u).trans hfresh.2.2.1)
      (fun x hx hroot => slots_pushCandidate_of_bare hbare rfl hx hroot)
      fun hsown => absurd hsown hunsown)
  have hseen : c.implied u =
      ((c.pushCandidate (Candidate.seed u)).setPool u [c.nextCandidate]).markPresent u := by
    rw [implied, markPresent, setPool, modifyItem_modifyItem]
    apply modifyItem_congr
    rw [item_pushCandidate, hfresh.1]
    rfl
  refine ⟨?_, ?_⟩
  · rw [hseen]
    exact (hstore.trans hpool).trans happear
  · rw [hseen, markPresent, item_modifyItem_self _ hlt]

theorem implyWith_evolves
    {s : SymbolId}
    {rule : Rule SymbolId}
    (hconnect : connect.Stepwise strict)
    (hc : Sound strict c)
    (hitem : u.index < c.items.size)
    (hfresh : (c.item u).Fresh)
    (hsymbol : (c.item u).symbol = some s)
    (htoken : (c.item u).token = none)
    (hbare : ∀ x, c.Has x → (c.candidate x).root ≠ u)
    (hstrict : strict → c.Predicts v s rule)
    (himplied : rule.implied = true) :
    Evolves strict c (implyWith connect c u v rule) := by
  unfold implyWith
  rcases store_cases c (Candidate.seed u) with ⟨hroom, heq⟩ | heq
  · rw [heq]
    obtain ⟨hready, hpresent⟩ := implied_spec strict hroom hitem hfresh htoken hbare
    dsimp only
    rw [← implied]
    have hoffer : Evolves strict (c.implied u) (offerWith connect (c.implied u) u v rule).2 := by
      refine offerWith_evolves hconnect (hready.sound hc) fun hs => ?_
      exact ((hstrict hs).extend hready.grows).licensed hpresent
        (hready.grows.symbol hsymbol) himplied
    have hall := hready.trans hoffer
    exact (hall.trans (hconnect _ u (hall.sound hc))).trans (.single .register)
  · rw [heq]
    exact evolves_refused c

/-- The chart in which a parent of a symbol has been placed over a child. -/
def predicted (c : Chart) (v : ItemId) (s : SymbolId) : Chart :=
  let c' := (c.pushItem {}).count fun t => { t with predictions := t.predictions + 1 }
  c'.modifyItem c.nextItem fun i =>
    { i with
      concept := s
      symbol := some s
      position := (c'.item v).position
      extent := (c'.item v).extent }

theorem predictWith_eq
    {s : SymbolId}
    {rule : Rule SymbolId}
    (connect : Connector)
    (h : c.allocateItem = (.ok c.nextItem, c.pushItem {})) :
    predictWith connect c v s rule =
      if rule.implied then implyWith connect (c.predicted v s) c.nextItem v rule
      else
        match liftPool c.nextItem rule.relation (c.predicted v s)
            (((c.predicted v s).item v).pool.take (c.predicted v s).settings.beamWidth) with
        | (pool, c') => (c'.setPool c.nextItem pool).register c.nextItem := by
  unfold predictWith
  rw [h]
  rfl

theorem predicted_spec
    (strict : Prop)
    (hc : Sound strict c)
    (hroom : c.plainItems < c.settings.itemCapacity)
    (v : ItemId)
    (s : SymbolId) :
    Evolves strict c (c.predicted v s) ∧
      c.nextItem.index < (c.predicted v s).items.size ∧
      ((c.predicted v s).item c.nextItem).Fresh ∧
      ((c.predicted v s).item c.nextItem).symbol = some s ∧
      ((c.predicted v s).item c.nextItem).token = none ∧
      ∀ x, (c.predicted v s).Has x → ((c.predicted v s).candidate x).root ≠ c.nextItem := by
  have hpush : Evolves strict c (c.pushItem {}) := .single (.allocateItem hroom)
  have hcount := hpush.trans (evolves_count (c.pushItem {})
    (fun t => { t with predictions := t.predictions + 1 }) rfl rfl rfl (Nat.le_refl _))
  have hvacant : ((c.pushItem {}).count fun t =>
      { t with predictions := t.predictions + 1 }).Vacant c.nextItem :=
    ⟨(vacant_pushItem hc.closed).lt, (vacant_pushItem hc.closed).blank,
      (vacant_pushItem hc.closed).bare⟩
  unfold predicted
  dsimp only
  generalize (c.pushItem {}).count (fun t =>
    { t with predictions := t.predictions + 1 }) = c₁ at hcount hvacant ⊢
  generalize hplace : (fun i : Item =>
    { i with
      concept := s
      symbol := some s
      position := (c₁.item v).position
      extent := (c₁.item v).extent }) = place
  have hfresh : (place {}).Fresh := by
    rw [← hplace]
    exact ⟨rfl, rfl, rfl, rfl, rfl⟩
  have hnamed : (place {}).Named := by
    rw [← hplace]
    rfl
  obtain ⟨hfill, hitem⟩ := hvacant.fill strict hfresh hnamed
  refine ⟨hcount.trans hfill, ?_, ?_, ?_, ?_, hvacant.bare⟩
  · rw [size_items_modifyItem]
    exact hvacant.lt
  · rw [hitem]
    exact hfresh
  · rw [hitem, ← hplace]
  · rw [hitem, ← hplace]

/-- A parent is predicted at the place of its child. -/
theorem predictWith_evolves
    {s : SymbolId}
    {rule : Rule SymbolId}
    (hconnect : connect.Stepwise strict)
    (hc : Sound strict c)
    (hstrict : strict → c.Predicts v s rule) :
    Evolves strict c (predictWith connect c v s rule) := by
  rcases allocateItem_cases c with ⟨hroom, heq⟩ | heq
  · rw [predictWith_eq connect heq]
    obtain ⟨hready, hlt, hfresh, hsymbol, htoken, hbare⟩ := predicted_spec strict hc hroom v s
    generalize c.predicted v s = c₁ at hready hlt hfresh hsymbol htoken hbare ⊢
    have hc₁ : Sound strict c₁ := hready.sound hc
    have hpredicts : strict → c₁.Predicts v s rule := fun hs => (hstrict hs).extend hready.grows
    split
    · rename_i himplied
      exact hready.trans
        (implyWith_evolves hconnect hc₁ hlt hfresh hsymbol htoken hbare hpredicts himplied)
    · obtain ⟨hlift, xs, hsub, hlifts⟩ := liftPool_spec strict (r := rule.relation)
        ((c₁.item v).pool.take c₁.settings.beamWidth) hlt
        (fun x hx => hc₁.closed.pool v x (List.mem_of_mem_take hx))
        (fun hs => ⟨(hpredicts hs).child, Or.inl hfresh.2.1⟩)
      have hitems := items_liftPool c₁ c.nextItem rule.relation
        ((c₁.item v).pool.take c₁.settings.beamWidth)
      generalize liftPool c.nextItem rule.relation c₁ _ = result at hlift hlifts hitems ⊢
      obtain ⟨pool, c₂⟩ := result
      have hpool : Evolves strict c₂ (c₂.setPool c.nextItem pool) := by
        have habsent : (c₂.item c.nextItem).present = false := by
          rw [item_of_items_eq hitems]
          exact hfresh.2.1
        refine .single (.pool (rootedAt_of_lifts hlifts) (fun hs => ?_)
          (fun _ hpresent => absurd hpresent (by rw [habsent]; exact Bool.false_ne_true))
          fun _ hpresent => absurd hpresent (by rw [habsent]; exact Bool.false_ne_true))
        have hkind : c₂.grammar.kind ≠ .positional := by
          rw [hlift.grows.grammar]
          exact (hpredicts hs).kind
        have hbeam : Pool.IsBeam c₂.candidate c₂.poolWidth xs := by
          rw [hlift.grows.poolWidth]
          refine hlift.grows.isBeam ?_ (((hc₁.lawful hs).ranks v).beam.sublist
            (hsub.trans (List.take_sublist _ _)))
          exact fun x hx => hc₁.closed.has_of_mem (List.mem_of_mem_take (hsub.mem hx))
        exact ⟨isBeam_of_lifts hlifts hbeam, fun h => absurd h hkind⟩
      exact hready.trans (hlift.trans (hpool.trans (.single .register)))
  · unfold predictWith
    rw [heq]
    exact evolves_refused c

end Predicting

section Seeking

variable {s level : SymbolId} {parentRule : Rule SymbolId}

/-- A child that was seen follows a symbol upwards. -/
structure Seeks
    (c : Chart)
    (v : ItemId)
    (level : SymbolId)
    (parentRule : Rule SymbolId) : Prop where
  follows : c.Follows v level
  mem : parentRule ∈ c.parentRules level

theorem Seeks.extend
    (hf : c.Seeks v level parentRule)
    (h : Extends c c') :
    c'.Seeks v level parentRule where
  follows := hf.follows.extend h
  mem := by
    rw [parentRules, h.grammar]
    exact hf.mem

theorem tryParentWith_evolves
    (hconnect : connect.Stepwise strict)
    (hc : Sound strict c)
    (hchild : (c.item v).symbol = some s)
    (hstrict : strict → c.grammar.kind ≠ .positional ∧ (c.item v).present = true) :
    Evolves strict c (tryParentWith connect c v u s r).2 := by
  unfold tryParentWith
  dsimp only
  split
  · exact .refl c
  · rename_i hseen
    split
    · exact .refl c
    · rename_i q hparent
      split
      · exact .refl c
      · rename_i rule hrule
        split
        · rename_i hplaced
          refine offerWith_evolves hconnect hc fun hs => ?_
          have hpresent : (c.item u).present = true := by
            simp only [Bool.or_eq_true, decide_eq_true_eq, Bool.not_eq_true', not_or,
              Bool.not_eq_false] at hseen
            exact hseen.2
          have hfollows : c.Follows u q := ⟨(hstrict hs).1, hpresent, q, hparent, Or.inl rfl⟩
          exact hfollows.licensed (hstrict hs).2 hchild hrule hplaced
        · exact .refl c

theorem seekParentWith_evolves
    (hconnect : connect.Stepwise strict)
    (hc : Sound strict c)
    (hstrict : strict → c.Seeks v level parentRule) :
    Evolves strict c (seekParentWith connect c v level parentRule) := by
  unfold seekParentWith
  split
  · rename_i s rule hchild hrule
    dsimp only
    have htry : Evolves strict c ((c.itemsOf parentRule.target).foldl
        (fun (acc : Bool × Chart) parent =>
          ((acc.1 || (tryParentWith connect acc.2 v parent s parentRule.relation).1),
            (tryParentWith connect acc.2 v parent s parentRule.relation).2)) (false, c)).2 := by
      refine evolves_foldl (fun acc : Bool × Chart => acc.2) _ _ (false, c) ?_
      intro acc parent _ hsteps
      refine tryParentWith_evolves hconnect (hsteps.sound hc) (hsteps.grows.symbol hchild) ?_
      intro hs
      have hseeks := (hstrict hs).extend hsteps.grows
      exact ⟨hseeks.follows.kind, hseeks.follows.present⟩
    generalize (c.itemsOf parentRule.target).foldl _ (false, c) = result at htry ⊢
    obtain ⟨taken, c₁⟩ := result
    cases taken with
    | true => exact htry
    | false =>
      refine htry.trans (predictWith_evolves hconnect (htry.sound hc) fun hs => ?_)
      have hseeks := (hstrict hs).extend htry.grows
      obtain ⟨d, hd, hlevel⟩ := hseeks.follows.level
      refine ⟨hseeks.follows.kind, hseeks.follows.present, d, level, parentRule, hd, hlevel,
        hseeks.mem, rfl, ?_⟩
      rw [htry.grows.grammar]
      exact hrule
  · exact .refl c

theorem seekParentsWith_evolves
    (hconnect : connect.Stepwise strict)
    (hc : Sound strict c)
    (hstrict : strict → ∀ level ∈ c.grammar.ancestry s, c.Follows u level) :
    Evolves strict c (seekParentsWith connect c u s) := by
  refine evolves_foldl (fun c => c) _ _ c ?_
  intro c₁ level hlevel hsteps
  refine evolves_foldl (fun c => c) _ _ c₁ ?_
  intro c₂ parentRule hmem hmore
  have hall := hsteps.trans hmore
  refine seekParentWith_evolves hconnect (hall.sound hc) fun hs => ?_
  refine ⟨(hstrict hs level (List.mem_reverse.1 hlevel)).extend hall.grows, ?_⟩
  rw [parentRules, hmore.grows.grammar]
  exact hmem

end Seeking

theorem connectBody_evolves
    {s : Symbol}
    (hconnect : connect.Stepwise strict)
    (hc : Sound strict c)
    (hs : c.connectable? u = some s) :
    Evolves strict c (connectBody connect c u s) := by
  unfold connectBody
  split
  · rename_i hkind
    exact chain_evolves hc hkind u
  · rename_i hkind
    have hfollows : ∀ level ∈ c.grammar.ancestry s.id, c.Follows u level := by
      intro level hlevel
      unfold connectable? at hs
      split at hs
      · rename_i hpresent
        have hfound := (Option.mem_filter_iff.1 hs).1
        obtain ⟨q, hq, hentry⟩ := Option.bind_eq_some_iff.1 hfound
        have hsymbol : (c.item u).symbol = some q := (Option.mem_filter_iff.1 hq).1
        exact ⟨hkind, hpresent, q, hsymbol, Or.inr ⟨s, hentry, hlevel⟩⟩
      · cases hs
    have hfulfil : Evolves strict c
        (if s.hasRules then fulfilWith connect c u s.id else c) := by
      split
      · exact fulfilWith_evolves hconnect hc fun _ => hfollows
      · exact .refl c
    refine hfulfil.trans (seekParentsWith_evolves hconnect (hfulfil.sound hc) ?_)
    intro _ level hlevel
    rw [hfulfil.grows.grammar] at hlevel
    exact (hfollows level hlevel).extend hfulfil.grows

/-- Nested connections are connections with less room. -/
theorem connectWithin_evolves (room : Nat) :
    Connector.Stepwise strict (connectWithin room) := by
  induction room with
  | zero =>
    intro c u hc
    unfold connectWithin
    split
    · exact .refl c
    · split <;> exact evolves_count c _ rfl rfl rfl (Nat.le_refl _)
  | succ room ih =>
    intro c u hc
    unfold connectWithin
    split
    · exact .refl c
    · rename_i s hs
      split
      · exact evolves_count c _ rfl rfl rfl (Nat.le_refl _)
      · have henter : Evolves strict c c.enter := .single (.note _ _ rfl rfl rfl (Nat.le_refl _))
        have hbody : Evolves strict c.enter (connectBody (connectWithin room) c.enter u s) :=
          connectBody_evolves ih (henter.sound hc) hs
        exact (henter.trans hbody).trans (.single (.note _ _ rfl rfl rfl (Nat.le_refl _)))

theorem connect_evolves :
    Connector.Stepwise strict Chart.connect :=
  fun c u hc => connectWithin_evolves c.settings.maxDepth c u hc

end Chart

end BeamChart
