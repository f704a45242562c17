import BeamChart.Proofs.Chart.Raising

/-!
# Connecting new items

A new item that no old pool holds is connected without making an old pool worse
(`passes_connect`). It is offered to the parents of one bucket after the other,
and each of them stands in one bucket only (`Chart.Sought`), so none is offered it
twice. As in `passes_passOn`, the result is proved along the bound of the nesting.
-/

namespace BeamChart

namespace Chart

variable {n m : Nat} {given : ItemId → ItemId → Prop}
variable {c c' c'' : Chart} {u v a : ItemId} {x : CandidateId}

section Connecting

variable {connect : Connector} {s level : SymbolId}

/-- A fold passes if each of its rounds does. -/
theorem passes_foldl
    {σ α : Type}
    (chart : σ → Chart)
    (step : σ → α → σ)
    (entries : List α)
    (start : σ)
    (hc : Poised n m (chart start))
    (hstep : ∀ s, ∀ a ∈ entries, Passes n m given (chart start) (chart s) →
      Passes n m given (chart s) (chart (step s a))) :
    Passes n m given (chart start) (chart (entries.foldl step start)) :=
  List.foldlRecOn (motive := fun s => Passes n m given (chart start) (chart s)) entries step
    (passes_refl hc) fun s hs a ha => hs.then (hstep s a ha hs) hc

/-- What takes children is no inner level of a tower. -/
theorem Poised.top
    (hc : Poised n m c)
    {entry : Symbol}
    (hsymbol : (c.item u).symbol = some s)
    (hentry : c.grammar.symbol? s = some entry)
    (hrules : entry.rules ≠ []) :
    (c.item u).fixedParent = none :=
  Decidable.not_not.1 fun hfixed => hrules ((hc.floating u hfixed).2 s entry hsymbol hentry)

theorem passes_takeOver
    (hconnect : connect.Raising n m)
    (hc : Poised n m c)
    (hnew : n ≤ u.index)
    (hfree : (c.item u).fixedParent = none)
    (placeholder : ItemId)
    (hfollows : c.Follows u s) :
    Passes n m given c (takeOverWith connect c u placeholder s) := by
  unfold takeOverWith
  split
  · exact passes_refl hc
  · rename_i x hhead
    have hx : c.Has x := hc.sound.closed.has_of_mem (List.mem_of_mem_head? hhead)
    refine passes_foldl (fun c => c) _ _ c hc ?_
    intro c₁ e he hpassed
    have hc₁ : Poised n m c₁ := hpassed.poised hc
    have hslot : (c.candidate x).slot e.1 = some e.2 := (Slots.mem_filled _ e.1 e.2).1 he
    have hroot : (c₁.candidate e.2.child).root = (c.candidate e.2.child).root :=
      hpassed.steps.grows.root (hc.sound.closed.has_child hx hslot)
    dsimp only
    split
    · exact passes_refl hc₁
    · split
      · exact passes_refl hc₁
      · rename_i d hchild
        split
        · exact passes_refl hc₁
        · rename_i rule hrule
          split
          · rename_i hplaced
            refine passes_offer hconnect hc₁ ?_ ((hpassed.steps.fixedParent u).trans hfree)
              fun hu => absurd hu (Nat.not_lt_of_le hnew)
            refine (hfollows.extend hpassed.steps.grows).licensed ?_ hchild hrule hplaced
            rw [hroot]
            exact hpassed.steps.grows.present _
              ((hc.sound.lawful trivial).child x e.1 e.2 hx hslot)
          · exact passes_refl hc₁

theorem passes_fulfil
    (hconnect : connect.Raising n m)
    (hc : Poised n m c)
    (hnew : n ≤ u.index)
    (hfree : (c.item u).fixedParent = none)
    (hfollows : ∀ level ∈ c.grammar.ancestry s, c.Follows u level) :
    Passes n m given c (fulfilWith connect c u s) := by
  refine passes_foldl (fun c => c) _ _ c hc ?_
  intro c₁ level hlevel hfirst
  have hc₁ : Poised n m c₁ := hfirst.poised hc
  refine passes_foldl (fun c => c) _ _ c₁ hc₁ ?_
  intro c₂ p _ hmore
  have hc₂ : Poised n m c₂ := hmore.poised hc₁
  split
  · refine passes_takeOver hconnect hc₂ hnew ?_ p
      ((hfollows level hlevel).extend (hfirst.steps.trans hmore.steps).grows)
    exact ((hfirst.steps.trans hmore.steps).fixedParent u).trans hfree
  · exact passes_refl hc₂

/-- An item that no candidate could hold yet is held by no old pool. -/
theorem not_carries_of_new
    (h : Raises n m Nothing c c')
    (hwaiting : ¬ Waiting m c u)
    (hlt : u.index < c.items.size)
    (hfree : ∀ w : ItemId, w.index < n → ¬ c.Carries w u) :
    ∀ w : ItemId, w.index < n → ¬ c'.Carries w u := by
  intro w hw hcarries
  rcases h.carries w u hw hcarries with hold | ⟨hgiven | hnew | hwaits, -⟩
  · exact hfree w hw hold
  · exact hgiven
  · exact Nat.not_lt_of_le hnew hlt
  · exact hwaiting hwaits

theorem passes_implied
    (hc : Poised n m c)
    (hnew : n ≤ u.index)
    (hroom : c.candidatesFull = false)
    (hitem : u.index < c.items.size)
    (hfresh : (c.item u).Fresh)
    (htoken : (c.item u).token = none)
    (hbare : ∀ x, c.Has x → (c.candidate x).root ≠ u) :
    Passes n m given c (c.implied u) := by
  have hcandidate : ∀ x, (c.implied u).candidate x =
      (c.pushCandidate (Candidate.seed u)).candidate x := fun _ => rfl
  refine passes_of_pools hc (implied_spec True hroom hitem hfresh htoken hbare).1
    (fun w => ?_) fun x a ha => ?_
  · rw [implied, item_modifyItem]
    split
    · rename_i hw
      obtain ⟨rfl, -⟩ := hw
      refine Or.inr ⟨hnew, fun x hx => ?_⟩
      rcases List.mem_append.1 hx with hold | hlast
      · exact Or.inl hold
      · rw [List.mem_singleton.1 hlast, candidate_modifyItem, candidate_nextCandidate]
        exact Or.inr (Or.inl rfl)
    · exact Or.inl rfl
  · rw [hcandidate, candidate_pushCandidate] at ha
    split at ha
    · cases ha
    · exact Or.inl ha

/-- A parent that counts as present is given to nothing but by connecting it. -/
theorem passes_imply
    {rule : Rule SymbolId}
    (hconnect : connect.Raising n m)
    (hc : Poised n m c)
    (hnew : n ≤ u.index)
    (hitem : u.index < c.items.size)
    (hfresh : (c.item u).Fresh)
    (hsymbol : (c.item u).symbol = some s)
    (htoken : (c.item u).token = none)
    (hbare : ∀ x, c.Has x → (c.candidate x).root ≠ u)
    (hfree : ∀ w : ItemId, w.index < n → ¬ c.Carries w u)
    (hpredicts : c.Predicts v s rule)
    (himplied : rule.implied = true) :
    Passes n m (fun _ z => z = u) c (implyWith connect c u v rule) := by
  have hwaiting : ¬ Waiting m c u := by
    rintro ⟨x, -, -, hwrapper⟩
    have hpresent := hc.marked.present x u hwrapper
    rw [hfresh.2.1] at hpresent
    cases hpresent
  unfold implyWith
  rcases store_cases c (Candidate.seed u) with ⟨hroom, heq⟩ | heq
  · rw [heq]
    dsimp only
    rw [← implied]
    obtain ⟨hsteps, hpresent⟩ := implied_spec True hroom hitem hfresh htoken hbare
    have hready : Passes n m Nothing c (c.implied u) :=
      passes_implied hc hnew hroom hitem hfresh htoken hbare
    have hc₁ : Poised n m (c.implied u) := hready.poised hc
    have hoffer : Passes n m Nothing (c.implied u)
        (offerWith connect (c.implied u) u v rule).2 := by
      refine passes_offer hconnect hc₁ ?_ ?_ fun hu => absurd hu (Nat.not_lt_of_le hnew)
      · exact (hpredicts.extend hsteps.grows).licensed hpresent (hsteps.grows.symbol hsymbol)
          himplied
      · exact (hsteps.fixedParent u).trans hfresh.2.2.2.2
    have hall : Passes n m Nothing c (offerWith connect (c.implied u) u v rule).2 :=
      hready.then hoffer hc
    have hconnected := hconnect (offerWith connect (c.implied u) u v rule).2 u (hall.poised hc)
      hnew (Nat.lt_of_lt_of_le hitem hall.steps.grows.items_le)
      (fun h => (hall.waiting h).elim hwaiting (Nat.not_le_of_lt hitem))
      (not_carries_of_new hall.toRaises hwaiting hitem hfree)
    have hdone := (hall.weaken fun _ _ h => h.elim).then hconnected hc
    exact hdone.then (passes_register (hdone.poised hc) u) hc
  · rw [heq]
    exact passes_refused hc

theorem passes_predict
    {rule : Rule SymbolId}
    (hconnect : connect.Raising n m)
    (hc : Poised n m c)
    (hpredicts : c.Predicts v s rule) :
    Passes n m Nothing c (predictWith connect c v s rule) := by
  rcases allocateItem_cases c with ⟨hroom, heq⟩ | heq
  · rw [predictWith_eq connect heq]
    obtain ⟨hsteps, hlt, hfresh, hsymbol, htoken, hbare⟩ :=
      predicted_spec True hc.sound hroom v s
    have hadds : Adds c (c.predicted v s) := adds_predicted c v s
    split
    · rename_i himplied
      have hready : Passes n m Nothing c (c.predicted v s) := hadds.passes hc hsteps
      refine hready.trans (passes_imply hconnect (hready.poised hc) hc.items_le hlt hfresh hsymbol
        htoken hbare (fun w hw hcarries => ?_) (hpredicts.extend hsteps.grows) himplied) hc
        fun _ z hz => Or.inr (Or.inl (hz ▸ Nat.le_refl _))
      have hold := hcarries.of_pool_eq hc.sound.closed hsteps.grows
        (hadds.pool w (Nat.lt_of_lt_of_le hw hc.items_le))
      exact Nat.lt_irrefl _ (hold.lt hc.sound.closed)
    · -- Without connecting anything, predicting only adds.
      rename_i himplied
      have hevolves := predictWith_evolves connect_evolves hc.sound
        fun _ => hpredicts
      rw [predictWith_eq Chart.connect heq, if_neg himplied] at hevolves
      refine Adds.passes ?_ hc hevolves
      obtain ⟨hlift, hmembers⟩ := adds_liftPool (c.predicted v s) c.nextItem rule.relation
        (((c.predicted v s).item v).pool.take (c.predicted v s).settings.beamWidth)
      generalize liftPool c.nextItem rule.relation (c.predicted v s) _ = result at hlift hmembers ⊢
      obtain ⟨pool, c₁⟩ := result
      refine ((hadds.trans hlift).modifyItem (Nat.le_refl _) fun x hx => ?_).trans (.register _ _)
      exact ⟨(hmembers x hx).1, Or.inl (hmembers x hx).2⟩
  · unfold predictWith
    rw [heq]
    exact passes_refused hc

end Connecting

section Seeking

variable {connect : Connector} {s level : SymbolId} {parentRule : Rule SymbolId} {r : Relation}
  {done : List SymbolId}

/-- The item is of a symbol of the bucket. -/
def InBucket (c : Chart) (u : ItemId) (b : SymbolId) : Prop :=
  ∃ s, c.recognized? u = some s ∧ c.grammar.bucketOf s = b

theorem InBucket.extend
    {b : SymbolId}
    (h : c.InBucket u b)
    (hext : Extends c c') :
    c'.InBucket u b := by
  obtain ⟨s, hs, hbucket⟩ := h
  rw [InBucket, hext.grammar]
  exact ⟨s, hext.recognized hs, hbucket⟩

theorem InBucket.unique
    {a b : SymbolId}
    (h : c.InBucket u a)
    (k : c.InBucket u b) :
    a = b := by
  obtain ⟨s, hs, rfl⟩ := h
  obtain ⟨q, hq, rfl⟩ := k
  rw [hs] at hq
  cases hq
  rfl

/-- The old pools that hold the item are of the buckets in which it has sought parents. -/
structure Sought
    (n m : Nat)
    (c : Chart)
    (v : ItemId)
    (done : List SymbolId) : Prop where
  idle : ¬ Waiting m c v
  carries : ∀ w : ItemId, w.index < n → c.Carries w v → ∃ b ∈ done, c.InBucket w b

/-- What has been given in one bucket. -/
theorem Sought.raise
    {parents : List ItemId}
    {b : SymbolId}
    (hs : Sought n m c v done)
    (h : Raises n m (fun w z => w ∈ parents ∧ z = v) c c')
    (hlt : v.index < c.items.size)
    (hparents : ∀ w ∈ parents, c.InBucket w b) :
    Sought n m c' v (done ++ [b]) where
  idle hwaiting := (h.waiting hwaiting).elim hs.idle (Nat.not_le_of_lt hlt)
  carries w hw hcarries := by
    rcases h.carries w v hw hcarries with hold | ⟨hgiven | hnew | hwaiting, -⟩
    · obtain ⟨a, ha, hbucket⟩ := hs.carries w hw hold
      exact ⟨a, List.mem_append_left _ ha, hbucket.extend h.steps.grows⟩
    · exact ⟨b, by simp, (hparents w hgiven.1).extend h.steps.grows⟩
    · exact absurd hlt (Nat.not_lt_of_le hnew)
    · exact absurd hwaiting hs.idle

theorem passes_try
    (hconnect : connect.Raising n m)
    (hc : Poised n m c)
    (hkind : c.grammar.kind ≠ .positional)
    (hpresent : (c.item v).present = true)
    (hchild : (c.item v).symbol = some s)
    (hidle : ¬ Waiting m c v)
    (hfree : u.index < n → ¬ c.Carries u v) :
    Passes n m (fun w z => w = u ∧ z = v) c (tryParentWith connect c v u s r).2 := by
  unfold tryParentWith
  dsimp only
  split
  · exact passes_refl hc
  · rename_i hseen
    split
    · exact passes_refl hc
    · rename_i q hparent
      split
      · exact passes_refl hc
      · rename_i rule hrule
        split
        · rename_i hplaced
          have hseen' : (c.item u).present = true := by
            simp only [Bool.or_eq_true, decide_eq_true_eq, Bool.not_eq_true', not_or,
              Bool.not_eq_false] at hseen
            exact hseen.2
          have hfollows : c.Follows u q := ⟨hkind, hseen', q, hparent, Or.inl rfl⟩
          obtain ⟨entry, hentry, hmem, -⟩ := Grammar.mem_of_ruleFor? hrule
          refine passes_offer hconnect hc (hfollows.licensed hpresent hchild hrule hplaced)
            (hc.top hparent hentry ?_) fun hu => ⟨⟨rfl, rfl⟩, hfree hu, hidle⟩
          exact List.ne_nil_of_mem ((Definition.mem_rulesAt _ _ _).1 hmem).1
        · exact passes_refl hc

/-- A child is offered to items one by one, and each of them is given it at most once. -/
theorem passes_tryAll
    (hconnect : connect.Raising n m)
    (parents : List ItemId)
    (taken : Bool)
    (hc : Poised n m c)
    (hkind : c.grammar.kind ≠ .positional)
    (hpresent : (c.item v).present = true)
    (hchild : (c.item v).symbol = some s)
    (hidle : ¬ Waiting m c v)
    (hnodup : parents.Nodup)
    (hfree : ∀ u ∈ parents, u.index < n → ¬ c.Carries u v) :
    Passes n m (fun w z => w ∈ parents ∧ z = v) c
      (parents.foldl (fun (acc : Bool × Chart) parent =>
        ((acc.1 || (tryParentWith connect acc.2 v parent s r).1),
          (tryParentWith connect acc.2 v parent s r).2)) (taken, c)).2 := by
  induction parents generalizing taken c with
  | nil => exact passes_refl hc
  | cons u rest ih =>
    have hlt : v.index < c.items.size := lt_size_of_present hpresent
    obtain ⟨hu, hrest⟩ := List.nodup_cons.1 hnodup
    have hfirst : Passes n m (fun w z => w = u ∧ z = v) c (tryParentWith connect c v u s r).2 :=
      passes_try hconnect hc hkind hpresent hchild hidle (hfree u List.mem_cons_self)
    have hgrows := hfirst.steps.grows
    have htail := ih (c := (tryParentWith connect c v u s r).2)
      (taken || (tryParentWith connect c v u s r).1) (hfirst.poised hc)
      (by rw [hgrows.grammar]; exact hkind) (hgrows.present v hpresent) (hgrows.symbol hchild)
      (fun h => (hfirst.waiting h).elim hidle (Nat.not_le_of_lt hlt)) hrest fun w hw hold => by
        intro hcarries
        rcases hfirst.carries w v hold hcarries with hearlier | ⟨hgiven | hnew | hwaiting, -⟩
        · exact hfree w (List.mem_cons_of_mem u hw) hold hearlier
        · exact hu (hgiven.1 ▸ hw)
        · exact Nat.not_lt_of_le hnew hlt
        · exact hidle hwaiting
    refine (hfirst.weaken ?_).then (htail.weaken ?_) hc
    · rintro w z ⟨rfl, rfl⟩
      exact ⟨List.mem_cons_self, rfl⟩
    · rintro w z ⟨hw, rfl⟩
      exact ⟨List.mem_cons_of_mem u hw, rfl⟩

theorem passes_seekParent
    (hconnect : connect.Raising n m)
    (hc : Poised n m c)
    (hseeks : c.Seeks v level parentRule)
    (hsought : Sought n m c v done)
    (hbucket : c.grammar.bucketOf parentRule.target ∉ done) :
    Passes n m (fun _ z => z = v) c (seekParentWith connect c v level parentRule) ∧
      Sought n m (seekParentWith connect c v level parentRule) v
        (done ++ [c.grammar.bucketOf parentRule.target]) := by
  have hin : ∀ w ∈ c.itemsOf parentRule.target,
      c.InBucket w (c.grammar.bucketOf parentRule.target) := fun w hw => hc.posted.mem_itemsOf hw
  have hall : Passes n m (fun w z => w ∈ c.itemsOf parentRule.target ∧ z = v) c
      (seekParentWith connect c v level parentRule) := by
    unfold seekParentWith
    split
    · rename_i s rule hchild hrule
      dsimp only
      have htry := passes_tryAll (r := parentRule.relation) hconnect
        (c.itemsOf parentRule.target) false hc hseeks.follows.kind hseeks.follows.present hchild
        hsought.idle (hc.posted.nodup _) fun u hu hold hcarries => by
          obtain ⟨b, hb, hother⟩ := hsought.carries u hold hcarries
          exact hbucket ((hin u hu).unique hother ▸ hb)
      generalize (c.itemsOf parentRule.target).foldl _ (false, c) = result at htry ⊢
      obtain ⟨taken, c₁⟩ := result
      cases taken with
      | true => exact htry
      | false =>
        refine htry.then ((passes_predict hconnect (htry.poised hc) ?_).weaken
          fun _ _ h => h.elim) hc
        have hgrows := htry.steps.grows
        have hlater := hseeks.extend hgrows
        obtain ⟨d, hd, hlevel⟩ := hlater.follows.level
        refine ⟨hlater.follows.kind, hlater.follows.present, d, level, parentRule, hd, hlevel,
          hlater.mem, rfl, ?_⟩
        rw [hgrows.grammar]
        exact hrule
    · exact passes_refl hc
  exact ⟨hall.weaken fun _ _ h => h.2,
    hsought.raise hall.toRaises (lt_size_of_present hseeks.follows.present) hin⟩

theorem passes_seekRules
    (hconnect : connect.Raising n m)
    (rules : List (Rule SymbolId))
    (hc : Poised n m c)
    (hseeks : ∀ rule ∈ rules, c.Seeks v level rule)
    (hsought : Sought n m c v done)
    (hnodup : (done ++ rules.map fun rule => c.grammar.bucketOf rule.target).Nodup) :
    Passes n m (fun _ z => z = v) c
        (rules.foldl (fun c rule => seekParentWith connect c v level rule) c) ∧
      Sought n m (rules.foldl (fun c rule => seekParentWith connect c v level rule) c) v
        (done ++ rules.map fun rule => c.grammar.bucketOf rule.target) := by
  induction rules generalizing c done with
  | nil => exact ⟨passes_refl hc, by simpa using hsought⟩
  | cons rule rest ih =>
    rw [List.map_cons, List.append_cons] at hnodup ⊢
    have hbucket : c.grammar.bucketOf rule.target ∉ done := by
      have hfirst := (List.nodup_append.1 hnodup).1
      exact fun hmem => (List.nodup_append.1 hfirst).2.2 _ hmem _ (by simp) rfl
    obtain ⟨hfirst, hsought₁⟩ := passes_seekParent hconnect hc (hseeks rule List.mem_cons_self)
      hsought hbucket
    have hgrows := hfirst.steps.grows
    have hrest := ih (c := seekParentWith connect c v level rule) (hfirst.poised hc)
      (fun other hmem => (hseeks other (List.mem_cons_of_mem rule hmem)).extend hgrows) hsought₁
      (by rw [hgrows.grammar]; exact hnodup)
    rw [hgrows.grammar] at hrest
    exact ⟨hfirst.then hrest.1 hc, hrest.2⟩

theorem passes_seekLevels
    (hconnect : connect.Raising n m)
    (levels : List SymbolId)
    (hc : Poised n m c)
    (hfollows : ∀ level ∈ levels, c.Follows v level)
    (hsought : Sought n m c v done)
    (hnodup : (done ++ c.grammar.bucketsSought levels).Nodup) :
    Passes n m (fun _ z => z = v) c
      (levels.foldl (fun c level =>
        (c.parentRules level).foldl (fun c rule => seekParentWith connect c v level rule) c)
        c) := by
  induction levels generalizing c done with
  | nil => exact passes_refl hc
  | cons level rest ih =>
    have hbuckets : c.grammar.bucketsSought (level :: rest) =
        ((c.parentRules level).map fun rule => c.grammar.bucketOf rule.target) ++
          c.grammar.bucketsSought rest := rfl
    rw [hbuckets, ← List.append_assoc] at hnodup
    obtain ⟨hfirst, hsought₁⟩ := passes_seekRules hconnect (c.parentRules level) hc
      (fun rule hrule => ⟨hfollows level List.mem_cons_self, hrule⟩) hsought
      (List.nodup_append.1 hnodup).1
    have hgrows := hfirst.steps.grows
    refine hfirst.then (ih (hfirst.poised hc)
      (fun other hmem => (hfollows other (List.mem_cons_of_mem level hmem)).extend hgrows)
      hsought₁ ?_) hc
    rw [hgrows.grammar]
    exact hnodup

end Seeking

section Nesting

variable {connect : Connector}

/-- Chaining changes only the new item. -/
theorem passes_chain
    (hc : Poised n m c)
    (hkind : c.grammar.kind = .positional)
    (hnew : n ≤ u.index) :
    Passes n m given c (c.chain u) := by
  have hsteps := chain_evolves hc.sound hkind u
  cases chaining c u with
  | idle heq =>
    rw [heq]
    exact passes_refl hc
  | refused _ _ _ heq =>
    rw [heq] at hsteps ⊢
    exact (adds_tryAttach rfl).passes hc hsteps
  | @chained v former own more rest c₁ _ _ hown htry heq =>
    have hadds : Adds c (c.tryAttach own former .next (·.attach .next ⟨former, 0⟩ ·)).2 :=
      adds_tryAttach rfl
    have hitems := items_tryAttach c own former .next (·.attach .next ⟨former, 0⟩ ·)
    have hmade := (tryAttach_attached (congrArg Prod.fst htry)).2.2
    rw [htry] at hadds hitems hmade
    rw [heq] at hsteps ⊢
    refine passes_of_pools hc hsteps (fun w => ?_) hadds.wrapper_cases
    by_cases hw : w = u
    · subst hw
      refine Or.inr ⟨hnew, fun x hx => ?_⟩
      have hmember : x = c.nextCandidate ∨ x ∈ rest := by
        refine pools_setPool (P := fun w' x => w' = w → x = c.nextCandidate ∨ x ∈ rest)
          (fun x hx _ => List.mem_cons.1 hx) (fun w' hne _ _ heq => absurd heq hne) w x hx rfl
      rcases hmember with rfl | hmem
      · exact Or.inr (Or.inl (congrArg Candidate.wrapper hmade))
      · rw [hown]
        exact Or.inl (List.mem_cons_of_mem own hmem)
    · rw [setPool, item_modifyItem_of_ne _ (Ne.symm hw), item_of_items_eq hitems]
      exact Or.inl rfl

theorem passes_connectBody
    {s : Symbol}
    (hconnect : connect.Raising n m)
    (hc : Poised n m c)
    (hnew : n ≤ u.index)
    (hidle : ¬ Waiting m c u)
    (hfree : ∀ w : ItemId, w.index < n → ¬ c.Carries w u)
    (hs : c.connectable? u = some s) :
    Passes n m (fun _ z => z = u) c (connectBody connect c u s) := by
  unfold connectBody
  split
  · rename_i hkind
    exact passes_chain hc hkind hnew
  · rename_i hkind
    unfold connectable? at hs
    split at hs
    · rename_i hpresent
      obtain ⟨q, hq, hentry⟩ := Option.bind_eq_some_iff.1 (Option.mem_filter_iff.1 hs).1
      have hsymbol : (c.item u).symbol = some q := (Option.mem_filter_iff.1 hq).1
      have hlt : u.index < c.items.size := lt_size_of_present hpresent
      have hfollows : ∀ level ∈ c.grammar.ancestry s.id, c.Follows u level :=
        fun level hlevel => ⟨hkind, hpresent, q, hsymbol, Or.inr ⟨s, hentry, hlevel⟩⟩
      have hfulfil : Passes n m Nothing c
          (if s.hasRules then fulfilWith connect c u s.id else c) := by
        split
        · rename_i hrules
          refine passes_fulfil hconnect hc hnew (hc.top hsymbol hentry ?_) hfollows
          intro hnone
          rw [Definition.hasRules, hnone] at hrules
          cases hrules
        · exact passes_refl hc
      refine (hfulfil.weaken fun _ _ h => h.elim).then ?_ hc
      generalize (if s.hasRules then fulfilWith connect c u s.id else c) = c₁ at hfulfil ⊢
      have hgrows := hfulfil.steps.grows
      have hseek : ∀ level ∈ (c₁.grammar.ancestry s.id).reverse, c₁.Follows u level := by
        intro level hlevel
        rw [hgrows.grammar] at hlevel
        exact (hfollows level (List.mem_reverse.1 hlevel)).extend hgrows
      have hsought : Sought n m c₁ u [] :=
        ⟨fun h => (hfulfil.waiting h).elim hidle (Nat.not_le_of_lt hlt), fun w hw hcarries =>
          absurd hcarries (not_carries_of_new hfulfil.toRaises hidle hlt hfree w hw)⟩
      refine passes_seekLevels hconnect _ (hfulfil.poised hc) hseek hsought ?_
      rw [hgrows.grammar]
      exact hc.orderly.buckets s (Grammar.mem_symbols hentry)
    · cases hs

/-- Nested connections give what connections with less room give. -/
theorem passes_connectWithin (room : Nat) :
    Connector.Raising n m (connectWithin room) := by
  have hcutOff : ∀ (c : Chart) (u : ItemId), Poised n m c →
      Passes n m (fun _ z => z = u) c c.cutOff := fun c u hc =>
    (Adds.count c _).passes hc (evolves_count c _ rfl rfl rfl (Nat.le_refl _))
  induction room with
  | zero =>
    intro c u hc _ _ _ _
    unfold connectWithin
    split
    · exact passes_refl hc
    · split <;> exact hcutOff c u hc
  | succ room ih =>
    intro c u hc hnew hlt hidle hfree
    unfold connectWithin
    split
    · exact passes_refl hc
    · rename_i s hs
      split
      · exact hcutOff c u hc
      · have hadds : Adds c c.enter := .of_arenas rfl rfl
        have henter : Passes n m (fun _ z => z = u) c c.enter :=
          hadds.passes hc (.single (.note _ _ rfl rfl rfl (Nat.le_refl _)))
        have hc₁ : Poised n m c.enter := henter.poised hc
        have hbody := passes_connectBody ih hc₁ hnew hidle hfree hs
        have hall := henter.then hbody hc
        have hleave : Adds (connectBody (connectWithin room) c.enter u s)
            (connectBody (connectWithin room) c.enter u s).leave := .of_arenas rfl rfl
        refine hall.then (hleave.passes (hall.poised hc) ?_) hc
        exact .single (.note _ _ rfl rfl rfl (Nat.le_refl _))

theorem passes_connect :
    Connector.Raising n m Chart.connect :=
  fun c u hc hnew hlt hidle hfree =>
    passes_connectWithin c.settings.maxDepth c u hc hnew hlt hidle hfree

end Nesting

end Chart

end BeamChart
