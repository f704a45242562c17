import BeamChart.Proofs.Chart.Wrapping

/-!
# Operations that only add

Most of what an operation does is to append. `Chart.Adds` says that the pools of
the items that were there, and the candidates that were there, are as they were;
that marks are given to new candidates only, for new aggregates; and that in the
pools of new items there is nothing that its aggregate would have to be connected
for. Attaching, detaching, lifting and predicting add to a chart.
-/

namespace BeamChart

namespace Chart

variable {c c' c'' : Chart} {u v : ItemId} {x : CandidateId}

structure Adds (c c' : Chart) : Prop where
  items_le : c.items.size ≤ c'.items.size
  candidates_le : c.candidates.size ≤ c'.candidates.size
  pool : ∀ u, u.index < c.items.size → (c'.item u).pool = (c.item u).pool
  candidate : ∀ x, c.Has x → c'.candidate x = c.candidate x
  wrapper : ∀ x a, ¬ c.Has x → (c'.candidate x).wrapper = some a → c.items.size ≤ a.index
  calm : ∀ u, c.items.size ≤ u.index → ∀ x ∈ (c'.item u).pool,
    c'.Has x ∧ ((c'.candidate x).wrapper = none ∨ (c'.candidate x).pending = false)

namespace Adds

theorem has
    (h : Adds c c')
    (hx : c.Has x) :
    c'.Has x :=
  Nat.lt_of_lt_of_le hx h.candidates_le

theorem refl (c : Chart) :
    Adds c c where
  items_le := Nat.le_refl _
  candidates_le := Nat.le_refl _
  pool _ _ := rfl
  candidate _ _ := rfl
  wrapper x a hx h := by
    rw [candidate_of_size_le (Nat.le_of_not_lt hx)] at h
    cases h
  calm u hu x hx := by
    rw [item_of_size_le hu] at hx
    cases hx

theorem trans
    (h : Adds c c')
    (k : Adds c' c'') :
    Adds c c'' where
  items_le := Nat.le_trans h.items_le k.items_le
  candidates_le := Nat.le_trans h.candidates_le k.candidates_le
  pool u hu := (k.pool u (Nat.lt_of_lt_of_le hu h.items_le)).trans (h.pool u hu)
  candidate x hx := (k.candidate x (h.has hx)).trans (h.candidate x hx)
  wrapper x a hx ha := by
    by_cases hnew : c'.Has x
    · rw [k.candidate x hnew] at ha
      exact h.wrapper x a hx ha
    · exact Nat.le_trans h.items_le (k.wrapper x a hnew ha)
  calm u hu x hx := by
    by_cases hnew : u.index < c'.items.size
    · rw [k.pool u hnew] at hx
      obtain ⟨hhas, hcalm⟩ := h.calm u hu x hx
      rw [k.candidate x hhas]
      exact ⟨k.has hhas, hcalm⟩
    · exact k.calm u (Nat.le_of_not_lt hnew) x hx

/-- What is not told by the arenas may change. -/
theorem of_arenas
    (hitems : c'.items = c.items)
    (hcandidates : c'.candidates = c.candidates) :
    Adds c c' := by
  have hitem : ∀ u, c'.item u = c.item u := item_of_items_eq hitems
  have hcandidate : ∀ x, c'.candidate x = c.candidate x := fun x => by
    rw [Chart.candidate, Chart.candidate, hcandidates]
  refine ⟨Nat.le_of_eq (congrArg Array.size hitems).symm,
    Nat.le_of_eq (congrArg Array.size hcandidates).symm, fun u _ => by rw [hitem],
    fun x _ => hcandidate x, fun x a hx h => ?_, fun u hu x hx => ?_⟩
  · rw [hcandidate] at h
    exact (refl c).wrapper x a hx h
  · rw [hitem, item_of_size_le hu] at hx
    cases hx

theorem count (c : Chart) (f : Tally → Tally) :
    Adds c (c.count f) :=
  of_arenas rfl rfl

theorem pushCandidate
    (c : Chart)
    {y : Candidate}
    (hwrapper : y.wrapper = none) :
    Adds c (c.pushCandidate y) where
  items_le := Nat.le_refl _
  candidates_le := by simp
  pool _ _ := rfl
  candidate x hx := by rw [candidate_pushCandidate, if_neg (ne_nextCandidate hx)]
  wrapper x a hx h := by
    rw [candidate_pushCandidate] at h
    split at h
    · rw [hwrapper] at h
      cases h
    · exact (refl c).wrapper x a hx h
  calm u hu x hx := by
    rw [item_pushCandidate, item_of_size_le hu] at hx
    cases hx

theorem pushItem
    (c : Chart)
    {i : Item}
    (hpool : i.pool = []) :
    Adds c (c.pushItem i) where
  items_le := by simp [Chart.pushItem]
  candidates_le := Nat.le_refl _
  pool u hu := by rw [item_pushItem_of_lt i hu]
  candidate _ _ := rfl
  wrapper x a hx h := (refl c).wrapper x a hx h
  calm u hu x hx := by
    rw [item_pushItem] at hx
    split at hx
    · rw [hpool] at hx
      cases hx
    · rw [item_of_size_le hu] at hx
      cases hx

/-- An item that has been added may change further, if its pool stays calm. -/
theorem modifyItem
    (h : Adds c c')
    (hu : c.items.size ≤ u.index)
    {f : Item → Item}
    (hcalm : ∀ x ∈ (f (c'.item u)).pool,
      c'.Has x ∧ ((c'.candidate x).wrapper = none ∨ (c'.candidate x).pending = false)) :
    Adds c (c'.modifyItem u f) where
  items_le := by
    rw [size_items_modifyItem]
    exact h.items_le
  candidates_le := h.candidates_le
  pool v hv := by
    rw [item_modifyItem_of_ne f (by rintro rfl; exact Nat.not_lt_of_le hu hv)]
    exact h.pool v hv
  candidate := h.candidate
  wrapper := h.wrapper
  calm v hv x hx := by
    rw [item_modifyItem] at hx
    split at hx
    · exact hcalm x hx
    · exact h.calm v hv x hx

/-- A candidate that has been added is marked for an item that has been added. -/
theorem mark
    (h : Adds c c')
    {a : ItemId}
    (hnew : ¬ c.Has x)
    (ha : c.items.size ≤ a.index)
    (hfree : ∀ u, c.items.size ≤ u.index → x ∉ (c'.item u).pool) :
    Adds c (c'.modifyCandidate x fun y => { y with wrapper := some a }) where
  items_le := h.items_le
  candidates_le := by
    rw [size_candidates_modifyCandidate]
    exact h.candidates_le
  pool := h.pool
  candidate y hy := by
    rw [candidate_modifyCandidate_of_ne _ (by rintro rfl; exact hnew hy)]
    exact h.candidate y hy
  wrapper y b hy hb := by
    rw [candidate_modifyCandidate] at hb
    split at hb
    · cases hb
      exact ha
    · exact h.wrapper y b hy hb
  calm u hu y hy := by
    rw [item_modifyCandidate] at hy
    have hne : x ≠ y := by
      rintro rfl
      exact hfree u hu hy
    rw [candidate_modifyCandidate_of_ne _ hne]
    obtain ⟨hhas, hcalm⟩ := h.calm u hu y hy
    refine ⟨?_, hcalm⟩
    unfold Has
    rw [size_candidates_modifyCandidate]
    exact hhas

theorem register (c : Chart) (u : ItemId) :
    Adds c (c.register u) := by
  rcases register_cases c u with ⟨heq, -⟩ | ⟨b, p, d, m, f, t, -, heq⟩
  · rw [heq]
    exact refl c
  · rw [heq]
    have hpool : ∀ v, ((c.modifyItem u fun i => { i with registered := true }).item v).pool =
        (c.item v).pool := field_modifyItem Item.pool rfl
    refine ⟨?_, Nat.le_refl _, fun v _ => hpool v, fun _ _ => rfl, (refl c).wrapper,
      fun v hv x hx => ?_⟩
    · exact Nat.le_of_eq (size_items_modifyItem c u _).symm
    · have hx' : x ∈ (c.item v).pool := by
        rw [← hpool v]
        exact hx
      rw [item_of_size_le hv] at hx'
      cases hx'

end Adds

section Attaching

variable {p d : CandidateId} {r : Relation}

theorem adds_tryAttach
    {make : Candidate → Candidate → Candidate}
    (hwrapper : (make (c.candidate p) (c.candidate d)).wrapper = none) :
    Adds c (c.tryAttach p d r make).2 := by
  cases trial c p d r make with
  | slotTaken _ heq | conflict _ _ heq | exhausted _ _ _ heq =>
    rw [heq]
    exact .of_arenas rfl rfl
  | attached _ _ _ heq =>
    rw [heq]
    exact (Adds.pushCandidate c hwrapper).trans (.of_arenas rfl rfl)

/-- An aggregate is made for a new candidate, which is in no pool yet. -/
theorem adds_wrap
    (h : Adds c c')
    (hnew : ¬ c.Has x)
    (hx : c'.Has x)
    (hfree : ∀ u, c.items.size ≤ u.index → x ∉ (c'.item u).pool) :
    Adds c (c'.wrap x) := by
  have hpush : Adds c c'.pushAggregate :=
    (h.trans (Adds.pushItem c' rfl)).trans (.of_arenas rfl rfl)
  have hle : c.items.size ≤ c'.nextItem.index := h.items_le
  cases enclosure c' x with
  | refused _ heq =>
    rw [heq]
    exact h.trans (Adds.count _ _)
  | spanless _ _ heq =>
    rw [heq]
    exact hpush
  | exhausted _ _ _ heq =>
    rw [heq]
    exact hpush.trans (Adds.count _ _)
  | enclosed _ _ _ _ _ hstored =>
    rw [hstored hx]
    have hpushed := hpush.trans (Adds.pushCandidate c'.pushAggregate
      (y := (Candidate.seed c'.nextItem).attach .aggregate ⟨x, 0⟩ (c'.candidate x)) rfl)
    have hnext := candidate_nextCandidate c'.pushAggregate
      ((Candidate.seed c'.nextItem).attach .aggregate ⟨x, 0⟩ (c'.candidate x))
    have hhas := has_nextCandidate c'.pushAggregate
      ((Candidate.seed c'.nextItem).attach .aggregate ⟨x, 0⟩ (c'.candidate x))
    have hitem := item_pushCandidate c'.pushAggregate
      ((Candidate.seed c'.nextItem).attach .aggregate ⟨x, 0⟩ (c'.candidate x))
    generalize c'.pushAggregate.pushCandidate
      ((Candidate.seed c'.nextItem).attach .aggregate ⟨x, 0⟩ (c'.candidate x)) = c₁
        at hpushed hnext hhas hitem
    have hblank : (c₁.item c'.nextItem).pool = [] := by
      rw [hitem, item_pushAggregate, if_pos rfl]
    refine (hpushed.modifyItem hle ?_).mark hnew hle ?_
    · intro y hy
      rw [hblank, List.nil_append, List.mem_singleton] at hy
      rw [hy]
      refine ⟨hhas, Or.inl ?_⟩
      rw [show c'.nextCandidate = c'.pushAggregate.nextCandidate from rfl, hnext]
      rfl
    · intro u hu hmem
      rw [item_modifyItem] at hmem
      split at hmem
      · rw [hblank, List.nil_append, List.mem_singleton] at hmem
        exact ne_nextCandidate hx hmem
      · rw [hitem, item_pushAggregate] at hmem
        split at hmem
        · cases hmem
        · exact hfree u hu hmem

theorem adds_attach
    (p d : CandidateId)
    (rule : Rule SymbolId) :
    Adds c (c.attach p d rule).2 := by
  have htry : Adds c (c.tryAttach p d rule.relation (c.joined d rule.relation)).2 :=
    adds_tryAttach (wrapper_joined _ _ _ _ _)
  have hhas : ∀ id, (c.tryAttach p d rule.relation (c.joined d rule.relation)).1 = .attached id →
      (c.tryAttach p d rule.relation (c.joined d rule.relation)).2.Has id :=
    fun id h => (tryAttach_attached h).2.1
  have hitems := items_tryAttach c p d rule.relation (c.joined d rule.relation)
  rcases attach_cases c p d rule with heq | ⟨-, c₁, hattached, heq⟩ <;> rw [heq]
  · exact htry
  · rw [hattached] at htry hhas hitems
    refine adds_wrap htry (Nat.lt_irrefl _) (hhas _ rfl) fun u hu hmem => ?_
    rw [item_of_items_eq hitems, item_of_size_le hu] at hmem
    cases hmem

theorem adds_stage
    (c : Chart)
    (rule : Rule SymbolId)
    (staged : List CandidateId)
    (pairs : List (CandidateId × CandidateId)) :
    Adds c (c.stage rule staged pairs).2 := by
  induction pairs generalizing c staged with
  | nil => exact .refl c
  | cons e rest ih =>
    obtain ⟨p, d⟩ := e
    have hfirst := adds_attach (c := c) p d rule
    unfold stage
    split
    · exact .refl c
    · split
      · exact ih c staged
      · generalize c.attach p d rule = result at hfirst ⊢
        obtain ⟨outcome, c₁⟩ := result
        cases outcome with
        | attached id => exact hfirst.trans (ih c₁ _)
        | slotTaken => exact hfirst.trans (ih c₁ _)
        | conflict => exact hfirst.trans (ih c₁ _)
        | exhausted => exact hfirst

end Attaching

section Detaching

theorem adds_detach (c : Chart) (x : CandidateId) (v : ItemId) :
    Adds c (c.detach x v).2 ∧
      ∀ id, (c.detach x v).1 = .ok (some id) → ¬ c.Has id ∧
        (c.detach x v).2.Has id ∧ ((c.detach x v).2.candidate id).wrapper = none := by
  cases detachment c x v with
  | kept _ heq =>
    rw [heq]
    exact ⟨.refl c, fun id hid => by cases hid⟩
  | exhausted _ _ heq =>
    rw [heq]
    exact ⟨.of_arenas rfl rfl, fun id hid => by cases hid⟩
  | replaced hholds _ heq =>
    obtain ⟨s, hslot, hroot⟩ := hholds
    have hwrapper : (c.withoutItem (c.candidate x) v).wrapper = none :=
      wrapper_withoutItem hslot hroot
    rw [heq]
    refine ⟨.pushCandidate c hwrapper, fun id hid => ?_⟩
    cases hid
    refine ⟨Nat.lt_irrefl _, has_nextCandidate c _, ?_⟩
    rw [candidate_nextCandidate]
    exact hwrapper

/-- What is not replaced stays, and replacements are new and not marked. -/
theorem adds_detachAll (c : Chart) (v : ItemId) (pool : List CandidateId) :
    Adds c (c.detachAll v pool).2 ∧
      ((∀ x ∈ pool, c.Has x) → ∀ kept changed, (c.detachAll v pool).1 = .ok (kept, changed) →
        ∀ y ∈ kept, y ∈ pool ∨
          ¬ c.Has y ∧ ((c.detachAll v pool).2.candidate y).wrapper = none) := by
  induction pool generalizing c with
  | nil =>
    refine ⟨.refl c, fun _ kept changed h y hy => ?_⟩
    cases h
    exact Or.inl hy
  | cons x rest ih =>
    obtain ⟨hfirst, hnew⟩ := adds_detach c x v
    unfold detachAll
    generalize c.detach x v = result at hfirst hnew ⊢
    obtain ⟨outcome, c₁⟩ := result
    cases outcome with
    | error e => exact ⟨hfirst, fun _ kept changed h => by cases h⟩
    | ok replaced =>
      obtain ⟨htail, hkept⟩ := ih c₁
      dsimp only
      generalize c₁.detachAll v rest = result at htail hkept ⊢
      obtain ⟨outcome, c₂⟩ := result
      cases outcome with
      | error e => exact ⟨hfirst.trans htail, fun _ kept changed h => by cases h⟩
      | ok pair =>
        obtain ⟨kept, changed⟩ := pair
        refine ⟨hfirst.trans htail, fun hpool all flag h y hy => ?_⟩
        cases h
        rcases List.mem_cons.1 hy with rfl | hmem
        · cases replaced with
          | none => exact Or.inl List.mem_cons_self
          | some id =>
            obtain ⟨hfresh, hhas, hwrapper⟩ := hnew id rfl
            right
            refine ⟨hfresh, ?_⟩
            exact (congrArg Candidate.wrapper (htail.candidate id hhas)).trans hwrapper
        · have hrest : ∀ z ∈ rest, c₁.Has z := fun z hz =>
            hfirst.has (hpool z (List.mem_cons_of_mem x hz))
          rcases hkept hrest kept changed rfl y hmem with hold | ⟨hfresh, hwrapper⟩
          · exact Or.inl (List.mem_cons_of_mem x hold)
          · exact Or.inr ⟨fun hhas => hfresh (hfirst.has hhas), hwrapper⟩

/-- Where an item is held, a replacement is made if there is room for it. -/
theorem detach_of_holds
    {r : Relation}
    (h : c.Holds x r v) :
    c.detach x v =
      if c.candidatesFull then (.error (.exhausted .candidates), c.refused)
      else (.ok (some c.nextCandidate), c.pushCandidate (c.withoutItem (c.candidate x) v)) := by
  cases detachment c x v with
  | kept hnone => exact absurd h (hnone r)
  | exhausted _ hfull heq => rw [heq, if_pos hfull]
  | replaced _ hroom heq => rw [heq, hroom, if_neg Bool.false_ne_true]

theorem detach_of_not_holds
    (h : ∀ r, ¬ c.Holds x r v) :
    c.detach x v = (.ok none, c) := by
  cases detachment c x v with
  | kept _ heq => exact heq
  | exhausted hholds => exact absurd hholds (h _)
  | replaced hholds => exact absurd hholds (h _)

/-- Where no candidate holds the child there is nothing to give up. -/
theorem detachAll_of_not_holds
    (pool : List CandidateId)
    (h : ∀ x ∈ pool, ∀ r, ¬ c.Holds x r v) :
    c.detachAll v pool = (.ok (pool, false), c) := by
  induction pool with
  | nil => rfl
  | cons x rest ih =>
    unfold detachAll
    rw [detach_of_not_holds (h x List.mem_cons_self)]
    dsimp only
    rw [ih fun y hy => h y (List.mem_cons_of_mem x hy)]
    rfl

end Detaching

section Lifting

variable {r : Relation}

theorem adds_liftPool
    (c : Chart)
    (u : ItemId)
    (r : Relation)
    (pool : List CandidateId) :
    Adds c (liftPool u r c pool).2 ∧
      ∀ y ∈ (liftPool u r c pool).1, (liftPool u r c pool).2.Has y ∧
        ((liftPool u r c pool).2.candidate y).wrapper = none := by
  induction pool generalizing c with
  | nil => exact ⟨.refl c, fun y hy => by cases hy⟩
  | cons x rest ih =>
    unfold liftPool
    dsimp only
    split
    · exact ih c
    · rcases store_cases c ((Candidate.seed u).attach r ⟨x, 0⟩ (c.candidate x)) with
        ⟨-, heq⟩ | heq <;> rw [heq]
      · have hstore : Adds c
            (c.pushCandidate ((Candidate.seed u).attach r ⟨x, 0⟩ (c.candidate x))) :=
          .pushCandidate c rfl
        have hnext := candidate_nextCandidate c
          ((Candidate.seed u).attach r ⟨x, 0⟩ (c.candidate x))
        have hhas := has_nextCandidate c
          ((Candidate.seed u).attach r ⟨x, 0⟩ (c.candidate x))
        obtain ⟨htail, hrest⟩ := ih
          (c.pushCandidate ((Candidate.seed u).attach r ⟨x, 0⟩ (c.candidate x)))
        refine ⟨hstore.trans htail, fun y hy => ?_⟩
        rcases List.mem_cons.1 hy with rfl | hmem
        · refine ⟨htail.has hhas, ?_⟩
          rw [htail.candidate _ hhas, hnext]
          rfl
        · exact hrest y hmem
      · exact ⟨.of_arenas rfl rfl, fun y hy => by cases hy⟩

theorem adds_liftAll
    (c : Chart)
    (u : ItemId)
    (r : Relation)
    (pool : List CandidateId) :
    Adds c (liftAll u r c pool).2 ∧
      ∀ ids, (liftAll u r c pool).1 = .ok ids → ∀ y ∈ ids, (liftAll u r c pool).2.Has y ∧
        ((liftAll u r c pool).2.candidate y).wrapper = none := by
  induction pool generalizing c with
  | nil =>
    refine ⟨.refl c, fun ids h y hy => ?_⟩
    cases h
    cases hy
  | cons x rest ih =>
    rcases liftAll_cons c u r x rest with ⟨-, heq⟩ | ⟨c₁, -, rfl, heq⟩ <;> rw [heq]
    · exact ⟨.of_arenas rfl rfl, fun ids h => by cases h⟩
    · have hstore : Adds c
          (c.pushCandidate ((Candidate.seed u).attach r ⟨x, 0⟩ (c.candidate x))) :=
        .pushCandidate c rfl
      have hnext := candidate_nextCandidate c
        ((Candidate.seed u).attach r ⟨x, 0⟩ (c.candidate x))
      have hhas := has_nextCandidate c
        ((Candidate.seed u).attach r ⟨x, 0⟩ (c.candidate x))
      obtain ⟨htail, hrest⟩ := ih
        (c.pushCandidate ((Candidate.seed u).attach r ⟨x, 0⟩ (c.candidate x)))
      generalize liftAll u r (c.pushCandidate _) rest = result at htail hrest ⊢
      obtain ⟨outcome, c₁⟩ := result
      refine ⟨hstore.trans htail, fun all h y hy => ?_⟩
      cases outcome with
      | error e => cases h
      | ok ids =>
        cases h
        rcases List.mem_cons.1 hy with rfl | hmem
        · refine ⟨htail.has hhas, ?_⟩
          dsimp only
          rw [htail.candidate _ hhas, hnext]
          rfl
        · exact hrest ids rfl y hmem

end Lifting

section Predicting

theorem adds_predicted (c : Chart) (v : ItemId) (s : SymbolId) :
    Adds c (c.predicted v s) := by
  have hpush : Adds c ((c.pushItem {}).count fun t =>
      { t with predictions := t.predictions + 1 }) := (Adds.pushItem c rfl).trans (.count _ _)
  exact hpush.modifyItem (Nat.le_refl _) (hpush.calm c.nextItem (Nat.le_refl _))

end Predicting

end Chart

end BeamChart
