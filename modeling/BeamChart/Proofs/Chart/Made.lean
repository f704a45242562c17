import BeamChart.Proofs.Chart.Step

/-!
# Where the children of a new candidate come from

A candidate that is stored next has been made from stored ones. Its root is an
item of the chart (`Made.root_lt`), and each of its children either was a child
of a stored candidate of the same item or has just been taken
(`Made.origin`).
-/

namespace BeamChart

theorem Weight.zero_add (a : Weight) :
    0 + a = a := by
  rw [Weight.add_comm, Weight.add_zero]

namespace Candidate

@[simp] theorem root_attach
    (x : Candidate)
    (r : Relation)
    (s : Slot)
    (child : Candidate) :
    (x.attach r s child).root = x.root := rfl

@[simp] theorem root_detach
    (x : Candidate)
    (r : Relation)
    (child : Candidate) :
    (x.detach r child).root = x.root := by
  unfold detach
  split <;> rfl

theorem slot_detach_of_ne
    (x : Candidate)
    {r q : Relation}
    (child : Candidate)
    (h : q ≠ r) :
    (x.detach r child).slot q = x.slot q := by
  unfold detach
  split
  · rfl
  · exact Slots.get_set_of_ne x.slots none h

theorem slot_of_slot_detach
    {x child : Candidate}
    {r q : Relation}
    {s : Slot}
    (h : (x.detach r child).slot q = some s) :
    x.slot q = some s := by
  by_cases hq : q = r
  · rw [hq, slot_detach_self] at h
    cases h
  · rwa [slot_detach_of_ne x child hq] at h

@[simp] theorem slot_seed (u : ItemId) (r : Relation) :
    (Candidate.seed u).slot r = none :=
  Slots.get_empty r

end Candidate

namespace Chart

variable {strict : Prop} {c : Chart}

/-- What a child under a relation may earn. -/
def Earns (c : Chart) (r : Relation) (bonus : Weight) : Prop :=
  bonus = c.settings.scoring.childBonus r ∨
    ∃ m, bonus = c.settings.scoring.markerBonus (c.markerWeight m)

/-- Joining attaches the child for one bonus; a marker is part of it. -/
theorem joined_eq
    (c : Chart)
    (id : CandidateId)
    (r : Relation)
    (p d : Candidate) :
    ∃ bonus readings marker, c.Earns r bonus ∧
      c.joined id r p d =
        { p.attach r ⟨id, bonus⟩ d with readings, marker, pending := true } := by
  by_cases hr : r.isSequencing = true
  · have hplain : ∃ bonus readings marker, c.Earns r bonus ∧
        { p.attach r ⟨id, c.settings.scoring.childBonus r⟩ d with pending := true } =
          { p.attach r ⟨id, bonus⟩ d with readings, marker, pending := true } :=
      ⟨_, p.readings, p.marker, Or.inl rfl, rfl⟩
    simp only [joined, if_pos hr]
    split
    · split
      · rename_i m _
        obtain rfl : r = .next := by
          simpa [Relation.isSequencing] using hr
        refine ⟨_, p.readings, some m, Or.inr ⟨m, rfl⟩, ?_⟩
        simp [withMarker, Candidate.attach, Weight.zero_add]
      · exact hplain
    · exact hplain
  · simp only [joined, if_neg hr]
    exact ⟨_, _, p.marker, Or.inl rfl, rfl⟩

theorem slot_of_slot_joined
    {id : CandidateId}
    {r q : Relation}
    {p d : Candidate}
    {s : Slot}
    (h : (c.joined id r p d).slot q = some s) :
    q = r ∧ s.child = id ∨ p.slot q = some s := by
  obtain ⟨bonus, readings, marker, -, heq⟩ := c.joined_eq id r p d
  rw [heq] at h
  by_cases hq : q = r
  · left
    subst hq
    have hs : (p.attach q ⟨id, bonus⟩ d).slot q = some s := h
    rw [Candidate.slot_attach_self] at hs
    cases hs
    exact ⟨rfl, rfl⟩
  · right
    rw [← Candidate.slot_attach_of_ne p ⟨id, bonus⟩ d hq]
    exact h

/-- Joining leaves the other slots as they are. -/
theorem slot_joined_of_slot
    {id : CandidateId}
    {r q : Relation}
    {p d : Candidate}
    {s : Slot}
    (hfree : p.slot r = none)
    (hs : p.slot q = some s) :
    (c.joined id r p d).slot q = some s := by
  obtain ⟨bonus, readings, marker, -, heq⟩ := c.joined_eq id r p d
  have hq : q ≠ r := by
    rintro rfl
    rw [hfree] at hs
    cases hs
  rw [heq]
  exact (Candidate.slot_attach_of_ne p ⟨id, bonus⟩ d hq).trans hs

theorem slot_joined_self
    (c : Chart)
    (id : CandidateId)
    (r : Relation)
    (p d : Candidate) :
    ∃ s, (c.joined id r p d).slot r = some s ∧ s.child = id := by
  obtain ⟨bonus, readings, marker, -, heq⟩ := c.joined_eq id r p d
  rw [heq]
  exact ⟨⟨id, bonus⟩, Candidate.slot_attach_self p r ⟨id, bonus⟩ d, rfl⟩

@[simp] theorem root_joined
    (c : Chart)
    (id : CandidateId)
    (r : Relation)
    (p d : Candidate) :
    (c.joined id r p d).root = p.root := by
  obtain ⟨bonus, readings, marker, -, heq⟩ := c.joined_eq id r p d
  rw [heq]
  rfl

theorem wrapper_joined
    (c : Chart)
    (id : CandidateId)
    (r : Relation)
    (p d : Candidate) :
    (c.joined id r p d).wrapper = none := by
  obtain ⟨bonus, readings, marker, -, heq⟩ := c.joined_eq id r p d
  rw [heq]
  rfl

/-- Children are given up one by one. -/
theorem withoutItem_induction
    {P : Candidate → Prop}
    (u : ItemId)
    {x : Candidate}
    (hx : P x)
    (hstep : ∀ y r s, P y → y.slot r = some s → P (y.detach r (c.candidate s.child))) :
    P (c.withoutItem x u) := by
  unfold withoutItem
  generalize Relation.all = relations
  induction relations generalizing x with
  | nil => exact hx
  | cons r rest ih =>
    rw [List.foldl_cons]
    apply ih
    split
    · rename_i s hs
      split
      · exact hstep x r s hx hs
      · exact hx
    · exact hx

theorem root_withoutItem (c : Chart) (x : Candidate) (u : ItemId) :
    (c.withoutItem x u).root = x.root := by
  refine withoutItem_induction (P := fun y => y.root = x.root) u rfl ?_
  intro y r s hy _
  rw [Candidate.root_detach, hy]

theorem slot_of_slot_withoutItem
    {x : Candidate}
    {u : ItemId}
    {r : Relation}
    {s : Slot}
    (h : (c.withoutItem x u).slot r = some s) :
    x.slot r = some s := by
  refine withoutItem_induction (P := fun y => y.slot r = some s → x.slot r = some s) u id ?_ h
  intro y q t hy _ hs
  exact hy (Candidate.slot_of_slot_detach hs)

/-- How a candidate of an item has come by its child. -/
inductive Origin (strict : Prop) (c : Chart) (u : ItemId) (r : Relation) (y : CandidateId) : Prop
  | kept
      {x : CandidateId}
      {s : Slot}
      (hx : c.Has x)
      (hroot : (c.candidate x).root = u)
      (hslot : (c.candidate x).slot r = some s)
      (hchild : s.child = y) :
      Origin strict c u r y
  | taken
      (hchild : c.Has y)
      (hstrict : strict → c.Licensed u (c.candidate y).root r)
      (hwidth : strict → 0 < c.settings.beamWidth) :
      Origin strict c u r y
  | chained
      (hchild : c.Has y)
      (hkind : c.grammar.kind = .positional)
      (hpresent : (c.item (c.candidate y).root).present = true) :
      Origin strict c u r y
  | lifted
      (hchild : c.Has y)
      (hstrict : strict → (c.item (c.candidate y).root).present = true ∧
        ((c.item u).present = false ∨
          (c.item (c.candidate y).root).fixedParent = some (u, r))) :
      Origin strict c u r y
  | repointed
      {x : CandidateId}
      {s : Slot}
      (hchild : c.Has y)
      (hx : c.Has x)
      (hslot : (c.candidate x).slot r = some s)
      (hroot : (c.candidate y).root = (c.candidate s.child).root)
      (hfixed : (c.item (c.candidate y).root).fixedParent = some (u, r)) :
      Origin strict c u r y

namespace Made

theorem origin
    {x : Candidate}
    (h : Made strict c x)
    {r : Relation}
    {s : Slot}
    (hs : x.slot r = some s) :
    Origin strict c x.root r s.child := by
  cases h with
  | leaf hitem =>
    have hnone : Slots.empty.get r = some s := hs
    rw [Slots.get_empty] at hnone
    cases hnone
  | seed hitem =>
    rw [Candidate.slot_seed] at hs
    cases hs
  | @joined p d q hfits hstrict hwidth =>
    rw [root_joined]
    rcases slot_of_slot_joined hs with ⟨rfl, hchild⟩ | hold
    · rw [hchild]
      exact .taken hfits.child hstrict hwidth
    · exact .kept hfits.parent rfl hold rfl
  | @chained p d hfits hkind hpresent =>
    by_cases hr : r = .next
    · subst hr
      rw [Candidate.slot_attach_self] at hs
      cases hs
      exact .chained hfits.child hkind hpresent
    · rw [Candidate.slot_attach_of_ne _ _ _ hr] at hs
      exact .kept hfits.parent rfl hs rfl
  | @lifted u y q hitem hchild hstrict =>
    by_cases hr : r = q
    · subst hr
      rw [Candidate.slot_attach_self] at hs
      cases hs
      exact .lifted hchild hstrict
    · rw [Candidate.slot_attach_of_ne _ _ _ hr, Candidate.slot_seed] at hs
      cases hs
  | @reduced y u hy =>
    rw [root_withoutItem]
    exact .kept hy rfl (slot_of_slot_withoutItem hs) rfl
  | @repointed p d q t hp hd hslot hroot hfixed hcoverage =>
    have hbase : ∀ k, ((c.candidate p).detach q k).root = (c.candidate p).root :=
      Candidate.root_detach _ q
    by_cases hr : r = q
    · subst hr
      have heq : (((c.candidate p).detach r (c.candidate t.child)).attach r ⟨d, t.bonus⟩
          (c.candidate d)).slot r = some s := hs
      rw [Candidate.slot_attach_self] at heq
      cases heq
      refine .repointed hd hp hslot hroot ?_
      rw [hfixed, ← hbase (c.candidate t.child)]
      rfl
    · have hold : (((c.candidate p).detach q (c.candidate t.child)).attach q ⟨d, t.bonus⟩
          (c.candidate d)).slot r = some s := hs
      rw [Candidate.slot_attach_of_ne _ _ _ hr] at hold
      exact .kept hp (hbase (c.candidate t.child)).symm (Candidate.slot_of_slot_detach hold) rfl

theorem root_lt
    {x : Candidate}
    (h : Made strict c x)
    (hold : ∀ y, c.Has y → (c.candidate y).root.index < c.items.size) :
    x.root.index < c.items.size := by
  cases h with
  | leaf hitem => exact hitem
  | seed hitem => exact hitem
  | joined hfits =>
    rw [root_joined]
    exact hold _ hfits.parent
  | chained hfits => exact hold _ hfits.parent
  | lifted hitem => exact hitem
  | reduced hy =>
    rw [root_withoutItem]
    exact hold _ hy
  | @repointed p d q t hp =>
    have hbase : ((c.candidate p).detach q (c.candidate t.child)).root = (c.candidate p).root :=
      Candidate.root_detach _ _ _
    have hlt := hold p hp
    rw [← hbase] at hlt
    exact hlt

end Made

end Chart

end BeamChart
