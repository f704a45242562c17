import BeamChart.Candidate.Slots
import Mathlib.Data.List.Nodup

/-!
# The filled slots as a list

Setting a slot adds or removes one entry of the list of filled slots, up to
order. Sums and unions over the children therefore change by one term.
-/

namespace BeamChart

namespace Slots

theorem nodup_filled (s : Slots) :
    s.filled.Nodup := by
  refine Relation.nodup_all.filterMap ?_
  intro r q e hr hq
  obtain ⟨a, -, rfl⟩ := Option.map_eq_some_iff.1 hr
  obtain ⟨b, -, heq⟩ := Option.map_eq_some_iff.1 hq
  exact (Prod.mk.inj heq).1.symm

@[simp] theorem filled_empty :
    empty.filled = [] := rfl

/-- Emptying a slot removes its entry. -/
theorem filled_perm_set_none
    {s : Slots}
    {r : Relation}
    {a : Slot}
    (h : s.get r = some a) :
    s.filled.Perm ((r, a) :: (s.set r none).filled) := by
  have hfree : (r, a) ∉ (s.set r none).filled := by
    rw [mem_filled, get_set_self]
    simp
  refine (List.perm_ext_iff_of_nodup s.nodup_filled
    (List.nodup_cons.2 ⟨hfree, nodup_filled _⟩)).2 ?_
  rintro ⟨q, b⟩
  rw [List.mem_cons, mem_filled, mem_filled]
  by_cases hq : q = r
  · subst hq
    rw [get_set_self, h]
    simp [eq_comm]
  · rw [get_set_of_ne s none hq]
    simp [hq]

/-- Emptying a slot that was free before it was filled leaves all slots as they were. -/
theorem set_some_set_none
    {s : Slots}
    {r : Relation}
    (a : Slot)
    (h : s.get r = none) :
    (s.set r (some a)).set r none = s := by
  apply ext_get
  intro q
  by_cases hq : q = r
  · subst hq
    rw [get_set_self, h]
  · rw [get_set_of_ne _ _ hq, get_set_of_ne _ _ hq]

/-- Filling a free slot adds its entry. -/
theorem filled_set_some_perm
    {s : Slots}
    {r : Relation}
    (a : Slot)
    (h : s.get r = none) :
    (s.set r (some a)).filled.Perm ((r, a) :: s.filled) := by
  have hperm := filled_perm_set_none (s := s.set r (some a)) (get_set_self s r (some a))
  rwa [set_some_set_none a h] at hperm

end Slots

end BeamChart
