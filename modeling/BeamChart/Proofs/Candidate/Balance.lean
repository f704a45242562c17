import BeamChart.Candidate.Basic
import BeamChart.Proofs.Candidate.Slots
import Mathlib

/-!
# Weights as sums

A candidate is balanced if nothing that it earned is negative and its weight is
the exact sum of its own weight and, for each child, the child's weight and
bonus. Taking a child keeps the balance unless the sum is clamped
(`Balanced.attach`), and giving one up always does (`Balanced.detach`).

Terms that are not negative are clamped once at most, so the clamped sum of a
balanced candidate is the exact one (`Balanced.weight_eq_summedWeight`).
-/

namespace BeamChart

namespace Slots

/-- What the children bring, as an exact sum. -/
def total (s : Slots) (weightOf : CandidateId → Weight) : Int :=
  (s.filled.map fun e => (weightOf e.2.child).toInt + e.2.bonus.toInt).sum

/-- No child and no bonus takes anything away. -/
def Gaining (weightOf : CandidateId → Weight) (s : Slots) : Prop :=
  ∀ r a, s.get r = some a → 0 ≤ (weightOf a.child).toInt ∧ 0 ≤ a.bonus.toInt

variable {weightOf : CandidateId → Weight} {s : Slots} {r : Relation} {a : Slot}

theorem total_set_none
    (weightOf : CandidateId → Weight)
    (h : s.get r = some a) :
    s.total weightOf =
      (weightOf a.child).toInt + a.bonus.toInt + (s.set r none).total weightOf := by
  have hperm := (filled_perm_set_none h).map fun e : Relation × Slot =>
    (weightOf e.2.child).toInt + e.2.bonus.toInt
  unfold total
  rw [hperm.sum_eq, List.map_cons, List.sum_cons]

theorem total_set_some
    (weightOf : CandidateId → Weight)
    (a : Slot)
    (h : s.get r = none) :
    (s.set r (some a)).total weightOf =
      (weightOf a.child).toInt + a.bonus.toInt + s.total weightOf := by
  have hperm := (filled_set_some_perm a h).map fun e : Relation × Slot =>
    (weightOf e.2.child).toInt + e.2.bonus.toInt
  unfold total
  rw [hperm.sum_eq, List.map_cons, List.sum_cons]

namespace Gaining

theorem total_nonneg (h : s.Gaining weightOf) :
    0 ≤ s.total weightOf := by
  unfold total
  apply List.sum_nonneg
  intro n hn
  obtain ⟨⟨q, b⟩, hb, rfl⟩ := List.mem_map.1 hn
  obtain ⟨hchild, hbonus⟩ := h q b ((mem_filled s q b).1 hb)
  dsimp only
  omega

theorem set_none (h : s.Gaining weightOf) (r : Relation) :
    (s.set r none).Gaining weightOf := by
  intro q b hb
  by_cases hq : q = r
  · subst hq
    rw [get_set_self] at hb
    cases hb
  · rw [get_set_of_ne s none hq] at hb
    exact h q b hb

theorem set_some
    (h : s.Gaining weightOf)
    (r : Relation)
    (hchild : 0 ≤ (weightOf a.child).toInt)
    (hbonus : 0 ≤ a.bonus.toInt) :
    (s.set r (some a)).Gaining weightOf := by
  intro q b hb
  by_cases hq : q = r
  · subst hq
    rw [get_set_self] at hb
    cases hb
    exact ⟨hchild, hbonus⟩
  · rw [get_set_of_ne s (some a) hq] at hb
    exact h q b hb

end Gaining

end Slots

namespace Candidate

/-- Nothing is negative, and the weight is the exact sum. -/
structure Balanced (weightOf : CandidateId → Weight) (x : Candidate) : Prop where
  own_nonneg : 0 ≤ x.ownWeight.toInt
  gaining : x.slots.Gaining weightOf
  weight_eq : x.weight.toInt = x.ownWeight.toInt + x.slots.total weightOf

variable {weightOf : CandidateId → Weight} {x child : Candidate} {r : Relation} {s : Slot}

namespace Balanced

theorem weight_nonneg (h : x.Balanced weightOf) :
    0 ≤ x.weight.toInt := by
  have hown := h.own_nonneg
  have hsum := h.gaining.total_nonneg
  rw [h.weight_eq]
  omega

theorem of_no_child
    (hslots : x.slots = .empty)
    (hown : 0 ≤ x.ownWeight.toInt)
    (hweight : x.weight = x.ownWeight) :
    x.Balanced weightOf := by
  refine ⟨hown, fun q t ht => ?_, ?_⟩
  · rw [hslots, Slots.get_empty] at ht
    cases ht
  · simp [Slots.total, hslots, hweight]

/-- A child is taken for its exact weight and bonus, unless the result is clamped. -/
theorem attach
    (h : x.Balanced weightOf)
    (hfree : x.slot r = none)
    (hchild : weightOf s.child = child.weight)
    (hnonneg : 0 ≤ child.weight.toInt)
    (hbonus : 0 ≤ s.bonus.toInt)
    (hexact : (x.attach r s child).weight.toInt ≠ Weight.highest) :
    (x.attach r s child).Balanced weightOf := by
  have hold := h.weight_nonneg
  have heq := h.weight_eq
  have htotal : (x.attach r s child).slots.total weightOf =
      child.weight.toInt + s.bonus.toInt + x.slots.total weightOf := by
    rw [← hchild]
    exact Slots.total_set_some weightOf s hfree
  have hclamped : (x.attach r s child).weight.toInt =
      Weight.clamp (Weight.clamp (x.weight.toInt + child.weight.toInt) + s.bonus.toInt) := rfl
  have hweight : (x.attach r s child).weight.toInt =
      x.weight.toInt + child.weight.toInt + s.bonus.toInt := by
    rw [hclamped] at hexact ⊢
    unfold Weight.clamp Weight.lowest Weight.highest at *
    omega
  have hown : (x.attach r s child).ownWeight = x.ownWeight := rfl
  constructor
  · exact h.own_nonneg
  · exact h.gaining.set_some r (by rw [hchild]; exact hnonneg) hbonus
  · rw [hweight, htotal, hown]
    omega

theorem detach
    (child : Candidate)
    (h : x.Balanced weightOf)
    (hslot : x.slot r = some s)
    (hchild : weightOf s.child = child.weight) :
    (x.detach r child).Balanced weightOf := by
  have hown := h.own_nonneg
  have heq := h.weight_eq
  have hle := x.weight.le_highest
  have hrest := (h.gaining.set_none r).total_nonneg
  have htotal : x.slots.total weightOf =
      child.weight.toInt + s.bonus.toInt + (x.slots.set r none).total weightOf := by
    rw [← hchild]
    exact Slots.total_set_none weightOf hslot
  obtain ⟨hgone, hbonus⟩ := h.gaining r s hslot
  rw [hchild] at hgone
  have hslots : (x.detach r child).slots = x.slots.set r none := by
    simp only [Candidate.detach, hslot]
  have hsame : (x.detach r child).ownWeight = x.ownWeight := by
    simp only [Candidate.detach, hslot]
  have hweight : (x.detach r child).weight.toInt =
      Weight.clamp (Weight.clamp (x.weight.toInt - child.weight.toInt) - s.bonus.toInt) := by
    simp only [Candidate.detach, hslot, Weight.toInt_sub]
  constructor
  · rw [hsame]
    exact hown
  · rw [hslots]
    exact h.gaining.set_none r
  · rw [hweight, hsame, hslots]
    unfold Weight.clamp Weight.lowest Weight.highest at *
    omega

/-- Of terms that are not negative the sum is clamped at the end, or not at all. -/
theorem foldl_add_eq_clamp
    (weightOf : CandidateId → Weight)
    (terms : List (Relation × Slot))
    (total : Weight)
    (htotal : 0 ≤ total.toInt)
    (hterms : ∀ e ∈ terms, 0 ≤ (weightOf e.2.child).toInt ∧ 0 ≤ e.2.bonus.toInt) :
    (terms.foldl (fun n e => n + weightOf e.2.child + e.2.bonus) total).toInt =
      Weight.clamp (total.toInt +
        (terms.map fun e => (weightOf e.2.child).toInt + e.2.bonus.toInt).sum) := by
  induction terms generalizing total with
  | nil =>
    simp only [List.foldl_nil, List.map_nil, List.sum_nil, Int.add_zero]
    exact (Weight.clamp_eq_self total.lowest_le total.le_highest).symm
  | cons e rest ih =>
    obtain ⟨hchild, hbonus⟩ := hterms e List.mem_cons_self
    have hrest : ∀ e ∈ rest, 0 ≤ (weightOf e.2.child).toInt ∧ 0 ≤ e.2.bonus.toInt :=
      fun d hd => hterms d (List.mem_cons_of_mem e hd)
    have hsum : 0 ≤ (rest.map fun e => (weightOf e.2.child).toInt + e.2.bonus.toInt).sum := by
      apply List.sum_nonneg
      intro n hn
      obtain ⟨d, hd, rfl⟩ := List.mem_map.1 hn
      have hterm := hrest d hd
      omega
    have hnext : (total + weightOf e.2.child + e.2.bonus).toInt =
        Weight.clamp (Weight.clamp (total.toInt + (weightOf e.2.child).toInt) +
          e.2.bonus.toInt) := rfl
    have hstay : 0 ≤ (total + weightOf e.2.child + e.2.bonus).toInt := by
      rw [hnext]
      unfold Weight.clamp Weight.lowest Weight.highest
      omega
    rw [List.foldl_cons, ih _ hstay hrest, hnext, List.map_cons, List.sum_cons]
    unfold Weight.clamp Weight.lowest Weight.highest
    omega

theorem weight_eq_summedWeight (h : x.Balanced weightOf) :
    x.weight = x.summedWeight weightOf := by
  apply Weight.ext
  have hfold := foldl_add_eq_clamp weightOf x.slots.filled x.ownWeight
    h.own_nonneg fun e he => h.gaining e.1 e.2 ((Slots.mem_filled _ e.1 e.2).1 he)
  have hexact : x.ownWeight.toInt + x.slots.total weightOf = x.weight.toInt := h.weight_eq.symm
  rw [summedWeight, hfold]
  unfold Slots.total at hexact
  rw [hexact]
  exact (Weight.clamp_eq_self x.weight.lowest_le x.weight.le_highest).symm

end Balanced

end Candidate

end BeamChart
