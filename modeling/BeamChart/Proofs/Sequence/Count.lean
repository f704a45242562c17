import Mathlib.Algebra.Ring.Nat
import Mathlib.Data.List.Basic

/-!
# Counting chains

In a sequence each place may be chained behind an earlier one, with at most `gap`
places between them. `chainCounts gap p` counts, for each of the first `p` places,
the chains that end there. A place that has been offered what stands at the first
`k` places has `rivals gap p k` candidates: itself alone, and itself behind each
chain that is near enough.
-/

namespace BeamChart

namespace Sequence

/-- Numbers of the chains that end at each of the first places. -/
def chainCounts (gap : Nat) : Nat → List Nat
  | 0 => []
  | p + 1 => chainCounts gap p ++ [1 + ((chainCounts gap p).drop (p - (gap + 1))).sum]

/-- Number of the chains that end at place `p` and go on to none of the places from `k` on. -/
def rivals (gap p k : Nat) : Nat :=
  1 + ((chainCounts gap k).drop (p - (gap + 1))).sum

/-- A place that is offered the one before it has been offered few chains until then. -/
def Reaches (gap width p : Nat) : Prop :=
  rivals gap p (p - 1) ≤ width

instance (gap width p : Nat) : Decidable (Reaches gap width p) :=
  inferInstanceAs (Decidable (_ ≤ _))

variable {gap width p k : Nat}

@[simp] theorem length_chainCounts (gap p : Nat) :
    (chainCounts gap p).length = p := by
  induction p with
  | zero => rfl
  | succ p ih => simp [chainCounts, ih]

theorem chainCounts_succ (gap p : Nat) :
    chainCounts gap (p + 1) = chainCounts gap p ++ [rivals gap p p] := rfl

theorem one_le_rivals (gap p k : Nat) :
    1 ≤ rivals gap p k :=
  Nat.le_add_right 1 _

@[simp] theorem rivals_zero (gap p : Nat) :
    rivals gap p 0 = 1 := by
  simp [rivals, chainCounts]

/-- A place that is near enough adds the chains that end there. -/
theorem rivals_succ_of_near
    (h : p ≤ k + 1 + gap) :
    rivals gap p (k + 1) = rivals gap p k + rivals gap k k := by
  have hdrop : p - (gap + 1) ≤ (chainCounts gap k).length := by
    rw [length_chainCounts]
    omega
  rw [rivals, chainCounts_succ, List.drop_append_of_le_length hdrop, List.sum_append,
    List.sum_singleton, ← Nat.add_assoc]
  rfl

/-- A place that is too far away adds nothing. -/
theorem rivals_succ_of_far
    (h : k + 1 + gap < p) :
    rivals gap p (k + 1) = rivals gap p k := by
  have hdrop : ∀ j, j ≤ k + 1 → (chainCounts gap j).drop (p - (gap + 1)) = [] := by
    intro j hj
    rw [List.drop_eq_nil_iff, length_chainCounts]
    omega
  rw [rivals, rivals, hdrop (k + 1) (Nat.le_refl _), hdrop k (Nat.le_succ k)]

theorem rivals_le_succ (gap p k : Nat) :
    rivals gap p k ≤ rivals gap p (k + 1) := by
  by_cases h : p ≤ k + 1 + gap
  · rw [rivals_succ_of_near h]
    exact Nat.le_add_right _ _
  · exact Nat.le_of_eq (rivals_succ_of_far (Nat.lt_of_not_le h)).symm

/-- One place further on there are at least as many. -/
theorem rivals_le_shift (gap p k : Nat) :
    rivals gap p k ≤ rivals gap (p + 1) (k + 1) := by
  induction k generalizing p with
  | zero =>
    rw [rivals_zero]
    exact one_le_rivals gap (p + 1) 1
  | succ k ih =>
    by_cases h : p ≤ k + 1 + gap
    · rw [rivals_succ_of_near h, rivals_succ_of_near (by omega)]
      exact Nat.add_le_add (ih p) (ih k)
    · rw [rivals_succ_of_far (Nat.lt_of_not_le h)]
      exact Nat.le_trans (ih p) (rivals_le_succ gap (p + 1) (k + 1))

theorem Reaches.of_succ
    (hwidth : 1 ≤ width)
    (h : Reaches gap width (p + 1)) :
    Reaches gap width p := by
  cases p with
  | zero =>
    rw [Reaches, rivals_zero]
    exact hwidth
  | succ p => exact Nat.le_trans (rivals_le_shift gap (p + 1) p) h

/-- What reaches a place reaches all places before it. -/
theorem Reaches.of_le
    (hwidth : 1 ≤ width)
    (h : Reaches gap width p)
    (hk : k ≤ p) :
    Reaches gap width k := by
  induction hk with
  | refl => exact h
  | step _ ih => exact ih (h.of_succ hwidth)

theorem reaches_zero
    (hwidth : 1 ≤ width) :
    Reaches gap width 0 := by
  rw [Reaches, rivals_zero]
  exact hwidth

/-- While all places are near, their number doubles with each place. -/
theorem rivals_of_near
    (hp : p ≤ gap + 1)
    (hk : k ≤ gap + 1) :
    rivals gap p k = 2 ^ k := by
  induction k generalizing p with
  | zero => exact rivals_zero gap p
  | succ k ih =>
    rw [rivals_succ_of_near (by omega), ih hp (by omega), ih (by omega) (by omega), Nat.pow_succ,
      Nat.mul_two]

/-- As far as all places are near, the width has to double with each place. -/
theorem reaches_iff_of_near
    (hp : p ≤ gap + 1) :
    Reaches gap width p ↔ 2 ^ (p - 1) ≤ width := by
  rw [Reaches, rivals_of_near hp (by omega)]

/-- A beam of two is wide enough for three places in a row. -/
example : Reaches 4 2 2 ∧ ¬ Reaches 4 2 3 := by
  decide

end Sequence

end BeamChart
