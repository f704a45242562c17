import BeamChart.Scoring
import Mathlib.Algebra.Order.Ring.Int

/-!
# Tokens are clamped once

The weight of a token is clamped at each step on the way: its extent, the power of it, its level
of verification, the product of the level with the factor for it, and the product of the two.
Here it is compared with `Scoring.exactWeight`, the same in integers of any size.

A factor may be clamped before a product as long as the other factor is not negative
(`Weight.clamp_clamp_mul`): above the range, a product with zero is zero either way, and with any
other factor it stays above the range. By induction the same is true of powers
(`Weight.clamp_pow`). So the exact weight is clamped once at the end, or not at all
(`Scoring.tokenWeight_clamped_once`). With a negative factor for each level this would fail, since
the two ends of the range are not opposite to each other.
-/

namespace BeamChart

namespace Weight

theorem clamp_nonneg
    {n : Int}
    (h : 0 ≤ n) :
    0 ≤ clamp n := by
  unfold clamp lowest highest
  omega

theorem clamp_le_clamp
    {m n : Int}
    (h : m ≤ n) :
    clamp m ≤ clamp n := by
  unfold clamp
  omega

theorem clamp_eq_highest
    {n : Int}
    (h : highest ≤ n) :
    clamp n = highest := by
  unfold clamp lowest highest at *
  omega

theorem clamp_eq_lowest
    {n : Int}
    (h : n ≤ lowest) :
    clamp n = lowest := by
  unfold clamp lowest highest at *
  omega

/-- Of what is not negative, only the upper end of the range cuts something off. -/
theorem clamp_eq_min
    {n : Int}
    (h : 0 ≤ n) :
    clamp n = min highest n := by
  unfold clamp lowest highest
  omega

section Products

/-- Clamping a factor changes nothing if the other factor is not negative. -/
theorem clamp_clamp_mul
    (m : Int)
    {n : Int}
    (hn : 0 ≤ n) :
    clamp (clamp m * n) = clamp (m * n) := by
  rcases hn.eq_or_lt with rfl | hpos
  · rw [Int.mul_zero, Int.mul_zero]
  have hone : 1 ≤ n := hpos
  rcases Int.lt_or_le highest m with habove | hhigh
  · -- both products are above the range
    have hcut : highest ≤ highest * n := le_mul_of_one_le_right (by decide) hone
    have hexact : highest * n ≤ m * n := Int.mul_le_mul_of_nonneg_right habove.le hn
    rw [clamp_eq_highest habove.le, clamp_eq_highest hcut,
      clamp_eq_highest (Int.le_trans hcut hexact)]
  rcases Int.lt_or_le m lowest with hbelow | hlow
  · -- both products are below the range
    have hcut : lowest * n ≤ lowest := mul_le_of_one_le_right (by decide) hone
    have hexact : m * n ≤ lowest * n := Int.mul_le_mul_of_nonneg_right hbelow.le hn
    rw [clamp_eq_lowest hbelow.le, clamp_eq_lowest hcut,
      clamp_eq_lowest (Int.le_trans hexact hcut)]
  · rw [clamp_eq_self hlow hhigh]

theorem clamp_mul_clamp
    {m n : Int}
    (hm : 0 ≤ m)
    (hn : 0 ≤ n) :
    clamp (clamp m * clamp n) = clamp (m * n) := by
  rw [clamp_clamp_mul m (clamp_nonneg hn), Int.mul_comm m, clamp_clamp_mul n hm, Int.mul_comm n]

/-- The base of a power may be clamped at the start if it is not negative. -/
theorem clamp_pow
    {n : Int}
    (hn : 0 ≤ n)
    (exponent : Nat) :
    clamp (clamp n ^ exponent) = clamp (n ^ exponent) := by
  induction exponent with
  | zero => rw [Int.pow_zero, Int.pow_zero]
  | succ exponent ih =>
    calc clamp (clamp n ^ (exponent + 1))
        = clamp (clamp (clamp n ^ exponent) * clamp n) := by
          rw [Int.pow_succ, clamp_clamp_mul _ (clamp_nonneg hn)]
      _ = clamp (clamp (n ^ exponent) * clamp n) := by rw [ih]
      _ = clamp (n ^ (exponent + 1)) := by
          rw [clamp_mul_clamp (Int.pow_nonneg hn) hn, Int.pow_succ]

theorem ofInt_mul_ofInt
    {m n : Int}
    (hm : 0 ≤ m)
    (hn : 0 ≤ n) :
    ofInt m * ofInt n = ofInt (m * n) :=
  Weight.ext (clamp_mul_clamp hm hn)

/-- From a base of two on, more than 31 factors are as many too many as 31. -/
theorem ofPower_eq_ofInt (base exponent : Nat) :
    ofPower base exponent = ofInt (base ^ exponent : Nat) := by
  unfold ofPower
  rw [Nat.pow_eq]
  by_cases hshort : exponent ≤ 31
  · rw [Nat.min_eq_left hshort]
  have hlong : 31 ≤ exponent := Nat.le_of_not_le hshort
  rw [Nat.min_eq_right hlong]
  match base with
  | 0 => rw [Nat.zero_pow (by decide), Nat.zero_pow (Nat.lt_of_lt_of_le (by decide) hlong)]
  | 1 => rw [Nat.one_pow, Nat.one_pow]
  | base + 2 =>
    -- both powers are above the range
    have hcut : 2 ^ 31 ≤ (base + 2) ^ 31 := Nat.pow_le_pow_left (Nat.le_add_left 2 base) 31
    have hexact : (base + 2) ^ 31 ≤ (base + 2) ^ exponent :=
      Nat.pow_le_pow_right (Nat.succ_pos _) hlong
    apply Weight.ext
    rw [toInt_ofInt, toInt_ofInt, clamp_eq_highest, clamp_eq_highest]
    all_goals
      unfold highest
      omega

/-- A power of a clamped number is the clamped power. -/
theorem ofPower_ofInt (n exponent : Nat) :
    ofPower (ofInt n).toInt.toNat exponent = ofInt (n ^ exponent : Nat) := by
  have hn : 0 ≤ (n : Int) := Int.natCast_nonneg n
  rw [ofPower_eq_ofInt]
  apply Weight.ext
  simp only [toInt_ofInt, Int.natCast_pow, Int.toNat_of_nonneg (clamp_nonneg hn), clamp_pow hn]

end Products

end Weight

namespace Scoring

/-- What a token measures: its extent if it is sparse, or else the power of it. -/
def measure (s : Scoring) (extent : Nat) (sparse : Bool) : Nat :=
  if sparse then extent else extent ^ s.exponent

/-- What a level of verification multiplies a measure by. Level zero leaves it as it is. -/
def levelFactor (s : Scoring) (level : Nat) : Int :=
  if level = 0 then 1 else level * s.perLevel.toInt

/-- The weight of a token, in a range with no ends. -/
def exactWeight (s : Scoring) (extent : Nat) (sparse : Bool) (level : Nat) : Int :=
  s.measure extent sparse * s.levelFactor level

variable {s : Scoring} {m n : Nat}

theorem measure_le_measure
    (h : m ≤ n)
    (sparse : Bool) :
    s.measure m sparse ≤ s.measure n sparse := by
  unfold measure
  cases sparse with
  | true => exact h
  | false => exact Nat.pow_le_pow_left h s.exponent

theorem levelFactor_nonneg
    (h : 0 ≤ s.perLevel)
    (level : Nat) :
    0 ≤ s.levelFactor level := by
  unfold levelFactor
  split
  · decide
  · exact Int.mul_nonneg (Int.natCast_nonneg level) h

theorem exactWeight_nonneg
    (h : 0 ≤ s.perLevel)
    (extent : Nat)
    (sparse : Bool)
    (level : Nat) :
    0 ≤ s.exactWeight extent sparse level :=
  Int.mul_nonneg (Int.natCast_nonneg _) (levelFactor_nonneg h level)

theorem exactWeight_le_exactWeight
    (h : 0 ≤ s.perLevel)
    (hle : m ≤ n)
    (sparse : Bool)
    (level : Nat) :
    s.exactWeight m sparse level ≤ s.exactWeight n sparse level :=
  Int.mul_le_mul_of_nonneg_right (Int.ofNat_le.2 (measure_le_measure hle sparse))
    (levelFactor_nonneg h level)

/-- What is not punished weighs what is nearest to its exact weight. -/
theorem tokenWeight_eq_ofInt
    (h : 0 ≤ s.perLevel)
    (extent : Nat)
    (sparse : Bool)
    (level : Nat) :
    s.tokenWeight extent sparse level = .ofInt (s.exactWeight extent sparse level) := by
  have hplain : (if sparse then Weight.ofInt extent
      else Weight.ofPower (Weight.ofInt extent).toInt.toNat s.exponent) =
        .ofInt (s.measure extent sparse) := by
    cases sparse with
    | true => rfl
    | false => exact Weight.ofPower_ofInt extent s.exponent
  unfold tokenWeight exactWeight levelFactor
  dsimp only
  rw [hplain]
  split
  · rw [Int.mul_one]
  · have hfactor : Weight.ofInt level * s.perLevel = .ofInt (level * s.perLevel.toInt) := by
      rw [← Weight.ofInt_mul_ofInt (Int.natCast_nonneg level) h, Weight.ofInt_toInt]
    rw [hfactor, Weight.ofInt_mul_ofInt (Int.natCast_nonneg _)
      (Int.mul_nonneg (Int.natCast_nonneg level) h)]

/--
If no level of verification is punished, a token weighs its exact weight or the greatest one,
whichever is less. So it never weighs less than nothing, and no less for a larger extent.
-/
theorem tokenWeight_clamped_once
    (h : 0 ≤ s.perLevel)
    (sparse : Bool)
    (level : Nat) :
    (∀ extent : Nat,
      (s.tokenWeight extent sparse level).toInt =
          min Weight.highest (s.exactWeight extent sparse level) ∧
        0 ≤ s.tokenWeight extent sparse level) ∧
      ∀ m n : Nat, m ≤ n → s.tokenWeight m sparse level ≤ s.tokenWeight n sparse level := by
  refine ⟨fun extent => ?_, fun m n hle => ?_⟩
  · have hexact := exactWeight_nonneg h extent sparse level
    rw [tokenWeight_eq_ofInt h]
    exact ⟨Weight.clamp_eq_min hexact, Weight.clamp_nonneg hexact⟩
  · rw [tokenWeight_eq_ofInt h, tokenWeight_eq_ofInt h]
    exact Weight.clamp_le_clamp (exactWeight_le_exactWeight h hle sparse level)

/--
A dense extent of 1290 is the largest one with a cube in the range. Beyond it all weigh the same,
unless a level counts nothing.
-/
theorem tokenWeight_clamped_once_sample :
    (({} : Scoring).tokenWeight 1290 false 0).toInt = 2146689000 ∧
      (({} : Scoring).tokenWeight 1291 false 4294967295).toInt = 2147483647 ∧
      (({ perLevel := 0 } : Scoring).tokenWeight 4294967296 false 2147483648).toInt = 0 ∧
      ({} : Scoring).tokenWeight 1290 false 1 ≤ ({} : Scoring).tokenWeight 1291 false 1 := by
  have hdefault : 0 ≤ ({} : Scoring).perLevel := by decide
  have hzero : 0 ≤ ({ perLevel := 0 } : Scoring).perLevel := by decide
  refine ⟨?_, ?_, ?_, (tokenWeight_clamped_once hdefault false 1).2 1290 1291 (by decide)⟩
  · exact ((tokenWeight_clamped_once hdefault false 0).1 1290).1.trans (by decide)
  · exact ((tokenWeight_clamped_once hdefault false 4294967295).1 1291).1.trans (by decide)
  · exact ((tokenWeight_clamped_once hzero false 2147483648).1 4294967296).1.trans (by decide)

/-- A level that is clamped to the upper end of the range, times minus one, misses the lower end. -/
example :
    ({ perLevel := .ofInt (-1) } : Scoring).tokenWeight 1 true 2147483648 ≠
      .ofInt (({ perLevel := .ofInt (-1) } : Scoring).exactWeight 1 true 2147483648) := by
  decide

end Scoring

end BeamChart
