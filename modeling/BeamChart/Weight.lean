/-!
# Clamped weights

Scores are integers kept inside the range of a signed 32-bit word. A sum,
difference or product that leaves the range stops at its nearer end, so a
weight never wraps around.

The range is part of the type, and each operation is described by one
equation on `Weight.toInt`. The equations `toInt_add`, `toInt_sub` and
`toInt_mul` say that the exact result is clamped once, and `ofInt_toInt`
says that clamping changes nothing inside the range.
-/

namespace BeamChart

namespace Weight

/-- Least weight that can be represented. -/
def lowest : Int := -2147483648

/-- Greatest weight that can be represented. -/
def highest : Int := 2147483647

/-- The integer of the weight range that is nearest to `n`. -/
def clamp (n : Int) : Int :=
  max lowest (min n highest)

theorem lowest_le_clamp (n : Int) :
    lowest ≤ clamp n := by
  unfold clamp
  omega

theorem clamp_le_highest (n : Int) :
    clamp n ≤ highest := by
  unfold clamp lowest highest
  omega

/-- Clamping leaves the integers of the range as they are. -/
theorem clamp_eq_self
    {n : Int}
    (hlow : lowest ≤ n)
    (hhigh : n ≤ highest) :
    clamp n = n := by
  unfold clamp
  omega

end Weight

/-- An integer between `Weight.lowest` and `Weight.highest`. -/
@[ext]
structure Weight where
  toInt : Int
  lowest_le : Weight.lowest ≤ toInt
  le_highest : toInt ≤ Weight.highest
deriving DecidableEq

namespace Weight

/-- The weight nearest to an integer. -/
def ofInt (n : Int) : Weight :=
  ⟨clamp n, lowest_le_clamp n, clamp_le_highest n⟩

@[simp] theorem toInt_ofInt (n : Int) :
    (ofInt n).toInt = clamp n := rfl

/-- A weight is recovered from its integer. -/
@[simp] theorem ofInt_toInt (w : Weight) :
    ofInt w.toInt = w :=
  Weight.ext (clamp_eq_self w.lowest_le w.le_highest)

instance : Zero Weight := ⟨ofInt 0⟩

instance : Add Weight := ⟨fun a b => ofInt (a.toInt + b.toInt)⟩

instance : Sub Weight := ⟨fun a b => ofInt (a.toInt - b.toInt)⟩

instance : Mul Weight := ⟨fun a b => ofInt (a.toInt * b.toInt)⟩

instance : LE Weight := ⟨fun a b => a.toInt ≤ b.toInt⟩

instance : LT Weight := ⟨fun a b => a.toInt < b.toInt⟩

instance (a b : Weight) : Decidable (a ≤ b) :=
  inferInstanceAs (Decidable (a.toInt ≤ b.toInt))

instance (a b : Weight) : Decidable (a < b) :=
  inferInstanceAs (Decidable (a.toInt < b.toInt))

@[simp] theorem toInt_zero : (0 : Weight).toInt = 0 := rfl

theorem toInt_add (a b : Weight) :
    (a + b).toInt = clamp (a.toInt + b.toInt) := rfl

theorem toInt_sub (a b : Weight) :
    (a - b).toInt = clamp (a.toInt - b.toInt) := rfl

theorem toInt_mul (a b : Weight) :
    (a * b).toInt = clamp (a.toInt * b.toInt) := rfl

theorem le_iff {a b : Weight} : a ≤ b ↔ a.toInt ≤ b.toInt := Iff.rfl

theorem lt_iff {a b : Weight} : a < b ↔ a.toInt < b.toInt := Iff.rfl

/-- Addition does not depend on the order of its terms. -/
theorem add_comm (a b : Weight) : a + b = b + a := by
  apply Weight.ext
  rw [toInt_add, toInt_add, Int.add_comm]

/-- Nothing is added by zero. -/
@[simp] theorem add_zero (a : Weight) : a + 0 = a := by
  apply Weight.ext
  rw [toInt_add, toInt_zero, Int.add_zero]
  exact clamp_eq_self a.lowest_le a.le_highest

/--
The weight nearest to a power of a base. Beyond 31 factors every base of at
least two has already passed `highest`, so no larger power is computed.
-/
def ofPower (base exponent : Nat) : Weight :=
  ofInt (Nat.pow base (min exponent 31))

end Weight

end BeamChart
