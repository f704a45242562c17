import BeamChart.Weight
import BeamChart.Relation

/-!
# Scoring policy

How much a token is worth on its own, and what a parent earns by taking a
child. Structural relations earn a fixed bonus. Plain sequencing earns
nothing, unless a marker stands between the two peers: then it earns the
weight of the marker and a bonus for it.
-/

namespace BeamChart

/-- The numbers that weights are computed from. -/
structure Scoring where
  /-- Bonus for a child under a structural relation. -/
  structural : Weight := .ofInt 5
  /-- Bonus for a marker between two peers, on top of its weight. -/
  marker : Weight := .ofInt 5
  /-- The power of its extent that a dense token weighs. -/
  exponent : Nat := 3
  /-- Factor for each level of verification. -/
  perLevel : Weight := .ofInt 2
deriving DecidableEq

namespace Scoring

/--
Weight of a token of the given extent. A sparse token counts its extent, a
dense one a power of it. A verified symbol multiplies the result by its level
times `perLevel`.
-/
def tokenWeight
    (s : Scoring)
    (extent : Nat)
    (sparse : Bool)
    (level : Nat) : Weight :=
  let measure : Weight := .ofInt extent
  let plain : Weight :=
    if sparse then measure
    else .ofPower measure.toInt.toNat s.exponent
  if level = 0 then plain
  else plain * (.ofInt level * s.perLevel)

/-- Bonus for taking a child under a relation. -/
def childBonus (s : Scoring) (r : Relation) : Weight :=
  if r.isSequencing then 0 else s.structural

/-- Bonus for sequencing two peers across a marker of the given weight. -/
def markerBonus (s : Scoring) (weight : Weight) : Weight :=
  weight + s.marker

@[simp] theorem childBonus_next (s : Scoring) :
    s.childBonus .next = 0 := rfl

/-- Every relation but sequencing earns the structural bonus. -/
theorem childBonus_of_ne_next
    (s : Scoring)
    {r : Relation}
    (h : r ≠ .next) :
    s.childBonus r = s.structural := by
  unfold childBonus
  rw [if_neg (by simpa [Relation.isSequencing] using h)]

end Scoring

end BeamChart
