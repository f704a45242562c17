import BeamChart.Candidate.Slots
import BeamChart.Coverage.Basic

/-!
# Candidates

A candidate is one scored structure rooted at an item: what its own token
weighs, at most one child under each relation, and the input positions that
it covers together with its children.

Taking and giving up a child (`Candidate.attach`, `Candidate.detach`) make a
new candidate, so a stored weight stays the sum it was computed as;
`Candidate.summedWeight` is that sum.
-/

namespace BeamChart

/-- A meaning bound to a candidate; `via` is the slot it came from. -/
structure Reading where
  concept : String
  symbol : Option SymbolId
  via : Option Relation
deriving DecidableEq

/-- One scored structure rooted at an item. -/
structure Candidate where
  root : ItemId
  ownWeight : Weight := 0
  weight : Weight := 0
  slots : Slots := .empty
  coverage : Coverage := .empty
  /-- The aggregate item that wraps this candidate. -/
  wrapper : Option ItemId := none
  readings : List Reading := []
  /-- The marker that stands between this candidate and its predecessor. -/
  marker : Option ItemId := none
  /-- Weight of the candidate that this one was made from. -/
  formerWeight : Weight := 0
  /-- The change that made this candidate has not been passed on yet. -/
  pending : Bool := false
deriving DecidableEq

namespace Candidate

/-- A candidate with no weight and no coverage. -/
def seed (root : ItemId) : Candidate := { root }

/-- A leaf that owns one run in its own name. -/
def leaf
    (root : ItemId)
    (self : CandidateId)
    (weight : Weight)
    (start stop : Nat) : Candidate :=
  { root
    ownWeight := weight
    weight
    coverage := .single start stop self }

/-- The slot of a relation. -/
def slot (x : Candidate) (r : Relation) : Option Slot :=
  x.slots.get r

/-- Nothing is covered. -/
def isEmpty (x : Candidate) : Bool :=
  x.coverage.isEmpty

/-- Extent of the covered positions. -/
def span? (x : Candidate) : Option (Nat × Nat) :=
  x.coverage.span?

/-- Weight gained by the step that made this candidate. -/
def gain (x : Candidate) : Weight :=
  x.weight - x.formerWeight

/--
Own weight, then each child's weight and bonus in the order of the slots,
where `weightOf` gives the weights of stored candidates.
-/
def summedWeight
    (x : Candidate)
    (weightOf : CandidateId → Weight) : Weight :=
  x.slots.filled.foldl
    (fun total e => total + weightOf e.2.child + e.2.bonus)
    x.ownWeight

/--
Takes a child. The caller has seen that the slot is free and that the
coverage maps do not intersect.
-/
def attach
    (x : Candidate)
    (r : Relation)
    (s : Slot)
    (child : Candidate) : Candidate :=
  { x with
    slots := x.slots.set r (some s)
    coverage := x.coverage.union child.coverage
    weight := x.weight + child.weight + s.bonus
    formerWeight := x.weight
    wrapper := none
    pending := false }

/--
Gives up the child under a relation, with its coverage, its weight and bonus,
and the readings that came through it.
-/
def detach
    (x : Candidate)
    (r : Relation)
    (child : Candidate) : Candidate :=
  match x.slot r with
  | none => x
  | some s =>
    { x with
      slots := x.slots.set r none
      coverage := x.coverage.subtract child.coverage
      weight := x.weight - child.weight - s.bonus
      readings := x.readings.filter fun m => m.via != some r
      marker := if r.isSequencing then none else x.marker
      formerWeight := x.weight
      wrapper := none
      pending := false }

/-- Same root, weights, children and coverage. -/
def Congruent (x y : Candidate) : Prop :=
  x.root = y.root ∧ x.weight = y.weight ∧ x.ownWeight = y.ownWeight ∧
    x.slots = y.slots ∧ x.coverage = y.coverage

instance (x y : Candidate) : Decidable (x.Congruent y) :=
  inferInstanceAs (Decidable (_ ∧ _))

@[refl] theorem Congruent.refl (x : Candidate) :
    x.Congruent x :=
  ⟨rfl, rfl, rfl, rfl, rfl⟩

@[symm] theorem Congruent.symm
    {x y : Candidate}
    (h : x.Congruent y) :
    y.Congruent x :=
  ⟨h.1.symm, h.2.1.symm, h.2.2.1.symm, h.2.2.2.1.symm, h.2.2.2.2.symm⟩

theorem Congruent.trans
    {x y z : Candidate}
    (h : x.Congruent y)
    (k : y.Congruent z) :
    x.Congruent z :=
  ⟨h.1.trans k.1, h.2.1.trans k.2.1, h.2.2.1.trans k.2.2.1,
    h.2.2.2.1.trans k.2.2.2.1, h.2.2.2.2.trans k.2.2.2.2⟩

/-- A new child stands in its slot. -/
@[simp] theorem slot_attach_self
    (x : Candidate)
    (r : Relation)
    (s : Slot)
    (child : Candidate) :
    (x.attach r s child).slot r = some s := by
  simp [attach, slot]

/-- The other slots stay as they are. -/
theorem slot_attach_of_ne
    (x : Candidate)
    {r q : Relation}
    (s : Slot)
    (child : Candidate)
    (h : q ≠ r) :
    (x.attach r s child).slot q = x.slot q :=
  Slots.get_set_of_ne x.slots (some s) h

/-- The slot is free after its child has been given up. -/
@[simp] theorem slot_detach_self
    (x : Candidate)
    (r : Relation)
    (child : Candidate) :
    (x.detach r child).slot r = none := by
  unfold detach
  split
  · assumption
  · simp [slot]

end Candidate

end BeamChart
