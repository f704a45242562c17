import BeamChart.Ident
import BeamChart.Relation
import BeamChart.Weight

/-!
# Slots of a candidate

A candidate has one slot for each relation. A filled slot names the child
candidate and the bonus that was earned by taking it.

`Slots.get` and `Slots.set` are the only access; `get_set_self` and
`get_set_of_ne` describe one by the other, and `Slots.ext_get` says that the
slots are known once every relation has been looked up.
-/

namespace BeamChart

/-- A filled slot: the child and the bonus earned by taking it. -/
structure Slot where
  child : CandidateId
  bonus : Weight
deriving DecidableEq

/-- One optional slot for each relation. -/
structure Slots where
  subclass : Option Slot := none
  aggregate : Option Slot := none
  property : Option Slot := none
  argument : Option Slot := none
  meaning : Option Slot := none
  run : Option Slot := none
  next : Option Slot := none
deriving DecidableEq

namespace Slots

/-- No slot is filled. -/
def empty : Slots := {}

/-- The slot of a relation. -/
def get (s : Slots) : Relation → Option Slot
  | .subclass => s.subclass
  | .aggregate => s.aggregate
  | .property => s.property
  | .argument => s.argument
  | .meaning => s.meaning
  | .run => s.run
  | .next => s.next

/-- Replaces the slot of a relation. -/
def set (s : Slots) (r : Relation) (slot : Option Slot) : Slots :=
  match r with
  | .subclass => { s with subclass := slot }
  | .aggregate => { s with aggregate := slot }
  | .property => { s with property := slot }
  | .argument => { s with argument := slot }
  | .meaning => { s with meaning := slot }
  | .run => { s with run := slot }
  | .next => { s with next := slot }

/-- Filled slots in the order of their relations. -/
def filled (s : Slots) : List (Relation × Slot) :=
  Relation.all.filterMap fun r => (s.get r).map (r, ·)

@[simp] theorem get_empty (r : Relation) :
    empty.get r = none := by
  cases r <;> rfl

@[simp] theorem get_set_self
    (s : Slots)
    (r : Relation)
    (slot : Option Slot) :
    (s.set r slot).get r = slot := by
  cases r <;> rfl

theorem get_set_of_ne
    (s : Slots)
    {r q : Relation}
    (slot : Option Slot)
    (h : q ≠ r) :
    (s.set r slot).get q = s.get q := by
  cases r <;> cases q <;> first
    | rfl
    | exact absurd rfl h

/-- Slots that agree under every relation are equal. -/
theorem ext_get
    {s t : Slots}
    (h : ∀ r, s.get r = t.get r) :
    s = t := by
  cases s
  cases t
  simp only [Slots.mk.injEq]
  exact ⟨h .subclass, h .aggregate, h .property, h .argument,
    h .meaning, h .run, h .next⟩

@[simp] theorem mem_filled
    (s : Slots)
    (r : Relation)
    (slot : Slot) :
    (r, slot) ∈ s.filled ↔ s.get r = some slot := by
  simp [filled, List.mem_filterMap]

/-- A slot set twice has its last value. -/
@[simp] theorem set_set
    (s : Slots)
    (r : Relation)
    (a b : Option Slot) :
    (s.set r a).set r b = s.set r b := by
  cases r <;> rfl

end Slots

end BeamChart
