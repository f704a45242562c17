/-!
# Relations between symbols

A candidate holds at most one child under each of seven relations. Six of
them are structural; the seventh, `Relation.next`, only puts peers in
sequence.
-/

namespace BeamChart

/-- The ways in which one symbol can hold another. -/
inductive Relation where
  | subclass
  | aggregate
  | property
  | argument
  | meaning
  | run
  | next
deriving DecidableEq

namespace Relation

/-- All relations, in the order in which slots are visited. -/
def all : List Relation :=
  [subclass, aggregate, property, argument, meaning, run, next]

@[simp] theorem mem_all (r : Relation) : r ∈ all := by
  cases r <;> simp [all]

theorem nodup_all : all.Nodup := by
  decide

/-- Plain sequencing between peers. -/
def isSequencing (r : Relation) : Bool :=
  r == next

end Relation

/-- Where a child stands relative to its parent. -/
inductive Placement where
  | anywhere
  | before
  | after
deriving DecidableEq

namespace Placement

/-- The same placement seen from the other end of the relation. -/
def reversed : Placement → Placement
  | anywhere => anywhere
  | before => after
  | after => before

@[simp] theorem reversed_reversed (p : Placement) :
    p.reversed.reversed = p := by
  cases p <;> rfl

end Placement

end BeamChart
