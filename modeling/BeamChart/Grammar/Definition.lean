import BeamChart.Ident
import BeamChart.Relation

/-!
# Definitions of symbols

A definition says everything about one symbol: its kind, what it inherits
from, which children it takes, which meanings it binds and which phrases
stand for it. It is generic in how it refers to other symbols. As declared, a
definition refers by name; in a grammar it refers by number.
-/

namespace BeamChart

universe u

/-- What a symbol is for. -/
inductive SymbolKind where
  | ordinary
  | separator
  | groupMarker
  | alternationMarker
deriving DecidableEq

namespace SymbolKind

/-- Markers of groups and of alternations. -/
def isMarker : SymbolKind → Bool
  | groupMarker | alternationMarker => true
  | ordinary | separator => false

end SymbolKind

/-- What a grammar does with the items of a subordinate chart. -/
inductive GrammarKind where
  /-- Renames the symbols and connects nothing. -/
  | renaming
  /-- Connects children and parents under the relations. -/
  | operational
  /-- Chains the items from left to right. -/
  | positional
deriving DecidableEq

/--
One relation between two symbols. Among the rules of a symbol `target` is the
child; among its parents `target` is the parent, and the placement is seen
from the child.
-/
structure Rule (ρ : Type u) where
  relation : Relation
  target : ρ
  placement : Placement := .anywhere
  /-- Parent and child have to touch. -/
  contact : Bool := false
  /-- What the parent becomes is wrapped in an aggregate. -/
  stackable : Bool := false
  /-- A missing parent counts as present. -/
  implied : Bool := false
deriving DecidableEq

/--
A meaning that a symbol has as the child of a parent named `parentName` under
a relation.
-/
structure Binding (ρ : Type u) where
  relation : Relation
  parentName : String
  concept : String
  symbol : Option ρ := none
deriving DecidableEq

/-- A rigid tower of symbols, outermost first. -/
inductive Composition (ρ : Type u) where
  | single (symbol : ρ)
  | holding (symbol : ρ) (relation : Relation) (inner : Composition ρ)
deriving DecidableEq

namespace Composition

variable {ρ : Type u}

/-- Number of symbols in the tower. -/
def height : Composition ρ → Nat
  | single _ => 1
  | holding _ _ inner => inner.height + 1

/-- The symbols, outermost first, each with the relation to the next one. -/
def levels : Composition ρ → List (ρ × Option Relation)
  | single s => [(s, none)]
  | holding s r inner => (s, some r) :: inner.levels

@[simp] theorem length_levels (c : Composition ρ) :
    c.levels.length = c.height := by
  induction c with
  | single s => rfl
  | holding s r inner ih => simp [levels, height, ih]

end Composition

/-- Everything that is said about one symbol. -/
structure Definition (ρ : Type u) where
  name : String
  kind : SymbolKind := .ordinary
  base : Option ρ := none
  verification : Nat := 0
  senses : List String := []
  rules : List (Rule ρ) := []
  bindings : List (Binding ρ) := []
  composition : Option (Composition ρ) := none
  phrases : List (String × Option ContextId) := []

namespace Definition

variable {ρ : Type u}

/-- The rules under one relation, as declared. -/
def rulesAt (d : Definition ρ) (r : Relation) : List (Rule ρ) :=
  d.rules.filter fun rule => rule.relation = r

/-- The bindings under one relation, as declared. -/
def bindingsAt (d : Definition ρ) (r : Relation) : List (Binding ρ) :=
  d.bindings.filter fun b => b.relation = r

/-- Some child is taken. -/
def hasRules (d : Definition ρ) : Bool :=
  !d.rules.isEmpty

/-- The first symbol that this one is a subclass of. -/
def superclass? (d : Definition ρ) : Option ρ :=
  (d.rulesAt .subclass).head?.map Rule.target

@[simp] theorem mem_rulesAt
    (d : Definition ρ)
    (r : Relation)
    (rule : Rule ρ) :
    rule ∈ d.rulesAt r ↔ rule ∈ d.rules ∧ rule.relation = r := by
  simp [rulesAt]

end Definition

end BeamChart
