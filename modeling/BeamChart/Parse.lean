import BeamChart.Ident
import BeamChart.Relation
import BeamChart.Weight

/-!
# Parses

The tree of a candidate, free of the chart that it was found in.
-/

namespace BeamChart

/-- What is known of one node; `via` is the slot that it fills. -/
structure Node where
  via : Option Relation
  symbol : SymbolId
  name : String
  weight : Weight
  start : Nat
  stop : Nat
  readings : List String
  marker : Option String
deriving DecidableEq

/-- A node with its children, in the order of their slots. -/
inductive Parse where
  | node (top : Node) (children : List Parse)

namespace Parse

/-- The topmost node. -/
def top : Parse → Node
  | node t _ => t

/-- The trees below the topmost node. -/
def children : Parse → List Parse
  | node _ cs => cs

/-- The child that fills a slot. -/
def child? (t : Parse) (r : Relation) : Option Parse :=
  t.children.find? fun d => d.top.via = some r

mutual

/-- Number of nodes. -/
def size : Parse → Nat
  | node _ cs => 1 + sizeAll cs

/-- Number of nodes in several trees. -/
def sizeAll : List Parse → Nat
  | [] => 0
  | t :: rest => t.size + sizeAll rest

end

mutual

/-- The nodes with their depths, each before its children. -/
def preorder (depth : Nat) : Parse → List (Nat × Node)
  | node t cs => (depth, t) :: preorderAll (depth + 1) cs

/-- The nodes of several trees with their depths. -/
def preorderAll (depth : Nat) : List Parse → List (Nat × Node)
  | [] => []
  | t :: rest => t.preorder depth ++ preorderAll depth rest

end

mutual

/-- Each node is listed once. -/
theorem length_preorder (depth : Nat) :
    ∀ t : Parse, (t.preorder depth).length = t.size
  | node t cs => by
    simp only [preorder, size, List.length_cons]
    rw [length_preorderAll (depth + 1) cs, Nat.add_comm]

theorem length_preorderAll (depth : Nat) :
    ∀ ts : List Parse, (preorderAll depth ts).length = sizeAll ts
  | [] => rfl
  | t :: rest => by
    simp only [preorderAll, sizeAll, List.length_append]
    rw [length_preorder depth t, length_preorderAll depth rest]

end

end Parse

end BeamChart
