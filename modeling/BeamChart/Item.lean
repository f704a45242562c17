import BeamChart.Ident
import BeamChart.Relation

/-!
# Tokens and items

A token is one piece of input. An item is a symbol at a place of the input:
present if it was seen, or a placeholder for a parent that is still missing.
-/

namespace BeamChart

/-- One piece of input; its concept is a number that a producer gave it. -/
structure Token where
  concept : SymbolId
  position : Nat
  extent : Nat
  /-- A sparse token is weighed by its extent, not by a power of it. -/
  sparse : Bool := false
  context : Option ContextId := none
deriving DecidableEq

/-- The first position behind a token. -/
def Token.stop (t : Token) : Nat :=
  t.position + t.extent

/-- A symbol at a place of the input, with its candidates, best first. -/
structure Item where
  concept : SymbolId := unrecognized
  symbol : Option SymbolId := none
  position : Nat := 0
  extent : Nat := 0
  present : Bool := false
  isAggregate : Bool := false
  registered : Bool := false
  token : Option Token := none
  /-- The item above in a rigid tower, and the slot this item fills there. -/
  fixedParent : Option (ItemId × Relation) := none
  pool : List CandidateId := []
deriving DecidableEq

namespace Item

/-- The first position behind an item. -/
def stop (u : Item) : Nat :=
  u.position + u.extent

/-- The symbol is there and is not the unrecognized one. -/
def isRecognized (u : Item) : Bool :=
  u.symbol.any fun s => s ≠ unrecognized

/-- The item as a token for the next chart. -/
def toToken (u : Item) : Token :=
  { concept := u.concept
    position := u.position
    extent := u.extent
    sparse := u.token.any Token.sparse
    context := u.token.bind Token.context }

@[simp] theorem stop_toToken (u : Item) :
    u.toToken.stop = u.stop := rfl

end Item

end BeamChart
