/-!
# Identifiers

Items and candidates are stored in two arenas and named by their place
there. Symbols of a grammar are numbered from one; number zero stands for
input that no symbol was recognized in.
-/

namespace BeamChart

/-- Number of a symbol in its grammar. -/
abbrev SymbolId := Nat

/-- The number carried by input that nothing recognized. -/
def unrecognized : SymbolId := 0

/-- Adaptation context recorded with a phrase. -/
structure ContextId where
  toNat : Nat
deriving DecidableEq

/-- Place of an item in the chart. -/
structure ItemId where
  index : Nat
deriving DecidableEq

/-- Place of a candidate in the chart. -/
structure CandidateId where
  index : Nat
deriving DecidableEq

end BeamChart
