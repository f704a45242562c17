import BeamChart.Chart.Basic
import BeamChart.PhraseTable.Address

/-!
# Phrase tables

A phrase table records which symbols of a grammar a sequence of ids stands
for. The ids are those of a provider, the grammar that recognizes the parts.
The first ids of a sequence give the address of a cell, and the ids behind
them are its tail in that cell.

The cells form a matrix with one place for each address; a table is refused
if this matrix would not fit the memory limit. The limit is checked before the
matrix is allocated, and nothing else is.
-/

namespace BeamChart

/-- Size limits of a phrase table. -/
structure TableSettings where
  /-- Number of ids in the address. -/
  depth : Nat := 3
  maxBytes : Nat := 167772160
deriving DecidableEq

/--
Why there is no result of an operation on a phrase table. All but the last are
refusals. With `unallocatable` nothing is answered: the run ends.
-/
inductive TableError where
  | capacity (cells bytes limit : Nat)
  | zeroDepth
  | otherGrammar (used recorded : String)
  | missing
  | chart (cause : ChartError)
  /-- More memory is asked for at once than any allocation has. -/
  | unallocatable
deriving DecidableEq

/-- The text of an error. -/
def TableError.message : TableError → String
  | capacity cells bytes limit =>
    "cache matrix of " ++ toString cells ++ " cells needs " ++ toString bytes ++
      " bytes, limit is " ++ toString limit
  | zeroDepth => "cache depth must be at least 1"
  | otherGrammar used recorded =>
    "agenda grammar '" ++ used ++ "' is not the cached grammar '" ++ recorded ++ "'"
  | missing => "no cache configured"
  | chart cause => cause.message
  | unallocatable => "capacity overflow"

/-- A symbol that a phrase stands for, and in which context. -/
structure Meaning where
  symbol : SymbolId
  context : Option ContextId
deriving DecidableEq

/-- The sequences of one address that end in the same ids. -/
structure Tail where
  ids : List SymbolId
  meanings : List Meaning
deriving DecidableEq

/-- Adds a meaning to the entry of a tail, and leaves other entries. -/
def Tail.extend (ids : List SymbolId) (m : Meaning) (e : Tail) : Tail :=
  if e.ids = ids then { e with meanings := e.meanings ++ [m] } else e

/-- What is recorded at one address. -/
structure Cell where
  tails : List Tail := []
  /-- Length of the longest tail. -/
  reach : Nat := 0
deriving DecidableEq

namespace Cell

/-- The entry of a tail. -/
def find? (c : Cell) (ids : List SymbolId) : Option Tail :=
  c.tails.find? fun e => e.ids = ids

/-- The meanings recorded for a tail. -/
def meanings (c : Cell) (ids : List SymbolId) : List Meaning :=
  match c.find? ids with
  | some e => e.meanings
  | none => []

/-- Adds a meaning to the entry of a tail; a tail that has none gets one. -/
def add (c : Cell) (ids : List SymbolId) (m : Meaning) : Cell :=
  match c.find? ids with
  | some _ => { c with tails := c.tails.map (Tail.extend ids m) }
  | none => { tails := c.tails ++ [⟨ids, [m]⟩], reach := max c.reach ids.length }

end Cell

/-- The phrases of a grammar, by the ids of a provider. -/
structure PhraseTable where
  grammar : Grammar
  provider : Grammar
  settings : TableSettings
  /-- The matrix; nothing is stored at an address before its first phrase. -/
  cellAt : Nat → Option Cell := fun _ => none
  /-- Number of recorded pairs of a sequence and a meaning. -/
  phraseCount : Nat := 0
  /-- Number of recorded sequences. -/
  sequenceCount : Nat := 0

namespace PhraseTable

/-- Sizes of a matrix are below this bound. -/
def sizeBound : Nat := 18446744073709551616

/-- Depths are below this bound. -/
def depthBound : Nat := 4294967296

/-- Bytes taken by one cell. -/
def cellBytes : Nat := 8

/-- The bytes of one allocation are below this bound. -/
def allocationBound : Nat := 9223372036854775808

/--
Number of cells of a matrix, if it can be told. From a radix of two on, 64
digits are already too many, so no larger power is computed.
-/
def cellCount? (radix depth : Nat) : Option Nat :=
  let cells := Nat.pow radix (min depth 64)
  if depth < depthBound ∧ cells < sizeBound then some cells else none

/-- Bytes taken by a matrix, held below the size bound. -/
def byteCount (cells : Nat) : Nat :=
  min (cells * cellBytes) (sizeBound - 1)

/-- The error for a matrix that does not fit. -/
def tooLarge (s : TableSettings) (cells : Nat) : TableError :=
  .capacity cells (byteCount cells) s.maxBytes

/--
An empty table, if its matrix fits the limit. The limit may be higher than what
can be allocated at once; a matrix between the two ends the run.
-/
def new (grammar provider : Grammar) (s : TableSettings) : Except TableError PhraseTable :=
  if s.depth = 0 then .error .zeroDepth
  else
    match cellCount? provider.size s.depth with
    | none => .error (tooLarge s (sizeBound - 1))
    | some cells =>
      if s.maxBytes < byteCount cells then .error (tooLarge s cells)
      else if allocationBound ≤ cells * cellBytes then .error .unallocatable
      else .ok { grammar, provider, settings := s }

/-- Ids of the provider are below the radix. -/
def radix (t : PhraseTable) : Nat :=
  t.provider.size

/-- Number of ids in the address. -/
def depth (t : PhraseTable) : Nat :=
  t.settings.depth

/-- Number of cells of the matrix. -/
def cells (t : PhraseTable) : Nat :=
  Nat.pow t.radix t.depth

/-- What is recorded at an address; without a cell this is nothing. -/
def cell (t : PhraseTable) (address : Nat) : Cell :=
  (t.cellAt address).getD {}

/-- Replaces the cell at an address. -/
def setCell (t : PhraseTable) (address : Nat) (c : Cell) : PhraseTable :=
  { t with cellAt := fun a => if a = address then some c else t.cellAt a }

/-- The address of a sequence. -/
def addressOf (t : PhraseTable) (ids : List SymbolId) : Nat :=
  address t.radix t.depth ids

/-- The id is one of the provider, and not the unrecognized one. -/
def accepts (t : PhraseTable) (id : SymbolId) : Bool :=
  id ≠ unrecognized && id < t.radix

/-- The meanings recorded for a sequence. -/
def get (t : PhraseTable) (ids : List SymbolId) : List Meaning :=
  if ids.isEmpty || ids.any fun id => t.radix ≤ id then []
  else (t.cell (t.addressOf ids)).meanings (ids.drop t.depth)

/-- The table with one more meaning of a sequence. -/
def record (t : PhraseTable) (ids : List SymbolId) (m : Meaning) : PhraseTable :=
  let cell := t.cell (t.addressOf ids)
  let tail := ids.drop t.depth
  { t.setCell (t.addressOf ids) (cell.add tail m) with
    phraseCount := t.phraseCount + 1
    sequenceCount := t.sequenceCount + if (cell.find? tail).isSome then 0 else 1 }

/--
Records that a sequence stands for a symbol. Refused if the sequence is empty
or has an id that is not accepted, or if this is known already.
-/
def insert? (t : PhraseTable) (ids : List SymbolId) (m : Meaning) : Option PhraseTable :=
  if ids.isEmpty || !ids.all t.accepts then none
  else if m ∈ (t.cell (t.addressOf ids)).meanings (ids.drop t.depth) then none
  else some (t.record ids m)

/-- Records one declared phrase, if every part of it is recognized. -/
def recordPhrase
    (recognize : String → List Token)
    (acc : Nat × PhraseTable)
    (phrase : SymbolId × String × Option ContextId) : Nat × PhraseTable :=
  let tokens := recognize phrase.2.1
  if tokens.isEmpty || tokens.any fun t => t.concept = unrecognized then acc
  else
    match acc.2.insert? (tokens.map Token.concept) ⟨phrase.1, phrase.2.2⟩ with
    | some t => (acc.1 + 1, t)
    | none => acc

/--
Records the declared phrases of the grammar as the provider recognizes them,
and says how many were new.
-/
def recordPhrases (t : PhraseTable) (recognize : String → List Token) : Nat × PhraseTable :=
  t.grammar.phrases.foldl (recordPhrase recognize) (0, t)

end PhraseTable

end BeamChart
