import BeamChart.Chart.Select
import BeamChart.PhraseTable.Lookup

/-!
# Decoders

A decoder turns lists of tokens into parses. It holds a grammar, the settings
of its charts and possibly a phrase table; each input gets an empty chart.

`Decoder.decodeByTable` answers from the phrase table alone if a phrase covers
the whole input, and else decodes the phrases that were found.
-/

namespace BeamChart

/-- The answer to one input. -/
structure Decoded where
  solution : Option Parse
  tally : Tally
  /-- The answer is a recorded phrase. -/
  fromTable : Bool := false

/-- A grammar with the settings of its charts, and perhaps a phrase table. -/
structure Decoder where
  grammar : Grammar
  settings : Settings := {}
  table : Option PhraseTable := none

namespace Decoder

/-- An empty chart. -/
def emptyChart (d : Decoder) : Chart :=
  .new d.grammar d.settings

/--
Feeds tokens one by one. A token outside the window is skipped; once the
chart runs out of room the rest is left.
-/
def feedAll : Chart → List Token → Chart
  | c, [] => c
  | c, t :: rest =>
    match c.feed t with
    | (.ok _, c) => feedAll c rest
    | (.error (.exhausted _), c) => c
    | (.error (.outsideWindow _ _), c) => feedAll c rest

/-- Decodes an input in a chart, whatever it held before. -/
def decodeOn (c : Chart) (tokens : List Token) : Decoded × Chart :=
  let c := (feedAll c.reset tokens).select.2
  ({ solution := c.bestParse?, tally := c.tally }, c)

/-- Decodes an input in an empty chart. -/
def decode (d : Decoder) (tokens : List Token) : Decoded :=
  (decodeOn d.emptyChart tokens).1

/-- Decodes inputs one after another in the same chart. -/
def decodeEach : Chart → List (List Token) → List Decoded
  | _, [] => []
  | c, input :: rest =>
    match decodeOn c input with
    | (answer, c) => answer :: decodeEach c rest

/-- Decodes independent inputs. -/
def decodeAll (d : Decoder) (inputs : List (List Token)) : List Decoded :=
  decodeEach d.emptyChart inputs

/-- The first candidates of the items that cover an extent, with their symbols. -/
def covering (c : Chart) (start stop : Nat) : List (SymbolId × CandidateId) :=
  ((c.byPosition.under start).map c.item).filterMap fun u =>
    if u.isRecognized && u.stop == stop then
      match u.symbol, u.pool.head? with
      | some s, some x => some (s, x)
      | _, _ => none
    else none

/-- The heavier candidate, then the one of the lower symbol, then the later one. -/
def preferLater
    (c : Chart)
    (best : Option (SymbolId × CandidateId))
    (e : SymbolId × CandidateId) : Option (SymbolId × CandidateId) :=
  match best with
  | none => some e
  | some b =>
    if c.weightOf e.2 < c.weightOf b.2 ∨ (c.weightOf e.2 = c.weightOf b.2 ∧ b.1 < e.1) then
      some b
    else some e

/-- The recorded phrase that covers a list of atoms, if it was looked up. -/
def wholePhrase? (c : Chart) (atoms : List Token) : Option CandidateId :=
  match atoms.head?, atoms.getLast? with
  | some first, some last =>
    ((covering c first.position last.stop).foldl (preferLater c) none).map Prod.snd
  | _, _ => none

/-- The recognized items of a chart as tokens, in the order they were made. -/
def phraseTokens (c : Chart) : List Token :=
  (c.items.toList.filter fun u => u.present && u.isRecognized).map Item.toToken

/-- Decodes the phrases that a lookup found; its counts are kept. -/
def decodePhrases (d : Decoder) (staging : Chart) : Decoded :=
  let answer := d.decode (phraseTokens staging)
  { answer with
    tally :=
      { answer.tally with
        tableHits := staging.tally.tableHits
        tableMisses := staging.tally.tableMisses
        refusals := answer.tally.refusals + staging.tally.refusals } }

/-- Decodes provider atoms through the phrase table. -/
def decodeByTable (d : Decoder) (atoms : List Token) : Except TableError Decoded :=
  match d.table with
  | none => .error .missing
  | some t =>
    match t.lookup atoms d.emptyChart with
    | (.error e, _) => .error e
    | (.ok _, staging) =>
      if atoms.isEmpty then .ok (d.decode [])
      else
        match wholePhrase? staging atoms with
        | some x =>
          .ok
            { solution := some (staging.parse x)
              tally := staging.tally
              fromTable := true }
        | none => .ok (d.decodePhrases staging)

end Decoder

end BeamChart
