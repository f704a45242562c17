import BeamChart.Chart.Feed
import BeamChart.PhraseTable.Basic

/-!
# Looking up phrases

Every recorded phrase in a list of atoms becomes a present, registered item
of a chart, without being connected. From each start the atoms are read one
by one; each meaning of what has been read gives one item. A start without
any phrase gives an unrecognized item over its first atom.

When the chart runs out of room the lookup ends with what it has.
-/

namespace BeamChart

/-- Counts of one lookup. -/
structure LookupCount where
  hits : Nat := 0
  misses : Nat := 0
  items : Nat := 0
deriving DecidableEq

/-- A lookup under way: the chart, the counts, and whether this start has hit. -/
structure Scan where
  chart : Chart
  counts : LookupCount := {}
  hit : Bool := false

namespace Scan

/-- Makes a present, registered item that is not connected. -/
def place
    (s : Scan)
    (symbol : Option SymbolId)
    (t : Token) : Except ChartError Unit × Scan :=
  match s.chart.makeItem symbol t with
  | (.error e, c) => (.error e, { s with chart := c })
  | (.ok u, c) =>
    (.ok (),
      { s with
        chart := c.register u
        counts := { s.counts with items := s.counts.items + 1 } })

/-- Counts the first hit of a start. -/
def countHit (s : Scan) : Scan :=
  if s.hit then s
  else
    { chart := s.chart.count fun t => { t with tableHits := t.tableHits + 1 }
      counts := { s.counts with hits := s.counts.hits + 1 }
      hit := true }

/-- Counts a start without a hit. -/
def countMiss (s : Scan) : Scan :=
  { s with
    chart := s.chart.count fun t => { t with tableMisses := t.tableMisses + 1 }
    counts := { s.counts with misses := s.counts.misses + 1 } }

/-- Makes one item for each meaning of what has been read. -/
def placeAll (position extent : Nat) :
    List Meaning → Scan → Except ChartError Unit × Scan
  | [], s => (.ok (), s)
  | m :: rest, s =>
    let t : Token :=
      { concept := m.symbol, position, extent, context := m.context }
    match s.place (some m.symbol) t with
    | (.error e, s) => (.error e, s)
    | (.ok _, s) => placeAll position extent rest s.countHit

end Scan

namespace PhraseTable

/--
Reads atoms from a start on. The reading ends at an id that is not accepted,
once all digits of the address have led to no cell, and behind the longest
tail of the cell.
-/
def scan (t : PhraseTable) (position : Nat) :
    Cursor → List Token → Scan → Except ChartError Unit × Scan
  | _, [], s => (.ok (), s)
  | k, atom :: rest, s =>
    if t.accepts atom.concept then
      let k := k.advance t.radix t.depth atom.concept
      match t.cellAt k.address with
      | none => if t.depth ≤ k.offset then (.ok (), s) else t.scan position k rest s
      | some cell =>
        if cell.reach < k.tail.length then (.ok (), s)
        else
          match cell.find? k.tail with
          | none => t.scan position k rest s
          | some e =>
            match Scan.placeAll position (atom.stop - position) e.meanings s with
            | (.error e, s) => (.error e, s)
            | (.ok _, s) => t.scan position k rest s
    else (.ok (), s)

/-- Reads from each atom on. -/
def scanAll (t : PhraseTable) : List Token → Scan → Except ChartError Unit × Scan
  | [], s => (.ok (), s)
  | first :: rest, s =>
    match t.scan first.position {} (first :: rest) { s with hit := false } with
    | (.error e, s) => (.error e, s)
    | (.ok _, s) =>
      if s.hit then t.scanAll rest s
      else
        let gap : Token :=
          { concept := unrecognized, position := first.position, extent := first.extent }
        match s.countMiss.place none gap with
        | (.error e, s) => (.error e, s)
        | (.ok _, s) => t.scanAll rest s

/-- Makes an item of a chart for every phrase in a list of atoms. -/
def lookup
    (t : PhraseTable)
    (atoms : List Token)
    (c : Chart) : Except TableError LookupCount × Chart :=
  if c.grammar.serial ≠ t.grammar.serial then
    (.error (.otherGrammar c.grammar.name t.grammar.name), c)
  else
    match t.scanAll atoms { chart := c } with
    | (.ok _, s) => (.ok s.counts, s.chart)
    | (.error (.exhausted _), s) => (.ok s.counts, s.chart)
    | (.error e, s) => (.error (.chart e), s.chart)

end PhraseTable

end BeamChart
