import BeamChart.Candidate.Basic
import BeamChart.Grammar.Basic
import BeamChart.Item
import BeamChart.Postings
import BeamChart.Scoring

/-!
# Charts

A chart is the working memory for one input: an arena of items, an arena of
candidates, and the postings that find items by symbol and by position.

Arenas only grow, up to the capacities in `Settings`. A refused allocation is
counted and changes nothing else (`allocateItem_of_full` and its companions).
-/

namespace BeamChart

/-- Capacities and policies of a chart. -/
structure Settings where
  itemCapacity : Nat := 1024
  /-- Aggregate items, on top of `itemCapacity`. -/
  aggregateCapacity : Nat := 256
  candidateCapacity : Nat := 16384
  /-- Candidates kept for each item. -/
  beamWidth : Nat := 4
  /-- Readings kept for each candidate. -/
  readingCapacity : Nat := 4
  /-- First position that no token may reach beyond. -/
  window : Nat := 256
  /-- Widest gap between a child and a parent behind it. -/
  maxGap : Nat := 4
  /-- Deepest nesting of connections. -/
  maxDepth : Nat := 32
  /-- Attempts after which new items are not connected; zero for no limit. -/
  attemptBudget : Nat := 0
  scoring : Scoring := {}
deriving DecidableEq

/-- What has happened in a chart since it was empty. -/
structure Tally where
  items : Nat := 0
  aggregates : Nat := 0
  candidates : Nat := 0
  predictions : Nat := 0
  connections : Nat := 0
  attempts : Nat := 0
  attachments : Nat := 0
  conflicts : Nat := 0
  refusals : Nat := 0
  cutoffs : Nat := 0
  tableHits : Nat := 0
  tableMisses : Nat := 0
  overBudget : Bool := false
deriving DecidableEq

/-- What a chart can run out of. -/
inductive Reserve where
  | items
  | aggregates
  | candidates
deriving DecidableEq

/-- How a reserve is called in messages. -/
def Reserve.label : Reserve → String
  | items => "unit"
  | aggregates => "aggregate"
  | candidates => "complex"

/-- Why a chart refuses an operation. -/
inductive ChartError where
  | exhausted (reserve : Reserve)
  | outsideWindow (stop window : Nat)
deriving DecidableEq

/-- The text of an error. -/
def ChartError.message : ChartError → String
  | exhausted reserve => reserve.label ++ " pool exhausted"
  | outsideWindow stop window =>
    "terminal ending at " ++ toString stop ++
      " lies outside the input window of " ++ toString window

/-- The working memory for one input. -/
structure Chart where
  grammar : Grammar
  settings : Settings := {}
  items : Array Item := #[]
  candidates : Array Candidate := #[]
  /-- Number of items that are aggregates. -/
  aggregateCount : Nat := 0
  /-- Items of ordinary symbols, under their buckets. -/
  bySymbol : Postings := .empty
  /-- Present items of ordinary symbols and of none, under their positions. -/
  byPosition : Postings := .empty
  delimiters : Postings := .empty
  markers : Postings := .empty
  /-- The furthest stop of a registered present item. -/
  filled : Nat := 0
  /-- The item that a positional grammar chains the next one to. -/
  tail : Option ItemId := none
  /-- The candidate that was selected last. -/
  best : Option CandidateId := none
  tally : Tally := {}
  /-- Number of connections that are under way. -/
  depth : Nat := 0

namespace Chart

/-- A chart before any input. -/
def new (g : Grammar) (s : Settings) : Chart :=
  { grammar := g, settings := s }

/-- Clears everything but the grammar and the settings. -/
def reset (c : Chart) : Chart :=
  { c with
    items := #[]
    candidates := #[]
    aggregateCount := 0
    bySymbol := .empty
    byPosition := .empty
    delimiters := .empty
    markers := .empty
    filled := 0
    tail := none
    best := none
    tally := {}
    depth := 0 }

/-- Nothing of what a chart has held is left in it. -/
theorem reset_eq_new (c : Chart) :
    c.reset = new c.grammar c.settings := rfl

/-- The item at a place; a place that is not taken reads as a blank item. -/
def item (c : Chart) (u : ItemId) : Item :=
  c.items[u.index]?.getD {}

/-- The candidate at a place; a place that is not taken reads as a seed. -/
def candidate (c : Chart) (x : CandidateId) : Candidate :=
  c.candidates[x.index]?.getD (.seed ⟨0⟩)

/-- Stored weight of a candidate. -/
def weightOf (c : Chart) (x : CandidateId) : Weight :=
  (c.candidate x).weight

/-- Symbol of an item, with the unrecognized one left out. -/
def recognized? (c : Chart) (u : ItemId) : Option SymbolId :=
  (c.item u).symbol.filter fun s => s ≠ unrecognized

/-- Changes an item. -/
def modifyItem (c : Chart) (u : ItemId) (f : Item → Item) : Chart :=
  { c with items := c.items.modify u.index f }

/-- Changes a candidate. -/
def modifyCandidate (c : Chart) (x : CandidateId) (f : Candidate → Candidate) : Chart :=
  { c with candidates := c.candidates.modify x.index f }

/-- Replaces the pool of an item. -/
def setPool (c : Chart) (u : ItemId) (pool : List CandidateId) : Chart :=
  c.modifyItem u fun i => { i with pool }

/-- Changes the tally. -/
def count (c : Chart) (f : Tally → Tally) : Chart :=
  { c with tally := f c.tally }

/-- Counts a refused allocation. -/
def refused (c : Chart) : Chart :=
  c.count fun t => { t with refusals := t.refusals + 1 }

/-- The place that the next item takes. -/
def nextItem (c : Chart) : ItemId := ⟨c.items.size⟩

/-- The place that the next candidate takes. -/
def nextCandidate (c : Chart) : CandidateId := ⟨c.candidates.size⟩

/-- Items that count against the item capacity. -/
def plainItems (c : Chart) : Nat :=
  c.items.size - c.aggregateCount

/-- No further candidate can be stored. -/
def candidatesFull (c : Chart) : Bool :=
  c.settings.candidateCapacity ≤ c.candidates.size

/-- Appends an item. -/
def pushItem (c : Chart) (i : Item) : Chart :=
  { c with
    items := c.items.push i
    tally := { c.tally with items := c.tally.items + 1 } }

/-- Takes a place for an item. -/
def allocateItem (c : Chart) : Except ChartError ItemId × Chart :=
  if c.settings.itemCapacity ≤ c.plainItems then
    (.error (.exhausted .items), c.refused)
  else (.ok c.nextItem, c.pushItem {})

/-- Takes a place for an aggregate. -/
def allocateAggregate (c : Chart) : Except ChartError ItemId × Chart :=
  if c.settings.aggregateCapacity ≤ c.aggregateCount then
    (.error (.exhausted .aggregates), c.refused)
  else
    (.ok c.nextItem,
      ({ c with aggregateCount := c.aggregateCount + 1 }.pushItem { isAggregate := true }).count
        fun t => { t with aggregates := t.aggregates + 1 })

/-- Stores a candidate. -/
def store (c : Chart) (x : Candidate) : Except ChartError CandidateId × Chart :=
  if c.candidatesFull then (.error (.exhausted .candidates), c.refused)
  else
    (.ok c.nextCandidate,
      { c with
        candidates := c.candidates.push x
        tally := { c.tally with candidates := c.tally.candidates + 1 } })

/-- Items that stand in the bucket of a symbol. -/
def itemsOf (c : Chart) (s : SymbolId) : List ItemId :=
  c.bySymbol.under (c.grammar.bucketOf s)

theorem allocateItem_of_full
    {c : Chart}
    (h : c.settings.itemCapacity ≤ c.plainItems) :
    c.allocateItem = (.error (.exhausted .items), c.refused) := by
  simp [allocateItem, h]

theorem allocateAggregate_of_full
    {c : Chart}
    (h : c.settings.aggregateCapacity ≤ c.aggregateCount) :
    c.allocateAggregate = (.error (.exhausted .aggregates), c.refused) := by
  simp [allocateAggregate, h]

theorem store_of_full
    {c : Chart}
    (h : c.candidatesFull = true) (x : Candidate) :
    c.store x = (.error (.exhausted .candidates), c.refused) := by
  simp [store, h]

end Chart

end BeamChart
