import BeamChart.Chart.Basic
import BeamChart.Parse

/-!
# Selecting the best candidate

`Chart.select` chooses among the candidates of present items that cover
something: the heaviest one, then the one whose symbol was declared first,
then the first one in the chart. `Chart.parse` reads a candidate out as a
tree.
-/

namespace BeamChart

namespace Chart

/-- The candidates that may be selected, with the symbols of their items. -/
def contenders (c : Chart) : List (SymbolId × CandidateId) :=
  c.items.toList.flatMap fun u =>
    match u.present, u.symbol with
    | true, some s => (u.pool.filter fun x => !(c.candidate x).isEmpty).map (s, ·)
    | _, _ => []

/-- The heavier of two contenders; of equal ones the one of the lower symbol. -/
def prefer
    (c : Chart)
    (best : Option (SymbolId × CandidateId))
    (e : SymbolId × CandidateId) : Option (SymbolId × CandidateId) :=
  match best with
  | none => some e
  | some b =>
    if c.weightOf b.2 < c.weightOf e.2 ∨ (c.weightOf e.2 = c.weightOf b.2 ∧ e.1 < b.1) then
      some e
    else some b

/-- Selects the best candidate of the present items. -/
def select (c : Chart) : Option CandidateId × Chart :=
  let best := (c.contenders.foldl c.prefer none).map Prod.snd
  (best, { c with best })

/-- The top of the tree of a candidate. -/
def nodeOf (c : Chart) (via : Option Relation) (id : CandidateId) : Node :=
  let x := c.candidate id
  let u := c.item x.root
  let symbol := u.symbol.getD unrecognized
  let extent := x.span?.getD (u.position, u.stop)
  { via
    symbol
    name := c.grammar.nameOf symbol
    weight := x.weight
    start := extent.1
    stop := extent.2
    readings := x.readings.map Reading.concept
    marker := (x.marker.bind fun m => (c.item m).symbol).map c.grammar.nameOf }

/--
The tree of a candidate. Children are stored before their parents, so the
place of a candidate bounds the height of its tree.
-/
def parseWithin (c : Chart) : (room : Nat) → Option Relation → CandidateId → Parse
  | 0, via, id => .node (c.nodeOf via id) []
  | room + 1, via, id =>
    .node (c.nodeOf via id)
      ((c.candidate id).slots.filled.map fun e =>
        c.parseWithin room (some e.1) e.2.child)

/-- The tree of a candidate. -/
def parse (c : Chart) (id : CandidateId) : Parse :=
  c.parseWithin id.index none id

/-- The tree of the candidate that was selected last. -/
def bestParse? (c : Chart) : Option Parse :=
  c.best.map c.parse

end Chart

end BeamChart
