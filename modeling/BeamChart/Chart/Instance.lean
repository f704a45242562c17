import BeamChart.Chart.Basic

/-!
# Instances

Filling an item from a token, and posting it where it will be looked for.

An item without symbol is posted by position, a separator as a delimiter, a
marker as a marker. Every other item is posted in the bucket of its symbol
and, if it is present, also by position.
-/

namespace BeamChart

namespace Chart

/-- The readings that a symbol brings along, up to the capacity. -/
def senseReadings (c : Chart) (s : Symbol) (id : SymbolId) : List Reading :=
  (s.senses.take c.settings.readingCapacity).map fun concept =>
    { concept, symbol := some id, via := none }

/-- The leaf of a symbol over a token, stored under the next free place. -/
def leafOf (c : Chart) (u : ItemId) (s : Symbol) (id : SymbolId) (t : Token) : Candidate :=
  let weight := c.settings.scoring.tokenWeight t.extent t.sparse s.verification
  { Candidate.leaf u c.nextCandidate weight t.position t.stop with
    readings := c.senseReadings s id }

/--
Fills an item from a token. A defined symbol gives the item one leaf, which
owns exactly the positions of the token.
-/
def instantiate
    (c : Chart)
    (u : ItemId)
    (symbol : Option SymbolId)
    (t : Token) : Except ChartError Unit × Chart :=
  let symbol := symbol.filter fun s => s ≠ unrecognized
  let c := c.modifyItem u fun i =>
    { i with
      concept := symbol.getD unrecognized
      symbol
      position := t.position
      extent := t.extent
      token := some t
      pool := [] }
  match symbol with
  | none => (.ok (), c)
  | some id =>
    match c.grammar.symbol? id with
    | none => (.ok (), c)
    | some s =>
      match c.store (c.leafOf u s id t) with
      | (.error e, c) => (.error e, c)
      | (.ok x, c) => (.ok (), c.setPool u [x])

/-- Kind of a symbol; one that is not defined counts as ordinary. -/
def kindOf (c : Chart) (s : SymbolId) : SymbolKind :=
  match c.grammar.symbol? s with
  | some d => d.kind
  | none => .ordinary

/-- Posts an ordinary item in its bucket and, if present, by position. -/
def postOrdinary (c : Chart) (u : ItemId) (s : SymbolId) : Chart :=
  let i := c.item u
  let bucket := c.grammar.bucketOf s
  let c :=
    if bucket < c.grammar.size then { c with bySymbol := c.bySymbol.add bucket u } else c
  if i.present then
    { c with
      byPosition := c.byPosition.add i.position u
      tail := if c.grammar.kind = .positional then some u else c.tail }
  else c

/-- Posts an item, once. -/
def register (c : Chart) (u : ItemId) : Chart :=
  let i := c.item u
  if i.registered then c
  else
    let c := c.modifyItem u fun i => { i with registered := true }
    let c := if i.present then { c with filled := max c.filled i.stop } else c
    match c.recognized? u with
    | none => { c with byPosition := c.byPosition.add i.position u }
    | some s =>
      match c.kindOf s with
      | .separator => { c with delimiters := c.delimiters.add i.position u }
      | .groupMarker | .alternationMarker => { c with markers := c.markers.add i.position u }
      | .ordinary => c.postOrdinary u s

/-- Registering an item again changes nothing. -/
theorem register_of_registered
    {c : Chart}
    {u : ItemId}
    (h : (c.item u).registered = true) :
    c.register u = c := by
  simp [register, h]

end Chart

end BeamChart
