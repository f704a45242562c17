import BeamChart.Chart.Connect

/-!
# Feeding input

`Chart.feed` takes one token of the chart's own grammar: it makes a present
item, connects it while the budget of attempts lasts, and registers it. A
symbol with a composition gives one item for each level of its tower, from
the inside out; each outer item holds the candidates of the one below and is its fixed parent.
-/

namespace BeamChart

namespace Chart

/-- Connects an item, or notes that the budget of attempts is used up. -/
def connectInBudget (c : Chart) (u : ItemId) : Chart :=
  if c.settings.attemptBudget = 0 || c.tally.attempts < c.settings.attemptBudget then
    c.connect u
  else c.count fun t => { t with overBudget := true }

/-- Marks an item as seen. -/
def markPresent (c : Chart) (u : ItemId) : Chart :=
  c.modifyItem u fun i => { i with present := true }

/-- A present item of a symbol over a token, neither connected nor registered. -/
def makeItem
    (c : Chart)
    (symbol : Option SymbolId)
    (t : Token) : Except ChartError ItemId × Chart :=
  match c.allocateItem with
  | (.error e, c) => (.error e, c)
  | (.ok u, c) =>
    match c.instantiate u symbol t with
    | (.error e, c) => (.error e, c)
    | (.ok _, c) => (.ok u, c.markPresent u)

/-- Lifts all candidates, each as the child of a new one under a relation. -/
def liftAll (u : ItemId) (r : Relation) :
    Chart → List CandidateId → Except ChartError (List CandidateId) × Chart
  | c, [] => (.ok [], c)
  | c, x :: rest =>
    match c.store ((Candidate.seed u).attach r ⟨x, 0⟩ (c.candidate x)) with
    | (.error e, c) => (.error e, c)
    | (.ok id, c) =>
      match liftAll u r c rest with
      | (.error e, c) => (.error e, c)
      | (.ok ids, c) => (.ok (id :: ids), c)

/-- Makes an item the fixed parent of the one below and lifts its candidates. -/
def placeOver
    (c : Chart)
    (u below : ItemId)
    (r : Relation) : Except ChartError Unit × Chart :=
  let c := c.modifyItem below fun i => { i with fixedParent := some (u, r) }
  match liftAll u r c (c.item below).pool with
  | (.error e, c) => (.error e, c)
  | (.ok pool, c) => (.ok (), c.setPool u pool)

/-- Makes the items of a tower over a token, from the inside out. -/
def feedComposition (t : Token) :
    Composition SymbolId → Chart → Except ChartError ItemId × Chart
  | .single s, c =>
    match c.makeItem (some s) t with
    | (.error e, c) => (.error e, c)
    | (.ok u, c) => (.ok u, (c.connectInBudget u).register u)
  | .holding s r inner, c =>
    match feedComposition t inner c with
    | (.error e, c) => (.error e, c)
    | (.ok below, c) =>
      match c.makeItem (some s) t with
      | (.error e, c) => (.error e, c)
      | (.ok u, c) =>
        match c.placeOver u below r with
        | (.error e, c) => (.error e, c)
        | (.ok _, c) => (.ok u, (c.connectInBudget u).register u)

/-- Takes one token as an instance of a symbol, or of none. -/
def feedAs
    (c : Chart)
    (symbol : Option SymbolId)
    (t : Token) : Except ChartError ItemId × Chart :=
  if c.settings.window < t.stop then
    (.error (.outsideWindow t.stop c.settings.window), c)
  else
    match (symbol.bind c.grammar.symbol?).bind fun s => s.composition with
    | some tower => feedComposition t tower c
    | none =>
      match c.makeItem symbol t with
      | (.error e, c) => (.error e, c)
      | (.ok u, c) => (.ok u, (c.connectInBudget u).register u)

/-- The symbol that a token names, if it is one of the grammar. -/
def symbolOf? (c : Chart) (t : Token) : Option SymbolId :=
  ((c.grammar.symbol? t.concept).map Symbol.id).filter fun s => s ≠ unrecognized

/-- Takes one token. -/
def feed (c : Chart) (t : Token) : Except ChartError ItemId × Chart :=
  c.feedAs (c.symbolOf? t) t

end Chart

end BeamChart
