import BeamChart.Chart.Offer

/-!
# Connecting an item

A present item of an ordinary symbol is connected once with what is around
it. It takes over the children that placeholders for its symbol have
collected, and is offered to every parent that the grammar allows. Where no
present parent takes it, a placeholder is predicted. In a positional grammar
the item takes the chain so far instead.

Connections nest, through aggregates and through parents that count as
present. `Chart.connectWithin` bounds the nesting by its first argument;
`Chart.connect` starts from the depth limit of the settings, at which the
chart itself cuts off, so the bound is never what ends a connection.
-/

namespace BeamChart

namespace Chart

/-- The child stands where the rule wants it relative to the parent. -/
def placed (c : Chart) (parent child : ItemId) (rule : Rule SymbolId) : Bool :=
  let p := c.item parent
  let d := c.item child
  match rule.placement with
  | .anywhere => !rule.contact || d.stop == p.position || p.stop == d.position
  | .before =>
    d.position < p.position && d.stop ≤ p.position &&
      p.position - d.stop ≤ c.settings.maxGap &&
      (!rule.contact || p.position == d.stop)
  | .after =>
    p.stop ≤ d.position && (!rule.contact || d.position == p.stop)

/-- Chains the candidates of an item behind the tail of the chain so far. -/
def chain (c : Chart) (u : ItemId) : Chart :=
  match c.tail.filter fun t => t ≠ u with
  | none => c
  | some t =>
    if (c.item u).position < (c.item t).stop then c
    else
      match (c.item t).pool, (c.item u).pool with
      | former :: _, own :: rest =>
        match c.tryAttach own former .next (·.attach .next ⟨former, 0⟩ ·) with
        | (.attached id, c) => c.setPool u (id :: rest)
        | (_, c) => c
      | _, _ => c

/-- Offers the children that a placeholder has collected, as far as they fit. -/
def takeOverWith
    (connect : Connector)
    (c : Chart)
    (u placeholder : ItemId)
    (s : SymbolId) : Chart :=
  match (c.item placeholder).pool.head? with
  | none => c
  | some x =>
    (c.candidate x).slots.filled.foldl
      (fun c e =>
        let child := (c.candidate e.2.child).root
        if child = u then c
        else
          match (c.item child).symbol with
          | none => c
          | some d =>
            match c.grammar.ruleFor? s e.1 d with
            | none => c
            | some rule =>
              if c.placed u child rule then (offerWith connect c u child rule).2 else c)
      c

/-- The item is a placeholder for just this symbol. -/
def awaits (c : Chart) (placeholder : ItemId) (s : SymbolId) : Bool :=
  !(c.item placeholder).present && (c.item placeholder).symbol = some s

/-- Takes over from every placeholder for a symbol or one of its superclasses. -/
def fulfilWith (connect : Connector) (c : Chart) (u : ItemId) (s : SymbolId) : Chart :=
  (c.grammar.ancestry s).foldl
    (fun c level =>
      (c.itemsOf level).foldl
        (fun c p =>
          if p ≠ u && c.awaits p level then takeOverWith connect c u p level else c)
        c)
    c

/-- Lifts the nonempty candidates while there is room for them. -/
def liftPool (u : ItemId) (r : Relation) :
    Chart → List CandidateId → List CandidateId × Chart
  | c, [] => ([], c)
  | c, x :: rest =>
    let child := c.candidate x
    if child.isEmpty then liftPool u r c rest
    else
      match c.store ((Candidate.seed u).attach r ⟨x, 0⟩ child) with
      | (.error _, c) => ([], c)
      | (.ok id, c) =>
        match liftPool u r c rest with
        | (ids, c) => (id :: ids, c)

/-- Gives a parent that counts as present its child, and connects it. -/
def implyWith
    (connect : Connector)
    (c : Chart)
    (parent child : ItemId)
    (rule : Rule SymbolId) : Chart :=
  match c.store (Candidate.seed parent) with
  | (.error _, c) => c
  | (.ok x, c) =>
    let c := c.modifyItem parent fun i => { i with pool := i.pool ++ [x], present := true }
    let c := (offerWith connect c parent child rule).2
    (connect c parent).register parent

/-- Predicts a parent of a symbol at the place of its child. -/
def predictWith
    (connect : Connector)
    (c : Chart)
    (child : ItemId)
    (s : SymbolId)
    (rule : Rule SymbolId) : Chart :=
  match c.allocateItem with
  | (.error _, c) => c
  | (.ok parent, c) =>
    let c := c.count fun t => { t with predictions := t.predictions + 1 }
    let place := c.item child
    let c := c.modifyItem parent fun i =>
      { i with
        concept := s
        symbol := some s
        position := place.position
        extent := place.extent }
    if rule.implied then implyWith connect c parent child rule
    else
      match liftPool parent rule.relation c
          ((c.item child).pool.take c.settings.beamWidth) with
      | (pool, c) => (c.setPool parent pool).register parent

/-- Offers a child to one item, if it is a present parent that may take it. -/
def tryParentWith
    (connect : Connector)
    (c : Chart)
    (child parent : ItemId)
    (s : SymbolId)
    (r : Relation) : Bool × Chart :=
  let p := c.item parent
  if parent = child || !p.present then (false, c)
  else
    match p.symbol with
    | none => (false, c)
    | some q =>
      match c.grammar.ruleFor? q r s with
      | none => (false, c)
      | some rule =>
        if c.placed parent child rule then offerWith connect c parent child rule
        else (false, c)

/--
Offers a child to the present parents that a parent rule speaks of, and
predicts one if none takes it. The rule was declared for `level`, the child's
symbol or a superclass of it.
-/
def seekParentWith
    (connect : Connector)
    (c : Chart)
    (child : ItemId)
    (level : SymbolId)
    (parentRule : Rule SymbolId) : Chart :=
  match (c.item child).symbol,
      c.grammar.ruleFor? parentRule.target parentRule.relation level with
  | some s, some rule =>
    let step (acc : Bool × Chart) (parent : ItemId) : Bool × Chart :=
      match tryParentWith connect acc.2 child parent s parentRule.relation with
      | (taken, c) => (acc.1 || taken, c)
    match (c.itemsOf parentRule.target).foldl step (false, c) with
    | (true, c) => c
    | (false, c) => predictWith connect c child parentRule.target rule
  | _, _ => c

/-- The parent rules of a symbol under every relation but the superclass one. -/
def parentRules (c : Chart) (s : SymbolId) : List (Rule SymbolId) :=
  match c.grammar.symbol? s with
  | none => []
  | some d => (Relation.all.filter fun r => r ≠ .subclass).flatMap d.parentsAt

/-- Seeks parents by every parent rule of a symbol, inherited rules first. -/
def seekParentsWith (connect : Connector) (c : Chart) (u : ItemId) (s : SymbolId) : Chart :=
  (c.grammar.ancestry s).reverse.foldl
    (fun c level =>
      (c.parentRules level).foldl (fun c rule => seekParentWith connect c u level rule) c)
    c

/-- The symbol of a present item, if it is an ordinary symbol of the grammar. -/
def connectable? (c : Chart) (u : ItemId) : Option Symbol :=
  if (c.item u).present then
    ((c.recognized? u).bind c.grammar.symbol?).filter fun s => s.kind = .ordinary
  else none

/-- One connection, with nested ones made by `connect`. -/
def connectBody (connect : Connector) (c : Chart) (u : ItemId) (s : Symbol) : Chart :=
  if c.grammar.kind = .positional then c.chain u
  else
    let c := if s.hasRules then fulfilWith connect c u s.id else c
    seekParentsWith connect c u s.id

/-- Counts a connection that would nest too deeply. -/
def cutOff (c : Chart) : Chart :=
  c.count fun t => { t with cutoffs := t.cutoffs + 1 }

/-- Counts a connection and goes one level down. -/
def enter (c : Chart) : Chart :=
  { c with
    tally := { c.tally with connections := c.tally.connections + 1 }
    depth := c.depth + 1 }

/-- Comes one level up. -/
def leave (c : Chart) : Chart :=
  { c with depth := c.depth - 1 }

/--
Connects an item, with at most `room` connections inside one another. The
chart cuts off at its depth limit.
-/
def connectWithin : (room : Nat) → Connector
  | room, c, u =>
    match c.connectable? u with
    | none => c
    | some s =>
      if c.settings.maxDepth ≤ c.depth then c.cutOff
      else
        match room with
        | 0 => c.cutOff
        | room + 1 => (connectBody (connectWithin room) c.enter u s).leave

/-- Connects an item with what is around it. -/
def connect (c : Chart) (u : ItemId) : Chart :=
  connectWithin c.settings.maxDepth c u

/-- Offers the candidates of a child to a parent. -/
def offer (c : Chart) (parent child : ItemId) (rule : Rule SymbolId) : Bool × Chart :=
  offerWith connect c parent child rule

/-- Takes over from every placeholder for a symbol. -/
def fulfil (c : Chart) (u : ItemId) (s : SymbolId) : Chart :=
  fulfilWith connect c u s

/-- Takes over from one placeholder. -/
def takeOver (c : Chart) (u placeholder : ItemId) (s : SymbolId) : Chart :=
  takeOverWith connect c u placeholder s

/-- Seeks parents by every parent rule of a symbol. -/
def seekParents (c : Chart) (u : ItemId) (s : SymbolId) : Chart :=
  seekParentsWith connect c u s

/-- Seeks parents by one parent rule. -/
def seekParent (c : Chart) (u : ItemId) (level : SymbolId) (rule : Rule SymbolId) : Chart :=
  seekParentWith connect c u level rule

end Chart

end BeamChart
