import BeamChart.Chart.Basic

/-!
# Attaching and detaching children

`Chart.attach` stores a copy of a parent candidate that has taken a child.
The slot has to be free and the two coverage maps may not intersect; a
rejection is an ordinary outcome (`Attachment`).

A structural relation binds meanings of the child as readings. Sequencing
looks for a marker between the two peers and earns its bonus. A stackable
rule wraps the result in an aggregate item.

`Chart.detach` stores a copy of a candidate without the children of one item.
-/

namespace BeamChart

/-- What came of taking a child. -/
inductive Attachment where
  | attached (id : CandidateId)
  | slotTaken
  | conflict
  | exhausted
deriving DecidableEq

namespace Chart

/-- The two candidates own a common position. -/
def intersect (c : Chart) (x y : CandidateId) : Bool :=
  (c.candidate x).coverage.intersects (c.candidate y).coverage

/--
The leftmost marker item that starts in the gap between two extents and stops
by the start of the right one.
-/
def markerBetween? (c : Chart) (a b : Nat × Nat) : Option ItemId :=
  let (left, right) := if a.1 ≤ b.1 then (a, b) else (b, a)
  c.markers.firstBetween? left.2 right.1 fun m => (c.item m).stop ≤ right.1

/-- Weight of the first candidate of a marker. -/
def markerWeight (c : Chart) (m : ItemId) : Weight :=
  match (c.item m).pool.head? with
  | some x => c.weightOf x
  | none => 0

/-- Records a marker, and earns its bonus in the weight and in the slot. -/
def withMarker (c : Chart) (x : Candidate) (m : ItemId) : Candidate :=
  let extra := c.settings.scoring.markerBonus (c.markerWeight m)
  { x with
    weight := x.weight + extra
    slots := x.slots.set .next
      ((x.slots.get .next).map fun s => { s with bonus := s.bonus + extra })
    marker := some m }

/-- The readings that a child brings to a parent under a relation. -/
def boundReadings (c : Chart) (parent child : Candidate) (r : Relation) : List Reading :=
  match (c.item parent.root).symbol.bind c.grammar.symbol?,
      (c.item child.root).symbol.bind c.grammar.symbol? with
  | some p, some d =>
    ((d.bindingsAt r).filter fun b => b.parentName = p.name).map fun b =>
      { concept := b.concept, symbol := b.symbol, via := some r }
  | _, _ => []

/-- Adds readings while there is room for them. -/
def withReadings (c : Chart) (x : Candidate) (more : List Reading) : Candidate :=
  { x with
    readings := x.readings ++ more.take (c.settings.readingCapacity - x.readings.length) }

/-- The parent with the child, its score and its readings. -/
def joined
    (c : Chart)
    (id : CandidateId)
    (r : Relation)
    (parent child : Candidate) : Candidate :=
  let x := parent.attach r ⟨id, c.settings.scoring.childBonus r⟩ child
  let x :=
    if r.isSequencing then
      match parent.span?, child.span? with
      | some a, some b =>
        match c.markerBetween? a b with
        | some m => c.withMarker x m
        | none => x
      | _, _ => x
    else c.withReadings x (c.boundReadings parent child r)
  { x with pending := true }

/--
Checks the slot and the coverage, and stores what `make` makes of the parent
and the child. Every attempt, success and conflict is counted.
-/
def tryAttach
    (c : Chart)
    (parent child : CandidateId)
    (r : Relation)
    (make : Candidate → Candidate → Candidate) : Attachment × Chart :=
  let p := c.candidate parent
  let d := c.candidate child
  let c := c.count fun t => { t with attempts := t.attempts + 1 }
  if (p.slot r).isSome then (.slotTaken, c)
  else if p.coverage.intersects d.coverage then
    (.conflict, c.count fun t => { t with conflicts := t.conflicts + 1 })
  else
    match c.store (make p d) with
    | (.error _, c) => (.exhausted, c)
    | (.ok id, c) =>
      (.attached id, c.count fun t => { t with attachments := t.attachments + 1 })

/--
Wraps a candidate in an aggregate item of its own. Where there is no room the
candidate stays unwrapped.
-/
def wrap (c : Chart) (x : CandidateId) : Chart :=
  match c.allocateAggregate with
  | (.error _, c) => c
  | (.ok a, c) =>
    let inner := c.candidate x
    match inner.span? with
    | none => c
    | some (start, stop) =>
      let symbol := (c.item inner.root).symbol
      match c.store ((Candidate.seed a).attach .aggregate ⟨x, 0⟩ inner) with
      | (.error _, c) => c
      | (.ok w, c) =>
        let c := c.modifyItem a fun i =>
          { i with
            symbol
            concept := symbol.getD unrecognized
            position := start
            extent := stop - start
            present := true
            pool := i.pool ++ [w] }
        c.modifyCandidate x fun y => { y with wrapper := some a }

/-- Attaches a child to a copy of a parent under a rule. -/
def attach
    (c : Chart)
    (parent child : CandidateId)
    (rule : Rule SymbolId) : Attachment × Chart :=
  match c.tryAttach parent child rule.relation (c.joined child rule.relation) with
  | (.attached id, c) => (.attached id, if rule.stackable then c.wrap id else c)
  | (outcome, c) => (outcome, c)

/-- The child in a slot is rooted at an item. -/
def holdsItem (c : Chart) (u : ItemId) (s : Slot) : Bool :=
  (c.candidate s.child).root = u

/-- Gives up every child that is rooted at an item. -/
def withoutItem (c : Chart) (x : Candidate) (u : ItemId) : Candidate :=
  Relation.all.foldl
    (fun y r =>
      match y.slot r with
      | some s => if c.holdsItem u s then y.detach r (c.candidate s.child) else y
      | none => y)
    x

/--
Stores a candidate's replacement that holds no child of an item; no
replacement is made where there is no such child.
-/
def detach
    (c : Chart)
    (x : CandidateId)
    (u : ItemId) : Except ChartError (Option CandidateId) × Chart :=
  let old := c.candidate x
  if old.slots.filled.any fun e => c.holdsItem u e.2 then
    match c.store (c.withoutItem old u) with
    | (.error e, c) => (.error e, c)
    | (.ok id, c) => (.ok (some id), c)
  else (.ok none, c)

/--
Stores a candidate's replacement whose child under a relation is another one,
for the same bonus. None is made if the new child meets the rest.
-/
def repoint
    (c : Chart)
    (x : CandidateId)
    (r : Relation)
    (newer : CandidateId) : Except ChartError (Option CandidateId) × Chart :=
  let old := c.candidate x
  match old.slot r with
  | none => (.ok none, c)
  | some s =>
    let rest := old.detach r (c.candidate s.child)
    let child := c.candidate newer
    if rest.coverage.intersects child.coverage then
      (.ok none, c.count fun t => { t with conflicts := t.conflicts + 1 })
    else
      let made :=
        { rest.attach r ⟨newer, s.bonus⟩ child with
          readings := old.readings
          marker := old.marker
          pending := true }
      match c.store made with
      | (.error e, c) => (.error e, c)
      | (.ok id, c) => (.ok (some id), c)

end Chart

end BeamChart
