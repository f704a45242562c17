import BeamChart.Chart.Attach
import BeamChart.Chart.Instance
import BeamChart.Pool

/-!
# Offering a child to a parent

`Chart.offerWith` joins the candidates of a child item with those of a parent
item and keeps the best of both old and new. Older references to the child
are given up first, so no candidate holds two states of one item.

What the parent gained is then passed on: a new aggregate is connected and
registered, and in a rigid tower the item above is refitted and passes on its
own gain (`Chart.cascadeWith`). Towers are climbed along a list that is known
beforehand, so the climb ends.

Connecting an aggregate may offer further children. The operations here
therefore take the connecting operation as an argument.
-/

namespace BeamChart

/-- How an item is connected with what is around it. -/
abbrev Connector := Chart → ItemId → Chart

namespace Chart

/-- Replaces the candidates of a pool that hold a child of an item. -/
def detachAll (c : Chart) (child : ItemId) :
    List CandidateId → Except ChartError (List CandidateId × Bool) × Chart
  | [] => (.ok ([], false), c)
  | x :: rest =>
    match c.detach x child with
    | (.error e, c) => (.error e, c)
    | (.ok replaced, c) =>
      match c.detachAll child rest with
      | (.error e, c) => (.error e, c)
      | (.ok (kept, changed), c) =>
        (.ok (replaced.getD x :: kept, replaced.isSome || changed), c)

/--
Attaches child candidates to parent candidates pair by pair, until a beam is
full or the arena is.
-/
def stage (c : Chart) (rule : Rule SymbolId) :
    (staged : List CandidateId) → List (CandidateId × CandidateId) →
      List CandidateId × Chart
  | staged, [] => (staged, c)
  | staged, (parent, child) :: rest =>
    if c.settings.beamWidth ≤ staged.length || c.candidatesFull then (staged, c)
    else if (c.candidate child).isEmpty then c.stage rule staged rest
    else
      match c.attach parent child rule with
      | (.attached id, c) => c.stage rule (staged ++ [id]) rest
      | (.exhausted, c) => (staged, c)
      | (.slotTaken, c) => c.stage rule staged rest
      | (.conflict, c) => c.stage rule staged rest

/-- The beam of the candidates that cover something. -/
def beam (c : Chart) (ids : List CandidateId) : List CandidateId :=
  Pool.ofList c.candidate c.settings.beamWidth
    (ids.filter fun x => !(c.candidate x).isEmpty)

/-- The items above an item in its rigid tower, from the nearest on. -/
def tower (c : Chart) : (room : Nat) → ItemId → List (ItemId × Relation)
  | 0, _ => []
  | room + 1, u =>
    match (c.item u).fixedParent with
    | none => []
    | some (above, r) => (above, r) :: c.tower room above

/-- Connects and posts an aggregate, unless it has been posted already. -/
def admitWith (connect : Connector) (c : Chart) (a : ItemId) : Chart :=
  if (c.item a).registered then c else (connect c a).register a

/-- Marks a candidate as passed on. -/
def settle (c : Chart) (x : CandidateId) : Chart :=
  c.modifyCandidate x fun y => { y with pending := false }

/--
Passes on the pending candidates of a pool: a wrapped one through its
aggregate, the first other one through `patch`.
-/
def passOnWith
    (connect : Connector)
    (patch : Option (Chart → CandidateId → Chart))
    (c : Chart) : List CandidateId → Chart
  | [] => c
  | x :: rest =>
    if (c.candidate x).pending then
      match (c.candidate x).wrapper, patch with
      | some a, _ => passOnWith connect patch (admitWith connect (c.settle x) a) rest
      | none, some f => passOnWith connect none (f (c.settle x) x) rest
      | none, none => passOnWith connect none (c.settle x) rest
    else passOnWith connect patch c rest

/-- The child under a relation is an older candidate of an item. -/
def holdsOlder
    (c : Chart)
    (x : CandidateId)
    (r : Relation)
    (child : ItemId)
    (newer : CandidateId) : Bool :=
  ((c.candidate x).slot r).any fun s => s.child ≠ newer && c.holdsItem child s

/--
Rebuilds a pool with a newer candidate of a child item in the place of older
ones, and says whether one was replaced.
-/
def refitPool
    (r : Relation)
    (child : ItemId)
    (newer : CandidateId) :
    (c : Chart) → (kept : List CandidateId) → (changed : Bool) → List CandidateId →
      Except ChartError (List CandidateId × Bool) × Chart
  | c, kept, changed, [] => (.ok (kept, changed), c)
  | c, kept, changed, x :: rest =>
    if c.holdsOlder x r child newer then
      match c.repoint x r newer with
      | (.error e, c) => (.error e, c)
      | (.ok replaced, c) =>
        let kept := Pool.insert c.candidate c.settings.beamWidth kept (replaced.getD x)
        refitPool r child newer c kept (changed || replaced.isSome) rest
    else
      let kept := Pool.insert c.candidate c.settings.beamWidth kept x
      refitPool r child newer c kept changed rest

/-- Refits the pool of the item above, and says whether it changed. -/
def refit
    (c : Chart)
    (above : ItemId)
    (r : Relation)
    (child : ItemId)
    (newer : CandidateId) : Bool × Chart :=
  match refitPool r child newer c [] false (c.item above).pool with
  | (.ok (kept, true), c) => (true, c.setPool above kept)
  | (_, c) => (false, c)

/-- Passes on what an item gained, and refits the tower above it. -/
def climbWith (connect : Connector) : List (ItemId × Relation) → Chart → ItemId → Chart
  | [], c, u => passOnWith connect none c (c.item u).pool
  | (above, r) :: higher, c, u =>
    passOnWith connect
      (some fun c newer =>
        match c.refit above r u newer with
        | (true, c) => climbWith connect higher c above
        | (false, c) => c)
      c (c.item u).pool

/-- Passes on what an item gained. -/
def cascadeWith (connect : Connector) (c : Chart) (u : ItemId) : Chart :=
  climbWith connect (c.tower c.items.size u) c u

/--
Offers the candidates of a child to a parent, and says whether one of them
was taken.
-/
def offerWith
    (connect : Connector)
    (c : Chart)
    (parent child : ItemId)
    (rule : Rule SymbolId) : Bool × Chart :=
  match c.detachAll child (c.item parent).pool with
  | (.error _, c) => (false, c)
  | (.ok (existing, changed), c) =>
    let pairs := existing.flatMap fun x => (c.item child).pool.map (x, ·)
    match c.stage rule [] pairs with
    | (staged, c) =>
      let kept := c.beam (staged ++ existing)
      if staged.isEmpty then
        (false, if changed then c.setPool parent kept else c)
      else (true, cascadeWith connect (c.setPool parent kept) parent)

end Chart

end BeamChart
