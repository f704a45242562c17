import BeamChart.Chart.Feed
import BeamChart.Chart.Lemmas
import BeamChart.Chart.Select
import Mathlib.Logic.Relation

/-!
# Steps of a chart

Every operation of a chart is a sequence of small changes. `Chart.Step` lists
them with what is known when they are made: how a stored candidate has been
made (`Chart.Made`), what a new pool consists of, which item has been seen.

The parameter `strict` tells two settings apart. In a strict chart all
operations have been started by input, so a child is only taken, and given up
again, as the grammar allows (`Chart.Licensed`), and every pool is a beam whose
candidates stem from the old pool of the item (`Chart.Stems`). Such a pool runs empty
for few reasons only (`Chart.Drained`). Without strictness an operation may also be
asked for directly, with items and rules of any kind.

**Results.**
* `Step.grows`: a step changes no more of what is stored than marks on it.
* `Step.candidate_cases`, `Step.pool_cases`, `Step.present_cases`: what is new
  after a step.
-/

namespace BeamChart

/-- A stored candidate up to the marks that may still change. -/
def Candidate.body (x : Candidate) : Candidate :=
  { x with wrapper := none, pending := false }

/-- A symbol whose rules a symbol follows: the symbol itself, or one above it. -/
def Grammar.Level (g : Grammar) (s level : SymbolId) : Prop :=
  level = s ∨ ∃ entry, g.symbol? s = some entry ∧ level ∈ g.ancestry entry.id

namespace Item

/-- What an item stands for, and where. -/
def place (i : Item) : SymbolId × Option SymbolId × Nat × Nat × Option Token :=
  (i.concept, i.symbol, i.position, i.extent, i.token)

/-- The item has got its place. -/
def Settled (i : Item) : Prop :=
  i.symbol.isSome ∨ i.present = true

/-- The concept of the item is its symbol, if it has one. -/
def Named (i : Item) : Prop :=
  i.concept = i.symbol.getD unrecognized

/-- The item has at most got its place. -/
def Fresh (i : Item) : Prop :=
  i.pool = [] ∧ i.present = false ∧ i.isAggregate = false ∧ i.registered = false ∧
    i.fixedParent = none

end Item

namespace Pool

/-- The first candidate is at least as heavy, and of another structure. -/
def Ranked (stored : CandidateId → Candidate) (x y : CandidateId) : Prop :=
  (stored y).weight ≤ (stored x).weight ∧ ¬ (stored x).Congruent (stored y)

/-- At most `width` candidates in the order of falling weight, all of different structure. -/
structure IsBeam
    (stored : CandidateId → Candidate)
    (width : Nat)
    (pool : List CandidateId) : Prop where
  length_le : pool.length ≤ width
  ranked : pool.Pairwise (Ranked stored)

end Pool

namespace Chart

/-- The grammar gives a reason for an item to take another one as its child. -/
inductive Grounds (c : Chart) (u v : ItemId) (r : Relation) : Prop
  /-- A rule of the parent's symbol, or of a superclass of it, takes the child. -/
  | placed
      {s d level : SymbolId}
      {rule : Rule SymbolId}
      (hparent : (c.item u).symbol = some s)
      (hchild : (c.item v).symbol = some d)
      (hlevel : c.grammar.Level s level)
      (hrule : c.grammar.ruleFor? level r d = some rule)
      (hplaced : c.placed u v rule = true) :
      Grounds c u v r
  /-- A parent that counts as present has been made for the child. -/
  | implied
      {s d level : SymbolId}
      {parentRule rule : Rule SymbolId}
      (hparent : (c.item u).symbol = some s)
      (hchild : (c.item v).symbol = some d)
      (hlevel : c.grammar.Level d level)
      (hmem : parentRule ∈ c.parentRules level)
      (htarget : parentRule.target = s)
      (hrelation : parentRule.relation = r)
      (hrule : c.grammar.ruleFor? s r level = some rule)
      (himplied : rule.implied = true) :
      Grounds c u v r

/-- A present item may take another present item as its child. -/
structure Licensed (c : Chart) (u v : ItemId) (r : Relation) : Prop where
  kind : c.grammar.kind ≠ .positional
  parent : (c.item u).present = true
  child : (c.item v).present = true
  grounds : c.Grounds u v r

/-- The item is an instance of a defined symbol over a token that covers something. -/
structure Sown (c : Chart) (u : ItemId) : Prop where
  token : (c.item u).token.isSome = true
  extent : 0 < (c.item u).extent
  defined : ∃ id s, (c.item u).symbol = some id ∧ c.grammar.symbol? id = some s

/-- The place is taken. -/
def Has (c : Chart) (x : CandidateId) : Prop :=
  x.index < c.candidates.size

instance (c : Chart) (x : CandidateId) : Decidable (c.Has x) :=
  inferInstanceAs (Decidable (x.index < c.candidates.size))

/-- One candidate may take the other as its child. -/
structure Fits (c : Chart) (x y : CandidateId) (r : Relation) : Prop where
  parent : c.Has x
  child : c.Has y
  slot : (c.candidate x).slot r = none
  coverage : (c.candidate x).coverage.intersects (c.candidate y).coverage = false

/-- The child under a relation is a candidate of an item. -/
def Holds (c : Chart) (x : CandidateId) (r : Relation) (v : ItemId) : Prop :=
  ∃ s, (c.candidate x).slot r = some s ∧ (c.candidate s.child).root = v

/-- How a candidate comes about that is stored next. -/
inductive Made (strict : Prop) (c : Chart) : Candidate → Prop
  | leaf
      {u : ItemId}
      {s : Symbol}
      {id : SymbolId}
      {t : Token}
      (hitem : u.index < c.items.size)
      (habsent : strict → (c.item u).present = false)
      (hsymbol : (c.item u).symbol = some id)
      (hdefined : c.grammar.symbol? id = some s) :
      Made strict c (c.leafOf u s id t)
  | seed
      {u : ItemId}
      (hitem : u.index < c.items.size)
      (habsent : strict → (c.item u).present = false) :
      Made strict c (.seed u)
  | joined
      {x y : CandidateId}
      {r : Relation}
      (hfits : c.Fits x y r)
      (hstrict : strict → c.Licensed (c.candidate x).root (c.candidate y).root r)
      (hwidth : strict → 0 < c.settings.beamWidth) :
      Made strict c (c.joined y r (c.candidate x) (c.candidate y))
  | chained
      {x y : CandidateId}
      (hfits : c.Fits x y .next)
      (hkind : c.grammar.kind = .positional)
      (hpresent : (c.item (c.candidate y).root).present = true) :
      Made strict c ((c.candidate x).attach .next ⟨y, 0⟩ (c.candidate y))
  | lifted
      {u : ItemId}
      {y : CandidateId}
      {r : Relation}
      (hitem : u.index < c.items.size)
      (hchild : c.Has y)
      (hstrict : strict → (c.item (c.candidate y).root).present = true ∧
        ((c.item u).present = false ∨
          (c.item (c.candidate y).root).fixedParent = some (u, r))) :
      Made strict c ((Candidate.seed u).attach r ⟨y, 0⟩ (c.candidate y))
  | reduced
      {x : CandidateId}
      {u : ItemId}
      (hx : c.Has x)
      (hholds : ∃ r, c.Holds x r u)
      (hstrict : strict → ∃ r, c.Licensed (c.candidate x).root u r) :
      Made strict c (c.withoutItem (c.candidate x) u)
  | repointed
      {x y : CandidateId}
      {r : Relation}
      {s : Slot}
      (hx : c.Has x)
      (hy : c.Has y)
      (hslot : (c.candidate x).slot r = some s)
      (hroot : (c.candidate y).root = (c.candidate s.child).root)
      (hfixed : (c.item (c.candidate y).root).fixedParent = some ((c.candidate x).root, r))
      (hcoverage : ((c.candidate x).detach r (c.candidate s.child)).coverage.intersects
        (c.candidate y).coverage = false) :
      Made strict c
        { ((c.candidate x).detach r (c.candidate s.child)).attach r ⟨y, s.bonus⟩
            (c.candidate y) with
          readings := (c.candidate x).readings
          marker := (c.candidate x).marker
          pending := true }

/-- The candidates are stored, and rooted at the item. -/
def RootedAt (c : Chart) (u : ItemId) (pool : List CandidateId) : Prop :=
  ∀ x ∈ pool, c.Has x ∧ (c.candidate x).root = u

/--
An item that a candidate holds is held by another one as well, unless the root
`u` may take it at any time.
-/
def Keeps (c : Chart) (u : ItemId) (x y : CandidateId) : Prop :=
  ∀ r v, c.Holds x r v → c.Holds y r v ∨ ∃ q, c.Licensed u v q

/-- Each candidate of a new pool keeps what one of the old pool holds. -/
def Stems (c : Chart) (u : ItemId) (old pool : List CandidateId) : Prop :=
  ∀ y ∈ pool, ∃ x ∈ old, c.Keeps u x y

/-- What can leave an item without a candidate. -/
inductive Drained (c : Chart) (u : ItemId) : Prop
  | already
      (hnone : (c.item u).pool = []) :
      Drained c u
  /-- A candidate of the item covers nothing. -/
  | bare
      {x : CandidateId}
      (hx : c.Has x)
      (hroot : (c.candidate x).root = u)
      (hempty : (c.candidate x).isEmpty = true) :
      Drained c u
  /-- There is nothing to lift from the level below. -/
  | below
      {v : ItemId}
      {r : Relation}
      (hfixed : (c.item v).fixedParent = some (u, r))
      (hpresent : (c.item v).present = true)
      (hnone : (c.item v).pool = []) :
      Drained c u
  /-- A child has been given up, and a beam without width keeps nothing. -/
  | given
      {x : CandidateId}
      {v : ItemId}
      {r q : Relation}
      (hwidth : c.settings.beamWidth = 0)
      (hx : x ∈ (c.item u).pool)
      (hholds : c.Holds x r v)
      (hlicensed : c.Licensed u v q) :
      Drained c u

/-- The beam width, or one for a chart whose beams have no width. -/
def poolWidth (c : Chart) : Nat :=
  max 1 c.settings.beamWidth

/-- The pool is a beam; a positional chart keeps one candidate only. -/
structure Ranks (c : Chart) (pool : List CandidateId) : Prop where
  beam : Pool.IsBeam c.candidate c.poolWidth pool
  single : c.grammar.kind = .positional → pool.length ≤ 1

/-- Fills an aggregate from the candidate that it wraps, and tells the candidate. -/
def enclose (c : Chart) (a : ItemId) (x w : CandidateId) (start stop : Nat) : Chart :=
  let symbol := (c.item (c.candidate x).root).symbol
  (c.modifyItem a fun i =>
    { i with
      symbol
      concept := symbol.getD unrecognized
      position := start
      extent := stop - start
      present := true
      pool := i.pool ++ [w] }).modifyCandidate x fun y => { y with wrapper := some a }

/-- One change of a chart. -/
inductive Step (strict : Prop) : Chart → Chart → Prop
  /-- Something is counted that is not the size of an arena, or the depth changes. -/
  | note
      {c : Chart}
      (t : Tally)
      (depth : Nat)
      (hitems : t.items = c.tally.items)
      (haggregates : t.aggregates = c.tally.aggregates)
      (hcandidates : t.candidates = c.tally.candidates)
      (hrefusals : c.tally.refusals ≤ t.refusals) :
      Step strict c { c with tally := t, depth }
  | allocateItem
      {c : Chart}
      (h : c.plainItems < c.settings.itemCapacity) :
      Step strict c (c.pushItem {})
  | allocateAggregate
      {c : Chart}
      (h : c.aggregateCount < c.settings.aggregateCapacity) :
      Step strict c c.pushAggregate
  | store
      {c : Chart}
      {x : Candidate}
      (h : c.candidatesFull = false)
      (hmade : Made strict c x) :
      Step strict c (c.pushCandidate x)
  /-- A blank item gets its place. -/
  | fill
      {c : Chart}
      {u : ItemId}
      (f : Item → Item)
      (hitem : u.index < c.items.size)
      (hblank : c.item u = {})
      (hfresh : (f {}).Fresh)
      (hnamed : (f {}).Named) :
      Step strict c (c.modifyItem u f)
  | pool
      {c : Chart}
      {u : ItemId}
      {pool : List CandidateId}
      (hrooted : c.RootedAt u pool)
      (hstrict : strict → c.Ranks pool)
      (hstems : strict → (c.item u).present = true → c.Stems u (c.item u).pool pool ∨
        ∃ v r, (c.item v).fixedParent = some (u, r) ∧ ∀ y ∈ pool, c.Holds y r v)
      (hdrained : strict → (c.item u).present = true → pool = [] → c.Drained u) :
      Step strict c (c.setPool u pool)
  /-- An item is seen before any of its candidates has taken a child. -/
  | appear
      {c : Chart}
      {u : ItemId}
      (hitem : u.index < c.items.size)
      (hplain : (c.item u).isAggregate = false)
      (hbare : ∀ x, c.Has x → (c.candidate x).root = u → (c.candidate x).slots = .empty)
      (hsown : c.Sown u → (c.item u).pool ≠ [] ∧
        ∀ x, c.Has x → (c.candidate x).root = u → (c.candidate x).isEmpty = false) :
      Step strict c (c.markPresent u)
  /-- An aggregate is made for a candidate. -/
  | wrap
      {c : Chart}
      {a : ItemId}
      {x w : CandidateId}
      {start stop : Nat}
      (hitem : a.index < c.items.size)
      (hblank : c.item a = { isAggregate := true })
      (hx : c.Has x)
      (hw : c.Has w)
      (hfree : (c.candidate x).wrapper = none)
      (hspan : (c.candidate x).span? = some (start, stop))
      (hlifted : c.candidate w =
        (Candidate.seed a).attach .aggregate ⟨x, 0⟩ (c.candidate x))
      (honly : ∀ y, c.Has y → (c.candidate y).root = a → y = w) :
      Step strict c (c.enclose a x w start stop)
  | settle
      {c : Chart}
      {x : CandidateId} :
      Step strict c (c.settle x)
  | register
      {c : Chart}
      {u : ItemId} :
      Step strict c (c.register u)
  | select
      {c : Chart} :
      Step strict c c.select.2

end Chart

end BeamChart
