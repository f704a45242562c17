import BeamChart.Ident

/-!
# Coverage maps

A coverage map says which input positions a candidate owns, and on behalf of
which leaf. It is a list of half-open runs in the order of their starts; no
run is empty.

`Coverage.insert?` refuses a run that meets a neighbour, and `Coverage.union`
is meant for maps that do not intersect. Under these conditions the runs stay
apart (`Coverage.WellFormed`), and the map is a finite function from
positions (`Coverage.Owns`) to owners (`Coverage.ownerAt?`).
-/

namespace BeamChart

/-- The positions from `start` up to and without `stop`, with their owner. -/
@[ext]
structure Run where
  start : Nat
  stop : Nat
  owner : CandidateId
  start_lt_stop : start < stop
deriving DecidableEq

namespace Run

/-- A position of the run. -/
def Contains (a : Run) (p : Nat) : Prop :=
  a.start ≤ p ∧ p < a.stop

instance (a : Run) (p : Nat) : Decidable (a.Contains p) :=
  inferInstanceAs (Decidable (_ ∧ _))

/-- Each run starts before the other stops. -/
def overlaps (a b : Run) : Bool :=
  a.start < b.stop && b.start < a.stop

/-- Runs overlap when they share a position. -/
theorem overlaps_iff
    {a b : Run} :
    a.overlaps b = true ↔ ∃ p, a.Contains p ∧ b.Contains p := by
  have ha := a.start_lt_stop
  have hb := b.start_lt_stop
  simp only [overlaps, Bool.and_eq_true, decide_eq_true_eq, Contains]
  constructor
  · intro h
    exact ⟨max a.start b.start, by omega⟩
  · rintro ⟨p, h⟩
    omega

theorem overlaps_comm (a b : Run) :
    a.overlaps b = b.overlaps a := by
  simp [overlaps, Bool.and_comm]

end Run

/-- Owned runs, in the order of their starts. -/
@[ext]
structure Coverage where
  runs : List Run
deriving DecidableEq

namespace Coverage

/-- The map that owns nothing. -/
def empty : Coverage := ⟨[]⟩

/-- The map that owns one run, or nothing if the run would be empty. -/
def single (start stop : Nat) (owner : CandidateId) : Coverage :=
  if h : start < stop then ⟨[⟨start, stop, owner, h⟩]⟩ else empty

/-- Nothing is owned. -/
def isEmpty (m : Coverage) : Bool :=
  m.runs.isEmpty

/-- Start of the first run. -/
def start? (m : Coverage) : Option Nat :=
  m.runs.head?.map Run.start

/-- Stop of the last run. -/
def stop? (m : Coverage) : Option Nat :=
  m.runs.getLast?.map Run.stop

/-- Extent from the start of the first run to the stop of the last one. -/
def span? (m : Coverage) : Option (Nat × Nat) :=
  match m.start?, m.stop? with
  | some a, some b => some (a, b)
  | _, _ => none

/-- Number of positions in the runs. -/
def covered (m : Coverage) : Nat :=
  m.runs.foldl (fun n r => n + (r.stop - r.start)) 0

/-- The last run that starts at or before a position. -/
def runBefore? (m : Coverage) (p : Nat) : Option Run :=
  (m.runs.takeWhile fun r => r.start ≤ p).getLast?

/-- Owner of a position. -/
def ownerAt? (m : Coverage) (p : Nat) : Option CandidateId :=
  (m.runBefore? p).bind fun r =>
    if p < r.stop then some r.owner else none

/--
Whether two lists of runs meet. Of two runs that do not overlap, the one that
stops first is passed over.
-/
def sweep : List Run → List Run → Bool
  | a :: as, b :: bs =>
    if a.overlaps b then true
    else if a.stop ≤ b.start then sweep as (b :: bs)
    else sweep (a :: as) bs
  | _, _ => false
termination_by as bs => as.length + bs.length

/-- Whether some position is claimed by both maps. -/
def intersects (m n : Coverage) : Bool :=
  match m.span?, n.span? with
  | some (a, b), some (c, d) =>
    if b ≤ c ∨ d ≤ a then false else sweep m.runs n.runs
  | _, _ => false

/--
Claims a run. Refused if the run would be empty, or if it meets the run on
either side of its place.
-/
def insert? (m : Coverage) (start stop : Nat) (owner : CandidateId) : Option Coverage :=
  if h : start < stop then
    let r : Run := ⟨start, stop, owner, h⟩
    let left := m.runs.takeWhile fun s => s.start < start
    let right := m.runs.dropWhile fun s => s.start < start
    if left.getLast?.any r.overlaps || right.head?.any r.overlaps then none
    else some ⟨left ++ r :: right⟩
  else none

/--
Union with a map that does not intersect this one. Of runs with one start
this map's come first.
-/
def union (m n : Coverage) : Coverage :=
  match m.stop?, n.start? with
  | some b, some c =>
    if b ≤ c then ⟨m.runs ++ n.runs⟩
    else ⟨m.runs.merge n.runs fun x y => x.start ≤ y.start⟩
  | none, some _ => n
  | _, none => m

/-- The run is the last one at or before its start. -/
def holds (m : Coverage) (r : Run) : Bool :=
  m.runBefore? r.start == some r

/-- Drops the runs that the other map holds. -/
def subtract (m n : Coverage) : Coverage :=
  ⟨m.runs.filter fun r => !n.holds r⟩

/-- Every run stops before the next one starts. -/
def WellFormed (m : Coverage) : Prop :=
  m.runs.Pairwise fun r s => r.stop ≤ s.start

/-- A position of some run. -/
def Owns (m : Coverage) (p : Nat) : Prop :=
  ∃ r ∈ m.runs, r.Contains p

@[simp] theorem span?_empty : empty.span? = none := rfl

@[simp] theorem ownerAt?_empty (p : Nat) : empty.ownerAt? p = none := rfl

@[simp] theorem holds_empty (r : Run) : empty.holds r = false := rfl

theorem wellFormed_empty : empty.WellFormed :=
  List.Pairwise.nil

theorem wellFormed_single (start stop : Nat) (owner : CandidateId) :
    (single start stop owner).WellFormed := by
  unfold single
  split
  · exact List.pairwise_singleton ..
  · exact wellFormed_empty

/-- A single run owns its positions and no others. -/
@[simp] theorem owns_single
    (start stop p : Nat)
    (owner : CandidateId) :
    (single start stop owner).Owns p ↔ start ≤ p ∧ p < stop := by
  unfold single
  split
  · simp [Owns, Run.Contains]
  · simp only [Owns, empty, List.not_mem_nil, false_and, exists_false, false_iff]
    omega

@[simp] theorem union_empty (m : Coverage) : m.union empty = m := by
  unfold union
  cases m.stop? <;> rfl

@[simp] theorem empty_union (m : Coverage) : empty.union m = m := by
  obtain ⟨runs⟩ := m
  cases runs <;> rfl

@[simp] theorem subtract_empty (m : Coverage) : m.subtract empty = m :=
  Coverage.ext (List.filter_eq_self.2 fun _ _ => rfl)

end Coverage

end BeamChart
