import BeamChart.Candidate.Basic
import BeamChart.Item
import BeamChart.Pool
import BeamChart.Postings
import Mathlib.Data.List.Basic
import Mathlib.Data.List.Find
import Mathlib.Order.Monotone.Basic

/-!
# Relocations

A relocation gives items other places in the arena, in the same order, and moves
all positions of the input by one distance. Candidates keep their places.

Coverage maps, candidates, pools and postings are relocated entry by entry. What is
computed from them compares positions with positions and names with names only, so
it is the same on relocated arguments, or relocated itself.
-/

namespace BeamChart

/-- The same token further on in the input. -/
def Token.moved (distance : Nat) (t : Token) : Token :=
  { t with position := t.position + distance }

/-- Other places for items, in the same order, and a distance that positions move by. -/
structure Relocation where
  place : Nat → Nat
  distance : Nat
  increasing : StrictMono place

namespace Relocation

variable (m : Relocation)

/-- The items stay where they are. -/
def Exact : Prop :=
  ∀ n, m.place n = n

def item (u : ItemId) : ItemId :=
  ⟨m.place u.index⟩

def token (t : Token) : Token :=
  t.moved m.distance

def run (a : Run) : Run where
  start := a.start + m.distance
  stop := a.stop + m.distance
  owner := a.owner
  start_lt_stop := Nat.add_lt_add_right a.start_lt_stop m.distance

def extent (a : Nat × Nat) : Nat × Nat :=
  (a.1 + m.distance, a.2 + m.distance)

def coverage (w : Coverage) : Coverage :=
  ⟨w.runs.map m.run⟩

def candidate (x : Candidate) : Candidate :=
  { x with
    root := m.item x.root
    coverage := m.coverage x.coverage
    wrapper := x.wrapper.map m.item
    marker := x.marker.map m.item }

/-- An item of a tower above another one, with the slot that the other one fills. -/
def link (e : ItemId × Relation) : ItemId × Relation :=
  (m.item e.1, e.2)

/-- The keys of postings are symbols, which do not move, or positions. -/
def postings (distance : Nat) (p : Postings) : Postings :=
  ⟨p.entries.map fun e => (e.1 + distance, m.item e.2)⟩

section Names

theorem le_place (n : Nat) :
    n ≤ m.place n := by
  induction n with
  | zero => exact Nat.zero_le _
  | succ n ih => exact Nat.lt_of_le_of_lt ih (m.increasing (Nat.lt_succ_self n))

theorem item_injective :
    Function.Injective m.item := by
  rintro ⟨a⟩ ⟨b⟩ h
  exact congrArg _ (m.increasing.injective (congrArg ItemId.index h))

@[simp] theorem item_inj {u v : ItemId} :
    m.item u = m.item v ↔ u = v :=
  m.item_injective.eq_iff

theorem item_of_exact
    {m : Relocation}
    (h : m.Exact)
    (u : ItemId) :
    m.item u = u :=
  congrArg ItemId.mk (h u.index)

end Names

section Runs

@[simp] theorem stop_token (t : Token) :
    (m.token t).stop = t.stop + m.distance :=
  Nat.add_right_comm t.position m.distance t.extent

theorem run_injective :
    Function.Injective m.run := by
  intro a b h
  ext
  · exact Nat.add_right_cancel (congrArg Run.start h)
  · exact Nat.add_right_cancel (congrArg Run.stop h)
  · have howner : (m.run a).owner = (m.run b).owner := congrArg Run.owner h
    exact howner

@[simp] theorem run_inj {a b : Run} :
    m.run a = m.run b ↔ a = b :=
  m.run_injective.eq_iff

@[simp] theorem overlaps_run (a b : Run) :
    (m.run a).overlaps (m.run b) = a.overlaps b := by
  simp [Run.overlaps, run]

end Runs

section Maps

variable (w v : Coverage)

theorem coverage_injective :
    Function.Injective m.coverage := by
  intro w v h
  exact Coverage.ext (List.map_injective_iff.2 m.run_injective (congrArg Coverage.runs h))

@[simp] theorem coverage_inj {w v : Coverage} :
    m.coverage w = m.coverage v ↔ w = v :=
  m.coverage_injective.eq_iff

theorem coverage_single
    (start stop : Nat)
    (owner : CandidateId) :
    m.coverage (.single start stop owner) =
      .single (start + m.distance) (stop + m.distance) owner := by
  unfold Coverage.single
  by_cases h : start < stop
  · rw [dif_pos h, dif_pos (Nat.add_lt_add_right h _)]
    rfl
  · rw [dif_neg h, dif_neg (by omega)]
    rfl

@[simp] theorem isEmpty_coverage :
    (m.coverage w).isEmpty = w.isEmpty := by
  simp [Coverage.isEmpty, coverage]

@[simp] theorem start?_coverage :
    (m.coverage w).start? = w.start?.map (· + m.distance) := by
  simp [Coverage.start?, coverage, Function.comp_def, run]

@[simp] theorem stop?_coverage :
    (m.coverage w).stop? = w.stop?.map (· + m.distance) := by
  simp [Coverage.stop?, coverage, Function.comp_def, run]

@[simp] theorem span?_coverage :
    (m.coverage w).span? = w.span?.map m.extent := by
  simp only [Coverage.span?, start?_coverage, stop?_coverage]
  cases w.start? <;> cases w.stop? <;> rfl

theorem sweep_map (as bs : List Run) :
    Coverage.sweep (as.map m.run) (bs.map m.run) = Coverage.sweep as bs := by
  induction as, bs using Coverage.sweep.induct with
  | case1 a as b bs h => simp [Coverage.sweep, h]
  | case2 a as b bs h hle ih =>
    have hle' : (m.run a).stop ≤ (m.run b).start := Nat.add_le_add_right hle _
    simp only [List.map_cons] at ih ⊢
    rw [Coverage.sweep, Coverage.sweep, overlaps_run, if_neg h, if_neg h, if_pos hle, if_pos hle']
    exact ih
  | case3 a as b bs h hle ih =>
    have hle' : ¬ (m.run a).stop ≤ (m.run b).start := fun h => hle (Nat.le_of_add_le_add_right h)
    simp only [List.map_cons] at ih ⊢
    rw [Coverage.sweep, Coverage.sweep, overlaps_run, if_neg h, if_neg h, if_neg hle, if_neg hle']
    exact ih
  | case4 as bs h =>
    cases as with
    | nil => simp [Coverage.sweep]
    | cons a as =>
      cases bs with
      | nil => simp [Coverage.sweep]
      | cons b bs => exact (h a as b bs rfl rfl).elim

@[simp] theorem intersects_coverage :
    (m.coverage w).intersects (m.coverage v) = w.intersects v := by
  simp only [Coverage.intersects, span?_coverage]
  cases w.span? with
  | none => rfl
  | some a =>
    cases v.span? with
    | none => rfl
    | some b =>
      simp only [Option.map_some, extent, Nat.add_le_add_iff_right]
      rw [coverage, coverage, sweep_map]

theorem coverage_union :
    m.coverage (w.union v) = (m.coverage w).union (m.coverage v) := by
  simp only [Coverage.union, stop?_coverage, start?_coverage]
  cases w.stop? with
  | none => cases v.start? <;> rfl
  | some b =>
    cases v.start? with
    | none => rfl
    | some c =>
      simp only [Option.map_some, Nat.add_le_add_iff_right]
      split
      · simp [coverage]
      · refine Coverage.ext (List.map_merge fun a _ b _ => ?_)
        simp [run]

@[simp] theorem holds_coverage (a : Run) :
    (m.coverage v).holds (m.run a) = v.holds a := by
  have hbefore : (m.coverage v).runBefore? (m.run a).start = (v.runBefore? a.start).map m.run := by
    simp [Coverage.runBefore?, coverage, List.takeWhile_map, Function.comp_def, run]
  rw [Coverage.holds, Coverage.holds, hbefore]
  cases v.runBefore? a.start with
  | none => rfl
  | some b => simp

theorem coverage_subtract :
    m.coverage (w.subtract v) = (m.coverage w).subtract (m.coverage v) := by
  refine Coverage.ext ?_
  simp only [Coverage.subtract, coverage, List.filter_map]
  congr 2
  funext a
  exact congrArg not (m.holds_coverage v a).symm

end Maps

section Candidates

variable (x y : Candidate)

@[simp] theorem root_candidate : (m.candidate x).root = m.item x.root := rfl

@[simp] theorem slots_candidate : (m.candidate x).slots = x.slots := rfl

@[simp] theorem slot_candidate (r : Relation) : (m.candidate x).slot r = x.slot r := rfl

@[simp] theorem weight_candidate : (m.candidate x).weight = x.weight := rfl

@[simp] theorem pending_candidate : (m.candidate x).pending = x.pending := rfl

@[simp] theorem wrapper_candidate :
    (m.candidate x).wrapper = x.wrapper.map m.item := rfl

@[simp] theorem coverage_candidate :
    (m.candidate x).coverage = m.coverage x.coverage := rfl

@[simp] theorem isEmpty_candidate :
    (m.candidate x).isEmpty = x.isEmpty :=
  m.isEmpty_coverage x.coverage

@[simp] theorem span?_candidate :
    (m.candidate x).span? = x.span?.map m.extent :=
  m.span?_coverage x.coverage

theorem candidate_seed (u : ItemId) :
    m.candidate (.seed u) = .seed (m.item u) := rfl

theorem candidate_attach (r : Relation) (s : Slot) :
    m.candidate (x.attach r s y) = (m.candidate x).attach r s (m.candidate y) := by
  simp only [candidate, Candidate.attach, coverage_union]
  rfl

theorem candidate_detach (r : Relation) :
    m.candidate (x.detach r y) = (m.candidate x).detach r (m.candidate y) := by
  unfold Candidate.detach
  rw [slot_candidate]
  cases x.slot r with
  | none => rfl
  | some s =>
    simp only [candidate, coverage_subtract]
    split <;> rfl

@[simp] theorem congruent_candidate :
    (m.candidate x).Congruent (m.candidate y) ↔ x.Congruent y := by
  simp [Candidate.Congruent, candidate]

end Candidates

section Pools

/-- A list is split alike by tests that agree on its elements. -/
theorem takeWhile_dropWhile_congr
    {α : Type}
    {p q : α → Bool}
    {l : List α}
    (h : ∀ a ∈ l, p a = q a) :
    l.takeWhile p = l.takeWhile q ∧ l.dropWhile p = l.dropWhile q := by
  induction l with
  | nil => exact ⟨rfl, rfl⟩
  | cons a rest ih =>
    obtain ⟨htake, hdrop⟩ := ih fun b hb => h b (List.mem_cons_of_mem a hb)
    have ha := h a List.mem_cons_self
    simp only [List.takeWhile_cons, List.dropWhile_cons, ha, htake, hdrop, and_self]

variable {stored stored' : CandidateId → Candidate} {pool : List CandidateId} {id : CandidateId}

/-- A beam is told by weights and structure, which are relocated all alike. -/
theorem insert_pool
    (width : Nat)
    (hpool : ∀ k ∈ pool, stored' k = m.candidate (stored k))
    (hid : stored' id = m.candidate (stored id)) :
    Pool.insert stored' width pool id = Pool.insert stored width pool id := by
  have hany : (pool.any fun k => (stored' k).Congruent (stored' id)) =
      pool.any fun k => (stored k).Congruent (stored id) := by
    rw [Bool.eq_iff_iff]
    simp only [List.any_eq_true, decide_eq_true_eq]
    refine exists_congr fun k => and_congr_right fun hk => ?_
    rw [hpool k hk, hid, congruent_candidate]
  have hheavier : ∀ k ∈ pool, decide ((stored' id).weight ≤ (stored' k).weight) =
      decide ((stored id).weight ≤ (stored k).weight) := by
    intro k hk
    rw [hpool k hk, hid, weight_candidate, weight_candidate]
  obtain ⟨htake, hdrop⟩ := takeWhile_dropWhile_congr hheavier
  simp only [Pool.insert, hany, htake, hdrop]

end Pools

section Posting

variable (distance : Nat) (p : Postings)

theorem postings_add (key : Nat) (u : ItemId) :
    (m.postings distance p).add (key + distance) (m.item u) =
      m.postings distance (p.add key u) := by
  simp [Postings.add, postings, List.takeWhile_map, List.dropWhile_map, Function.comp_def]

@[simp] theorem under_postings (key : Nat) :
    (m.postings distance p).under (key + distance) = (p.under key).map m.item := by
  simp [Postings.under, postings, List.filter_map, Function.comp_def]

theorem firstBetween?_postings
    {accept accept' : ItemId → Bool}
    (lower upper : Nat)
    (haccept : ∀ u ∈ p.items, accept' (m.item u) = accept u) :
    (m.postings distance p).firstBetween? (lower + distance) (upper + distance) accept' =
      (p.firstBetween? lower upper accept).map m.item := by
  simp only [Postings.firstBetween?, postings, List.find?_map, Option.map_map]
  have hfind : p.entries.find? ((fun e => lower + distance ≤ e.1 && e.1 < upper + distance &&
        accept' e.2) ∘ fun e => (e.1 + distance, m.item e.2)) =
      p.entries.find? fun e => lower ≤ e.1 && e.1 < upper && accept e.2 := by
    refine List.find?_congr fun e he => ?_
    simp [haccept e.2 (List.mem_map_of_mem he)]
  rw [hfind]
  rfl

end Posting

end Relocation

end BeamChart
