import BeamChart.Proofs.Chart.Attach
import BeamChart.Proofs.Candidate.Slots
import BeamChart.Chart.Select

/-!
# Candidates that are chains

A candidate of a sequence is the token of one place, or that token behind a chain
of earlier places (`Chart.Chain`). It weighs as many as it has tokens, covers from
its first place to its last, and reads out as a tree of as many nodes
(`Chain.size_parseWithin`).
-/

namespace BeamChart

namespace Coverage

/-- The runs start at `a` and stop at `b`, and none starts from `b` on. -/
structure Spans (m : Coverage) (a b : Nat) : Prop where
  start : m.start? = some a
  stop : m.stop? = some b
  before : ∀ r ∈ m.runs, r.start < b

theorem Spans.span?
    {m : Coverage}
    {a b : Nat}
    (h : m.Spans a b) :
    m.span? = some (a, b) := by
  rw [Coverage.span?, h.start, h.stop]

theorem Spans.isEmpty
    {m : Coverage}
    {a b : Nat}
    (h : m.Spans a b) :
    m.isEmpty = false := by
  cases hruns : m.runs with
  | nil =>
    have hstart := h.start
    rw [start?, hruns] at hstart
    cases hstart
  | cons r rest => rw [Coverage.isEmpty, hruns, List.isEmpty_cons]

theorem spans_single (k : Nat) (owner : CandidateId) :
    (single k (k + 1) owner).Spans k (k + 1) := by
  rw [single, dif_pos (Nat.lt_succ_self k)]
  refine ⟨rfl, rfl, fun r hr => ?_⟩
  rw [List.mem_singleton.1 hr]
  exact Nat.lt_succ_self k

/-- A run that starts behind all others is merged to their end. -/
theorem merge_singleton
    (a : Run)
    (runs : List Run)
    (h : ∀ r ∈ runs, r.start < a.start) :
    List.merge [a] runs (fun x y => decide (x.start ≤ y.start)) = runs ++ [a] := by
  induction runs with
  | nil => simp
  | cons b rest ih =>
    have hb : ¬ a.start ≤ b.start := Nat.not_le_of_lt (h b List.mem_cons_self)
    rw [List.cons_merge_cons, if_neg (by simpa using hb), ih fun r hr =>
      h r (List.mem_cons_of_mem b hr)]
    rfl

section Behind

variable {m : Coverage} {a b k : Nat} {owner : CandidateId}

theorem not_intersects_of_spans
    (hm : m.Spans a b)
    (hb : b ≤ k) :
    (single k (k + 1) owner).intersects m = false := by
  rw [intersects, (spans_single k owner).span?, hm.span?]
  simp [hb]

/-- A position behind a map makes it longer. -/
theorem spans_union
    (hm : m.Spans a b)
    (hb : b ≤ k) :
    ((single k (k + 1) owner).union m).Spans a (k + 1) := by
  have hle : a < b := by
    have hstart := hm.start
    rw [start?, Option.map_eq_some_iff] at hstart
    obtain ⟨r, hr, rfl⟩ := hstart
    exact hm.before r (List.mem_of_mem_head? hr)
  have hfirst : m.runs.head?.map Run.start = some a := hm.start
  have hruns : ((single k (k + 1) owner).union m).runs =
      m.runs ++ (single k (k + 1) owner).runs := by
    rw [union, (spans_single k owner).stop, hm.start]
    dsimp only
    rw [if_neg (by omega), single, dif_pos (Nat.lt_succ_self k)]
    exact merge_singleton _ m.runs fun r hr => Nat.lt_of_lt_of_le (hm.before r hr) hb
  rw [single, dif_pos (Nat.lt_succ_self k)] at hruns ⊢
  refine ⟨?_, ?_, fun r hr => ?_⟩
  · rw [start?, hruns]
    cases hmr : m.runs with
    | nil =>
      rw [hmr] at hfirst
      cases hfirst
    | cons r rest =>
      rw [hmr] at hfirst
      exact hfirst
  · rw [stop?, hruns, List.getLast?_append]
    rfl
  · rw [hruns] at hr
    rcases List.mem_append.1 hr with hold | hlast
    · exact Nat.lt_succ_of_lt (Nat.lt_of_lt_of_le (hm.before r hold) hb)
    · rw [List.mem_singleton.1 hlast]
      exact Nat.lt_succ_self k

end Behind

end Coverage

namespace Weight

theorem ofInt_one_add (n : Nat) :
    ofInt 1 + ofInt n = ofInt (n + 1 : Nat) := by
  apply Weight.ext
  rw [toInt_add, toInt_ofInt, toInt_ofInt, toInt_ofInt]
  unfold clamp lowest highest
  omega

/-- Small numbers are recovered from their weights. -/
theorem ofInt_le_ofInt
    {m n : Nat}
    (hm : m ≤ highest)
    (hn : n ≤ highest) :
    ofInt m ≤ ofInt n ↔ m ≤ n := by
  rw [le_iff, toInt_ofInt, toInt_ofInt, clamp_eq_self _ hm, clamp_eq_self _ hn]
  · exact Int.ofNat_le
  all_goals
    unfold lowest
    omega

end Weight

namespace Chart

/-- A candidate at place `k` is a chain of `len` tokens, the first of which is at `start`. -/
inductive Chain (c : Chart) (place : Nat → ItemId) : Nat → CandidateId → Nat → Nat → Prop
  | bare
      {k : Nat}
      {x owner : CandidateId}
      (hx : c.Has x)
      (hroot : (c.candidate x).root = place k)
      (hslots : (c.candidate x).slots = .empty)
      (hweight : (c.candidate x).weight = .ofInt 1)
      (hcoverage : (c.candidate x).coverage = .single k (k + 1) owner) :
      Chain c place k x 1 k
  | link
      {k j len start : Nat}
      {x y : CandidateId}
      (hchild : Chain c place j y len start)
      (hj : j < k)
      (hy : y.index < x.index)
      (hx : c.Has x)
      (hroot : (c.candidate x).root = place k)
      (hslots : (c.candidate x).slots = Slots.empty.set .next (some ⟨y, 0⟩))
      (hweight : (c.candidate x).weight = .ofInt (len + 1 : Nat))
      (hcoverage : (c.candidate x).coverage.Spans start (k + 1)) :
      Chain c place k x (len + 1) start

namespace Chain

variable {c c' : Chart} {place : Nat → ItemId} {k len start : Nat} {x y : CandidateId}

theorem has
    (h : c.Chain place k x len start) :
    c.Has x := by
  cases h <;> assumption

theorem root
    (h : c.Chain place k x len start) :
    (c.candidate x).root = place k := by
  cases h <;> assumption

theorem weight
    (h : c.Chain place k x len start) :
    (c.candidate x).weight = .ofInt len := by
  cases h <;> assumption

theorem spans
    (h : c.Chain place k x len start) :
    (c.candidate x).coverage.Spans start (k + 1) := by
  cases h with
  | bare _ _ _ _ hcoverage =>
    rw [hcoverage]
    exact Coverage.spans_single _ _
  | link _ _ _ _ _ _ _ hcoverage => exact hcoverage

theorem isEmpty
    (h : c.Chain place k x len start) :
    (c.candidate x).isEmpty = false :=
  h.spans.isEmpty

/-- The tokens of a chain are at different places. -/
theorem bounds
    (h : c.Chain place k x len start) :
    1 ≤ len ∧ start + len ≤ k + 1 := by
  induction h with
  | bare => omega
  | link _ hj _ _ _ _ _ _ ih => omega

theorem extend
    (h : c.Chain place k x len start)
    (hext : Extends c c') :
    c'.Chain place k x len start := by
  induction h with
  | bare hx hroot hslots hweight hcoverage =>
    have hcongruent := hext.congruent hx
    exact .bare (hext.has hx) (hcongruent.1.trans hroot) (hcongruent.2.2.2.1.trans hslots)
      (hcongruent.2.1.trans hweight) (hcongruent.2.2.2.2.trans hcoverage)
  | link _ hj hy hx hroot hslots hweight hcoverage ih =>
    have hcongruent := hext.congruent hx
    refine .link ih hj hy (hext.has hx) (hcongruent.1.trans hroot)
      (hcongruent.2.2.2.1.trans hslots) (hcongruent.2.1.trans hweight) ?_
    rw [hcongruent.2.2.2.2]
    exact hcoverage

/-- The tree of a chain has a node for each of its tokens. -/
theorem size_parseWithin
    (h : c.Chain place k x len start)
    (room : Nat)
    (hroom : x.index ≤ room)
    (via : Option Relation) :
    (c.parseWithin room via x).size = len := by
  induction h generalizing room via with
  | @bare k x owner hx hroot hslots hweight hcoverage =>
    cases room with
    | zero => rfl
    | succ room =>
      rw [parseWithin, hslots]
      rfl
  | @link k j len start x y hchild hj hy hx hroot hslots hweight hcoverage ih =>
    cases room with
    | zero => omega
    | succ room =>
      have hfilled : (c.candidate x).slots.filled = [(.next, ⟨y, 0⟩)] := by
        rw [hslots]
        rfl
      rw [parseWithin, hfilled]
      have hsize := ih room (by omega) (some .next)
      simp only [List.map_cons, List.map_nil, Parse.size, Parse.sizeAll, hsize]
      omega

end Chain

end Chart

end BeamChart
