import BeamChart.Coverage.Basic
import Mathlib.Data.List.Nodup
import Mathlib.Data.List.Pairwise

/-!
# Union and difference of coverage maps

A well-formed map is a list of runs in the order of their starts no two of
which share a position (`wellFormed_iff`). The second part does not depend on
the order of the list, so a union is well-formed as soon as its runs are in
order and come from two maps that do not meet.

**Results.**
* `intersects_iff`: the sweep finds a common position if there is one.
* `wellFormed_union`, `runs_union_perm`: the union of maps that do not
  intersect holds the runs of both, each once.
* `runs_subtract_perm`: subtracting a part of a map leaves the other part.
-/

namespace BeamChart

namespace Coverage

/-- The two runs have no position in common. -/
def Apart (r s : Run) : Prop :=
  r.overlaps s = false

theorem apart_iff
    {r s : Run} :
    Apart r s ↔ r.stop ≤ s.start ∨ s.stop ≤ r.start := by
  simp only [Apart, Run.overlaps, Bool.and_eq_false_iff, decide_eq_false_iff_not]
  omega

theorem Apart.symm
    {r s : Run}
    (h : Apart r s) :
    Apart s r := by
  rw [apart_iff] at h ⊢
  exact h.symm

/-- A run is not apart from itself. -/
theorem Apart.ne
    {r s : Run}
    (h : Apart r s) :
    r ≠ s := by
  rintro rfl
  have hrun := r.start_lt_stop
  rw [apart_iff] at h
  omega

/-- Well-formed lists of runs are the ordered ones whose runs are apart. -/
theorem wellFormed_iff
    {m : Coverage} :
    m.WellFormed ↔
      m.runs.Pairwise (fun r s => r.start ≤ s.start) ∧ m.runs.Pairwise Apart := by
  constructor
  · intro h
    refine ⟨h.imp fun {r s} hrs => ?_, h.imp fun {r s} hrs => ?_⟩
    · have hrun := r.start_lt_stop
      omega
    · exact apart_iff.2 (Or.inl hrs)
  · rintro ⟨hsorted, hapart⟩
    refine (hsorted.and hapart).imp ?_
    rintro r s ⟨hle, hrs⟩
    have hrun := s.start_lt_stop
    rcases apart_iff.1 hrs with hrs | hrs
    · exact hrs
    · omega

theorem WellFormed.apart
    {m : Coverage}
    (h : m.WellFormed) :
    m.runs.Pairwise Apart :=
  (wellFormed_iff.1 h).2

/-- No run is listed twice. -/
theorem WellFormed.nodup
    {m : Coverage}
    (h : m.WellFormed) :
    m.runs.Nodup :=
  h.apart.imp Apart.ne

/-- No position lies in two runs. -/
theorem WellFormed.countP_contains_le_one
    {m : Coverage}
    (h : m.WellFormed)
    (p : Nat) :
    m.runs.countP (fun r => r.Contains p) ≤ 1 := by
  have hcount : ∀ runs : List Run, runs.Pairwise (fun r s => r.stop ≤ s.start) →
      runs.countP (fun r => r.Contains p) ≤ 1 := by
    intro runs hruns
    induction hruns with
    | nil => simp
    | @cons r rest hr hrest ih =>
      by_cases hp : r.Contains p
      · have hzero : rest.countP (fun s => s.Contains p) = 0 := by
          rw [List.countP_eq_zero]
          intro s hs hcontains
          have hle := hr s hs
          have hlt := hp.2
          have hge := (of_decide_eq_true hcontains).1
          omega
        simp [hp, hzero]
      · simpa [hp] using ih
  exact hcount m.runs h

section Sweep

/-- A run before another one is apart from all that follow the other. -/
theorem apart_of_stop_le
    {a b s : Run}
    {rest : List Run}
    (hb : (b :: rest).Pairwise fun r s => r.stop ≤ s.start)
    (h : a.stop ≤ b.start)
    (hs : s ∈ b :: rest) :
    a.overlaps s = false := by
  have hrun := b.start_lt_stop
  have hle : b.start ≤ s.start := by
    rcases List.mem_cons.1 hs with rfl | hrest
    · exact Nat.le_refl _
    · have := (List.pairwise_cons.1 hb).1 s hrest
      omega
  exact apart_iff.2 (Or.inl (by omega))

/-- The sweep of two ordered lists finds every pair of overlapping runs. -/
theorem sweep_iff
    {as bs : List Run}
    (ha : as.Pairwise fun r s => r.stop ≤ s.start)
    (hb : bs.Pairwise fun r s => r.stop ≤ s.start) :
    sweep as bs = true ↔ ∃ a ∈ as, ∃ b ∈ bs, a.overlaps b = true := by
  fun_induction sweep as bs with
  | case1 a as b bs hover =>
    simp only [true_iff]
    exact ⟨a, List.mem_cons_self, b, List.mem_cons_self, hover⟩
  | case2 a as b bs hover hle ih =>
    rw [ih (List.pairwise_cons.1 ha).2 hb]
    constructor
    · rintro ⟨x, hx, hrest⟩
      exact ⟨x, List.mem_cons_of_mem a hx, hrest⟩
    · rintro ⟨x, hx, y, hy, hxy⟩
      rcases List.mem_cons.1 hx with rfl | hx
      · rw [apart_of_stop_le hb hle hy] at hxy
        cases hxy
      · exact ⟨x, hx, y, hy, hxy⟩
  | case3 a as b bs hover hle ih =>
    rw [ih ha (List.pairwise_cons.1 hb).2]
    -- the run that is passed over stops before the other list starts
    have hba : b.stop ≤ a.start := by
      rcases apart_iff.1 (eq_false_of_ne_true hover) with h | h
      · exact absurd h hle
      · exact h
    constructor
    · rintro ⟨x, hx, y, hy, hxy⟩
      exact ⟨x, hx, y, List.mem_cons_of_mem b hy, hxy⟩
    · rintro ⟨x, hx, y, hy, hxy⟩
      rcases List.mem_cons.1 hy with rfl | hy
      · rw [Run.overlaps_comm, apart_of_stop_le ha hba hx] at hxy
        cases hxy
      · exact ⟨x, hx, y, hy, hxy⟩
  | case4 as bs hnil =>
    constructor
    · intro h
      cases h
    · rintro ⟨x, hx, y, hy, -⟩
      obtain ⟨a, as', rfl⟩ := List.exists_cons_of_ne_nil (List.ne_nil_of_mem hx)
      obtain ⟨b, bs', rfl⟩ := List.exists_cons_of_ne_nil (List.ne_nil_of_mem hy)
      exact (hnil a as' b bs' rfl rfl).elim

end Sweep

/-- A map without extent owns nothing. -/
theorem runs_eq_nil_of_span?_eq_none
    {m : Coverage}
    (h : m.span? = none) :
    m.runs = [] := by
  obtain ⟨runs⟩ := m
  cases runs with
  | nil => rfl
  | cons r rest => simp [span?, start?, stop?, List.getLast?_cons] at h

/-- Every run lies within the extent of its map. -/
theorem WellFormed.within_span
    {m : Coverage}
    (h : m.WellFormed)
    {a b : Nat}
    (hspan : m.span? = some (a, b))
    {r : Run}
    (hr : r ∈ m.runs) :
    a ≤ r.start ∧ r.stop ≤ b := by
  obtain ⟨runs⟩ := m
  obtain ⟨hsorted, -⟩ := wellFormed_iff.1 h
  have hne : runs ≠ [] := List.ne_nil_of_mem hr
  have hends : a = (runs.head hne).start ∧ b = (runs.getLast hne).stop := by
    simp only [span?, start?, stop?, List.head?_eq_some_head hne,
      List.getLast?_eq_some_getLast hne, Option.map_some, Option.some.injEq,
      Prod.mk.injEq] at hspan
    exact ⟨hspan.1.symm, hspan.2.symm⟩
  rw [hends.1, hends.2]
  constructor
  · cases runs with
    | nil => cases hr
    | cons s rest =>
      rcases List.mem_cons.1 hr with rfl | hrest
      · exact Nat.le_refl _
      · exact (List.pairwise_cons.1 hsorted).1 r hrest
  · rw [← List.dropLast_append_getLast hne] at hr h
    rcases List.mem_append.1 hr with hr | hr
    · have hle := (List.pairwise_append.1 h).2.2 r hr _ (List.mem_singleton_self _)
      have hrun := (runs.getLast hne).start_lt_stop
      omega
    · have hlast : r = runs.getLast hne := List.mem_singleton.1 hr
      subst hlast
      exact Nat.le_refl _

/-- Maps intersect when two of their runs overlap. -/
theorem intersects_iff_overlaps
    {m n : Coverage}
    (hm : m.WellFormed)
    (hn : n.WellFormed) :
    m.intersects n = true ↔ ∃ r ∈ m.runs, ∃ s ∈ n.runs, r.overlaps s = true := by
  unfold intersects
  split
  · rename_i a b c d hspan hspan'
    split
    · rename_i hends
      simp only [Bool.false_eq_true, false_iff]
      rintro ⟨r, hr, s, hs, hover⟩
      have hrun := hm.within_span hspan hr
      have hrun' := hn.within_span hspan' hs
      have hapart : Apart r s := apart_iff.2 (by omega)
      rw [hapart] at hover
      cases hover
    · exact sweep_iff hm hn
  · rename_i hnone
    simp only [Bool.false_eq_true, false_iff]
    rintro ⟨r, hr, s, hs, -⟩
    cases hspan : m.span? with
    | none => simp [runs_eq_nil_of_span?_eq_none hspan] at hr
    | some e =>
      cases hspan' : n.span? with
      | none => simp [runs_eq_nil_of_span?_eq_none hspan'] at hs
      | some e' => exact hnone e.1 e.2 e'.1 e'.2 hspan hspan'

/-- Maps intersect when they own a common position. -/
theorem intersects_iff
    {m n : Coverage}
    (hm : m.WellFormed)
    (hn : n.WellFormed) :
    m.intersects n = true ↔ ∃ p, m.Owns p ∧ n.Owns p := by
  rw [intersects_iff_overlaps hm hn]
  constructor
  · rintro ⟨r, hr, s, hs, hover⟩
    obtain ⟨p, hrp, hsp⟩ := Run.overlaps_iff.1 hover
    exact ⟨p, ⟨r, hr, hrp⟩, ⟨s, hs, hsp⟩⟩
  · rintro ⟨p, ⟨r, hr, hrp⟩, ⟨s, hs, hsp⟩⟩
    exact ⟨r, hr, s, hs, Run.overlaps_iff.2 ⟨p, hrp, hsp⟩⟩

/-- The runs of maps that do not intersect are apart. -/
theorem apart_of_not_intersects
    {m n : Coverage}
    (hm : m.WellFormed)
    (hn : n.WellFormed)
    (h : m.intersects n = false)
    {r s : Run}
    (hr : r ∈ m.runs)
    (hs : s ∈ n.runs) :
    Apart r s := by
  by_contra hover
  have hmeet : m.intersects n = true :=
    (intersects_iff_overlaps hm hn).2 ⟨r, hr, s, hs, eq_true_of_ne_false hover⟩
  rw [h] at hmeet
  cases hmeet

/-- A union holds the runs of both maps, each once. -/
theorem runs_union_perm (m n : Coverage) :
    (m.union n).runs.Perm (m.runs ++ n.runs) := by
  unfold union
  split
  · split
    · exact List.Perm.refl _
    · exact List.merge_perm_append _
  · rename_i hnone hsome
    have hnil : m.runs = [] := by
      simpa [stop?, List.getLast?_eq_none_iff] using hnone
    simp [hnil]
  · rename_i hnone
    have hnil : n.runs = [] := by
      simpa [start?, List.head?_eq_none_iff] using hnone
    simp [hnil]

/-- The runs of a union stand in the order of their starts. -/
theorem sorted_runs_union
    {m n : Coverage}
    (hm : m.WellFormed)
    (hn : n.WellFormed) :
    (m.union n).runs.Pairwise fun r s => r.start ≤ s.start := by
  have hmsorted := (wellFormed_iff.1 hm).1
  have hnsorted := (wellFormed_iff.1 hn).1
  unfold union
  split
  · rename_i b c hstop hstart
    split
    · rename_i hle
      refine List.pairwise_append.2 ⟨hmsorted, hnsorted, ?_⟩
      intro r hr s hs
      obtain ⟨a, hspan⟩ : ∃ a, m.span? = some (a, b) := by
        cases hfirst : m.start? with
        | none => simp_all [start?, List.head?_eq_none_iff]
        | some a => exact ⟨a, by simp [span?, hfirst, hstop]⟩
      obtain ⟨d, hspan'⟩ : ∃ d, n.span? = some (c, d) := by
        cases hlast : n.stop? with
        | none => simp_all [stop?, List.getLast?_eq_none_iff]
        | some d => exact ⟨d, by simp [span?, hstart, hlast]⟩
      have hrun := hm.within_span hspan hr
      have hrun' := hn.within_span hspan' hs
      have hpos := r.start_lt_stop
      omega
    · have hmerge := @List.pairwise_merge _ (fun x y : Run => decide (x.start ≤ y.start))
        (fun x y z hxy hyz => by simp only [decide_eq_true_eq] at *; omega)
        (fun x y => by simp only [Bool.or_eq_true, decide_eq_true_eq]; omega)
        m.runs n.runs
        (hmsorted.imp fun h => decide_eq_true h) (hnsorted.imp fun h => decide_eq_true h)
      exact hmerge.imp fun h => of_decide_eq_true h
  · exact hnsorted
  · exact hmsorted

/-- The union of maps that do not intersect is well-formed. -/
theorem wellFormed_union
    {m n : Coverage}
    (hm : m.WellFormed)
    (hn : n.WellFormed)
    (h : m.intersects n = false) :
    (m.union n).WellFormed := by
  refine wellFormed_iff.2 ⟨sorted_runs_union hm hn, ?_⟩
  rw [(runs_union_perm m n).pairwise_iff Apart.symm, List.pairwise_append]
  exact ⟨hm.apart, hn.apart, fun r hr s hs => apart_of_not_intersects hm hn h hr hs⟩

/-- Of the runs that start by a position, the one that contains it is the last. -/
theorem WellFormed.runBefore?_of_contains
    {n : Coverage}
    (hn : n.WellFormed)
    {r : Run}
    (hr : r ∈ n.runs)
    {p : Nat}
    (hp : r.Contains p) :
    n.runBefore? p = some r := by
  obtain ⟨runs⟩ := n
  obtain ⟨front, back, rfl⟩ := List.append_of_mem hr
  obtain ⟨-, hback, hcross⟩ := List.pairwise_append.1 hn
  have hfront : ∀ s ∈ front, decide (s.start ≤ p) = true := by
    intro s hs
    have hle := hcross s hs r List.mem_cons_self
    have hpos := s.start_lt_stop
    have hstart := hp.1
    exact decide_eq_true (by omega)
  have hrest : back.takeWhile (fun s => decide (s.start ≤ p)) = [] := by
    cases back with
    | nil => rfl
    | cons s rest =>
      have hle := (List.pairwise_cons.1 hback).1 s List.mem_cons_self
      have hstop := hp.2
      rw [List.takeWhile_cons_of_neg]
      simp only [decide_eq_true_eq]
      omega
  unfold runBefore?
  dsimp only
  rw [List.takeWhile_append_of_pos hfront, List.takeWhile_cons_of_pos (by simpa using hp.1),
    hrest]
  simp

/-- A map holds the runs that it consists of. -/
theorem holds_iff
    {n : Coverage}
    (hn : n.WellFormed)
    {r : Run} :
    n.holds r = true ↔ r ∈ n.runs := by
  rw [holds, beq_iff_eq]
  constructor
  · intro h
    exact (List.takeWhile_sublist _).mem (List.mem_of_getLast? h)
  · intro hr
    exact hn.runBefore?_of_contains hr ⟨Nat.le_refl _, r.start_lt_stop⟩

/-- Subtracting keeps a map well-formed. -/
theorem WellFormed.subtract
    {m : Coverage}
    (h : m.WellFormed)
    (n : Coverage) :
    (m.subtract n).WellFormed :=
  h.filter _

/-- Subtracting a part of a map leaves the other part. -/
theorem runs_subtract_perm
    {m n : Coverage}
    (hm : m.WellFormed)
    (hn : n.WellFormed)
    {rest : List Run}
    (h : m.runs.Perm (n.runs ++ rest)) :
    (m.subtract n).runs.Perm rest := by
  have hnodup : (n.runs ++ rest).Nodup := h.nodup_iff.1 hm.nodup
  have hapart := List.disjoint_of_nodup_append hnodup
  have hleft : n.runs.filter (fun r => !n.holds r) = [] := by
    rw [List.filter_eq_nil_iff]
    intro r hr
    simp [(holds_iff hn).2 hr]
  have hright : rest.filter (fun r => !n.holds r) = rest := by
    rw [List.filter_eq_self]
    intro r hr
    have hmem : r ∉ n.runs := fun hrn => hapart hrn hr
    simp [← holds_iff hn] at hmem
    simp [hmem]
  have hsplit := h.filter fun r => !n.holds r
  rw [List.filter_append, hleft, hright, List.nil_append] at hsplit
  exact hsplit

/-- Maps of the same runs are equal. -/
theorem WellFormed.eq_of_perm
    {m n : Coverage}
    (hm : m.WellFormed)
    (hn : n.WellFormed)
    (h : m.runs.Perm n.runs) :
    m = n := by
  refine Coverage.ext (h.eq_of_pairwise (fun r s _ _ hrs hsr => ?_) hm hn)
  -- neither run can stop before the other starts, unless they are one
  have hr := r.start_lt_stop
  have hs := s.start_lt_stop
  omega

/-- What has been united with a map that it does not meet is left by subtracting it. -/
theorem union_subtract
    {m n : Coverage}
    (hm : m.WellFormed)
    (hn : n.WellFormed)
    (h : m.intersects n = false) :
    (m.union n).subtract n = m := by
  have hunion := wellFormed_union hm hn h
  refine (hunion.subtract n).eq_of_perm hm (runs_subtract_perm hunion hn ?_)
  exact (runs_union_perm m n).trans List.perm_append_comm

end Coverage

end BeamChart
