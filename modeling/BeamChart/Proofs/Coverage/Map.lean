import BeamChart.Proofs.Coverage.Union
import Mathlib.Order.Bounds.Basic
import Mathlib.Order.Interval.Finset.Nat

/-!
# Coverage maps as finite functions

A coverage map that has been built from runs tells who owns each position, and every
operation can be told by that alone (`built_faithful`): looking up a position, claiming a
run, asking whether two maps meet, uniting maps that do not, the extent, and the number of
owned positions.

Claiming a run looks at its two neighbours only. In a well-formed map that is enough: what
lies before the left neighbour stops before it, and what lies behind the right one starts
behind it (`WellFormed.insert?_eq_some_iff`).
-/

namespace BeamChart

namespace Coverage

variable {m n : Coverage} {p start stop : Nat} {owner : CandidateId}

/-- The maps that can be built from runs. -/
inductive Built : Coverage → Prop
  | empty : Built empty
  | single (start stop : Nat) (owner : CandidateId) : Built (single start stop owner)
  | insert
      {m n : Coverage}
      {start stop : Nat}
      {owner : CandidateId}
      (hm : Built m)
      (hn : m.insert? start stop owner = some n) :
      Built n
  | union
      {m n : Coverage}
      (hm : Built m)
      (hn : Built n)
      (h : m.intersects n = false) :
      Built (m.union n)
  | subtract
      {m : Coverage}
      (hm : Built m)
      (n : Coverage) :
      Built (m.subtract n)

section Lookup

theorem mem_of_runBefore?
    {r : Run}
    (h : m.runBefore? p = some r) :
    r ∈ m.runs ∧ r.start ≤ p := by
  have hmem := List.mem_of_getLast? h
  exact ⟨(List.takeWhile_sublist _).mem hmem,
    of_decide_eq_true (List.all_eq_true.1 List.all_takeWhile r hmem)⟩

/-- The owner of a position is that of the run that contains it. -/
theorem WellFormed.ownerAt?_eq_some_iff
    (h : m.WellFormed) :
    m.ownerAt? p = some owner ↔ ∃ r ∈ m.runs, r.Contains p ∧ r.owner = owner := by
  constructor
  · intro howner
    obtain ⟨r, hr, hlast⟩ := Option.bind_eq_some_iff.1 howner
    obtain ⟨hmem, hle⟩ := mem_of_runBefore? hr
    split at hlast
    · rename_i hlt
      exact ⟨r, hmem, ⟨hle, hlt⟩, Option.some.inj hlast⟩
    · cases hlast
  · rintro ⟨r, hr, hp, rfl⟩
    simp [ownerAt?, h.runBefore?_of_contains hr hp, hp.2]

/-- A position without an owner lies in no run. -/
theorem WellFormed.ownerAt?_eq_none_iff
    (h : m.WellFormed) :
    m.ownerAt? p = none ↔ ¬ m.Owns p := by
  rw [Option.eq_none_iff_forall_ne_some]
  constructor
  · rintro hnone ⟨r, hr, hp⟩
    exact hnone r.owner (h.ownerAt?_eq_some_iff.2 ⟨r, hr, hp, rfl⟩)
  · intro hfree owner howner
    obtain ⟨r, hr, hp, -⟩ := h.ownerAt?_eq_some_iff.1 howner
    exact hfree ⟨r, hr, hp⟩

end Lookup

section Insert

variable {r : Run} {runs : List Run}

/-- A run that stays clear of the last one before its place stays clear of all before it. -/
theorem stop_le_of_getLast?
    (h : runs.Pairwise fun r s => r.stop ≤ s.start)
    (hbefore : ∀ s ∈ runs, s.start < r.start)
    (hlast : runs.getLast?.any r.overlaps = false)
    {s : Run}
    (hs : s ∈ runs) :
    s.stop ≤ r.start := by
  have hne : runs ≠ [] := List.ne_nil_of_mem hs
  have hneighbour : (runs.getLast hne).stop ≤ r.start := by
    rw [List.getLast?_eq_some_getLast hne, Option.any_some] at hlast
    have hstart := hbefore _ (List.getLast_mem hne)
    have hpos := r.start_lt_stop
    rcases apart_iff.1 hlast with hle | hle <;> omega
  rw [← List.dropLast_append_getLast hne] at hs h
  rcases List.mem_append.1 hs with hs | hs
  · have hle := (List.pairwise_append.1 h).2.2 s hs _ (List.mem_singleton_self _)
    have hpos := (runs.getLast hne).start_lt_stop
    omega
  · rw [List.mem_singleton.1 hs]
    exact hneighbour

/-- A run that stays clear of the first one behind its place stays clear of all behind it. -/
theorem stop_le_of_head?
    (h : runs.Pairwise fun r s => r.stop ≤ s.start)
    (hbehind : ∀ s ∈ runs, r.start ≤ s.start)
    (hfirst : runs.head?.any r.overlaps = false)
    {s : Run}
    (hs : s ∈ runs) :
    r.stop ≤ s.start := by
  cases runs with
  | nil => cases hs
  | cons t rest =>
    have hneighbour : r.stop ≤ t.start := by
      rw [List.head?_cons, Option.any_some] at hfirst
      have hstart := hbehind t List.mem_cons_self
      have hpos := t.start_lt_stop
      rcases apart_iff.1 hfirst with hle | hle <;> omega
    rcases List.mem_cons.1 hs with rfl | hrest
    · exact hneighbour
    · have hle := (List.pairwise_cons.1 h).1 s hrest
      have hpos := t.start_lt_stop
      omega

/-- What stays clear of all runs stays clear of a neighbour. -/
theorem any_overlaps_eq_false
    {neighbour : Option Run}
    (hmem : ∀ s ∈ neighbour, s ∈ runs)
    (hapart : ∀ s ∈ runs, Apart r s) :
    neighbour.any r.overlaps = false := by
  cases neighbour with
  | none => rfl
  | some s => exact hapart s (hmem s rfl)

/-- Behind the runs that start before a position all others start there or later. -/
theorem WellFormed.le_start_of_mem_dropWhile
    (h : m.WellFormed)
    {s : Run}
    (hs : s ∈ m.runs.dropWhile fun s => s.start < start) :
    start ≤ s.start := by
  have hsorted := (wellFormed_iff.1 h).1.sublist
    (List.dropWhile_sublist fun s : Run => decide (s.start < start))
  have hhead := List.head?_dropWhile_not (fun s : Run => decide (s.start < start)) m.runs
  cases hback : m.runs.dropWhile fun s => s.start < start with
  | nil =>
    rw [hback] at hs
    cases hs
  | cons t rest =>
    rw [hback] at hs hsorted hhead
    have ht : start ≤ t.start := by simpa using hhead
    rcases List.mem_cons.1 hs with rfl | hrest
    · exact ht
    · exact Nat.le_trans ht ((List.pairwise_cons.1 hsorted).1 s hrest)

/-- The map with one more run at its place. -/
def splice (m : Coverage) (r : Run) : Coverage :=
  ⟨(m.runs.takeWhile fun s => s.start < r.start) ++
    r :: m.runs.dropWhile fun s => s.start < r.start⟩

theorem runs_splice_perm (m : Coverage) (r : Run) :
    (m.splice r).runs.Perm (r :: m.runs) :=
  List.perm_middle.trans (.of_eq (congrArg (List.cons r) List.takeWhile_append_dropWhile))

/-- A run stays clear of all others if it stays clear of those next to its place. -/
theorem WellFormed.neighbours_iff
    (h : m.WellFormed) :
    ((m.runs.takeWhile fun s => s.start < r.start).getLast?.any r.overlaps ||
      (m.runs.dropWhile fun s => s.start < r.start).head?.any r.overlaps) = false ↔
      ∀ s ∈ m.runs, Apart r s := by
  have hfront : ∀ s ∈ m.runs.takeWhile fun s => s.start < r.start, s.start < r.start :=
    fun s hs => of_decide_eq_true (List.all_eq_true.1 List.all_takeWhile s hs)
  rw [Bool.or_eq_false_iff]
  constructor
  · rintro ⟨hlast, hfirst⟩ s hs
    rw [← List.takeWhile_append_dropWhile (p := fun s : Run => decide (s.start < r.start))
      (l := m.runs)] at hs
    rcases List.mem_append.1 hs with hs | hs
    · exact apart_iff.2 (Or.inr
        (stop_le_of_getLast? (h.sublist (List.takeWhile_sublist _)) hfront hlast hs))
    · exact apart_iff.2 (Or.inl (stop_le_of_head? (h.sublist (List.dropWhile_sublist _))
        (fun s hs => h.le_start_of_mem_dropWhile hs) hfirst hs))
  · intro hapart
    exact ⟨any_overlaps_eq_false (fun s hs => List.mem_of_getLast? hs)
        fun s hs => hapart s ((List.takeWhile_sublist _).mem hs),
      any_overlaps_eq_false (fun s hs => List.mem_of_head? hs)
        fun s hs => hapart s ((List.dropWhile_sublist _).mem hs)⟩

theorem WellFormed.splice
    (h : m.WellFormed)
    (hapart : ∀ s ∈ m.runs, Apart r s) :
    (m.splice r).WellFormed := by
  refine wellFormed_iff.2 ⟨?_, ?_⟩
  · have hsorted := (wellFormed_iff.1 h).1
    rw [← List.takeWhile_append_dropWhile (p := fun s : Run => decide (s.start < r.start))
      (l := m.runs), List.pairwise_append] at hsorted
    obtain ⟨hleft, hright, hcross⟩ := hsorted
    refine List.pairwise_append.2 ⟨hleft, List.pairwise_cons.2
      ⟨fun s hs => h.le_start_of_mem_dropWhile hs, hright⟩, fun s hs t ht => ?_⟩
    rcases List.mem_cons.1 ht with rfl | ht
    · exact Nat.le_of_lt (of_decide_eq_true (List.all_eq_true.1 List.all_takeWhile s hs))
    · exact hcross s hs t ht
  · rw [(runs_splice_perm m r).pairwise_iff Apart.symm, List.pairwise_cons]
    exact ⟨hapart, h.apart⟩

/--
A run is claimed if it is not empty and stays clear of all others. It is then one of the
runs, and there is only one map of these runs.
-/
theorem WellFormed.insert?_eq_some_iff
    (h : m.WellFormed) :
    m.insert? start stop owner = some n ↔
      ∃ hlt : start < stop, (∀ s ∈ m.runs, Apart ⟨start, stop, owner, hlt⟩ s) ∧
        n.WellFormed ∧ n.runs.Perm (⟨start, stop, owner, hlt⟩ :: m.runs) := by
  by_cases hlt : start < stop
  swap
  · simp [insert?, hlt]
  have hneighbours := h.neighbours_iff (r := ⟨start, stop, owner, hlt⟩)
  have hinsert : m.insert? start stop owner =
      if ((m.runs.takeWhile fun s => s.start < start).getLast?.any
          (Run.overlaps ⟨start, stop, owner, hlt⟩) ||
        (m.runs.dropWhile fun s => s.start < start).head?.any
          (Run.overlaps ⟨start, stop, owner, hlt⟩)) = true then none
      else some (m.splice ⟨start, stop, owner, hlt⟩) := by
    simp only [insert?, hlt, dite_true, Coverage.splice]
  rw [hinsert]
  constructor
  · intro hsome
    split at hsome
    · cases hsome
    · rename_i hfree
      have hapart := hneighbours.1 (eq_false_of_ne_true hfree)
      obtain rfl := Option.some.inj hsome
      exact ⟨hlt, hapart, h.splice hapart, runs_splice_perm m _⟩
  · rintro ⟨_, hapart, hn, hruns⟩
    rw [if_neg (by rw [hneighbours.2 hapart]; exact Bool.false_ne_true)]
    exact congrArg some ((h.splice hapart).eq_of_perm hn ((runs_splice_perm m _).trans hruns.symm))

end Insert

section Extent

theorem span?_of_ne_nil
    (hne : m.runs ≠ []) :
    m.span? = some ((m.runs.head hne).start, (m.runs.getLast hne).stop) := by
  simp [span?, start?, stop?, List.head?_eq_some_head hne, List.getLast?_eq_some_getLast hne]

/-- The extent of a map without runs is not defined, and that of any other map is. -/
theorem span?_eq_none_iff :
    m.span? = none ↔ ∀ p, ¬ m.Owns p := by
  constructor
  · rintro hnone p ⟨r, hr, -⟩
    rw [runs_eq_nil_of_span?_eq_none hnone] at hr
    cases hr
  · intro hfree
    by_contra hsome
    have hne : m.runs ≠ [] := by
      intro hnil
      exact hsome (by simp [span?, start?, hnil])
    exact hfree (m.runs.head hne).start
      ⟨_, List.head_mem hne, Nat.le_refl _, (m.runs.head hne).start_lt_stop⟩

/-- The extent goes from the least owned position to the greatest one. -/
theorem WellFormed.bounds_of_span?
    (h : m.WellFormed)
    {a b : Nat}
    (hspan : m.span? = some (a, b)) :
    IsLeast {p | m.Owns p} a ∧ IsGreatest {p | m.Owns p} (b - 1) ∧ 0 < b := by
  have hne : m.runs ≠ [] := by
    intro hnil
    simp [span?, start?, hnil] at hspan
  have hends := (span?_of_ne_nil hne).symm.trans hspan
  simp only [Option.some.injEq, Prod.mk.injEq] at hends
  have hfirst := (m.runs.head hne).start_lt_stop
  have hlast := (m.runs.getLast hne).start_lt_stop
  refine ⟨⟨⟨_, List.head_mem hne, ?_⟩, ?_⟩, ⟨⟨_, List.getLast_mem hne, ?_⟩, ?_⟩, by omega⟩
  · exact ⟨by omega, by omega⟩
  · rintro p ⟨r, hr, hp⟩
    exact Nat.le_trans (h.within_span hspan hr).1 hp.1
  · exact ⟨by omega, by omega⟩
  · rintro p ⟨r, hr, hp⟩
    have hle := (h.within_span hspan hr).2
    have hlt := hp.2
    omega

theorem WellFormed.span?_eq_some_iff
    (h : m.WellFormed)
    {a b : Nat} :
    m.span? = some (a, b + 1) ↔ IsLeast {p | m.Owns p} a ∧ IsGreatest {p | m.Owns p} b := by
  constructor
  · intro hspan
    obtain ⟨hleast, hgreatest, -⟩ := h.bounds_of_span? hspan
    exact ⟨hleast, hgreatest⟩
  · rintro ⟨hleast, hgreatest⟩
    cases hspan : m.span? with
    | none => exact absurd hleast.1 (span?_eq_none_iff.1 hspan a)
    | some e =>
      obtain ⟨hleast', hgreatest', hpos⟩ := h.bounds_of_span? hspan
      have hstart := hleast'.unique hleast
      have hstop := hgreatest'.unique hgreatest
      exact congrArg some (Prod.ext hstart (by dsimp only; omega))

end Extent

section Count

/-- The positions of runs that stay clear of each other are counted run by run. -/
theorem exists_finset_of_runs
    {runs : List Run}
    (h : runs.Pairwise fun r s => r.stop ≤ s.start)
    (count : Nat) :
    ∃ owned : Finset Nat, (∀ p, p ∈ owned ↔ ∃ r ∈ runs, r.Contains p) ∧
      runs.foldl (fun n r => n + (r.stop - r.start)) count = count + owned.card := by
  induction h generalizing count with
  | nil => exact ⟨∅, by simp, by simp⟩
  | @cons r rest hr _ ih =>
    obtain ⟨owned, hmem, hcard⟩ := ih (count + (r.stop - r.start))
    have hdisjoint : Disjoint (Finset.Ico r.start r.stop) owned := by
      rw [Finset.disjoint_left]
      intro p hp howned
      obtain ⟨s, hs, hps⟩ := (hmem p).1 howned
      have hlt := (Finset.mem_Ico.1 hp).2
      have hle := hr s hs
      have hge := hps.1
      omega
    refine ⟨Finset.Ico r.start r.stop ∪ owned, fun p => ?_, ?_⟩
    · rw [Finset.mem_union, Finset.mem_Ico, hmem, List.exists_mem_cons_iff]
      rfl
    · rw [List.foldl_cons, hcard, Finset.card_union_of_disjoint hdisjoint, Nat.card_Ico]
      omega

/-- The owned positions are finitely many, and as many as are counted. -/
theorem WellFormed.exists_finset
    (h : m.WellFormed) :
    ∃ owned : Finset Nat, (∀ p, p ∈ owned ↔ m.Owns p) ∧ owned.card = m.covered := by
  obtain ⟨owned, hmem, hcard⟩ := exists_finset_of_runs h 0
  exact ⟨owned, hmem, by rw [covered, hcard, Nat.zero_add]⟩

end Count

section Function

/-- Neither claiming a run nor uniting or subtracting maps lets runs meet. -/
theorem Built.wellFormed
    (h : Built m) :
    m.WellFormed := by
  induction h with
  | empty => exact wellFormed_empty
  | single start stop owner => exact wellFormed_single start stop owner
  | insert _ hn ih =>
    obtain ⟨-, -, hwf, -⟩ := ih.insert?_eq_some_iff.1 hn
    exact hwf
  | union _ _ hapart ihm ihn => exact wellFormed_union ihm ihn hapart
  | subtract _ n ih => exact ih.subtract n

/-- The run meets no run of the map if none of its positions is owned. -/
theorem forall_apart_iff
    (hlt : start < stop) :
    (∀ s ∈ m.runs, Apart ⟨start, stop, owner, hlt⟩ s) ↔
      ∀ p, start ≤ p → p < stop → ¬ m.Owns p := by
  constructor
  · rintro hapart p hle hlt' ⟨s, hs, hp⟩
    have hmeet := Run.overlaps_iff.2 ⟨p, (⟨hle, hlt'⟩ : Run.Contains ⟨start, stop, owner, hlt⟩ p),
      hp⟩
    rw [hapart s hs] at hmeet
    cases hmeet
  · intro hfree s hs
    rw [Apart, Bool.eq_false_iff]
    intro hmeet
    obtain ⟨p, hp, hps⟩ := Run.overlaps_iff.1 hmeet
    exact hfree p hp.1 hp.2 ⟨s, hs, hps⟩

theorem WellFormed.isSome_insert?_iff
    (h : m.WellFormed) :
    (m.insert? start stop owner).isSome ↔
      start < stop ∧ ∀ p, start ≤ p → p < stop → ¬ m.Owns p := by
  rw [Option.isSome_iff_exists]
  constructor
  · rintro ⟨n, hn⟩
    obtain ⟨hlt, hapart, -⟩ := h.insert?_eq_some_iff.1 hn
    exact ⟨hlt, (forall_apart_iff hlt).1 hapart⟩
  · rintro ⟨hlt, hfree⟩
    have hapart : ∀ s ∈ m.runs, Apart ⟨start, stop, owner, hlt⟩ s := (forall_apart_iff hlt).2 hfree
    exact ⟨_, h.insert?_eq_some_iff.2 ⟨hlt, hapart, h.splice hapart, runs_splice_perm m _⟩⟩

/-- Maps whose runs are those of others, up to order, tell the owners that the others tell. -/
theorem WellFormed.ownerAt?_congr
    {runs : List Run}
    (h : m.WellFormed)
    (hruns : m.runs.Perm runs) :
    m.ownerAt? p = some owner ↔ ∃ r ∈ runs, r.Contains p ∧ r.owner = owner := by
  simp only [h.ownerAt?_eq_some_iff, hruns.mem_iff]

/-- The positions of a claimed run are owned as well, all others are as they were. -/
theorem WellFormed.ownerAt?_of_insert?
    (h : m.WellFormed)
    (hn : m.insert? start stop owner = some n)
    (p : Nat) :
    n.ownerAt? p = if start ≤ p ∧ p < stop then some owner else m.ownerAt? p := by
  obtain ⟨hlt, hapart, hwf, hruns⟩ := h.insert?_eq_some_iff.1 hn
  apply Option.ext
  intro o
  rw [hwf.ownerAt?_congr hruns, List.exists_mem_cons_iff]
  split
  · rename_i hp
    have hfree := (forall_apart_iff hlt).1 hapart p hp.1 hp.2
    constructor
    · rintro (⟨-, rfl⟩ | ⟨r, hr, hrp, -⟩)
      · rfl
      · exact absurd ⟨r, hr, hrp⟩ hfree
    · rintro hsome
      exact Or.inl ⟨hp, Option.some.inj hsome⟩
  · rename_i hp
    rw [h.ownerAt?_eq_some_iff]
    constructor
    · rintro (⟨hin, -⟩ | hold)
      · exact absurd hin hp
      · exact hold
    · exact Or.inr

theorem owns_union (m n : Coverage) (p : Nat) :
    (m.union n).Owns p ↔ m.Owns p ∨ n.Owns p := by
  simp only [Owns, (runs_union_perm m n).mem_iff, List.mem_append, or_and_right, exists_or]

/-- Of maps that do not meet, the one that owns a position tells its owner in the union. -/
theorem WellFormed.ownerAt?_union
    (hm : m.WellFormed)
    (hn : n.WellFormed)
    (happart : m.intersects n = false)
    (p : Nat) :
    (m.union n).ownerAt? p = (m.ownerAt? p).or (n.ownerAt? p) := by
  have hunion := wellFormed_union hm hn happart
  apply Option.ext
  intro o
  rw [hunion.ownerAt?_congr (runs_union_perm m n)]
  simp only [List.mem_append, or_and_right, exists_or]
  rw [← hm.ownerAt?_eq_some_iff, ← hn.ownerAt?_eq_some_iff]
  by_cases howns : m.Owns p
  · obtain ⟨r, hr, hp⟩ := howns
    have hfree : ¬ n.Owns p := fun hshared => by
      have hmeet := (intersects_iff hm hn).2 ⟨p, ⟨r, hr, hp⟩, hshared⟩
      rw [happart] at hmeet
      cases hmeet
    have hsome := hm.ownerAt?_eq_some_iff.2 ⟨r, hr, hp, rfl⟩
    simp [hsome, hn.ownerAt?_eq_none_iff.2 hfree]
  · simp [hm.ownerAt?_eq_none_iff.2 howns]

/--
Every operation on a map is told by the owners of its positions, and by those of another
map where there is one.
-/
structure Faithful (m : Coverage) : Prop where
  nonempty : ∀ r ∈ m.runs, r.start < r.stop
  ordered : m.runs.Pairwise fun r s => r.stop ≤ s.start
  owner : ∀ p owner,
    m.ownerAt? p = some owner ↔ ∃ r ∈ m.runs, r.Contains p ∧ r.owner = owner
  free : ∀ p, m.ownerAt? p = none ↔ ¬ m.Owns p
  claimable : ∀ start stop owner, (m.insert? start stop owner).isSome ↔
    start < stop ∧ ∀ p, start ≤ p → p < stop → ¬ m.Owns p
  claimed : ∀ start stop owner n, m.insert? start stop owner = some n → ∀ p,
    (n.Owns p ↔ m.Owns p ∨ start ≤ p ∧ p < stop) ∧
      n.ownerAt? p = if start ≤ p ∧ p < stop then some owner else m.ownerAt? p
  meets : ∀ n, Built n → (m.intersects n = true ↔ ∃ p, m.Owns p ∧ n.Owns p)
  united : ∀ n, Built n → m.intersects n = false → ∀ p,
    ((m.union n).Owns p ↔ m.Owns p ∨ n.Owns p) ∧
      (m.union n).ownerAt? p = (m.ownerAt? p).or (n.ownerAt? p)
  subtracted : ∀ n, Built n → ∀ r, r ∈ (m.subtract n).runs ↔ r ∈ m.runs ∧ r ∉ n.runs
  unbounded : m.span? = none ↔ ∀ p, ¬ m.Owns p
  bounded : ∀ a b, m.span? = some (a, b + 1) ↔
    IsLeast {p | m.Owns p} a ∧ IsGreatest {p | m.Owns p} b
  counted : ∃ owned : Finset Nat, (∀ p, p ∈ owned ↔ m.Owns p) ∧ owned.card = m.covered

/-- However a map has been built, it is a finite function from positions to owners. -/
theorem built_faithful
    (h : Built m) :
    Faithful m := by
  have hm := h.wellFormed
  constructor
  · exact fun r _ => r.start_lt_stop
  · exact hm
  · exact fun p owner => hm.ownerAt?_eq_some_iff
  · exact fun p => hm.ownerAt?_eq_none_iff
  · exact fun start stop owner => hm.isSome_insert?_iff
  · intro start stop owner n hn p
    obtain ⟨hlt, -, -, hruns⟩ := hm.insert?_eq_some_iff.1 hn
    refine ⟨?_, hm.ownerAt?_of_insert? hn p⟩
    rw [Owns, Owns, or_comm]
    simp only [hruns.mem_iff, List.exists_mem_cons_iff]
    rfl
  · exact fun n hn => intersects_iff hm hn.wellFormed
  · exact fun n hn hapart p => ⟨owns_union m n p, hm.ownerAt?_union hn.wellFormed hapart p⟩
  · intro n hn r
    rw [subtract, List.mem_filter, Bool.not_eq_true', ← holds_iff hn.wellFormed,
      Bool.not_eq_true]
  · exact span?_eq_none_iff
  · exact fun a b => hm.span?_eq_some_iff
  · exact hm.exists_finset

/-- Two runs that touch, and a third one behind a gap. -/
def touchingRuns : Coverage :=
  ⟨[⟨0, 2, ⟨2⟩, by decide⟩, ⟨2, 3, ⟨3⟩, by decide⟩, ⟨4, 6, ⟨1⟩, by decide⟩]⟩

/-- The run in the middle is claimed last, and the first one is taken away again. -/
theorem built_faithful_sample :
    Built (touchingRuns.subtract (single 0 2 ⟨2⟩)) ∧
      (touchingRuns.subtract (single 0 2 ⟨2⟩)).ownerAt? 2 = some ⟨3⟩ ∧
      ¬ (touchingRuns.subtract (single 0 2 ⟨2⟩)).Owns 1 ∧
      (touchingRuns.subtract (single 0 2 ⟨2⟩)).span? = some (2, 6) := by
  have hunion : Built ((single 0 2 ⟨2⟩).union (single 4 6 ⟨1⟩)) :=
    .union (.single 0 2 ⟨2⟩) (.single 4 6 ⟨1⟩) (by decide)
  have hinsert : ((single 0 2 ⟨2⟩).union (single 4 6 ⟨1⟩)).insert? 2 3 ⟨3⟩ = some touchingRuns := by
    decide +kernel
  have hbuilt : Built (touchingRuns.subtract (single 0 2 ⟨2⟩)) := (hunion.insert hinsert).subtract _
  have hfaithful := built_faithful hbuilt
  refine ⟨hbuilt, ?_, ?_, by decide⟩
  · rw [hfaithful.owner]
    decide
  · rw [← hfaithful.free]
    decide

end Function

end Coverage

end BeamChart
