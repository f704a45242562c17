import BeamChart.Proofs.Coverage.Map

/-!
# Uniting many maps

Maps no two of which intersect may be united in any order and in any grouping, and each of
them can be taken away again. The union of several maps has the runs of all of them
(`Separate.runs_unionAll_perm`), and a well-formed map is known by its runs up to their order
(`eq_unionAll`), so a union forgets how it was made.

**Results.**
* `Separate.unionAll_perm`: the order of the maps does not matter.
* `Separate.subtract_unionAll`: subtracting one of the maps leaves the union of the others.
* `Separate.intersects_unionAll`: a union meets what one of the maps meets.
-/

namespace BeamChart

namespace Coverage

variable {m n d : Coverage} {maps others : List Coverage}

theorem intersects_comm
    (hm : m.WellFormed)
    (hn : n.WellFormed) :
    m.intersects n = n.intersects m := by
  rw [Bool.eq_iff_iff, intersects_iff hm hn, intersects_iff hn hm]
  exact exists_congr fun p => and_comm

/-- A union meets what one of its parts meets. -/
theorem intersects_union
    (hm : m.WellFormed)
    (hn : n.WellFormed)
    (hapart : m.intersects n = false)
    (hd : d.WellFormed) :
    (m.union n).intersects d = true ↔ m.intersects d = true ∨ n.intersects d = true := by
  rw [intersects_iff (wellFormed_union hm hn hapart) hd, intersects_iff hm hd,
    intersects_iff hn hd]
  simp only [owns_union, or_and_right, exists_or]

/-- Well-formed maps no two of which intersect. -/
structure Separate (maps : List Coverage) : Prop where
  wellFormed : ∀ m ∈ maps, m.WellFormed
  apart : maps.Pairwise fun m n => m.intersects n = false

/-- The union of maps, one after another. -/
def unionAll (maps : List Coverage) : Coverage :=
  maps.foldl union empty

@[simp] theorem unionAll_cons (m : Coverage) (maps : List Coverage) :
    unionAll (m :: maps) = maps.foldl union m := by
  rw [unionAll, List.foldl_cons, empty_union]

namespace Separate

theorem perm
    (h : Separate maps)
    (hperm : maps.Perm others) :
    Separate others where
  wellFormed m hm := h.wellFormed m (hperm.mem_iff.2 hm)
  apart := by
    -- the relation is symmetric between well-formed maps only
    have hboth : maps.Pairwise fun m n => m.intersects n = false ∧ n.intersects m = false :=
      h.apart.imp_of_mem fun hm hn hmn =>
        ⟨hmn, (intersects_comm (h.wellFormed _ hn) (h.wellFormed _ hm)).trans hmn⟩
    exact (hperm.pairwise hboth fun hmn => ⟨hmn.2, hmn.1⟩).imp fun hmn => hmn.1

theorem sublist
    (h : Separate maps)
    (hsub : others.Sublist maps) :
    Separate others where
  wellFormed m hm := h.wellFormed m (hsub.mem hm)
  apart := h.apart.sublist hsub

/-- Two of the maps may be replaced by their union. -/
theorem merge
    (h : Separate (m :: n :: maps)) :
    Separate (m.union n :: maps) := by
  obtain ⟨hm, hn, hrest⟩ : m.WellFormed ∧ n.WellFormed ∧ ∀ d ∈ maps, d.WellFormed := by
    simpa using h.wellFormed
  obtain ⟨hfirst, hsecond, hothers⟩ := by simpa only [List.pairwise_cons] using h.apart
  have hapart : m.intersects n = false := hfirst n List.mem_cons_self
  constructor
  · simp only [List.mem_cons, forall_eq_or_imp]
    exact ⟨wellFormed_union hm hn hapart, hrest⟩
  · refine List.pairwise_cons.2 ⟨fun d hd => ?_, hothers⟩
    rw [Bool.eq_false_iff, Ne, intersects_union hm hn hapart (hrest d hd)]
    simp [hfirst d (List.mem_cons_of_mem n hd), hsecond d hd]

theorem foldl_union
    (h : Separate (m :: maps)) :
    (maps.foldl union m).WellFormed ∧
      (maps.foldl union m).runs.Perm ((m :: maps).flatMap runs) := by
  induction maps generalizing m with
  | nil =>
    refine ⟨h.wellFormed m List.mem_cons_self, ?_⟩
    simp
  | cons n rest ih =>
    obtain ⟨hwf, hruns⟩ := ih h.merge
    refine ⟨hwf, hruns.trans ?_⟩
    rw [List.flatMap_cons, List.flatMap_cons, List.flatMap_cons, ← List.append_assoc]
    exact (runs_union_perm m n).append_right _

theorem wellFormed_unionAll
    (h : Separate maps) :
    (unionAll maps).WellFormed := by
  cases maps with
  | nil => exact wellFormed_empty
  | cons m rest =>
    rw [unionAll_cons]
    exact h.foldl_union.1

/-- A union of several maps holds the runs of all of them. -/
theorem runs_unionAll_perm
    (h : Separate maps) :
    (unionAll maps).runs.Perm (maps.flatMap runs) := by
  cases maps with
  | nil => exact List.Perm.refl _
  | cons m rest =>
    rw [unionAll_cons]
    exact h.foldl_union.2

end Separate

/-- Maps whose runs make up a well-formed map do not intersect. -/
theorem separate_of_perm
    (hm : m.WellFormed)
    (hmaps : ∀ n ∈ maps, n.WellFormed)
    (h : m.runs.Perm (maps.flatMap runs)) :
    Separate maps where
  wellFormed := hmaps
  apart := by
    have happart := (h.pairwise_iff Apart.symm).1 hm.apart
    rw [List.pairwise_flatMap] at happart
    refine happart.2.imp_of_mem fun {n d} hn hd hall => ?_
    rw [Bool.eq_false_iff, Ne, intersects_iff_overlaps (hmaps n hn) (hmaps d hd)]
    rintro ⟨r, hr, s, hs, hover⟩
    have hrs : r.overlaps s = false := hall r hr s hs
    rw [hrs] at hover
    cases hover

/-- A map is the union of any maps that its runs can be dealt out to. -/
theorem eq_unionAll
    (hm : m.WellFormed)
    (hmaps : ∀ n ∈ maps, n.WellFormed)
    (h : m.runs.Perm (maps.flatMap runs)) :
    m = unionAll maps := by
  have hseparate := separate_of_perm hm hmaps h
  exact hm.eq_of_perm hseparate.wellFormed_unionAll (h.trans hseparate.runs_unionAll_perm.symm)

namespace Separate

/-- The maps may be united in any order. -/
theorem unionAll_perm
    (h : Separate maps)
    (hperm : maps.Perm others) :
    unionAll maps = unionAll others :=
  eq_unionAll h.wellFormed_unionAll (h.perm hperm).wellFormed
    (h.runs_unionAll_perm.trans (hperm.flatMap_right runs))

/-- Subtracting the first map leaves the union of the others. -/
theorem subtract_unionAll
    (h : Separate (m :: maps)) :
    (unionAll (m :: maps)).subtract m = unionAll maps :=
  eq_unionAll (h.wellFormed_unionAll.subtract m)
    (h.sublist (List.sublist_cons_self m maps)).wellFormed
    (runs_subtract_perm h.wellFormed_unionAll (h.wellFormed m List.mem_cons_self)
      h.runs_unionAll_perm)

/-- A union of several maps meets what one of them meets. -/
theorem intersects_unionAll
    (h : Separate maps)
    (hd : d.WellFormed) :
    (unionAll maps).intersects d = true ↔ ∃ m ∈ maps, m.intersects d = true := by
  rw [intersects_iff_overlaps h.wellFormed_unionAll hd]
  simp only [h.runs_unionAll_perm.mem_iff, List.mem_flatMap]
  constructor
  · rintro ⟨r, ⟨m, hm, hr⟩, s, hs, hover⟩
    exact ⟨m, hm, (intersects_iff_overlaps (h.wellFormed m hm) hd).2 ⟨r, hr, s, hs, hover⟩⟩
  · rintro ⟨m, hm, hmeet⟩
    obtain ⟨r, hr, s, hs, hover⟩ := (intersects_iff_overlaps (h.wellFormed m hm) hd).1 hmeet
    exact ⟨r, ⟨m, hm, hr⟩, s, hs, hover⟩

end Separate

end Coverage

end BeamChart
