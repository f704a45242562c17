import BeamChart.Proofs.Chart.Undoing
import BeamChart.Proofs.Coverage.Separate

/-!
# What the map of a candidate is made of

The coverage map of a stored candidate is the union of the maps of its children and of what
it owns itself (`coverage_eq_unionAll`). These maps do not intersect, and such maps unite
freely (`portions_unite_freely`): a map tells nothing of the order in which the children have
come or of the slots that they are in, and when one of them goes the runs of the others stay
exactly as they are.
-/

namespace BeamChart

namespace Candidate

/-- The children in the filled slots. -/
def children (x : Candidate) : List CandidateId :=
  x.slots.filled.map fun e => e.2.child

theorem mem_children_of_slot
    {x : Candidate}
    {r : Relation}
    {t : Slot}
    (h : x.slot r = some t) :
    t.child ∈ x.children :=
  List.mem_map.2 ⟨(r, t), (Slots.mem_filled _ r t).2 h, rfl⟩

end Candidate

namespace Chart

variable {g : Grammar} {s : Settings} {c : Chart}

/-- What a candidate owns itself, and then what some candidates own. -/
def portions (c : Chart) (x : Candidate) (children : List CandidateId) : List Coverage :=
  ⟨c.ownRuns x⟩ :: children.map fun d => (c.candidate d).coverage

namespace Tiled

variable {x y : Candidate}

theorem wellFormed_portions
    (hx : c.Tiled x)
    (hchildren : ∀ d ∈ x.children, (c.candidate d).coverage.WellFormed) :
    ∀ m ∈ c.portions x x.children, m.WellFormed := by
  intro m hm
  rcases List.mem_cons.1 hm with rfl | hm
  · exact hx.wellFormed.filter _
  · obtain ⟨d, hd, rfl⟩ := List.mem_map.1 hm
    exact hchildren d hd

theorem runs_perm_portions
    (hx : c.Tiled x) :
    x.coverage.runs.Perm ((c.portions x x.children).flatMap Coverage.runs) := by
  obtain ⟨own, -, hparts, -⟩ := hx.parts
  rw [portions, List.flatMap_cons, Candidate.children, List.flatMap_map, List.flatMap_map]
  exact hparts.trans ((hx.ownRuns_perm hparts).symm.append_right _)

/-- Whose children are the same ones, whatever their slots, covers the same. -/
theorem coverage_congr
    (hx : c.Tiled x)
    (hy : c.Tiled y)
    (hown : c.ownRuns y = c.ownRuns x)
    (hchildren : ∀ d, d ∈ y.children ↔ d ∈ x.children) :
    y.coverage = x.coverage := by
  refine hy.wellFormed.eq_of_perm hx.wellFormed
    ((List.perm_ext_iff_of_nodup hy.wellFormed.nodup hx.wellFormed.nodup).2 fun a => ?_)
  rw [hy.runs_perm_portions.mem_iff, hx.runs_perm_portions.mem_iff]
  simp only [portions, List.flatMap_cons, List.flatMap_map, List.mem_append, List.mem_flatMap,
    hown, hchildren]

end Tiled

section Stored

variable {x : CandidateId}

theorem separate_portions
    (hrun : Operated g s c)
    (hx : c.Has x) :
    Coverage.Separate (c.portions (c.candidate x) (c.candidate x).children) := by
  have hkept := hrun.kept_anchored
  have htiled := (hkept.holds x hx).1
  refine Coverage.separate_of_perm htiled.wellFormed (htiled.wellFormed_portions fun d hd => ?_)
    htiled.runs_perm_portions
  obtain ⟨⟨r, t⟩, he, rfl⟩ := List.mem_map.1 hd
  exact (hkept.holds t.child
    (hkept.sound.closed.has_child hx ((Slots.mem_filled _ r t).1 he))).1.wellFormed

/-- A candidate covers what it owns itself and what its children cover. -/
theorem coverage_eq_unionAll
    (hrun : Operated g s c)
    (hx : c.Has x) :
    (c.candidate x).coverage =
      Coverage.unionAll (c.portions (c.candidate x) (c.candidate x).children) := by
  have htiled := (hrun.kept_anchored.holds x hx).1
  exact Coverage.eq_unionAll htiled.wellFormed (separate_portions hrun hx).wellFormed
    htiled.runs_perm_portions

/-- When a child goes, the others stay. -/
theorem coverage_detach_eq_unionAll
    (hrun : Operated g s c)
    (hx : c.Has x)
    {r : Relation}
    {t : Slot}
    (hslot : (c.candidate x).slot r = some t) :
    ((c.candidate x).detach r (c.candidate t.child)).coverage =
      Coverage.unionAll
        (c.portions (c.candidate x) ((c.candidate x).children.erase t.child)) := by
  have hfirst : (c.portions (c.candidate x) (c.candidate x).children).Perm
      ((c.candidate t.child).coverage ::
        c.portions (c.candidate x) ((c.candidate x).children.erase t.child)) := by
    have hchild := List.perm_cons_erase (Candidate.mem_children_of_slot hslot)
    exact ((hchild.map _).cons _).trans (.swap _ _ _)
  have hseparate := separate_portions hrun hx
  have hdetach : ((c.candidate x).detach r (c.candidate t.child)).coverage =
      (c.candidate x).coverage.subtract (c.candidate t.child).coverage := by
    simp only [Candidate.detach, hslot]
  rw [hdetach, coverage_eq_unionAll hrun hx, hseparate.unionAll_perm hfirst,
    (hseparate.perm hfirst).subtract_unionAll]

end Stored

/--
Maps that do not intersect may be united in either order and in either grouping, one of them
may be taken away again, and a union meets what one of them meets. So the map of a stored
candidate is known from what it owns itself and from its children, whatever slots they are in
and whenever they have come; and when one child goes, exactly what the others cover is left.
-/
theorem portions_unite_freely
    {a b d : Coverage}
    (ha : a.WellFormed)
    (hb : b.WellFormed)
    (hd : d.WellFormed)
    (hab : a.intersects b = false)
    (had : a.intersects d = false)
    (hbd : b.intersects d = false) :
    a.union b = b.union a ∧
      (a.union b).union d = a.union (b.union d) ∧
      (a.union b).subtract b = a ∧
      (∀ e : Coverage, e.WellFormed →
        ((a.union b).intersects e = true ↔ a.intersects e = true ∨ b.intersects e = true)) ∧
      ∀ {g : Grammar} {s : Settings} {c : Chart}, Operated g s c → ∀ x, c.Has x →
        (∀ maps, maps.Perm (c.portions (c.candidate x) (c.candidate x).children) →
          (c.candidate x).coverage = Coverage.unionAll maps) ∧
        (∀ e : Coverage, e.WellFormed → ((c.candidate x).coverage.intersects e = true ↔
          ∃ m ∈ c.portions (c.candidate x) (c.candidate x).children, m.intersects e = true)) ∧
        (∀ y, c.Has y → c.ownRuns (c.candidate y) = c.ownRuns (c.candidate x) →
          (∀ z, z ∈ (c.candidate y).children ↔ z ∈ (c.candidate x).children) →
          (c.candidate y).coverage = (c.candidate x).coverage) ∧
        ∀ r t, (c.candidate x).slot r = some t →
          ((c.candidate x).detach r (c.candidate t.child)).coverage =
            Coverage.unionAll
              (c.portions (c.candidate x) ((c.candidate x).children.erase t.child)) := by
  have hall : Coverage.Separate [a, b, d] := ⟨by simp [ha, hb, hd], by simp [hab, had, hbd]⟩
  have hpair : Coverage.Separate [a, b] := hall.sublist (by simp)
  refine ⟨?_, ?_, Coverage.union_subtract ha hb hab,
    fun e he => Coverage.intersects_union ha hb hab he, fun {g s c} hrun x hx => ⟨?_, ?_, ?_, ?_⟩⟩
  · simpa using hpair.unionAll_perm (.swap b a [])
  · -- the grouping is a matter of which map comes first
    have hlater : ([a] ++ [b, d]).Perm ([b, d] ++ [a]) := List.perm_append_comm
    have hrotate := hall.unionAll_perm hlater
    have hswap := (hall.perm hlater).merge
    have hlast := hswap.unionAll_perm (.swap a (b.union d) [])
    simp only [Coverage.unionAll_cons, List.cons_append, List.nil_append, List.foldl_cons,
      List.foldl_nil] at hrotate hlast
    exact hrotate.trans hlast
  · intro maps hperm
    have hseparate := separate_portions hrun hx
    rw [coverage_eq_unionAll hrun hx, hseparate.unionAll_perm hperm.symm]
  · intro e he
    rw [coverage_eq_unionAll hrun hx, (separate_portions hrun hx).intersects_unionAll he]
  · intro y hy hown hchildren
    have hkept := hrun.kept_anchored
    exact (hkept.holds x hx).1.coverage_congr (hkept.holds y hy).1 hown hchildren
  · exact fun r t hslot => coverage_detach_eq_unionAll hrun hx hslot

section Sample

/-- Runs with gaps that the runs of other maps fit into. -/
def gappedRuns : Coverage :=
  ⟨[⟨0, 1, ⟨4⟩, by decide⟩, ⟨5, 6, ⟨6⟩, by decide⟩]⟩

/--
Runs that touch and enclose each other, and a stored candidate that gives up its only child.
-/
theorem portions_unite_freely_sample :
    gappedRuns.WellFormed ∧
      gappedRuns.intersects (.single 3 5 ⟨1⟩) = false ∧
      (gappedRuns.union (.single 3 5 ⟨1⟩)).union (.single 1 2 ⟨7⟩) =
        gappedRuns.union ((Coverage.single 3 5 ⟨1⟩).union (.single 1 2 ⟨7⟩)) ∧
      (gappedRuns.union (.single 3 5 ⟨1⟩)).subtract (.single 3 5 ⟨1⟩) = gappedRuns ∧
      ((sampleChart.candidate ⟨2⟩).slot .property).map Slot.child = some ⟨1⟩ ∧
      ((sampleChart.candidate ⟨2⟩).detach .property (sampleChart.candidate ⟨1⟩)).coverage =
        Coverage.unionAll (sampleChart.portions (sampleChart.candidate ⟨2⟩) []) := by
  have hgapped : gappedRuns.WellFormed := by
    unfold Coverage.WellFormed
    decide
  have hstored : sampleChart.Has ⟨2⟩ := by decide +kernel
  have hchild : ((sampleChart.candidate ⟨2⟩).slot .property).map Slot.child = some ⟨1⟩ := by
    decide +kernel
  have hothers : (sampleChart.candidate ⟨2⟩).children.erase ⟨1⟩ = [] := by decide +kernel
  obtain ⟨-, hassoc, hsubtract, -, hstored'⟩ := portions_unite_freely hgapped
    (Coverage.wellFormed_single 3 5 ⟨1⟩) (Coverage.wellFormed_single 1 2 ⟨7⟩)
    (by decide +kernel) (by decide +kernel) (by decide +kernel)
  obtain ⟨-, -, -, hdetach⟩ := hstored' driven_sampleChart.operated ⟨2⟩ hstored
  refine ⟨hgapped, by decide +kernel, hassoc, hsubtract, hchild, ?_⟩
  obtain ⟨⟨child, bonus⟩, hslot, rfl⟩ := Option.map_eq_some_iff.1 hchild
  rw [← hothers]
  exact hdetach .property ⟨⟨1⟩, bonus⟩ hslot

end Sample

end Chart

end BeamChart
