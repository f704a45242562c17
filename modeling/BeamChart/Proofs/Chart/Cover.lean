import BeamChart.Proofs.Candidate.Slots
import BeamChart.Proofs.Chart.Run
import BeamChart.Proofs.Coverage.Union
import Mathlib.Data.List.Perm.Basic

/-!
# Coverage is counted once

The coverage map of a stored candidate is laid out by its children: their maps
do not meet, and all that is left besides them is at most one run of the
candidate's own (`coverage_is_tiled`). Each run belongs to a stored leaf that
owns nothing else. Following the children down, the own runs of the nodes are
the runs of the top, so no position is counted twice in a tree.

Taking a child needs the test that the maps do not intersect, which is part of
what is known of a candidate that has been made. Giving one up needs no test: the
child's runs are found in the map because they have been put there.
-/

namespace BeamChart

namespace Chart

variable {strict : Prop} {g : Grammar} {s : Settings} {c c' : Chart}

/-- The runs of the children in some slots. -/
def childRuns (c : Chart) (slots : Slots) : List Run :=
  slots.filled.flatMap fun e => (c.candidate e.2.child).coverage.runs

/-- The runs that no child has brought. -/
def ownRuns (c : Chart) (x : Candidate) : List Run :=
  x.coverage.runs.filter fun a => a ∉ c.childRuns x.slots

/-- The run is all that a stored leaf owns. -/
structure Owned (c : Chart) (a : Run) : Prop where
  has : c.Has a.owner
  slots : (c.candidate a.owner).slots = .empty
  runs : (c.candidate a.owner).coverage.runs = [a]

/-- The runs are those of the children and at most one other, and belong to leaves. -/
structure Tiled (c : Chart) (x : Candidate) : Prop where
  wellFormed : x.coverage.WellFormed
  parts : ∃ own : List Run, own.length ≤ 1 ∧
    x.coverage.runs.Perm (own ++ c.childRuns x.slots) ∧
    ∀ a ∈ own, (c.candidate a.owner).root = x.root
  owned : ∀ a ∈ x.coverage.runs, c.Owned a

section Parts

variable {slots : Slots} {r : Relation} {t : Slot}

theorem childRuns_set_none
    (c : Chart)
    (h : slots.get r = some t) :
    (c.childRuns slots).Perm
      ((c.candidate t.child).coverage.runs ++ c.childRuns (slots.set r none)) := by
  have hperm := (Slots.filled_perm_set_none h).flatMap_right fun e =>
    (c.candidate e.2.child).coverage.runs
  rwa [List.flatMap_cons] at hperm

theorem childRuns_set_some
    (c : Chart)
    (t : Slot)
    (h : slots.get r = none) :
    (c.childRuns (slots.set r (some t))).Perm
      ((c.candidate t.child).coverage.runs ++ c.childRuns slots) := by
  have hperm := (Slots.filled_set_some_perm t h).flatMap_right fun e =>
    (c.candidate e.2.child).coverage.runs
  rwa [List.flatMap_cons] at hperm

section Own

variable {x : Candidate} {own : List Run}

/-- A child brings its runs along, and leaves the own ones. -/
theorem parts_attach
    (h : x.coverage.runs.Perm (own ++ c.childRuns x.slots))
    (hfree : x.slot r = none) :
    (x.attach r t (c.candidate t.child)).coverage.runs.Perm
      (own ++ c.childRuns (x.attach r t (c.candidate t.child)).slots) := by
  have hunion : (x.attach r t (c.candidate t.child)).coverage.runs.Perm
      (x.coverage.runs ++ (c.candidate t.child).coverage.runs) :=
    Coverage.runs_union_perm _ _
  have hslots : (c.childRuns (x.attach r t (c.candidate t.child)).slots).Perm
      ((c.candidate t.child).coverage.runs ++ c.childRuns x.slots) :=
    childRuns_set_some c t hfree
  calc (x.attach r t (c.candidate t.child)).coverage.runs
    _ |>.Perm (x.coverage.runs ++ (c.candidate t.child).coverage.runs) := hunion
    _ |>.Perm ((own ++ c.childRuns x.slots) ++ (c.candidate t.child).coverage.runs) :=
      h.append_right _
    _ |>.Perm (own ++ (c.childRuns x.slots ++ (c.candidate t.child).coverage.runs)) := by
      rw [List.append_assoc]
    _ |>.Perm (own ++ ((c.candidate t.child).coverage.runs ++ c.childRuns x.slots)) :=
      List.perm_append_comm.append_left own
    _ |>.Perm (own ++ c.childRuns (x.attach r t (c.candidate t.child)).slots) :=
      hslots.symm.append_left own

theorem coverage_detach
    (child : Candidate)
    (hslot : x.slot r = some t) :
    (x.detach r child).coverage = x.coverage.subtract child.coverage := by
  simp only [Candidate.detach, hslot]

/-- A child takes its runs away, and leaves the own ones. -/
theorem parts_detach
    (h : x.coverage.runs.Perm (own ++ c.childRuns x.slots))
    (hslot : x.slot r = some t)
    (hwell : x.coverage.WellFormed)
    (hchild : (c.candidate t.child).coverage.WellFormed) :
    (x.detach r (c.candidate t.child)).coverage.runs.Perm
      (own ++ c.childRuns (x.detach r (c.candidate t.child)).slots) := by
  have hslots : (x.detach r (c.candidate t.child)).slots = x.slots.set r none := by
    simp only [Candidate.detach, hslot]
  have hsplit : x.coverage.runs.Perm ((c.candidate t.child).coverage.runs ++
      (own ++ c.childRuns (x.slots.set r none))) := by
    calc x.coverage.runs
      _ |>.Perm (own ++ c.childRuns x.slots) := h
      _ |>.Perm (own ++ ((c.candidate t.child).coverage.runs ++
          c.childRuns (x.slots.set r none))) :=
        (childRuns_set_none c hslot).append_left own
      _ |>.Perm ((c.candidate t.child).coverage.runs ++
          (own ++ c.childRuns (x.slots.set r none))) :=
        List.perm_append_comm_assoc _ _ _
  rw [coverage_detach _ hslot, hslots]
  exact Coverage.runs_subtract_perm hwell hchild hsplit

end Own

namespace Tiled

variable {x child : Candidate}

/-- What no child has brought is what is left besides the children. -/
theorem ownRuns_perm
    (h : c.Tiled x)
    {own : List Run}
    (hparts : x.coverage.runs.Perm (own ++ c.childRuns x.slots)) :
    (c.ownRuns x).Perm own := by
  have hnodup : (own ++ c.childRuns x.slots).Nodup := hparts.nodup_iff.1 h.wellFormed.nodup
  have hapart := List.disjoint_of_nodup_append hnodup
  have hleft : own.filter (fun a => a ∉ c.childRuns x.slots) = own := by
    rw [List.filter_eq_self]
    exact fun a ha => decide_eq_true fun hchild => hapart ha hchild
  have hright : (c.childRuns x.slots).filter (fun a => a ∉ c.childRuns x.slots) = [] := by
    rw [List.filter_eq_nil_iff]
    intro a ha hout
    exact of_decide_eq_true hout ha
  have hsplit := hparts.filter fun a => a ∉ c.childRuns x.slots
  rwa [List.filter_append, hleft, hright, List.append_nil] at hsplit

theorem of_no_child
    (hslots : x.slots = .empty)
    (hwellFormed : x.coverage.WellFormed)
    (hone : x.coverage.runs.length ≤ 1)
    (howned : ∀ a ∈ x.coverage.runs, c.Owned a)
    (hroot : ∀ a ∈ x.coverage.runs, (c.candidate a.owner).root = x.root) :
    c.Tiled x := by
  refine ⟨hwellFormed, ⟨x.coverage.runs, hone, ?_, hroot⟩, howned⟩
  simp [childRuns, hslots]

theorem attach
    (h : c.Tiled x)
    (hchild : c.Tiled (c.candidate t.child))
    (hfree : x.slot r = none)
    (hapart : x.coverage.intersects (c.candidate t.child).coverage = false) :
    c.Tiled (x.attach r t (c.candidate t.child)) := by
  obtain ⟨own, hone, hparts, hroot⟩ := h.parts
  have hunion : (x.attach r t (c.candidate t.child)).coverage.runs.Perm
      (x.coverage.runs ++ (c.candidate t.child).coverage.runs) :=
    Coverage.runs_union_perm _ _
  refine ⟨Coverage.wellFormed_union h.wellFormed hchild.wellFormed hapart,
    ⟨own, hone, parts_attach hparts hfree, hroot⟩, fun a ha => ?_⟩
  rcases List.mem_append.1 (hunion.mem_iff.1 ha) with hold | hnew
  · exact h.owned a hold
  · exact hchild.owned a hnew

theorem detach
    (h : c.Tiled x)
    (hslot : x.slot r = some t)
    (hchild : c.Tiled (c.candidate t.child)) :
    c.Tiled (x.detach r (c.candidate t.child)) := by
  obtain ⟨own, hone, hparts, hroot⟩ := h.parts
  have hsame := coverage_detach (c.candidate t.child) hslot
  refine ⟨?_, ⟨own, hone, parts_detach hparts hslot h.wellFormed hchild.wellFormed, ?_⟩,
    fun a ha => ?_⟩
  · rw [hsame]
    exact h.wellFormed.subtract _
  · rw [Candidate.root_detach]
    exact hroot
  · rw [hsame] at ha
    exact h.owned a (List.mem_filter.1 ha).1

end Tiled

end Parts

/-- A new leaf owns its run in the name it is about to get. -/
structure Sprouts (c : Chart) (x : Candidate) : Prop where
  slots : x.slots = .empty
  runs : x.coverage.runs = [] ∨ ∃ a, x.coverage.runs = [a] ∧ a.owner = c.nextCandidate
  wellFormed : x.coverage.WellFormed

theorem Made.tiled
    {x : Candidate}
    (hmade : Made strict c x)
    (hc : Closed c)
    (hall : ∀ y, c.Has y → c.Tiled (c.candidate y)) :
    c.Sprouts x ∨ c.Tiled x := by
  cases hmade with
  | @leaf u symbol id t hitem =>
    left
    refine ⟨rfl, ?_, Coverage.wellFormed_single _ _ _⟩
    have hruns : (c.leafOf u symbol id t).coverage =
        .single t.position t.stop c.nextCandidate := rfl
    rw [hruns]
    unfold Coverage.single
    split
    · exact Or.inr ⟨_, rfl, rfl⟩
    · exact Or.inl rfl
  | seed hitem =>
    exact Or.inr (.of_no_child rfl Coverage.wellFormed_empty (Nat.zero_le 1)
      (fun a ha => by cases ha) (fun a ha => by cases ha))
  | @joined p d r hfits =>
    right
    obtain ⟨bonus, readings, marker, -, heq⟩ :=
      c.joined_eq d r (c.candidate p) (c.candidate d)
    have hattach := (hall p hfits.parent).attach (t := ⟨d, bonus⟩) (hall d hfits.child)
      hfits.slot hfits.coverage
    rw [heq]
    exact ⟨hattach.wellFormed, hattach.parts, hattach.owned⟩
  | @chained p d hfits =>
    exact Or.inr ((hall p hfits.parent).attach (t := ⟨d, 0⟩) (hall d hfits.child)
      hfits.slot hfits.coverage)
  | @lifted u y r hitem hchild =>
    have hseed : c.Tiled (Candidate.seed u) :=
      .of_no_child rfl Coverage.wellFormed_empty (Nat.zero_le 1)
        (fun a ha => by cases ha) (fun a ha => by cases ha)
    exact Or.inr (hseed.attach (t := ⟨y, 0⟩) (hall y hchild) (Candidate.slot_seed u r) rfl)
  | @reduced y u hy =>
    have hkept : c.Tiled (c.withoutItem (c.candidate y) u) ∧
        ∀ r t, (c.withoutItem (c.candidate y) u).slot r = some t → c.Has t.child := by
      refine withoutItem_induction
        (P := fun z => c.Tiled z ∧ ∀ r t, z.slot r = some t → c.Has t.child) u
        ⟨hall y hy, fun r t ht => hc.has_child hy ht⟩ ?_
      rintro z r t ⟨hz, hstored⟩ ht
      refine ⟨hz.detach ht (hall t.child (hstored r t ht)), fun q w hw => ?_⟩
      exact hstored q w (Candidate.slot_of_slot_detach hw)
    exact Or.inr hkept.1
  | @repointed p d r t hp hd hslot hroot hfixed hcoverage =>
    right
    have hrest := (hall p hp).detach hslot (hall t.child (hc.has_child hp hslot))
    have hattach := hrest.attach (t := ⟨d, t.bonus⟩) (hall d hd)
      (Candidate.slot_detach_self _ r _) hcoverage
    exact ⟨hattach.wellFormed, hattach.parts, hattach.owned⟩

theorem Sprouts.tiled
    (h : c.Sprouts (c'.candidate c.nextCandidate))
    (hhas : c'.Has c.nextCandidate) :
    c'.Tiled (c'.candidate c.nextCandidate) := by
  rcases h.runs with hnil | ⟨a, hruns, howner⟩
  · refine .of_no_child h.slots h.wellFormed ?_ ?_ ?_ <;> rw [hnil]
    · exact Nat.zero_le 1
    · exact fun a ha => by cases ha
    · exact fun a ha => by cases ha
  · refine .of_no_child h.slots h.wellFormed ?_ ?_ ?_ <;> rw [hruns]
    · exact Nat.le_refl 1
    · intro b hb
      rw [List.mem_singleton.1 hb]
      refine ⟨?_, ?_, ?_⟩ <;> rw [howner]
      · exact hhas
      · exact h.slots
      · exact hruns
    · intro b hb
      rw [List.mem_singleton.1 hb, howner]

section Growing

theorem Extends.childRuns
    (h : Extends c c')
    {slots : Slots}
    (hstored : ∀ r t, slots.get r = some t → c.Has t.child) :
    c'.childRuns slots = c.childRuns slots := by
  unfold Chart.childRuns
  refine List.flatMap_congr fun e he => ?_
  rw [h.coverage (hstored e.1 e.2 ((Slots.mem_filled _ e.1 e.2).1 he))]

theorem Owned.extend
    {a : Run}
    (ha : c.Owned a)
    (h : Extends c c') :
    c'.Owned a where
  has := h.has ha.has
  slots := (h.congruent ha.has).2.2.2.1.trans ha.slots
  runs := by
    rw [h.coverage ha.has]
    exact ha.runs

/-- A layout stays right while charts grow, whatever marks are set on the candidate. -/
theorem Tiled.extend
    {x y : Candidate}
    (ht : c.Tiled x)
    (h : Extends c c')
    (hcongruent : y.Congruent x)
    (hstored : ∀ r t, x.slot r = some t → c.Has t.child) :
    c'.Tiled y := by
  obtain ⟨hroot, -, -, hslots, hcoverage⟩ := hcongruent
  obtain ⟨own, hone, hparts, hown⟩ := ht.parts
  refine ⟨?_, ⟨own, hone, ?_, fun a ha => ?_⟩, fun a ha => ?_⟩
  · rw [hcoverage]
    exact ht.wellFormed
  · rw [hcoverage, hslots, h.childRuns hstored]
    exact hparts
  · have hmem : a ∈ x.coverage.runs := hparts.mem_iff.2 (List.mem_append_left _ ha)
    rw [h.root (ht.owned a hmem).has, hroot]
    exact hown a ha
  · rw [hcoverage] at ha
    exact (ht.owned a ha).extend h

theorem Step.tiled
    (h : Step strict c c')
    (hc : Closed c)
    (hall : ∀ x, c.Has x → c.Tiled (c.candidate x)) :
    ∀ x, c'.Has x → c'.Tiled (c'.candidate x) := by
  intro x hx
  rcases h.candidate_cases hx with hold | ⟨rfl, hmade, -⟩
  · exact (hall x hold).extend h.grows (h.grows.congruent hold) fun r t ht =>
      hc.has_child hold ht
  · rcases hmade.tiled hc hall with hsprouts | htiled
    · exact hsprouts.tiled hx
    · exact htiled.extend h.grows (Candidate.Congruent.refl _) fun r t ht =>
        (hmade.origin ht).has_child hc

theorem Move.tiled
    (h : Move strict c c')
    (hc : Closed c)
    (hall : ∀ x, c.Has x → c.Tiled (c.candidate x)) :
    ∀ x, c'.Has x → c'.Tiled (c'.candidate x) := by
  have hmodify : ∀ (u : ItemId) (f : Item → Item), ∀ x, (c.modifyItem u f).Has x →
      (c.modifyItem u f).Tiled ((c.modifyItem u f).candidate x) := by
    intro u f x hx
    obtain ⟨hwellFormed, hparts, howned⟩ := hall x hx
    exact ⟨hwellFormed, hparts, fun a ha => ⟨(howned a ha).has, (howned a ha).slots,
      (howned a ha).runs⟩⟩
  cases h with
  | step h => exact h.tiled hc hall
  | fix => exact hmodify _ _
  | refill => exact hmodify _ _

theorem Operated.tiled
    (h : Operated g s c) :
    ∀ x, c.Has x → c.Tiled (c.candidate x) := by
  have hnew : ∀ x, (Chart.new g s).Has x → (Chart.new g s).Tiled ((Chart.new g s).candidate x) :=
    fun x hx => absurd hx (Nat.not_lt_zero _)
  have hkept := h.invariant (P := fun c => ∀ x, c.Has x → c.Tiled (c.candidate x)) hnew
    fun _ _ _ _ hsound hall hmove => hmove.tiled hsound.closed hall
  exact hkept.holds

end Growing

section Trees

/-- The own runs of a candidate and of everything below it. -/
def treeRuns (c : Chart) : (room : Nat) → CandidateId → List Run
  | 0, x => c.ownRuns (c.candidate x)
  | room + 1, x =>
    c.ownRuns (c.candidate x) ++
      (c.candidate x).slots.filled.flatMap fun e => c.treeRuns room e.2.child

/-- Together the nodes of a tree own what its top covers. -/
theorem treeRuns_perm
    (hc : Closed c)
    (hall : ∀ x, c.Has x → c.Tiled (c.candidate x))
    (room : Nat)
    {x : CandidateId}
    (hx : c.Has x)
    (hroom : x.index ≤ room) :
    (c.treeRuns room x).Perm (c.candidate x).coverage.runs := by
  induction room generalizing x with
  | zero =>
    obtain ⟨own, -, hparts, -⟩ := (hall x hx).parts
    have hnone : (c.candidate x).slots.filled = [] := by
      rw [List.eq_nil_iff_forall_not_mem]
      rintro ⟨r, t⟩ ht
      have hlt := hc.child x r t hx ((Slots.mem_filled _ r t).1 ht)
      omega
    have hchildren : c.childRuns (c.candidate x).slots = [] := by
      rw [childRuns, hnone, List.flatMap_nil]
    have hown := (hall x hx).ownRuns_perm hparts
    rw [hchildren, List.append_nil] at hparts
    exact hown.trans hparts.symm
  | succ room ih =>
    obtain ⟨own, -, hparts, -⟩ := (hall x hx).parts
    have hown := (hall x hx).ownRuns_perm hparts
    have hchildren : ((c.candidate x).slots.filled.flatMap fun e =>
        c.treeRuns room e.2.child).Perm (c.childRuns (c.candidate x).slots) := by
      refine List.Perm.flatMap_left _ fun e he => ?_
      have hslot : (c.candidate x).slot e.1 = some e.2 := (Slots.mem_filled _ e.1 e.2).1 he
      have hlt := hc.child x e.1 e.2 hx hslot
      exact ih (hc.has_child hx hslot) (by omega)
    exact (hown.append hchildren).trans hparts.symm

end Trees

/--
The runs of a stored candidate stand in order and apart. They are the runs of
its children and at most one of its own; each belongs to a leaf, the own one to
a leaf of the same item. In its tree no position is counted twice.
-/
theorem coverage_is_tiled
    (hrun : Operated g s c)
    {x : CandidateId}
    (hx : c.Has x) :
    (∀ a ∈ (c.candidate x).coverage.runs, a.start < a.stop) ∧
      ((c.candidate x).coverage.runs.Pairwise fun a b => a.stop ≤ b.start) ∧
      (c.candidate x).coverage.runs.Perm
        (c.ownRuns (c.candidate x) ++ c.childRuns (c.candidate x).slots) ∧
      (c.ownRuns (c.candidate x)).length ≤ 1 ∧
      (∀ a ∈ c.ownRuns (c.candidate x),
        (c.candidate a.owner).root = (c.candidate x).root) ∧
      (∀ a ∈ (c.candidate x).coverage.runs, c.Has a.owner ∧
        (c.candidate a.owner).slots = .empty ∧ (c.candidate a.owner).coverage.runs = [a]) ∧
      ∀ p, (c.treeRuns x.index x).countP (fun a => a.Contains p) ≤ 1 := by
  have htiled := hrun.tiled x hx
  obtain ⟨own, hone, hparts, hroot⟩ := htiled.parts
  have hown := htiled.ownRuns_perm hparts
  refine ⟨fun a _ => a.start_lt_stop, htiled.wellFormed, ?_, ?_, ?_, ?_, ?_⟩
  · exact hparts.trans (hown.symm.append_right _)
  · rw [hown.length_eq]
    exact hone
  · exact fun a ha => hroot a (hown.mem_iff.1 ha)
  · exact fun a ha => ⟨(htiled.owned a ha).has, (htiled.owned a ha).slots,
      (htiled.owned a ha).runs⟩
  · intro p
    have htree := treeRuns_perm hrun.kept.sound.closed hrun.tiled x.index hx (Nat.le_refl _)
    rw [htree.countP_eq]
    exact htiled.wellFormed.countP_contains_le_one p

theorem coverage_is_tiled_sample :
    (sampleChart.candidate ⟨2⟩).coverage.runs.length = 2 ∧
      (sampleChart.ownRuns (sampleChart.candidate ⟨2⟩)).length ≤ 1 := by
  have hstored : sampleChart.Has ⟨2⟩ := by decide +kernel
  refine ⟨by decide +kernel, ?_⟩
  exact (coverage_is_tiled driven_sampleChart.operated hstored).2.2.2.1

end Chart

end BeamChart
