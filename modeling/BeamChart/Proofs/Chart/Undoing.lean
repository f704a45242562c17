import BeamChart.Proofs.Chart.Growth
import BeamChart.Proofs.Chart.Joining
import BeamChart.Proofs.Chart.Readings

/-!
# Giving up a child that has just been taken

Giving up a child undoes taking it, but for the weight: the slots, the coverage, the
readings and the marker are those of the parent (`detach_attached`). That a reading or
a marker which the parent has does not go with the child is a matter of what may stand
in a candidate at all: a reading comes through a slot that is filled, and a marker
through the slot of its peer (`Anchored`).

A weight that has been clamped on the way up is not found again on the way down. What
the child and its bonus would have added beyond the greatest weight is taken off the
parent.
-/

namespace BeamChart

namespace Weight

/-- What is added and taken off again leaves a weight as it is, if no sum leaves the range. -/
theorem add_add_sub_sub_of_range
    {a b c : Weight}
    (hlow : lowest ≤ a.toInt + b.toInt ∧ a.toInt + b.toInt ≤ highest)
    (hboth : lowest ≤ a.toInt + b.toInt + c.toInt ∧ a.toInt + b.toInt + c.toInt ≤ highest)
    (hrest : lowest ≤ a.toInt + c.toInt ∧ a.toInt + c.toInt ≤ highest) :
    a + b + c - b - c = a := by
  have ha := a.lowest_le
  have ha' := a.le_highest
  apply Weight.ext
  simp only [toInt_sub, toInt_add, clamp]
  omega

/-- Of terms that are not negative, what is clamped is lost. -/
theorem add_add_sub_sub_eq_iff
    {a b c : Weight}
    (hb : 0 ≤ b.toInt)
    (hc : 0 ≤ c.toInt) :
    a + b + c - b - c = a ↔ a.toInt + b.toInt + c.toInt ≤ highest := by
  have ha := a.lowest_le
  have ha' := a.le_highest
  have hb' := b.le_highest
  have hc' := c.le_highest
  rw [Weight.ext_iff]
  simp only [toInt_sub, toInt_add, clamp, lowest, highest] at *
  omega

end Weight

namespace Candidate

/-- Readings come through slots that are filled, and a marker belongs to a peer. -/
structure Anchored (x : Candidate) : Prop where
  reading : ∀ m ∈ x.readings, ∀ r, m.via = some r → (x.slot r).isSome
  marker : x.marker.isSome → (x.slot .next).isSome

variable {x y child : Candidate} {r : Relation} {s : Slot}

/-- What is copied while all slots stay filled has its slot. -/
theorem Anchored.copy
    (h : x.Anchored)
    (hreadings : y.readings = x.readings)
    (hmarker : y.marker = x.marker)
    (hslot : ∀ r, (x.slot r).isSome → (y.slot r).isSome) :
    y.Anchored where
  reading m hm r hr := by
    rw [hreadings] at hm
    exact hslot r (h.reading m hm r hr)
  marker hm := by
    rw [hmarker] at hm
    exact hslot .next (h.marker hm)

theorem anchored_of_bare
    (hreadings : ∀ m ∈ x.readings, m.via = none)
    (hmarker : x.marker = none) :
    x.Anchored where
  reading m hm r hr := by
    rw [hreadings m hm] at hr
    cases hr
  marker hm := by
    rw [hmarker] at hm
    cases hm

theorem Anchored.detach
    (h : x.Anchored)
    (r : Relation)
    (child : Candidate) :
    (x.detach r child).Anchored := by
  cases hs : x.slot r with
  | none =>
    have hsame : x.detach r child = x := by simp only [Candidate.detach, hs]
    rw [hsame]
    exact h
  | some s =>
    constructor
    · intro m hm q hq
      have hmem : m ∈ x.readings.filter fun n => n.via != some r := by
        simpa only [Candidate.detach, hs] using hm
      obtain ⟨hold, hvia⟩ := List.mem_filter.1 hmem
      have hne : q ≠ r := by
        rintro rfl
        simp [hq] at hvia
      rw [slot_detach_of_ne x child hne]
      exact h.reading m hold q hq
    · intro hm
      have hmarker : (if r.isSequencing then none else x.marker).isSome := by
        simpa only [Candidate.detach, hs] using hm
      split at hmarker
      · cases hmarker
      · rename_i hseq
        have hne : Relation.next ≠ r := by
          rintro rfl
          exact hseq rfl
        rw [slot_detach_of_ne x child hne]
        exact h.marker hmarker

/-- Giving up a child that was taken for a free slot leaves the parent, up to the weight. -/
structure Restores (x child : Candidate) (bonus : Weight) (y : Candidate) : Prop where
  root : y.root = x.root
  ownWeight : y.ownWeight = x.ownWeight
  slots : y.slots = x.slots
  coverage : y.coverage = x.coverage
  readings : y.readings = x.readings
  marker : y.marker = x.marker
  weight : y.weight = x.weight + child.weight + bonus - child.weight - bonus

theorem detach_congr
    {child' : Candidate}
    (h : child'.Congruent child) :
    x.detach r child' = x.detach r child := by
  obtain ⟨-, hweight, -, -, hcoverage⟩ := h
  unfold Candidate.detach
  rw [hweight, hcoverage]

theorem restores_detach
    {id : CandidateId}
    {bonus : Weight}
    (h : x.Anchored)
    (hfree : x.slot r = none)
    (hx : x.coverage.WellFormed)
    (hchild : child.coverage.WellFormed)
    (happart : x.coverage.intersects child.coverage = false)
    (hcongruent : y.Congruent (x.attach r ⟨id, bonus⟩ child))
    {more : List Reading}
    (hreadings : y.readings = x.readings ++ more)
    (hmore : ∀ m ∈ more, m.via = some r)
    (hmarker : r ≠ .next → y.marker = x.marker) :
    Restores x child bonus (y.detach r child) := by
  obtain ⟨hroot, hweight, hown, hslots, hcoverage⟩ := hcongruent
  have hslot : y.slot r = some ⟨id, bonus⟩ := by
    rw [slot, hslots]
    exact slot_attach_self x r ⟨id, bonus⟩ child
  have hdetach : y.detach r child =
      { y with
        slots := y.slots.set r none
        coverage := y.coverage.subtract child.coverage
        weight := y.weight - child.weight - bonus
        readings := y.readings.filter fun m => m.via != some r
        marker := if r.isSequencing then none else y.marker
        formerWeight := y.weight
        wrapper := none
        pending := false } := by
    simp only [Candidate.detach, hslot]
  rw [hdetach]
  refine ⟨hroot, hown, ?_, ?_, ?_, ?_, by rw [hweight]; rfl⟩
  · dsimp only
    rw [hslots]
    exact Slots.set_some_set_none _ hfree
  · dsimp only
    rw [hcoverage]
    exact Coverage.union_subtract hx hchild happart
  · -- a reading of the parent comes through a slot, and this one was free
    have hold : x.readings.filter (fun m => m.via != some r) = x.readings := by
      rw [List.filter_eq_self]
      intro m hm
      rw [bne_iff_ne]
      intro hvia
      have hfilled := h.reading m hm r hvia
      rw [hfree] at hfilled
      cases hfilled
    have hnew : more.filter (fun m => m.via != some r) = [] := by
      rw [List.filter_eq_nil_iff]
      intro m hm
      simp [hmore m hm]
    dsimp only
    rw [hreadings, List.filter_append, hold, hnew, List.append_nil]
  · dsimp only
    by_cases hr : r = .next
    · subst hr
      cases hm : x.marker with
      | none => rfl
      | some m =>
        have hfilled := h.marker (by rw [hm]; rfl)
        rw [hfree] at hfilled
        cases hfilled
    · rw [if_neg (by simpa [Relation.isSequencing] using hr), hmarker hr]

end Candidate

namespace Chart

variable {strict : Prop} {g : Grammar} {s : Settings} {c c' : Chart} {p d id : CandidateId}

section Anchoring

theorem isSome_slot_joined
    {x y : Candidate}
    {r q : Relation}
    (hfree : x.slot r = none)
    (hq : (x.slot q).isSome) :
    ((c.joined id r x y).slot q).isSome := by
  obtain ⟨t, ht⟩ := Option.isSome_iff_exists.1 hq
  rw [slot_joined_of_slot hfree ht]
  rfl

/-- The readings that a child brings come through its slot. -/
theorem readings_joined_via
    (id : CandidateId)
    (r : Relation)
    (x y : Candidate) :
    ∃ more, (c.joined id r x y).readings = x.readings ++ more ∧ ∀ m ∈ more, m.via = some r := by
  rw [readings_joined]
  split
  · exact ⟨[], (List.append_nil _).symm, fun m hm => nomatch hm⟩
  · refine ⟨_, rfl, fun m hm => ?_⟩
    obtain ⟨_, _, b, _, _, _, _, rfl⟩ := mem_boundReadings (List.mem_of_mem_take hm)
    rfl

/-- Unless peers are joined, a child brings no marker. -/
theorem marker_joined_of_ne
    {r : Relation}
    (id : CandidateId)
    (hr : r ≠ .next)
    (x y : Candidate) :
    (c.joined id r x y).marker = x.marker := by
  have hseq : r.isSequencing = false := by
    simpa [Relation.isSequencing] using hr
  simp only [joined, hseq, Bool.false_eq_true, if_false]
  rfl

/-- A slot that is taken holds what comes through it. -/
theorem anchored_joined
    {x y : Candidate}
    {r : Relation}
    (h : x.Anchored)
    (hfree : x.slot r = none) :
    (c.joined id r x y).Anchored := by
  obtain ⟨t, ht, -⟩ := c.slot_joined_self id r x y
  obtain ⟨more, hreadings, hmore⟩ := c.readings_joined_via id r x y
  constructor
  · intro m hm q hq
    rw [hreadings] at hm
    rcases List.mem_append.1 hm with hold | hnew
    · exact isSome_slot_joined hfree (h.reading m hold q hq)
    · rw [hmore m hnew] at hq
      cases hq
      rw [ht]
      rfl
  · intro hm
    by_cases hr : r = .next
    · rw [← hr, ht]
      rfl
    · rw [marker_joined_of_ne id hr] at hm
      exact isSome_slot_joined hfree (h.marker hm)

theorem Made.anchored
    {x : Candidate}
    (h : Made strict c x)
    (hold : ∀ y, c.Has y → (c.candidate y).Anchored) :
    x.Anchored := by
  cases h with
  | @leaf u symbol id t =>
    refine Candidate.anchored_of_bare (fun m hm => ?_) rfl
    simp only [leafOf, senseReadings, List.mem_map] at hm
    obtain ⟨concept, -, rfl⟩ := hm
    rfl
  | seed => exact Candidate.anchored_of_bare (fun m hm => by cases hm) rfl
  | joined hfits => exact anchored_joined (hold _ hfits.parent) hfits.slot
  | @chained p d hfits =>
    refine (hold p hfits.parent).copy rfl rfl fun r hr => ?_
    by_cases hnext : r = .next
    · rw [hnext, Candidate.slot_attach_self]
      rfl
    · rw [Candidate.slot_attach_of_ne _ _ _ hnext]
      exact hr
  | lifted => exact Candidate.anchored_of_bare (fun m hm => by cases hm) rfl
  | @reduced y u hy =>
    exact withoutItem_induction u (hold y hy) fun z r t hz _ => hz.detach r _
  | @repointed p d r t hp hd hslot =>
    refine (hold p hp).copy rfl rfl fun q hq => ?_
    change ((((c.candidate p).detach r (c.candidate t.child)).attach r ⟨d, t.bonus⟩
      (c.candidate d)).slot q).isSome
    by_cases hqr : q = r
    · rw [hqr, Candidate.slot_attach_self]
      rfl
    · rw [Candidate.slot_attach_of_ne _ _ _ hqr, Candidate.slot_detach_of_ne _ _ hqr]
      exact hq

theorem Move.anchored
    (h : Move strict c c')
    (hold : ∀ x, c.Has x → (c.candidate x).Anchored) :
    ∀ x, c'.Has x → (c'.candidate x).Anchored := by
  intro x hx
  cases h with
  | step h =>
    rcases h.candidate_cases hx with hstored | ⟨-, hmade, -⟩
    · refine (hold x hstored).copy ?_ ?_ fun r hr => ?_
      · exact (congrArg Candidate.readings (h.grows.body x hstored) :)
      · exact (congrArg Candidate.marker (h.grows.body x hstored) :)
      · rw [h.grows.slot hstored]
        exact hr
    · exact hmade.anchored hold
  | fix => exact hold x hx
  | refill => exact hold x hx

/-- Whatever is stored is put together properly. -/
theorem Operated.kept_anchored
    (h : Operated g s c) :
    Kept False g s
      (fun c => ∀ x, c.Has x → c.Tiled (c.candidate x) ∧ (c.candidate x).Anchored) c :=
  h.invariant (fun _ hx => absurd hx (Nat.not_lt_zero _))
    fun _ _ _ _ hsound hall h x hx =>
      ⟨h.tiled hsound.closed (fun y hy => (hall y hy).1) x hx,
        h.anchored (fun y hy => (hall y hy).2) x hx⟩

end Anchoring

section Forgetting

variable {x : Candidate} {u : ItemId} {r : Relation} {t : Slot}

/-- Where none of some slots holds the item, nothing is given up. -/
theorem foldl_giveUp
    (relations : List Relation)
    (h : ∀ q ∈ relations, ∀ a, x.slot q = some a → (c.candidate a.child).root ≠ u) :
    relations.foldl (c.giveUp u) x = x := by
  induction relations with
  | nil => rfl
  | cons q rest ih =>
    have hstep : c.giveUp u x q = x := by
      unfold giveUp
      split
      · rename_i a ha
        rw [if_neg]
        simpa [holdsItem] using h q List.mem_cons_self a ha
      · rfl
    rw [List.foldl_cons, hstep]
    exact ih fun q hq => h q (List.mem_cons_of_mem _ hq)

/-- An item that is held in one slot only is given up there. -/
theorem withoutItem_of_only
    (hslot : x.slot r = some t)
    (hroot : (c.candidate t.child).root = u)
    (hother : ∀ q a, q ≠ r → x.slot q = some a → (c.candidate a.child).root ≠ u) :
    c.withoutItem x u = x.detach r (c.candidate t.child) := by
  obtain ⟨front, back, hsplit⟩ := List.append_of_mem (Relation.mem_all r)
  have hnodup := Relation.nodup_all
  rw [hsplit, List.nodup_append, List.nodup_cons] at hnodup
  obtain ⟨-, ⟨hback, -⟩, hfront⟩ := hnodup
  have hhere : c.giveUp u x r = x.detach r (c.candidate t.child) := by
    simp [giveUp, hslot, holdsItem, hroot]
  rw [withoutItem_eq_foldl, hsplit, List.foldl_append, foldl_giveUp front, List.foldl_cons,
    hhere, foldl_giveUp back]
  · intro q hq a ha
    refine hother q a ?_ (Candidate.slot_of_slot_detach ha)
    rintro rfl
    exact hback hq
  · intro q hq a ha
    refine hother q a ?_ ha
    rintro rfl
    exact hfront q hq q List.mem_cons_self rfl

/-- What has been stored for a parent with a child is the parent again without the child. -/
theorem restores_joined
    (hordered : c.markers.Ordered)
    {p d : CandidateId}
    (hanchored : (c.candidate p).Anchored)
    (hslot : (c.candidate p).slot r = none)
    (hp : (c.candidate p).coverage.WellFormed)
    (hd : (c.candidate d).coverage.WellFormed)
    (happart : (c.candidate p).coverage.intersects (c.candidate d).coverage = false)
    (hbody : x.body = (c.joined d r (c.candidate p) (c.candidate d)).body) :
    ∃ bonus, x.Congruent ((c.candidate p).attach r ⟨d, bonus⟩ (c.candidate d)) ∧
      (c.candidate p).Restores (c.candidate d) bonus (x.detach r (c.candidate d)) := by
  obtain ⟨bonus, readings, marker, heq, -⟩ :=
    joined_earns hordered d r (c.candidate p) (c.candidate d)
  have hcongruent : x.Congruent ((c.candidate p).attach r ⟨d, bonus⟩ (c.candidate d)) := by
    have hjoined := Candidate.congruent_of_body_eq hbody
    rw [heq] at hjoined
    exact hjoined
  obtain ⟨more, hreadings, hmore⟩ :=
    c.readings_joined_via d r (c.candidate p) (c.candidate d)
  have hsame : x.readings = (c.joined d r (c.candidate p) (c.candidate d)).readings :=
    (congrArg Candidate.readings hbody :)
  have hmarker : x.marker = (c.joined d r (c.candidate p) (c.candidate d)).marker :=
    (congrArg Candidate.marker hbody :)
  refine ⟨bonus, hcongruent, Candidate.restores_detach hanchored hslot hp hd happart hcongruent
    (hsame.trans hreadings) hmore fun hr => ?_⟩
  rw [hmarker]
  exact marker_joined_of_ne d hr _ _

/-- Unless the arena is full, what an item is given up in is stored. -/
theorem candidate_detach
    {z f : CandidateId}
    (h : c.Holds z r u)
    (hf : (c.detach z u).1 = .ok (some f)) :
    (c.detach z u).2.candidate f = c.withoutItem (c.candidate z) u := by
  have hdetach := detach_of_holds h
  cases hfull : c.candidatesFull with
  | true =>
    rw [hdetach, hfull] at hf
    cases hf
  | false =>
    rw [hdetach, hfull] at hf ⊢
    cases hf
    exact candidate_nextCandidate _ _

end Forgetting

/--
A child of an item that the parent did not hold is taken, and then everything of that item
is given up: slots, coverage, readings and marker are those of the parent again. So is
the weight, if no sum was clamped; if neither the child nor its bonus takes anything away,
only then. As long as there is room, a replacement is made.
-/
theorem detach_attached
    (hrun : Operated g s c)
    (hp : c.Has p)
    (hd : c.Has d)
    (rule : Rule SymbolId)
    (hnone : ∀ r, ¬ c.Holds p r (c.candidate d).root)
    (hattach : (c.attach p d rule).1 = .attached id) :
    ∃ bonus, ((c.attach p d rule).2.candidate id).slot rule.relation = some ⟨d, bonus⟩ ∧
      ((c.attach p d rule).2.candidatesFull = false →
        ∃ f, ((c.attach p d rule).2.detach id (c.candidate d).root).1 = .ok (some f)) ∧
      ∀ f, ((c.attach p d rule).2.detach id (c.candidate d).root).1 = .ok (some f) →
        (c.candidate p).Restores (c.candidate d) bonus
          (((c.attach p d rule).2.detach id (c.candidate d).root).2.candidate f) ∧
        (Weight.lowest ≤ (c.weightOf p).toInt + (c.weightOf d).toInt ∧
            (c.weightOf p).toInt + (c.weightOf d).toInt ≤ Weight.highest →
          Weight.lowest ≤ (c.weightOf p).toInt + (c.weightOf d).toInt + bonus.toInt ∧
            (c.weightOf p).toInt + (c.weightOf d).toInt + bonus.toInt ≤ Weight.highest →
          Weight.lowest ≤ (c.weightOf p).toInt + bonus.toInt ∧
            (c.weightOf p).toInt + bonus.toInt ≤ Weight.highest →
          ((c.attach p d rule).2.detach id (c.candidate d).root).2.weightOf f = c.weightOf p) ∧
        (0 ≤ (c.weightOf d).toInt → 0 ≤ bonus.toInt →
          (((c.attach p d rule).2.detach id (c.candidate d).root).2.weightOf f = c.weightOf p ↔
            (c.weightOf p).toInt + (c.weightOf d).toInt + bonus.toInt ≤ Weight.highest)) := by
  have hkept := hrun.kept_anchored
  have hext : Extends c (c.attach p d rule).2 :=
    (attach_spec rule hkept.sound ⟨hp, rfl⟩ ⟨hd, rfl⟩ False.elim False.elim).1.grows
  cases attempt hkept.sound hp hd rule with
  | slotTaken _ houtcome => rw [houtcome] at hattach; cases hattach
  | conflict _ _ houtcome => rw [houtcome] at hattach; cases hattach
  | exhausted _ _ _ houtcome => rw [houtcome] at hattach; cases hattach
  | attached hslot happart hroom houtcome hhas hbody =>
    obtain rfl : c.nextCandidate = id := by
      rw [houtcome] at hattach
      exact Attachment.attached.inj hattach
    generalize (c.attach p d rule).2 = c₁ at hext hhas hbody ⊢
    obtain ⟨bonus, hcongruent, hrestores⟩ := restores_joined hrun.markers_ordered
      (hkept.holds p hp).2 hslot (hkept.holds p hp).1.wellFormed (hkept.holds d hd).1.wellFormed
      happart hbody
    obtain ⟨-, -, -, hslots, -⟩ := id hcongruent
    have hfilled : (c₁.candidate c.nextCandidate).slot rule.relation = some ⟨d, bonus⟩ := by
      rw [Candidate.slot, hslots]
      exact Candidate.slot_attach_self _ _ _ _
    -- the child is the only one of its item
    have hother : ∀ q a, q ≠ rule.relation → (c₁.candidate c.nextCandidate).slot q = some a →
        (c₁.candidate a.child).root ≠ (c.candidate d).root := by
      intro q a hq ha hroot
      rw [Candidate.slot, hslots] at ha
      have hold : (c.candidate p).slot q = some a := by
        rw [← Candidate.slot_attach_of_ne _ ⟨d, bonus⟩ (c.candidate d) hq]
        exact ha
      rw [hext.root (hkept.sound.closed.has_child hp hold)] at hroot
      exact hnone q ⟨a, hold, hroot⟩
    have hwithout := withoutItem_of_only (t := ⟨d, bonus⟩) hfilled (hext.root hd) hother
    rw [Candidate.detach_congr (hext.congruent hd)] at hwithout
    have hholds : c₁.Holds c.nextCandidate rule.relation (c.candidate d).root :=
      ⟨_, hfilled, hext.root hd⟩
    refine ⟨bonus, hfilled, fun hopen => ?_, fun f hf => ?_⟩
    · rw [detach_of_holds hholds, hopen]
      exact ⟨_, rfl⟩
    · have hstored := (candidate_detach hholds hf).trans hwithout
      have hweight : (c₁.detach c.nextCandidate (c.candidate d).root).2.weightOf f =
          c.weightOf p + c.weightOf d + bonus - c.weightOf d - bonus := by
        unfold weightOf
        rw [hstored]
        exact hrestores.weight
      rw [hstored, hweight]
      exact ⟨hrestores, Weight.add_add_sub_sub_of_range, Weight.add_add_sub_sub_eq_iff⟩

section Sample

/-- An item that has taken the other one, with a marker between them, gives it up again. -/
theorem detach_attached_sample :
    Operated itemGrammar {} partedChart ∧ partedChart.Has ⟨0⟩ ∧ partedChart.Has ⟨1⟩ ∧
      (∀ r, ¬ partedChart.Holds ⟨0⟩ r (partedChart.candidate ⟨1⟩).root) ∧
      (partedChart.attach ⟨0⟩ ⟨1⟩ { relation := .next, target := 1 }).1 = .attached ⟨3⟩ ∧
      ((partedChart.attach ⟨0⟩ ⟨1⟩ { relation := .next, target := 1 }).2.detach ⟨3⟩
        (partedChart.candidate ⟨1⟩).root).1 = .ok (some ⟨4⟩) ∧
      ((partedChart.attach ⟨0⟩ ⟨1⟩ { relation := .next, target := 1 }).2.detach ⟨3⟩
        (partedChart.candidate ⟨1⟩).root).2.weightOf ⟨4⟩ = partedChart.weightOf ⟨0⟩ := by
  have hp : partedChart.Has ⟨0⟩ := by decide +kernel
  have hd : partedChart.Has ⟨1⟩ := by decide +kernel
  have hnone : ∀ r, ¬ partedChart.Holds ⟨0⟩ r (partedChart.candidate ⟨1⟩).root := by
    rintro r ⟨t, ht, -⟩
    have hslots : (partedChart.candidate ⟨0⟩).slots = .empty := by decide +kernel
    rw [Candidate.slot, hslots, Slots.get_empty] at ht
    cases ht
  have hattach : (partedChart.attach ⟨0⟩ ⟨1⟩ { relation := .next, target := 1 }).1 =
      .attached ⟨3⟩ := by decide +kernel
  have hdetach : ((partedChart.attach ⟨0⟩ ⟨1⟩ { relation := .next, target := 1 }).2.detach ⟨3⟩
      (partedChart.candidate ⟨1⟩).root).1 = .ok (some ⟨4⟩) := by decide +kernel
  obtain ⟨bonus, hslot, -, hundone⟩ :=
    detach_attached kempt_partedChart.operated hp hd _ hnone hattach
  have hbonus : ((partedChart.attach ⟨0⟩ ⟨1⟩ { relation := .next, target := 1 }).2.candidate
      ⟨3⟩).slot .next = some ⟨⟨1⟩, .ofInt 6⟩ := by decide +kernel
  obtain rfl : Weight.ofInt 6 = bonus := by
    rw [hbonus] at hslot
    exact congrArg Slot.bonus (Option.some.inj hslot)
  refine ⟨kempt_partedChart.operated, hp, hd, hnone, hattach, hdetach, ?_⟩
  exact (hundone ⟨4⟩ hdetach).2.1 (by decide +kernel) (by decide +kernel) (by decide +kernel)

/-- A head that takes a mark as its property. -/
def headGrammar : Grammar :=
  Declaration.built
    { symbols :=
        [{ name := "head", rules := [{ relation := .property, target := "mark" }] },
          { name := "mark" }] }

/-- The exponent lets a longer item have the greatest weight. -/
def steepSettings : Settings :=
  { scoring := { exponent := 31 } }

def steepChart : Chart :=
  (new headGrammar steepSettings).operate
    [.allocate, .instantiate ⟨0⟩ (some 1) { concept := 1, position := 0, extent := 2 },
      .allocate, .instantiate ⟨1⟩ (some 2) { concept := 2, position := 2, extent := 1 }]

/-- The head has the greatest weight already, and less than that once it has had a mark. -/
theorem detach_loses_clamped_weight :
    Operated headGrammar steepSettings steepChart ∧
      (∀ r, ¬ steepChart.Holds ⟨0⟩ r (steepChart.candidate ⟨1⟩).root) ∧
      (steepChart.attach ⟨0⟩ ⟨1⟩ { relation := .property, target := 2 }).1 = .attached ⟨2⟩ ∧
      ((steepChart.attach ⟨0⟩ ⟨1⟩ { relation := .property, target := 2 }).2.detach ⟨2⟩
        (steepChart.candidate ⟨1⟩).root).1 = .ok (some ⟨3⟩) ∧
      (steepChart.weightOf ⟨0⟩).toInt = 2147483647 ∧
      (((steepChart.attach ⟨0⟩ ⟨1⟩ { relation := .property, target := 2 }).2.detach ⟨2⟩
        (steepChart.candidate ⟨1⟩).root).2.weightOf ⟨3⟩).toInt = 2147483641 := by
  refine ⟨Operated.new.operate (by decide +kernel), ?_, by decide +kernel, by decide +kernel,
    by decide +kernel, by decide +kernel⟩
  rintro r ⟨t, ht, -⟩
  have hslots : (steepChart.candidate ⟨0⟩).slots = .empty := by decide +kernel
  rw [Candidate.slot, hslots, Slots.get_empty] at ht
  cases ht

end Sample

end Chart

end BeamChart
