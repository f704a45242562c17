import BeamChart.Proofs.Chart.Balance
import BeamChart.Proofs.Chart.Undoing

/-!
# Taking a child again

A child that has been taken and given up can be taken again, as long as there is room.
What is made then is what was made at first: the same slots and bonus, the same coverage,
readings and marker (`retake_repeats`). What the child earns is read off the items, their
symbols and the markers, so these must not have changed in between (`Undisturbed`);
other candidates may have been stored.

The weight may differ, since giving up a child does not lead back to the parent's weight
once a sum has been clamped. It is the first weight again if and only if taking the child
off stays in the range, and that is so for every child whose weight is not negative. A
child weighs less than nothing after more has been taken off it than could be added
(`retake_misses_weight`).
-/

namespace BeamChart

namespace Weight

/--
What is added, taken off and added once more comes to the same if taking off the second
term stays in the range.
-/
theorem add_sub_add_eq_iff
    {a b c : Weight}
    (hc : 0 ≤ c.toInt) :
    a + b + c - b - c + b + c = a + b + c ↔ (a + b + c).toInt - b.toInt ≤ highest := by
  have ha := a.lowest_le
  have ha' := a.le_highest
  have hb := b.lowest_le
  have hb' := b.le_highest
  have hc' := c.le_highest
  rw [Weight.ext_iff]
  simp only [toInt_sub, toInt_add, clamp, lowest, highest] at *
  omega

end Weight

namespace Candidate

/-- Two candidates that agree in all that counts but the weight. -/
structure Repeats (x y : Candidate) : Prop where
  root : y.root = x.root
  ownWeight : y.ownWeight = x.ownWeight
  slots : y.slots = x.slots
  coverage : y.coverage = x.coverage
  span : y.span? = x.span?
  readings : y.readings = x.readings
  marker : y.marker = x.marker

theorem Repeats.congruent_iff
    {x y : Candidate}
    (h : x.Repeats y) :
    y.Congruent x ↔ y.weight = x.weight :=
  ⟨fun hcongruent => hcongruent.2.1,
    fun hweight => ⟨h.root, hweight, h.ownWeight, h.slots, h.coverage⟩⟩

/-- Marks do not matter for what has been restored. -/
theorem Restores.congr_body
    {x child y z : Candidate}
    {bonus : Weight}
    (h : x.Restores child bonus y)
    (hbody : z.body = y.body) :
    x.Restores child bonus z := by
  obtain ⟨hroot, hweight, hown, hslots, hcoverage⟩ := congruent_of_body_eq hbody
  exact ⟨hroot.trans h.root, hown.trans h.ownWeight, hslots.trans h.slots,
    hcoverage.trans h.coverage, (congrArg Candidate.readings hbody :).trans h.readings,
    (congrArg Candidate.marker hbody :).trans h.marker, hweight.trans h.weight⟩

end Candidate

namespace Chart

variable {g : Grammar} {s : Settings} {c c' c'' : Chart} {p d id f : CandidateId}

section Listed

/-- Only items that are stored are posted as markers. -/
theorem Operated.lt_size_of_marker
    (h : Operated g s c)
    {key : Nat}
    {u : ItemId}
    (hu : u ∈ c.markers.under key) :
    u.index < c.items.size := by
  have hkept := h.invariant
    (P := fun c => c.markers.Ordered ∧ ∀ key, ∀ u ∈ c.markers.under key, u.index < c.items.size)
    ⟨Postings.ordered_empty, fun key u hu => by cases hu⟩
    fun c c' _ _ _ hold hmove => by
      refine ⟨(hmove.markers_ordered hold.1).1, fun key u hu => ?_⟩
      have hstay : c'.markers = c.markers → c.items.size ≤ c'.items.size →
          u.index < c'.items.size := fun hmarkers hle => by
        rw [hmarkers] at hu
        exact Nat.lt_of_lt_of_le (hold.2 key u hu) hle
      cases hmove with
      | fix => exact hstay rfl (by simp)
      | refill => exact hstay rfl (by simp)
      | step hstep =>
        have hle := hstep.grows.items_le
        cases hstep with
        | @register v =>
          by_cases hreg : (c.item v).registered = true
          · exact hstay (by rw [register_of_registered hreg]) hle
          · rcases markers_register (eq_false_of_ne_true hreg) with ⟨hmarker, heq⟩ | ⟨-, heq⟩
            · rw [heq, Postings.under_add hold.1] at hu
              split at hu
              · rcases List.mem_append.1 hu with hu | hu
                · exact Nat.lt_of_lt_of_le (hold.2 key u hu) hle
                · rw [List.mem_singleton.1 hu]
                  exact Nat.lt_of_lt_of_le hmarker.lt_size hle
              · exact Nat.lt_of_lt_of_le (hold.2 key u hu) hle
            · exact hstay heq hle
        | _ => exact hstay rfl hle
  exact hkept.holds.2 key u hu

end Listed

/-- A later chart in which the items and the posted markers are as they were. -/
structure Undisturbed (c c' : Chart) : Prop where
  grows : Extends c c'
  markers : c'.markers = c.markers
  item : ∀ u, u.index < c.items.size → c'.item u = c.item u

namespace Undisturbed

theorem refl (c : Chart) :
    Undisturbed c c :=
  ⟨.refl c, rfl, fun _ _ => rfl⟩

theorem trans
    (h : Undisturbed c c')
    (k : Undisturbed c' c'') :
    Undisturbed c c'' where
  grows := h.grows.trans k.grows
  markers := k.markers.trans h.markers
  item u hu := (k.item u (Nat.lt_of_lt_of_le hu h.grows.items_le)).trans (h.item u hu)

end Undisturbed

section Frame

@[simp] theorem markers_tryAttach
    (c : Chart)
    (p d : CandidateId)
    (r : Relation)
    (make : Candidate → Candidate → Candidate) :
    (c.tryAttach p d r make).2.markers = c.markers := by
  cases trial c p d r make with
  | slotTaken _ heq | conflict _ _ heq | exhausted _ _ _ heq | attached _ _ _ heq =>
    rw [heq]
    rfl

@[simp] theorem markers_wrap (c : Chart) (x : CandidateId) :
    (c.wrap x).markers = c.markers := by
  cases enclosure c x with
  | refused _ heq | spanless _ _ heq | exhausted _ _ _ heq | enclosed _ _ _ _ heq =>
    rw [heq]
    rfl

@[simp] theorem markers_attach
    (c : Chart)
    (p d : CandidateId)
    (rule : Rule SymbolId) :
    (c.attach p d rule).2.markers = c.markers := by
  have htry := markers_tryAttach c p d rule.relation (c.joined d rule.relation)
  rcases attach_cases c p d rule with heq | ⟨-, c₁, hattached, heq⟩ <;> rw [heq]
  · exact htry
  · rw [hattached] at htry
    rw [markers_wrap]
    exact htry

theorem attach_undisturbed
    (hc : Sound False c)
    (hp : c.Has p)
    (hd : c.Has d)
    (rule : Rule SymbolId) :
    Undisturbed c (c.attach p d rule).2 where
  grows := extends_attach hc hp hd rule
  markers := markers_attach c p d rule
  item _ hu := item_attach p d rule hu

theorem detach_undisturbed
    (hp : c.Has p)
    (u : ItemId) :
    Undisturbed c (c.detach p u).2 where
  grows := by
    have hsteps : Evolves False c (c.detach p u).2 := (detach_spec hp fun h => h.elim).1
    exact hsteps.grows
  markers := by
    cases detachment c p u with
    | kept _ heq => rw [heq]
    | exhausted _ _ heq | replaced _ _ heq =>
      rw [heq]
      rfl
  item v _ := item_of_items_eq (items_detach c p u) v

/-- A replacement that has been made is stored. -/
theorem has_detach
    {u : ItemId}
    (hp : c.Has p)
    (hf : (c.detach p u).1 = .ok (some f)) :
    (c.detach p u).2.Has f := by
  have hspec : Evolves False c (c.detach p u).2 ∧ _ := detach_spec hp fun h => h.elim
  exact (hspec.2 f hf).1

end Frame

section Earning

variable {x y x' y' z z' : Candidate} {r : Relation} {bonus bonus' : Weight} {m : ItemId}

/-- The same marker stands between candidates of the same coverage. -/
theorem Undisturbed.between_iff
    (h : Undisturbed c c')
    (hlisted : ∀ key, ∀ u ∈ c.markers.under key, u.index < c.items.size)
    (hx : x'.coverage = x.coverage)
    (hy : y'.coverage = y.coverage) :
    c'.Between x' y' m ↔ c.Between x y m := by
  have hstop : ∀ key, ∀ u ∈ c.markers.under key, (c'.item u).stop = (c.item u).stop :=
    fun key u hu => by rw [h.item u (hlisted key u hu)]
  have hfind : ∀ key bound, (c'.markers.under key).find? (fun u => (c'.item u).stop ≤ bound) =
      (c.markers.under key).find? fun u => (c.item u).stop ≤ bound := by
    intro key bound
    rw [h.markers]
    exact List.find?_congr fun u hu => by rw [hstop key u hu]
  have hleft : ∀ key bound, (∀ u ∈ c'.markers.under key, bound < (c'.item u).stop) ↔
      ∀ u ∈ c.markers.under key, bound < (c.item u).stop := by
    intro key bound
    rw [h.markers]
    exact forall₂_congr fun u hu => by rw [hstop key u hu]
  have hdivides : ∀ a b position, c'.Divides a b position m ↔ c.Divides a b position m := by
    intro a b position
    constructor <;> intro hm <;> refine ⟨hm.start_le, hm.lt_stop, ?_, fun k hk hlt => ?_⟩
    · exact (hfind position _).symm.trans hm.first
    · exact (hleft k _).1 (hm.leftmost k hk hlt)
    · exact (hfind position _).trans hm.first
    · exact (hleft k _).2 (hm.leftmost k hk hlt)
  simp only [Between, Candidate.span?, hx, hy, hdivides]

/-- A marker that stands between two candidates is stored. -/
theorem Between.lt_size
    (hlisted : ∀ key, ∀ u ∈ c.markers.under key, u.index < c.items.size)
    (h : c.Between x y m) :
    m.index < c.items.size := by
  obtain ⟨a, b, position, -, -, hdivides⟩ := h
  exact hlisted position m (List.mem_of_find?_eq_some hdivides.first)

theorem Undisturbed.markerWeight
    (h : Undisturbed c c')
    (hc : Closed c)
    (hm : m.index < c.items.size) :
    c'.markerWeight m = c.markerWeight m := by
  unfold Chart.markerWeight
  rw [h.item m hm]
  cases hfirst : (c.item m).pool.head? with
  | none => rfl
  | some k => exact h.grows.weightOf (hc.has_of_mem (List.mem_of_mem_head? hfirst))

/-- What is earned under the same circumstances is the same. -/
theorem Undisturbed.earns_again
    (h : Undisturbed c c')
    (hc : Closed c)
    (hlisted : ∀ key, ∀ u ∈ c.markers.under key, u.index < c.items.size)
    (hx : x'.coverage = x.coverage)
    (hy : y'.coverage = y.coverage)
    (hmarker : x'.marker = x.marker)
    (hfirst : c.EarnsFrom r x y z bonus)
    (hagain : c'.EarnsFrom r x' y' z' bonus') :
    bonus' = bonus ∧ z'.marker = z.marker := by
  have hbetween : ∀ m, c'.Between x' y' m ↔ c.Between x y m := fun m =>
    h.between_iff hlisted hx hy
  by_cases hr : r = .next
  · by_cases hany : ∃ m, c.Between x y m
    · obtain ⟨m, hm⟩ := hany
      obtain ⟨hbonus, hz⟩ := hfirst.marked hr m hm
      obtain ⟨hbonus', hz'⟩ := hagain.marked hr m ((hbetween m).2 hm)
      rw [hbonus, hbonus', hz, hz', h.grows.settings, h.markerWeight hc (hm.lt_size hlisted)]
      exact ⟨rfl, rfl⟩
    · obtain ⟨hbonus, hz⟩ := hfirst.plain hr fun m hm => hany ⟨m, hm⟩
      obtain ⟨hbonus', hz'⟩ := hagain.plain hr fun m hm => hany ⟨m, (hbetween m).1 hm⟩
      rw [hbonus, hbonus', hz, hz']
      exact ⟨rfl, hmarker⟩
  · obtain ⟨hbonus, hz⟩ := hfirst.structural hr
    obtain ⟨hbonus', hz'⟩ := hagain.structural hr
    rw [hbonus, hbonus', hz, hz', h.grows.settings]
    exact ⟨rfl, hmarker⟩

/-- The readings that a child brings are told by the symbols of the two items. -/
theorem Undisturbed.readings_again
    (h : Undisturbed c c')
    (hx : x.root.index < c.items.size)
    (hy : y.root.index < c.items.size)
    (hroot : x'.root = x.root)
    (hroot' : y'.root = y.root)
    (hreadings : x'.readings = x.readings) :
    (c'.joined id r x' y').readings = (c.joined id r x y).readings := by
  have hbound : c'.boundReadings x' y' r = c.boundReadings x y r := by
    simp only [boundReadings, hroot, hroot', h.item _ hx, h.item _ hy, h.grows.grammar]
  rw [readings_joined, readings_joined, hreadings, hbound, h.grows.settings]

/-- What a child earns is not negative, unless it is for a marker of negative weight. -/
theorem EarnsFrom.bonus_nonneg
    (hscoring : c.settings.scoring.Rewarding)
    (h : c.EarnsFrom r x y z bonus)
    (hmarkers : ∀ m, c.Between x y m → 0 ≤ (c.markerWeight m).toInt) :
    0 ≤ bonus.toInt := by
  by_cases hr : r = .next
  · by_cases hany : ∃ m, c.Between x y m
    · obtain ⟨m, hm⟩ := hany
      rw [(h.marked hr m hm).1]
      exact hscoring.markerBonus_nonneg (hmarkers m hm)
    · rw [(h.plain hr fun m hm => hany ⟨m, hm⟩).1]
      exact Int.le_refl 0
  · rw [(h.structural hr).1]
    exact hscoring.structural

end Earning

section Restoring

/-- All that is held of an item is the child that has just been taken. -/
theorem withoutItem_joined
    {z : CandidateId}
    {bonus : Weight}
    {r : Relation}
    (hc : Closed c)
    (hp : c.Has p)
    (hd : c.Has d)
    (hnone : ∀ q, ¬ c.Holds p q (c.candidate d).root)
    (hext : Extends c c')
    (hslots : (c'.candidate z).slots = (c.candidate p).slots.set r (some ⟨d, bonus⟩)) :
    c'.Holds z r (c.candidate d).root ∧
      c'.withoutItem (c'.candidate z) (c.candidate d).root =
        (c'.candidate z).detach r (c.candidate d) := by
  have hfilled : (c'.candidate z).slot r = some ⟨d, bonus⟩ := by
    rw [Candidate.slot, hslots]
    exact Slots.get_set_self _ _ _
  have hother : ∀ q a, q ≠ r → (c'.candidate z).slot q = some a →
      (c'.candidate a.child).root ≠ (c.candidate d).root := by
    intro q a hq ha hroot
    have hold : (c.candidate p).slot q = some a := by
      rw [Candidate.slot, hslots, Slots.get_set_of_ne _ _ hq] at ha
      exact ha
    rw [hext.root (hc.has_child hp hold)] at hroot
    exact hnone q ⟨a, hold, hroot⟩
  refine ⟨⟨_, hfilled, hext.root hd⟩, ?_⟩
  rw [withoutItem_of_only hfilled (hext.root hd) hother,
    Candidate.detach_congr (hext.congruent hd)]

/-- The parent takes a child and gives it up, and there is the parent again, up to the weight. -/
structure Restored
    (c : Chart)
    (r : Relation)
    (p d : CandidateId)
    (bonus : Weight)
    (x y : Candidate) : Prop where
  free : (c.candidate p).slot r = none
  apart : (c.candidate p).coverage.intersects (c.candidate d).coverage = false
  body : x.body = (c.joined d r (c.candidate p) (c.candidate d)).body
  joins : x.Congruent ((c.candidate p).attach r ⟨d, bonus⟩ (c.candidate d))
  earns : c.EarnsFrom r (c.candidate p) (c.candidate d) x bonus
  restores : (c.candidate p).Restores (c.candidate d) bonus y

theorem restored
    (hrun : Operated g s c)
    (hp : c.Has p)
    (hd : c.Has d)
    (rule : Rule SymbolId)
    (hnone : ∀ r, ¬ c.Holds p r (c.candidate d).root)
    (hattach : (c.attach p d rule).1 = .attached id)
    (hdetach : ((c.attach p d rule).2.detach id (c.candidate d).root).1 = .ok (some f)) :
    ∃ bonus, c.Restored rule.relation p d bonus ((c.attach p d rule).2.candidate id)
      (((c.attach p d rule).2.detach id (c.candidate d).root).2.candidate f) := by
  have hkept := hrun.kept_anchored
  have hext := extends_attach hkept.sound hp hd rule
  obtain ⟨hslot, happart, -, hbody⟩ := free_of_attached hkept.sound hp hd hattach
  generalize (c.attach p d rule).2 = c₁ at hext hbody hdetach ⊢
  obtain ⟨bonus, hcongruent, hrestores⟩ := restores_joined hrun.markers_ordered
    (hkept.holds p hp).2 hslot (hkept.holds p hp).1.wellFormed (hkept.holds d hd).1.wellFormed
    happart hbody
  have hslots := hcongruent.2.2.2.1
  obtain ⟨earned, hearns, hset, -⟩ := ((joins_joined hrun.markers_ordered
    (hkept.holds p hp).1.wellFormed (hkept.holds d hd).1.wellFormed happart d
    rule.relation).congr_body hbody).scored
  obtain rfl : bonus = earned := by
    have hfilled := congrArg (Slots.get · rule.relation) (hslots.symm.trans hset)
    simpa [Candidate.attach] using hfilled
  obtain ⟨hholds, hwithout⟩ := withoutItem_joined hkept.sound.closed hp hd hnone hext hslots
  rw [candidate_detach hholds hdetach, hwithout]
  exact ⟨bonus, hslot, happart, hbody, hcongruent, hearns, hrestores⟩

variable {r : Relation} {bonus : Weight} {x y z : Candidate}

/-- The parent, once restored, is as good as at first for the child. -/
theorem Restored.repeats
    (h : c.Restored r p d bonus x y)
    (hc : Closed c)
    (hp : c.Has p)
    (hd : c.Has d)
    (hordered : c'.markers.Ordered)
    (hlisted : ∀ key, ∀ u ∈ c.markers.under key, u.index < c.items.size)
    (hsame : Undisturbed c c')
    (hbody : z.body = (c'.joined d r y (c'.candidate d)).body) :
    x.Repeats z ∧ z.weight = (c.candidate p).weight + (c.candidate d).weight + bonus -
      (c.candidate d).weight - bonus + (c.candidate d).weight + bonus := by
  obtain ⟨-, hweight, -, -, hcoverage⟩ := hsame.grows.congruent hd
  obtain ⟨bonus', readings, marker, heq, hagain⟩ :=
    joined_earns hordered d r y (c'.candidate d)
  obtain ⟨hbonus, hmarker⟩ := hsame.earns_again hc hlisted h.restores.coverage hcoverage
    h.restores.marker h.earns hagain
  have hreadings : (c'.joined d r y (c'.candidate d)).readings =
      (c.joined d r (c.candidate p) (c.candidate d)).readings :=
    hsame.readings_again (hc.root p hp) (hc.root d hd) h.restores.root (hsame.grows.root hd)
      h.restores.readings
  obtain ⟨xroot, -, xown, xslots, xcoverage⟩ := h.joins
  obtain ⟨zroot, zweight, zown, zslots, zcoverage⟩ := Candidate.congruent_of_body_eq hbody
  have hsameCoverage : z.coverage = x.coverage := by
    rw [zcoverage, heq, xcoverage]
    simp only [Candidate.attach, h.restores.coverage, hcoverage]
  refine ⟨⟨?_, ?_, ?_, hsameCoverage, ?_, ?_, ?_⟩, ?_⟩
  · rw [zroot, heq, xroot]
    exact h.restores.root
  · rw [zown, heq, xown]
    exact h.restores.ownWeight
  · rw [zslots, heq, xslots]
    simp only [Candidate.attach, h.restores.slots, hbonus]
  · rw [Candidate.span?, Candidate.span?, hsameCoverage]
  · exact ((congrArg Candidate.readings hbody :).trans hreadings).trans
      (congrArg Candidate.readings h.body :).symm
  · exact (congrArg Candidate.marker hbody :).trans hmarker
  · rw [zweight, heq]
    simp only [Candidate.attach, h.restores.weight, hweight, hbonus]

end Restoring

/--
A child that has been taken and given up can be taken once more, while there is room and
as long as no item and no marker has changed. That repeats what was made at first, but for
the weight. If no marker weighs less than nothing, the weight is the same if and only if
taking off the child's weight stays in the range; that is so for each child that takes
nothing away.
-/
theorem retake_repeats
    (hscoring : s.scoring.Rewarding)
    (hrun : Operated g s c)
    (hp : c.Has p)
    (hd : c.Has d)
    (rule : Rule SymbolId)
    (hnone : ∀ r, ¬ c.Holds p r (c.candidate d).root)
    (hattach : (c.attach p d rule).1 = .attached id)
    (hdetach : ((c.attach p d rule).2.detach id (c.candidate d).root).1 = .ok (some f))
    (hrun' : Operated g s c')
    (hlater : Undisturbed ((c.attach p d rule).2.detach id (c.candidate d).root).2 c')
    (hroom : c'.candidatesFull = false) :
    ∃ e, (c'.attach f d rule).1 = .attached e ∧
      ((c.attach p d rule).2.candidate id).Repeats ((c'.attach f d rule).2.candidate e) ∧
      ((∀ m, c.Between (c.candidate p) (c.candidate d) m → 0 ≤ (c.markerWeight m).toInt) →
        (((c'.attach f d rule).2.candidate e).Congruent ((c.attach p d rule).2.candidate id) ↔
          ((c.attach p d rule).2.weightOf id).toInt - (c.weightOf d).toInt ≤ Weight.highest) ∧
        (0 ≤ (c.weightOf d).toInt →
          ((c'.attach f d rule).2.candidate e).Congruent
            ((c.attach p d rule).2.candidate id))) := by
  have hkept := hrun.kept_anchored
  have hsound' := hrun'.kept_anchored.sound
  obtain ⟨bonus, hrestored⟩ := restored hrun hp hd rule hnone hattach hdetach
  obtain ⟨-, -, hattached, -⟩ := free_of_attached hkept.sound hp hd hattach
  have hdetached := has_detach hattached hdetach
  have hsame : Undisturbed c c' := ((attach_undisturbed hkept.sound hp hd rule).trans
    (detach_undisturbed hattached _)).trans hlater
  have hf : c'.Has f := hlater.grows.has hdetached
  have hd' : c'.Has d := hsame.grows.has hd
  have hrestores := hrestored.restores.congr_body (hlater.grows.body f hdetached)
  -- the second attempt finds the slot and the positions that the first one found
  cases attempt hsound' hf hd' rule with
  | slotTaken htaken _ =>
    rw [Candidate.slot, hrestores.slots, ← Candidate.slot, hrestored.free] at htaken
    cases htaken
  | conflict _ hmeet _ =>
    rw [hrestores.coverage, (hsame.grows.congruent hd).2.2.2.2, hrestored.apart] at hmeet
    cases hmeet
  | exhausted _ _ hfull _ =>
    rw [hroom] at hfull
    cases hfull
  | attached _ _ _ houtcome _ hmade =>
    obtain ⟨hrepeats, hweight⟩ := Restored.repeats { hrestored with restores := hrestores }
      hkept.sound.closed hp hd hrun'.markers_ordered (fun _ _ => hrun.lt_size_of_marker) hsame hmade
    refine ⟨_, houtcome, hrepeats, fun hmarkers => ?_⟩
    have hbonus := hrestored.earns.bonus_nonneg (hkept.settings ▸ hscoring) hmarkers
    have hcongruent : ((c'.attach f d rule).2.candidate c'.nextCandidate).Congruent
        ((c.attach p d rule).2.candidate id) ↔
          ((c.attach p d rule).2.weightOf id).toInt - (c.weightOf d).toInt ≤ Weight.highest := by
      rw [hrepeats.congruent_iff, hweight, hrestored.joins.2.1, weightOf, hrestored.joins.2.1]
      exact Weight.add_sub_add_eq_iff hbonus
    refine ⟨hcongruent, fun hnonneg => hcongruent.2 ?_⟩
    have hle := ((c.attach p d rule).2.weightOf id).le_highest
    omega

section Sample

/-- An item takes the other one, gives it up, and takes it again at once. -/
theorem retake_repeats_sample :
    ({} : Settings).scoring.Rewarding ∧ Operated itemGrammar {} partedChart ∧
      partedChart.Has ⟨0⟩ ∧ partedChart.Has ⟨1⟩ ∧
      (∀ r, ¬ partedChart.Holds ⟨0⟩ r (partedChart.candidate ⟨1⟩).root) ∧
      (partedChart.attach ⟨0⟩ ⟨1⟩ { relation := .next, target := 1 }).1 = .attached ⟨3⟩ ∧
      ((partedChart.attach ⟨0⟩ ⟨1⟩ { relation := .next, target := 1 }).2.detach ⟨3⟩
        (partedChart.candidate ⟨1⟩).root).1 = .ok (some ⟨4⟩) ∧
      ∃ e, (((partedChart.attach ⟨0⟩ ⟨1⟩ { relation := .next, target := 1 }).2.detach ⟨3⟩
          (partedChart.candidate ⟨1⟩).root).2.attach ⟨4⟩ ⟨1⟩
            { relation := .next, target := 1 }).1 = .attached e ∧
        ((((partedChart.attach ⟨0⟩ ⟨1⟩ { relation := .next, target := 1 }).2.detach ⟨3⟩
          (partedChart.candidate ⟨1⟩).root).2.attach ⟨4⟩ ⟨1⟩
            { relation := .next, target := 1 }).2.candidate e).marker = some ⟨2⟩ := by
  have hp : partedChart.Has ⟨0⟩ := by decide +kernel
  have hd : partedChart.Has ⟨1⟩ := by decide +kernel
  have hnone : ∀ r, ¬ partedChart.Holds ⟨0⟩ r (partedChart.candidate ⟨1⟩).root := by
    rintro r ⟨t, ht, -⟩
    have hslots : (partedChart.candidate ⟨0⟩).slots = .empty := by decide +kernel
    rw [Candidate.slot, hslots, Slots.get_empty] at ht
    cases ht
  have hscoring : ({} : Settings).scoring.Rewarding := ⟨by decide, by decide, by decide⟩
  have hattach : (partedChart.attach ⟨0⟩ ⟨1⟩ { relation := .next, target := 1 }).1 =
      .attached ⟨3⟩ := by decide +kernel
  have hdetach : ((partedChart.attach ⟨0⟩ ⟨1⟩ { relation := .next, target := 1 }).2.detach ⟨3⟩
      (partedChart.candidate ⟨1⟩).root).1 = .ok (some ⟨4⟩) := by decide +kernel
  have hrun' : Operated itemGrammar {}
      ((partedChart.attach ⟨0⟩ ⟨1⟩ { relation := .next, target := 1 }).2.detach ⟨3⟩
        (partedChart.candidate ⟨1⟩).root).2 :=
    .operation (.operation kempt_partedChart.operated (.attach ⟨0⟩ ⟨1⟩ _) ⟨hp, hd⟩)
      (.detach ⟨3⟩ _) (by decide +kernel)
  obtain ⟨e, hagain, hrepeats, -⟩ := retake_repeats hscoring kempt_partedChart.operated hp hd
    { relation := .next, target := 1 } hnone hattach hdetach hrun' (.refl _) (by decide +kernel)
  exact ⟨hscoring, kempt_partedChart.operated, hp, hd, hnone, hattach, hdetach, e, hagain,
    hrepeats.marker.trans (by decide +kernel)⟩

/-- Two heads, of which the second one has had a mark of the greatest weight. -/
def fadedChart : Chart :=
  (new headGrammar steepSettings).operate
    [.allocate, .instantiate ⟨0⟩ (some 1) { concept := 1, position := 0, extent := 2 },
      .allocate, .instantiate ⟨1⟩ (some 1) { concept := 1, position := 2, extent := 1 },
      .allocate, .instantiate ⟨2⟩ (some 2) { concept := 2, position := 3, extent := 2 },
      .attach ⟨1⟩ ⟨2⟩ { relation := .property, target := 2 }, .detach ⟨3⟩ ⟨2⟩]

/-- The second head weighs less than nothing now, and with it the first one is lighter. -/
theorem retake_misses_weight :
    steepSettings.scoring.Rewarding ∧ Operated headGrammar steepSettings fadedChart ∧
      (∀ r, ¬ fadedChart.Holds ⟨0⟩ r (fadedChart.candidate ⟨4⟩).root) ∧
      (fadedChart.weightOf ⟨4⟩).toInt = -5 ∧
      (fadedChart.attach ⟨0⟩ ⟨4⟩ { relation := .property, target := 1 }).1 = .attached ⟨5⟩ ∧
      ((fadedChart.attach ⟨0⟩ ⟨4⟩ { relation := .property, target := 1 }).2.detach ⟨5⟩
        (fadedChart.candidate ⟨4⟩).root).1 = .ok (some ⟨6⟩) ∧
      (((fadedChart.attach ⟨0⟩ ⟨4⟩ { relation := .property, target := 1 }).2.detach ⟨5⟩
        (fadedChart.candidate ⟨4⟩).root).2.attach ⟨6⟩ ⟨4⟩
          { relation := .property, target := 1 }).1 = .attached ⟨7⟩ ∧
      ((fadedChart.attach ⟨0⟩ ⟨4⟩ { relation := .property, target := 1 }).2.weightOf ⟨5⟩).toInt =
        2147483647 ∧
      ((((fadedChart.attach ⟨0⟩ ⟨4⟩ { relation := .property, target := 1 }).2.detach ⟨5⟩
        (fadedChart.candidate ⟨4⟩).root).2.attach ⟨6⟩ ⟨4⟩
          { relation := .property, target := 1 }).2.weightOf ⟨7⟩).toInt = 2147483642 := by
  refine ⟨⟨by decide, by decide, by decide⟩, Operated.new.operate (by decide +kernel), ?_,
    by decide +kernel, by decide +kernel, by decide +kernel, by decide +kernel, by decide +kernel,
    by decide +kernel⟩
  rintro r ⟨t, ht, -⟩
  have hslots : (fadedChart.candidate ⟨0⟩).slots = .empty := by decide +kernel
  rw [Candidate.slot, hslots, Slots.get_empty] at ht
  cases ht

end Sample

end Chart

end BeamChart
