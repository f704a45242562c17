import BeamChart.Proofs.Candidate.Balance
import BeamChart.Proofs.Chart.Run
import BeamChart.Proofs.Scoring.Clamping

/-!
# Stored weights are sums

If no score of a chart is negative, a weight that was clamped anywhere has
stopped at the greatest one, and stays there whatever is taken on top. So as
long as no stored candidate weighs that much, every stored weight is the exact
sum of what it was made from, by whatever operations it came about
(`stored_weight_eq_sum`).

The condition is on all stored candidates at once. Since nothing stored ever
changes its weight, it holds of every earlier chart as well, and the steps keep
the sums by the changes that make a candidate (`Made.balanced`).
-/

namespace BeamChart

namespace Scoring

/-- Nothing is punished. -/
structure Rewarding (s : Scoring) : Prop where
  structural : 0 ≤ s.structural
  marker : 0 ≤ s.marker
  perLevel : 0 ≤ s.perLevel

variable {s : Scoring}

theorem Rewarding.tokenWeight_nonneg
    (h : s.Rewarding)
    (extent : Nat)
    (sparse : Bool)
    (level : Nat) :
    0 ≤ (s.tokenWeight extent sparse level).toInt := by
  rw [tokenWeight_eq_ofInt h.perLevel]
  exact Weight.clamp_nonneg (exactWeight_nonneg h.perLevel extent sparse level)

theorem Rewarding.childBonus_nonneg
    (h : s.Rewarding)
    (r : Relation) :
    0 ≤ (s.childBonus r).toInt := by
  unfold childBonus
  split
  · exact Int.le_refl 0
  · exact h.structural

theorem Rewarding.markerBonus_nonneg
    (h : s.Rewarding)
    {weight : Weight}
    (hweight : 0 ≤ weight.toInt) :
    0 ≤ (s.markerBonus weight).toInt :=
  Weight.clamp_nonneg (Int.add_nonneg hweight h.marker)

end Scoring

theorem Candidate.Balanced.of_congruent
    {weightOf weightOf' : CandidateId → Weight}
    {x y : Candidate}
    (h : x.Balanced weightOf)
    (hcongruent : y.Congruent x)
    (hsame : ∀ r s, x.slot r = some s → weightOf' s.child = weightOf s.child) :
    y.Balanced weightOf' := by
  obtain ⟨-, hweight, hown, hslots, -⟩ := hcongruent
  have htotal : x.slots.total weightOf' = x.slots.total weightOf := by
    unfold Slots.total
    congr 1
    refine List.map_congr_left fun e he => ?_
    rw [hsame e.1 e.2 ((Slots.mem_filled _ e.1 e.2).1 he)]
  constructor
  · rw [hown]
    exact h.own_nonneg
  · intro r s hs
    rw [hslots] at hs
    rw [hsame r s hs]
    exact h.gaining r s hs
  · rw [hweight, hown, hslots, htotal]
    exact h.weight_eq

namespace Chart

variable {strict : Prop} {g : Grammar} {s : Settings} {c c' : Chart}

/-- No stored sum was clamped. -/
def Unclamped (c : Chart) : Prop :=
  ∀ x, c.Has x → (c.weightOf x).toInt ≠ Weight.highest

/-- Unless a sum was clamped, every stored candidate is balanced. -/
def Balanced (c : Chart) : Prop :=
  c.Unclamped → ∀ x, c.Has x → (c.candidate x).Balanced c.weightOf

theorem Extends.weightOf
    (h : Extends c c')
    {x : CandidateId}
    (hx : c.Has x) :
    c'.weightOf x = c.weightOf x :=
  (h.congruent hx).2.1

theorem Extends.unclamped
    (h : Extends c c')
    (hc : c'.Unclamped) :
    c.Unclamped := by
  intro x hx
  rw [← h.weightOf hx]
  exact hc x (h.has hx)

theorem markerWeight_nonneg
    (hc : Closed c)
    (hall : ∀ x, c.Has x → (c.candidate x).Balanced c.weightOf)
    (m : ItemId) :
    0 ≤ (c.markerWeight m).toInt := by
  unfold markerWeight
  split
  · rename_i x hx
    exact (hall x (hc.has_of_mem (List.mem_of_mem_head? hx))).weight_nonneg
  · exact Int.le_refl 0

/-- However a candidate is made, it is balanced unless it is clamped. -/
theorem Made.balanced
    {x : Candidate}
    (hmade : Made strict c x)
    (hc : Closed c)
    (hscoring : c.settings.scoring.Rewarding)
    (hall : ∀ y, c.Has y → (c.candidate y).Balanced c.weightOf)
    (hexact : x.weight.toInt ≠ Weight.highest) :
    x.Balanced c.weightOf := by
  cases hmade with
  | leaf hitem =>
    exact .of_no_child rfl (hscoring.tokenWeight_nonneg _ _ _) rfl
  | seed hitem => exact .of_no_child rfl (Int.le_refl 0) rfl
  | @joined p d r hfits hstrict =>
    obtain ⟨bonus, readings, marker, hearns, heq⟩ :=
      c.joined_eq d r (c.candidate p) (c.candidate d)
    have hbonus : 0 ≤ bonus.toInt := by
      rcases hearns with rfl | ⟨m, rfl⟩
      · exact hscoring.childBonus_nonneg r
      · exact hscoring.markerBonus_nonneg (markerWeight_nonneg hc hall m)
    rw [heq] at hexact ⊢
    have hattach := (hall p hfits.parent).attach (s := ⟨d, bonus⟩) hfits.slot rfl
      (hall d hfits.child).weight_nonneg hbonus hexact
    exact ⟨hattach.own_nonneg, hattach.gaining, hattach.weight_eq⟩
  | @chained p d hfits =>
    exact (hall p hfits.parent).attach hfits.slot rfl (hall d hfits.child).weight_nonneg
      (Int.le_refl 0) hexact
  | @lifted u y r hitem hchild =>
    have hseed : (Candidate.seed u).Balanced c.weightOf :=
      .of_no_child rfl (Int.le_refl 0) rfl
    exact hseed.attach (Candidate.slot_seed u r) rfl (hall y hchild).weight_nonneg
      (Int.le_refl 0) hexact
  | @reduced y u hy =>
    refine withoutItem_induction (P := fun z => z.Balanced c.weightOf) u (hall y hy) ?_
    intro z r t hz ht
    exact hz.detach (c.candidate t.child) ht rfl
  | @repointed p d r t hp hd hslot =>
    have hrest := (hall p hp).detach (c.candidate t.child) hslot rfl
    have hbonus : 0 ≤ t.bonus.toInt := ((hall p hp).gaining r t hslot).2
    have hattach := hrest.attach (s := ⟨d, t.bonus⟩) (Candidate.slot_detach_self _ r _) rfl
      (hall d hd).weight_nonneg hbonus hexact
    exact ⟨hattach.own_nonneg, hattach.gaining, hattach.weight_eq⟩

/-- Later charts agree on the weights of stored candidates. -/
theorem Extends.balanced
    (h : Extends c c')
    (hc : Closed c)
    {x : CandidateId}
    (hx : c.Has x)
    (hb : (c.candidate x).Balanced c.weightOf) :
    (c'.candidate x).Balanced c'.weightOf :=
  hb.of_congruent (h.congruent hx) fun _ _ ht => h.weightOf (hc.has_child hx ht)

theorem Step.balanced
    (h : Step strict c c')
    (hc : Closed c)
    (hscoring : c.settings.scoring.Rewarding)
    (hb : c.Balanced) :
    c'.Balanced := by
  intro hunclamped x hx
  have hall := hb (h.grows.unclamped hunclamped)
  rcases h.candidate_cases hx with hold | ⟨-, hmade, -⟩
  · exact h.grows.balanced hc hold (hall x hold)
  · refine (hmade.balanced hc hscoring hall (hunclamped x hx)).of_congruent
      (Candidate.Congruent.refl _) fun r t ht => ?_
    exact h.grows.weightOf ((hmade.origin ht).has_child hc)

theorem Move.balanced
    (h : Move strict c c')
    (hc : Closed c)
    (hscoring : c.settings.scoring.Rewarding)
    (hb : c.Balanced) :
    c'.Balanced := by
  cases h with
  | step h => exact h.balanced hc hscoring hb
  | fix => exact hb
  | refill => exact hb

theorem Operated.balanced
    (h : Operated g s c)
    (hscoring : s.scoring.Rewarding) :
    c.Balanced := by
  have hnew : (Chart.new g s).Balanced := fun _ x hx => absurd hx (Nat.not_lt_zero _)
  have hkept := h.invariant hnew fun _ _ _ hsettings hsound hb hmove =>
    hmove.balanced hsound.closed (by rw [hsettings]; exact hscoring) hb
  exact hkept.holds

/--
As long as no stored sum was clamped, a stored weight is what the sum over the
children gives, and is exact.
-/
theorem stored_weight_eq_sum
    (hscoring : s.scoring.Rewarding)
    (hrun : Operated g s c)
    (hunclamped : ∀ x, c.Has x → (c.weightOf x).toInt ≠ Weight.highest)
    {x : CandidateId}
    (hx : c.Has x) :
    c.weightOf x = (c.candidate x).summedWeight c.weightOf ∧
      (c.weightOf x).toInt = (c.candidate x).ownWeight.toInt +
        ((c.candidate x).slots.filled.map fun e =>
          (c.weightOf e.2.child).toInt + e.2.bonus.toInt).sum := by
  have hbalanced := hrun.balanced hscoring hunclamped x hx
  exact ⟨hbalanced.weight_eq_summedWeight, hbalanced.weight_eq⟩

theorem stored_weight_eq_sum_sample :
    (sampleChart.weightOf ⟨2⟩).toInt = 7 ∧
      sampleChart.weightOf ⟨2⟩ = (sampleChart.candidate ⟨2⟩).summedWeight sampleChart.weightOf := by
  have hscoring : ({} : Settings).scoring.Rewarding := ⟨by decide, by decide, by decide⟩
  have hsize : sampleChart.candidates.size = 3 := by decide +kernel
  have hweights : ∀ i < 3, (sampleChart.weightOf ⟨i⟩).toInt ≠ Weight.highest := by
    decide +kernel
  have hunclamped : ∀ x, sampleChart.Has x →
      (sampleChart.weightOf x).toInt ≠ Weight.highest := by
    intro x hx
    unfold Has at hx
    rw [hsize] at hx
    exact hweights x.index hx
  have hstored : sampleChart.Has ⟨2⟩ := by decide +kernel
  refine ⟨by decide +kernel, ?_⟩
  exact (stored_weight_eq_sum hscoring driven_sampleChart.operated hunclamped hstored).1

end Chart

end BeamChart
