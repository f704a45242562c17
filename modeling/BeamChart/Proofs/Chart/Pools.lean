import BeamChart.Proofs.Chart.Run

/-!
# The pools of a driven chart

Whatever has written a pool last, it is a beam: at most as wide as the settings
say, in the order of falling weight, without two candidates of one structure,
and with candidates of its own item only (`pool_isBeam`).
-/

namespace BeamChart

namespace Chart

variable {g : Grammar} {s : Settings} {c : Chart}

theorem pool_isBeam
    (hwidth : 1 ≤ s.beamWidth)
    (hrun : Driven g s c)
    (u : ItemId) :
    (c.item u).pool.length ≤ s.beamWidth ∧
      ((c.item u).pool.Pairwise fun x y => c.weightOf y ≤ c.weightOf x) ∧
      ((c.item u).pool.Pairwise fun x y => ¬ (c.candidate x).Congruent (c.candidate y)) ∧
      ∀ x ∈ (c.item u).pool, c.Has x ∧ (c.candidate x).root = u := by
  have hkept := hrun.kept
  have hbeam := ((hkept.sound.lawful trivial).ranks u).beam
  have hlength : (c.item u).pool.length ≤ max 1 s.beamWidth := by
    rw [← hkept.settings]
    exact hbeam.length_le
  refine ⟨by omega, hbeam.falling, ?_, hkept.sound.closed.pool u⟩
  exact hbeam.ranked.imp fun hranked => hranked.2

theorem pool_isBeam_sample :
    (sampleChart.item ⟨0⟩).pool = [⟨2⟩, ⟨0⟩] ∧
      (sampleChart.item ⟨0⟩).pool.Pairwise fun x y =>
        sampleChart.weightOf y ≤ sampleChart.weightOf x :=
  ⟨by decide +kernel, (pool_isBeam (by decide) driven_sampleChart ⟨0⟩).2.1⟩

end Chart

end BeamChart
