import BeamChart.Proofs.Chart.Frame
import BeamChart.Proofs.Chart.Made

/-!
# What holds of every chart

A chart is closed if what it refers to is stored: roots are items, children are
earlier candidates, pools consist of candidates of their items. In a strict
chart every child has been seen and every pool is a beam as well.

**Results.**
* `Step.sound`: a step keeps a chart sound.
* `Evolves.sound`: so does a sequence of steps.
-/

namespace BeamChart

namespace Chart

variable {strict : Prop} {c c' c'' : Chart}

/-- Everything that is referred to is stored. -/
structure Closed (c : Chart) : Prop where
  root : ∀ x, c.Has x → (c.candidate x).root.index < c.items.size
  child : ∀ x r s, c.Has x → (c.candidate x).slot r = some s → s.child.index < x.index
  pool : ∀ u, c.RootedAt u (c.item u).pool
  tail : ∀ u, c.tail = some u → (c.item u).present = true
  best : ∀ x, c.best = some x →
    c.Has x ∧ (c.item (c.candidate x).root).present = true

/-- Children have been seen, and pools are beams. -/
structure Lawful (c : Chart) : Prop where
  child : ∀ x r s, c.Has x → (c.candidate x).slot r = some s →
    (c.item (c.candidate s.child).root).present = true
  ranks : ∀ u, c.Ranks (c.item u).pool

structure Sound (strict : Prop) (c : Chart) : Prop where
  closed : Closed c
  lawful : strict → Lawful c

theorem closed_new (g : Grammar) (s : Settings) :
    Closed (new g s) where
  root x hx := absurd hx (Nat.not_lt_zero _)
  child x r s hx := absurd hx (Nat.not_lt_zero _)
  pool u x hx := by
    rw [item_of_size_le (Nat.zero_le _)] at hx
    cases hx
  tail u hu := by cases hu
  best x hx := by cases hx

theorem ranks_nil (c : Chart) :
    c.Ranks [] :=
  ⟨⟨Nat.zero_le _, List.Pairwise.nil⟩, fun _ => Nat.zero_le _⟩

theorem ranks_singleton (c : Chart) (x : CandidateId) :
    c.Ranks [x] :=
  ⟨⟨Nat.le_max_left 1 _, List.pairwise_singleton _ _⟩, fun _ => Nat.le_refl _⟩

theorem sound_new (strict : Prop) (g : Grammar) (s : Settings) :
    Sound strict (new g s) where
  closed := closed_new g s
  lawful _ :=
    { child := fun x r s hx => absurd hx (Nat.not_lt_zero _)
      ranks := fun u => by
        rw [item_of_size_le (Nat.zero_le _)]
        exact ranks_nil _ }

namespace Closed

theorem has_child
    (h : Closed c)
    {x : CandidateId}
    (hx : c.Has x)
    {r : Relation}
    {s : Slot}
    (hs : (c.candidate x).slot r = some s) :
    c.Has s.child :=
  Nat.lt_trans (h.child x r s hx hs) hx

theorem has_of_mem
    (h : Closed c)
    {u : ItemId}
    {x : CandidateId}
    (hx : x ∈ (c.item u).pool) :
    c.Has x :=
  (h.pool u x hx).1

theorem root_of_mem
    (h : Closed c)
    {u : ItemId}
    {x : CandidateId}
    (hx : x ∈ (c.item u).pool) :
    (c.candidate x).root = u :=
  (h.pool u x hx).2

/-- No candidate is rooted at an item that is still to come. -/
theorem root_ne_nextItem
    (h : Closed c)
    {x : CandidateId}
    (hx : c.Has x) :
    (c.candidate x).root ≠ c.nextItem := by
  intro he
  have hlt := h.root x hx
  rw [he] at hlt
  exact Nat.lt_irrefl _ hlt

end Closed

namespace Extends

theorem root
    (h : Extends c c')
    {x : CandidateId}
    (hx : c.Has x) :
    (c'.candidate x).root = (c.candidate x).root :=
  (h.congruent hx).1

theorem slot
    (h : Extends c c')
    {x : CandidateId}
    (hx : c.Has x)
    (r : Relation) :
    (c'.candidate x).slot r = (c.candidate x).slot r := by
  rw [Candidate.slot, Candidate.slot, (h.congruent hx).2.2.2.1]

theorem coverage
    (h : Extends c c')
    {x : CandidateId}
    (hx : c.Has x) :
    (c'.candidate x).coverage = (c.candidate x).coverage :=
  (h.congruent hx).2.2.2.2

theorem rootedAt
    (h : Extends c c')
    {u : ItemId}
    {pool : List CandidateId}
    (hp : c.RootedAt u pool) :
    c'.RootedAt u pool := fun x hx =>
  ⟨h.has (hp x hx).1, (h.root (hp x hx).1).trans (hp x hx).2⟩

theorem poolWidth
    (h : Extends c c') :
    c'.poolWidth = c.poolWidth := by
  rw [Chart.poolWidth, Chart.poolWidth, h.settings]

/-- The order of a beam does not depend on marks. -/
theorem ranked
    (h : Extends c c')
    {x y : CandidateId}
    (hx : c.Has x)
    (hy : c.Has y)
    (hr : Pool.Ranked c.candidate x y) :
    Pool.Ranked c'.candidate x y := by
  have hcx := h.congruent hx
  have hcy := h.congruent hy
  constructor
  · rw [hcx.2.1, hcy.2.1]
    exact hr.1
  · intro hcongruent
    exact hr.2 ((hcx.symm.trans hcongruent).trans hcy)

theorem isBeam
    (h : Extends c c')
    {width : Nat}
    {pool : List CandidateId}
    (hp : ∀ x ∈ pool, c.Has x)
    (hb : Pool.IsBeam c.candidate width pool) :
    Pool.IsBeam c'.candidate width pool where
  length_le := hb.length_le
  ranked := hb.ranked.imp_of_mem fun hx hy hxy => h.ranked (hp _ hx) (hp _ hy) hxy

theorem ranks
    (h : Extends c c')
    {pool : List CandidateId}
    (hp : ∀ x ∈ pool, c.Has x)
    (hr : c.Ranks pool) :
    c'.Ranks pool where
  beam := by
    rw [h.poolWidth]
    exact h.isBeam hp hr.beam
  single hkind := hr.single (by rw [← h.grammar]; exact hkind)

end Extends

theorem Origin.has_child
    {u : ItemId}
    {r : Relation}
    {y : CandidateId}
    (h : Origin strict c u r y)
    (hc : Closed c) :
    c.Has y := by
  cases h with
  | kept hx hroot hslot hchild =>
    rw [← hchild]
    exact hc.has_child hx hslot
  | taken hchild => exact hchild
  | chained hchild => exact hchild
  | lifted hchild => exact hchild
  | repointed hchild => exact hchild

/-- In a strict chart every child that a new candidate takes has been seen. -/
theorem Origin.child_present
    {u : ItemId}
    {r : Relation}
    {y : CandidateId}
    (h : Origin strict c u r y)
    (hs : strict)
    (hl : Lawful c) :
    (c.item (c.candidate y).root).present = true := by
  cases h with
  | kept hx hroot hslot hchild =>
    rw [← hchild]
    exact hl.child _ _ _ hx hslot
  | taken _ hstrict => exact (hstrict hs).child
  | chained _ _ hpresent => exact hpresent
  | lifted _ hstrict => exact (hstrict hs).1
  | repointed _ hx hslot hroot =>
    rw [hroot]
    exact hl.child _ _ _ hx hslot

namespace Step

theorem closed
    (h : Step strict c c')
    (hc : Closed c) :
    Closed c' where
  root x hx := by
    rcases h.candidate_cases hx with hold | ⟨-, hmade, -⟩
    · rw [h.grows.root hold]
      exact Nat.lt_of_lt_of_le (hc.root x hold) h.grows.items_le
    · exact Nat.lt_of_lt_of_le (hmade.root_lt hc.root) h.grows.items_le
  child x r s hx hs := by
    rcases h.candidate_cases hx with hold | ⟨rfl, hmade, -⟩
    · rw [h.grows.slot hold] at hs
      exact hc.child x r s hold hs
    · exact (hmade.origin hs).has_child hc
  pool u := by
    rcases h.pool_cases u with hkept | ⟨hnew, -⟩
    · rw [hkept]
      exact h.grows.rootedAt (hc.pool u)
    · exact h.grows.rootedAt hnew
  tail u hu := by
    rcases h.tail_cases with hkept | ⟨v, hv, hpresent⟩
    · rw [hkept] at hu
      exact h.grows.present u (hc.tail u hu)
    · rw [hv] at hu
      cases hu
      exact h.grows.present _ hpresent
  best x hx := by
    have hold : c.Has x ∧ (c.item (c.candidate x).root).present = true := by
      rcases h.best_cases with hkept | hnew
      · rw [hkept] at hx
        exact hc.best x hx
      · obtain ⟨u, hu, hmem⟩ := hnew x hx
        rw [hc.root_of_mem hmem]
        exact ⟨hc.has_of_mem hmem, hu⟩
    rw [h.grows.root hold.1]
    exact ⟨h.grows.has hold.1, h.grows.present _ hold.2⟩

theorem lawful
    (h : Step strict c c')
    (hs : strict)
    (hc : Closed c)
    (hl : Lawful c) :
    Lawful c' where
  child x r s hx hslot := by
    rcases h.candidate_cases hx with hold | ⟨-, hmade, -⟩
    · rw [h.grows.slot hold] at hslot
      rw [h.grows.root (hc.has_child hold hslot)]
      exact h.grows.present _ (hl.child x r s hold hslot)
    · have horigin := hmade.origin hslot
      rw [h.grows.root (horigin.has_child hc)]
      exact h.grows.present _ (horigin.child_present hs hl)
  ranks u := by
    rcases h.pool_cases u with hkept | ⟨hnew, hranks, -⟩
    · rw [hkept]
      exact h.grows.ranks (fun x hx => (hc.pool u x hx).1) (hl.ranks u)
    · exact h.grows.ranks (fun x hx => (hnew x hx).1) (hranks hs)

theorem sound
    (h : Step strict c c')
    (hc : Sound strict c) :
    Sound strict c' where
  closed := h.closed hc.closed
  lawful hs := h.lawful hs hc.closed (hc.lawful hs)

end Step

/-- Any number of steps. -/
def Evolves (strict : Prop) : Chart → Chart → Prop :=
  Relation.ReflTransGen (Step strict)

namespace Evolves

theorem refl (c : Chart) :
    Evolves strict c c :=
  Relation.ReflTransGen.refl

theorem single
    (h : Step strict c c') :
    Evolves strict c c' :=
  Relation.ReflTransGen.single h

theorem trans
    (h : Evolves strict c c')
    (k : Evolves strict c' c'') :
    Evolves strict c c'' :=
  Relation.ReflTransGen.trans h k

theorem sound
    (h : Evolves strict c c')
    (hc : Sound strict c) :
    Sound strict c' := by
  induction h with
  | refl => exact hc
  | tail _ hstep ih => exact hstep.sound ih

theorem grows
    (h : Evolves strict c c') :
    Extends c c' := by
  induction h with
  | refl => exact Extends.refl c
  | tail _ hstep ih => exact ih.trans hstep.grows

theorem fixedParent
    (h : Evolves strict c c')
    (u : ItemId) :
    (c'.item u).fixedParent = (c.item u).fixedParent := by
  induction h with
  | refl => rfl
  | tail _ hstep ih => rw [hstep.fixedParent u, ih]

end Evolves

end Chart

end BeamChart
