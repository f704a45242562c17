import BeamChart.Proofs.Sequence.Offer

/-!
# The beam of one place

A place of a sequence is offered what stands at the places before it, one after
the other. Its beam fills up with chains (`Gathers`): as long as there is room for
all of them, the candidate that holds nothing is kept, and takes what is offered
next; it is the lightest, so it is the first that is dropped. What is offered from
then on is lost.

**Results.**
* `Gathers.take`, `Gathers.skip`: a place that is near enough is taken, one that is
  too far away is not.
* `Gathers.filled`: at the end the chain of all places is in the beam exactly if the
  bare candidate was still there for the place just before (`Sequence.Reaches`).
-/

namespace BeamChart

namespace Chart

open Sequence

variable {c c' : Chart} {place : Nat → ItemId} {gap p k : Nat} {leaf : CandidateId}

/-- Place `p` has been offered what stands at the first `k` places. -/
structure Gathers
    (c : Chart)
    (place : Nat → ItemId)
    (gap p k : Nat)
    (leaf : CandidateId) : Prop where
  bare : c.Bare place p leaf
  chain : ∀ x ∈ (c.item (place p)).pool, ∃ len start, c.Chain place p x len start
  source : ∀ x ∈ (c.item (place p)).pool, x = leaf ∨
    ∃ j y, j < k ∧ rivals gap p j ≤ c.settings.beamWidth ∧ y ∈ (c.item (place j)).pool ∧
      (c.candidate x).slots = Slots.empty.set .next (some ⟨y, 0⟩)
  count :
    leaf ∈ (c.item (place p)).pool ∧ (c.item (place p)).pool.length = rivals gap p k ∧
        rivals gap p k ≤ c.settings.beamWidth ∨
      leaf ∉ (c.item (place p)).pool ∧ (c.item (place p)).pool.length = c.settings.beamWidth ∧
        c.settings.beamWidth < rivals gap p k
  long : k = p → 0 < p → Reaches gap c.settings.beamWidth p →
    ∃ x ∈ (c.item (place p)).pool, ∃ start, c.Chain place p x (p + 1) start

/-- Place `k` has been offered what stands at all places before it. -/
structure Filled (c : Chart) (place : Nat → ItemId) (gap k : Nat) : Prop where
  chain : ∀ x ∈ (c.item (place k)).pool, ∃ len start, c.Chain place k x len start ∧
    (¬ Reaches gap c.settings.beamWidth k → len ≤ k)
  length : (c.item (place k)).pool.length = min c.settings.beamWidth (rivals gap k k)
  full : Reaches gap c.settings.beamWidth k →
    ∃ x ∈ (c.item (place k)).pool, ∃ start, c.Chain place k x (k + 1) start

theorem Filled.extend
    (h : c.Filled place gap k)
    (hext : Extends c c')
    (hpool : (c'.item (place k)).pool = (c.item (place k)).pool) :
    c'.Filled place gap k where
  chain x hx := by
    rw [hpool] at hx
    rw [hext.settings]
    obtain ⟨len, start, hchain, hlow⟩ := h.chain x hx
    exact ⟨len, start, hchain.extend hext, hlow⟩
  length := by
    rw [hpool, hext.settings]
    exact h.length
  full hreaches := by
    rw [hext.settings] at hreaches
    obtain ⟨x, hx, start, hchain⟩ := h.full hreaches
    exact ⟨x, hpool ▸ hx, start, hchain.extend hext⟩

theorem Filled.ne_nil
    (h : c.Filled place gap k)
    (hwidth : 1 ≤ c.settings.beamWidth) :
    (c.item (place k)).pool ≠ [] := by
  have hpos := one_le_rivals gap k k
  have hlength := h.length
  intro hnil
  rw [hnil, List.length_nil] at hlength
  omega

/-- A place that nothing has been offered to holds its bare candidate. -/
theorem Bare.gathers
    (h : c.Bare place p leaf)
    (hpool : (c.item (place p)).pool = [leaf])
    (hwidth : 1 ≤ c.settings.beamWidth) :
    c.Gathers place gap p 0 leaf where
  bare := h
  chain x hx := by
    rw [hpool, List.mem_singleton] at hx
    rw [hx]
    exact ⟨1, p, h.chain⟩
  source x hx := by
    rw [hpool, List.mem_singleton] at hx
    exact Or.inl hx
  count := by
    rw [hpool, rivals_zero]
    exact Or.inl ⟨List.mem_singleton_self leaf, rfl, hwidth⟩
  long hp hpos := by omega

/-- A candidate that holds nothing is lighter than a chain. -/
theorem Chain.two_le
    {x : CandidateId}
    {len start : Nat}
    (h : c.Chain place p x len start)
    (hslot : ((c.candidate x).slot .next).isSome) :
    2 ≤ len := by
  cases h with
  | bare _ _ hslots =>
    rw [Candidate.slot, hslots] at hslot
    cases hslot
  | link hchild =>
    have hlen := hchild.bounds.1
    omega

theorem Chain.le_of_weight_le
    {x y : CandidateId}
    {m n a b : Nat}
    (hx : c.Chain place p x m a)
    (hy : c.Chain place p y n b)
    (hp : p + 1 ≤ Weight.highest)
    (h : (c.candidate x).weight ≤ (c.candidate y).weight) :
    m ≤ n := by
  have hm := hx.bounds
  have hn := hy.bounds
  rw [hx.weight, hy.weight, Weight.ofInt_le_ofInt (by omega) (by omega)] at h
  exact h

/-- A candidate that holds nothing is lighter than one that holds something. -/
theorem Bare.lighter
    (h : c.Bare place p leaf)
    (hp : p + 1 ≤ Weight.highest)
    {x : CandidateId}
    {len start : Nat}
    (hx : c.Chain place p x len start)
    (hslot : ((c.candidate x).slot .next).isSome) :
    ¬ (c.candidate x).weight ≤ (c.candidate leaf).weight := by
  intro hle
  have htwo := hx.two_le hslot
  have hone := hx.le_of_weight_le h.chain hp hle
  omega

/-- When the best of some chains are kept, one of the longest is among them. -/
theorem exists_whole_of_heaviest
    {width : Nat}
    {ids pool : List CandidateId}
    (hbest : Pool.Heaviest c.candidate width ids pool)
    (hwidth : 1 ≤ width)
    (hp : p + 1 ≤ Weight.highest)
    (hchain : ∀ x ∈ ids, ∃ len start, c.Chain place p x len start)
    {id : CandidateId}
    {start : Nat}
    (hid : id ∈ ids)
    (hwhole : c.Chain place p id (p + 1) start) :
    ∃ x ∈ pool, ∃ start, c.Chain place p x (p + 1) start := by
  rcases hbest.kept id hid with hmem | hlight
  · exact ⟨id, hmem, start, hwhole⟩
  · obtain ⟨x, hx⟩ := List.exists_mem_of_length_pos (hlight.full ▸ hwidth)
    obtain ⟨len, a, hx'⟩ := hchain x (hbest.subset hx)
    have hle := hwhole.le_of_weight_le hx' hp (hlight.heavier x hx)
    have hbounds := hx'.bounds
    have hlen : len = p + 1 := by omega
    exact ⟨x, hx, a, hlen ▸ hx'⟩

namespace Gathers

/-- A place that is too far away is not offered. -/
theorem skip
    (h : c.Gathers place gap p k leaf)
    (hfar : k + 1 + gap < p) :
    c.Gathers place gap p (k + 1) leaf where
  bare := h.bare
  chain := h.chain
  source x hx := (h.source x hx).imp_right fun ⟨j, y, hj, hrest⟩ => ⟨j, y, by omega, hrest⟩
  count := by
    rw [rivals_succ_of_far hfar]
    exact h.count
  long hp := by omega

variable {children : List CandidateId}

theorem slot
    (h : c.Gathers place gap p k leaf)
    {x : CandidateId}
    (hx : x ∈ (c.item (place p)).pool) :
    x = leaf ∨ ((c.candidate x).slot .next).isSome := by
  refine (h.source x hx).imp_right fun ⟨j, y, _, _, _, hslots⟩ => ?_
  rw [Candidate.slot, hslots, Slots.get_set_self]
  rfl

/-- What has not been offered yet is not held. -/
theorem not_holds
    (h : c.Gathers place gap p k leaf)
    (hclosed : Closed c)
    {v : ItemId}
    (hv : ∀ j, j < k → place j ≠ v)
    {x : CandidateId}
    (hx : x ∈ (c.item (place p)).pool)
    (r : Relation) :
    ¬ c.Holds x r v := by
  rintro ⟨s, hs, hroot⟩
  rw [Candidate.slot] at hs
  rcases h.source x hx with rfl | ⟨j, y, hj, -, hy, hslots⟩
  · rw [h.bare.slots, Slots.get_empty] at hs
    cases hs
  · rw [hslots] at hs
    by_cases hr : r = .next
    · rw [hr, Slots.get_set_self] at hs
      cases hs
      exact hv j hj ((hclosed.root_of_mem hy).symm.trans hroot)
    · rw [Slots.get_set_of_ne _ _ hr, Slots.get_empty] at hs
      cases hs

/-- What stands at the next place can be taken by the bare candidate only. -/
theorem meets
    (h : c.Gathers place gap p k leaf)
    (hfilled : c.Filled place gap k)
    (hclosed : Closed c)
    (hplace : ∀ j, j ≠ k → place j ≠ place k)
    (hk : k < p) :
    c.Meets place p (place k) leaf where
  bare := h.bare
  chain := h.chain
  slot _ := h.slot
  free _ hx := h.not_holds hclosed (fun j hj => hplace j (Nat.ne_of_lt hj)) hx
  children y hy := by
    obtain ⟨len, start, hchain, -⟩ := hfilled.chain y hy
    exact ⟨k, len, start, hk, hchain⟩

/-- Without its bare candidate a place takes nothing more. -/
theorem take_of_not_mem
    (h : c.Gathers place gap p k leaf)
    (hplace : ∀ j, j < p → place j ≠ place p)
    (hk : k < p)
    (htaken : Taken c c' place p leaf children)
    (hout : leaf ∉ (c.item (place p)).pool) :
    c'.Gathers place gap p (k + 1) leaf := by
  have hgrows := htaken.aside.grows
  have hpool := htaken.unchanged hout
  obtain ⟨hlength, hover⟩ := (h.count.resolve_left fun hin => hout hin.1).2
  refine ⟨h.bare.extend hgrows, fun x hx => ?_, fun x hx => ?_, ?_, fun hlast hpos hreaches => ?_⟩
  · rw [hpool] at hx
    obtain ⟨len, start, hchain⟩ := h.chain x hx
    exact ⟨len, start, hchain.extend hgrows⟩
  · rw [hpool] at hx
    refine (h.source x hx).imp_right fun ⟨j, y, hj, hrivals, hy, hslots⟩ => ?_
    refine ⟨j, y, by omega, by rw [hgrows.settings]; exact hrivals, ?_, ?_⟩
    · rw [htaken.aside.item _ (hplace j (by omega))]
      exact hy
    · rw [(hgrows.congruent (h.chain x hx).choose_spec.choose_spec.has).2.2.2.1]
      exact hslots
  · rw [hpool, hgrows.settings]
    exact Or.inr ⟨hout, hlength, Nat.lt_of_lt_of_le hover (rivals_le_succ gap p k)⟩
  · have hp : p - 1 = k := by omega
    rw [Reaches, hgrows.settings, hp] at hreaches
    omega

section Taking

variable {ids : List CandidateId}

/-- What stands behind something offered, or did before, stands behind one place more. -/
theorem offered_source
    (h : c.Gathers place gap p k leaf)
    (hplace : ∀ j, j < p → place j ≠ place p)
    (hk : k < p)
    (haside : Aside (place p) c c')
    (hfits : rivals gap p k ≤ c.settings.beamWidth)
    (hall : List.Forall₂ (fun id y => c'.Has id ∧ Behind c c' place p id y) ids
      (c.item (place k)).pool)
    {x : CandidateId}
    (hx : x ∈ ids ++ (c.item (place p)).pool) :
    x = leaf ∨ ∃ j y, j < k + 1 ∧ rivals gap p j ≤ c.settings.beamWidth ∧
      y ∈ (c'.item (place j)).pool ∧
        (c'.candidate x).slots = Slots.empty.set .next (some ⟨y, 0⟩) := by
  rcases List.mem_append.1 hx with hnew | hold
  · obtain ⟨y, hy, -, hbehind⟩ := exists_of_mem_forall₂ hall hnew
    rw [← haside.item _ (hplace k hk)] at hy
    exact Or.inr ⟨k, y, Nat.lt_succ_self k, hfits, hy, hbehind.slots⟩
  · refine (h.source x hold).imp_right fun ⟨j, y, hj, hfew, hy, hslots⟩ => ?_
    rw [← haside.item _ (hplace j (by omega))] at hy
    rw [← (haside.grows.congruent (h.chain x hold).choose_spec.choose_spec.has).2.2.2.1] at hslots
    exact ⟨j, y, by omega, hfew, hy, hslots⟩

/-- A place with its bare candidate takes all that it is offered. -/
theorem take_of_mem
    (h : c.Gathers place gap p k leaf)
    (hmeets : c.Meets place p (place k) leaf)
    (hfilled : c.Filled place gap k)
    (hplace : ∀ j, j < p → place j ≠ place p)
    (hwidth : 1 ≤ c.settings.beamWidth)
    (hp : p + 1 ≤ Weight.highest)
    (hk : k < p)
    (hnear : p ≤ k + 1 + gap)
    (htaken : Taken c c' place p leaf (c.item (place k)).pool)
    (hin : leaf ∈ (c.item (place p)).pool) :
    c'.Gathers place gap p (k + 1) leaf := by
  have hgrows := htaken.aside.grows
  have hrivals := rivals_succ_of_near hnear
  obtain ⟨hlength, hfits⟩ := (h.count.resolve_right fun hout => hout.1 hin).2
  obtain ⟨ids, hall, hapart, hbest⟩ := htaken.heaviest hin
  have hbare : c'.Bare place p leaf := h.bare.extend hgrows
  have hoffered := fun x => hmeets.staged_chain hgrows hall (x := x)
  have hlightest : ∀ z ∈ ids ++ (c.item (place p)).pool, z ≠ leaf →
      ¬ (c'.candidate z).weight ≤ (c'.candidate leaf).weight := by
    intro z hz hne
    obtain ⟨⟨len, start, hchain⟩, hslot⟩ := hoffered z hz
    exact hbare.lighter hp hchain (hslot.resolve_left hne)
  have htotal : (ids ++ (c.item (place p)).pool).length =
      min c.settings.beamWidth (rivals gap k k) + rivals gap p k := by
    rw [List.length_append, hall.length_eq, hfilled.length, hlength]
  refine ⟨hbare, fun x hx => (hoffered x (hbest.subset hx)).1, fun x hx => ?_, ?_,
    fun hlast hpos hreaches => ?_⟩
  · rw [hgrows.settings]
    exact h.offered_source hplace hk htaken.aside hfits hall (hbest.subset hx)
  · rw [hgrows.settings]
    by_cases hroom : rivals gap p (k + 1) ≤ c.settings.beamWidth
    · left
      refine ⟨hbest.mem_of_length_le (by omega) (List.mem_append_right _ hin), ?_, hroom⟩
      rw [hbest.length]
      omega
    · right
      have hover : c.settings.beamWidth < (ids ++ (c.item (place p)).pool).length := by
        have hpos := one_le_rivals gap p k
        omega
      refine ⟨hbest.not_mem_of_lightest hapart.nodup hover hlightest, ?_, Nat.lt_of_not_le hroom⟩
      rw [hbest.length]
      omega
  · rw [hgrows.settings] at hreaches
    obtain ⟨y, hy, start, hlong⟩ := hfilled.full (hreaches.of_le hwidth (Nat.le_of_lt hk))
    obtain ⟨id, hid, -, hbehind⟩ := exists_of_mem_forall₂ hall.flip hy
    have hwhole := hbehind.chain k (k + 1) start hk hlong
    rw [hlast] at hwhole
    exact exists_whole_of_heaviest hbest hwidth hp (fun x hx => (hoffered x hx).1)
      (List.mem_append_left _ hid) hwhole

end Taking

/-- A place that is near enough is taken. -/
theorem take
    (h : c.Gathers place gap p k leaf)
    (hmeets : c.Meets place p (place k) leaf)
    (hfilled : c.Filled place gap k)
    (hplace : ∀ j, j < p → place j ≠ place p)
    (hwidth : 1 ≤ c.settings.beamWidth)
    (hp : p + 1 ≤ Weight.highest)
    (hk : k < p)
    (hnear : p ≤ k + 1 + gap)
    (htaken : Taken c c' place p leaf (c.item (place k)).pool) :
    c'.Gathers place gap p (k + 1) leaf := by
  by_cases hin : leaf ∈ (c.item (place p)).pool
  · exact h.take_of_mem hmeets hfilled hplace hwidth hp hk hnear htaken hin
  · exact h.take_of_not_mem hplace hk htaken hin

/-- A place that all places before it have been offered to is filled. -/
theorem filled
    (h : c.Gathers place gap p p leaf)
    (hclosed : Closed c)
    (hplace : ∀ i j, place i = place j → i = j)
    (hwidth : 1 ≤ c.settings.beamWidth) :
    c.Filled place gap p where
  chain x hx := by
    obtain ⟨len, start, hchain⟩ := h.chain x hx
    refine ⟨len, start, hchain, fun hmissed => ?_⟩
    rcases Nat.eq_zero_or_pos p with rfl | hpos
    · exact absurd (reaches_zero hwidth) hmissed
    cases hchain with
    | bare => exact hpos
    | @link _ i m _ _ y hchild hi _ _ _ hslots =>
      have hbounds := hchild.bounds
      rcases h.source x hx with rfl | ⟨j, z, hj, hfew, hz, hsame⟩
      · rw [h.bare.slots] at hslots
        cases hslots
      · have hnext := congrArg (fun s => s.get .next) (hslots.symm.trans hsame)
        simp only [Slots.get_set_self, Option.some.injEq, Slot.mk.injEq, and_true] at hnext
        have hroot : place i = place j := by
          rw [← hchild.root, hnext]
          exact hclosed.root_of_mem hz
        have hij := hplace i j hroot
        by_contra hlong
        have hlast : p - 1 = j := by omega
        rw [Reaches, hlast] at hmissed
        exact hmissed hfew
  length := by
    rcases h.count with ⟨-, hlength, hfits⟩ | ⟨-, hlength, hover⟩ <;> omega
  full hreaches := by
    rcases Nat.eq_zero_or_pos p with rfl | hpos
    · rcases h.count with hin | hout
      · exact ⟨leaf, hin.1, 0, h.bare.chain⟩
      · rw [rivals_zero] at hout
        omega
    · exact h.long rfl hpos hreaches

end Gathers

end Chart

end BeamChart
