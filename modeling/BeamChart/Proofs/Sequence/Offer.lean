import BeamChart.Proofs.Sequence.Aside
import BeamChart.Proofs.Sequence.Chain
import BeamChart.Proofs.Sequence.Count

/-!
# Offering a place to a later one

A place of a sequence takes what stands at an earlier place behind the one
candidate of its own that holds nothing yet.
-/

namespace BeamChart

namespace Chart

variable {c c' c'' : Chart} {place : Nat → ItemId} {p k j len start : Nat}
variable {x y id : CandidateId} {rule : Rule SymbolId}

section Attaching

/-- The candidate of place `p` that holds nothing. -/
structure Bare (c : Chart) (place : Nat → ItemId) (p : Nat) (x : CandidateId) : Prop where
  has : c.Has x
  root : (c.candidate x).root = place p
  slots : (c.candidate x).slots = .empty
  weight : (c.candidate x).weight = .ofInt 1
  coverage : ∃ owner, (c.candidate x).coverage = .single p (p + 1) owner

theorem Bare.chain
    (h : c.Bare place p x) :
    c.Chain place p x 1 p := by
  obtain ⟨owner, hcoverage⟩ := h.coverage
  exact .bare h.has h.root h.slots h.weight hcoverage

theorem Bare.extend
    (h : c.Bare place p x)
    (hext : Extends c c') :
    c'.Bare place p x := by
  have hcongruent := hext.congruent h.has
  refine ⟨hext.has h.has, hcongruent.1.trans h.root, hcongruent.2.2.2.1.trans h.slots,
    hcongruent.2.1.trans h.weight, ?_⟩
  rw [hcongruent.2.2.2.2]
  exact h.coverage

/-- A candidate is new, and stands for a bare one behind a chain. -/
structure Behind
    (c c' : Chart)
    (place : Nat → ItemId)
    (p : Nat)
    (id y : CandidateId) : Prop where
  new : ¬ c.Has id
  slots : (c'.candidate id).slots = Slots.empty.set .next (some ⟨y, 0⟩)
  chain : ∀ j len start, j < p → c.Chain place j y len start →
    c'.Chain place p id (len + 1) start

theorem Behind.weaken
    (h : Behind c' c'' place p id y)
    (hext : Extends c c') :
    Behind c c'' place p id y where
  new hid := h.new (hext.has hid)
  slots := h.slots
  chain j len start hj hchain := h.chain j len start hj (hchain.extend hext)

theorem Behind.extend
    (h : Behind c c' place p id y)
    (hid : c'.Has id)
    (hext : Extends c' c'') :
    Behind c c'' place p id y where
  new := h.new
  slots := (hext.congruent hid).2.2.2.1.trans h.slots
  chain j len start hj hchain := (h.chain j len start hj hchain).extend hext

theorem markerBetween?_eq_none
    (h : c.markers = .empty)
    (a b : Nat × Nat) :
    c.markerBetween? a b = none := by
  unfold markerBetween?
  rw [h]
  rfl

/-- A bare candidate takes a chain for no bonus. -/
theorem Bare.joined
    (h : c.Bare place p x)
    (hy : c.Chain place j y len start)
    (hmarkers : c.markers = .empty) :
    c.joined y .next (c.candidate x) (c.candidate y) =
      { (c.candidate x).attach .next ⟨y, 0⟩ (c.candidate y) with pending := true } := by
  obtain ⟨owner, hcoverage⟩ := h.coverage
  have hx : (c.candidate x).span? = some (p, p + 1) := by
    rw [Candidate.span?, hcoverage]
    exact (Coverage.spans_single p owner).span?
  have hspan : (c.candidate y).span? = some (start, j + 1) := hy.spans.span?
  unfold Chart.joined
  simp only [hx, hspan, markerBetween?_eq_none hmarkers]
  rfl

/-- What is stored for a bare candidate and a chain is a longer chain. -/
theorem Bare.behind
    (h : c.Bare place p x)
    (pending : Bool)
    (hy : c.Has y)
    (hext : Extends c c')
    (hnew : ¬ c.Has id)
    (hid : c'.Has id)
    (hstored : c'.candidate id =
      { (c.candidate x).attach .next ⟨y, 0⟩ (c.candidate y) with pending }) :
    Behind c c' place p id y := by
  have hslots : (c'.candidate id).slots = Slots.empty.set .next (some ⟨y, 0⟩) := by
    rw [hstored]
    change (c.candidate x).slots.set .next (some ⟨y, 0⟩) = _
    rw [h.slots]
  refine ⟨hnew, hslots, fun j len start hj hchain => ?_⟩
  obtain ⟨owner, hcoverage⟩ := h.coverage
  have hlt : y.index < id.index := Nat.lt_of_lt_of_le hy (Nat.le_of_not_lt hnew)
  refine .link (hchain.extend hext) hj hlt hid ?_ hslots ?_ ?_
  · rw [hstored]
    exact h.root
  · rw [hstored]
    change (c.candidate x).weight + (c.candidate y).weight + 0 = _
    rw [h.weight, hchain.weight, Weight.add_zero, Weight.ofInt_one_add]
  · rw [hstored]
    change ((c.candidate x).coverage.union (c.candidate y).coverage).Spans start (p + 1)
    rw [hcoverage]
    exact Coverage.spans_union hchain.spans hj

theorem attach_taken
    (h : ((c.candidate x).slot rule.relation).isSome) :
    ∃ c₁, c.attach x y rule = (.slotTaken, c₁) ∧ Resembles c c₁ := by
  cases trial c x y rule.relation (c.joined y rule.relation) with
  | slotTaken _ htry =>
    have heq := (attach_of_refused (by rw [htry]; nofun)).trans htry
    exact ⟨_, heq, .count c _⟩
  | conflict hslot | exhausted hslot | attached hslot =>
    rw [hslot] at h
    cases h

/-- A bare candidate takes a chain of earlier places. -/
theorem Bare.attach
    (h : c.Bare place p x)
    (hy : c.Chain place j y len start)
    (hj : j < p)
    (hrelation : rule.relation = .next)
    (hstackable : rule.stackable = false)
    (hmarkers : c.markers = .empty)
    (hroom : c.candidatesFull = false) :
    ∃ c₁, c.attach x y rule = (.attached c.nextCandidate, c₁) ∧ Resembles c c₁ ∧
      Behind c c₁ place p c.nextCandidate y ∧ c₁.Has c.nextCandidate := by
  obtain ⟨owner, hcoverage⟩ := h.coverage
  have hfree : (c.candidate x).slot .next = none := by
    rw [Candidate.slot, h.slots]
    rfl
  have hapart : (c.candidate x).coverage.intersects (c.candidate y).coverage = false := by
    rw [hcoverage]
    exact Coverage.not_intersects_of_spans hy.spans hj
  have hjoined := h.joined hy hmarkers
  generalize hmade : { (c.candidate x).attach .next ⟨y, 0⟩ (c.candidate y) with pending := true } =
    made at hjoined
  have hattach : c.attach x y rule = (.attached c.nextCandidate,
      ((c.pushCandidate made).count fun t =>
        { t with attempts := t.attempts + 1, attachments := t.attachments + 1 })) := by
    rcases attach_cases c x y rule with heq | ⟨hstacked, -⟩
    · rw [heq, hrelation, tryAttach_of_free _ hfree hapart hroom, hjoined]
    · rw [hstackable] at hstacked
      cases hstacked
  have hresembles : Resembles c ((c.pushCandidate made).count fun t =>
      { t with attempts := t.attempts + 1, attachments := t.attachments + 1 }) :=
    (Resembles.pushCandidate c made).trans (.count _ _)
  have hhas := has_nextCandidate c made
  refine ⟨_, hattach, hresembles, ?_, hhas⟩
  refine h.behind true hy.has hresembles.grows (Nat.lt_irrefl _) hhas ?_
  rw [hmade]
  exact candidate_nextCandidate c made

/--
Candidates of place `p`, of which only the bare one is free, are to be joined to
chains of earlier places.
-/
structure Queued
    (c : Chart)
    (place : Nat → ItemId)
    (p : Nat)
    (leaf : CandidateId)
    (pairs : List (CandidateId × CandidateId)) : Prop where
  markers : c.markers = .empty
  bare : c.Bare place p leaf
  parents : ∀ e ∈ pairs, e.1 = leaf ∨ c.Has e.1 ∧ ((c.candidate e.1).slot .next).isSome
  children : ∀ e ∈ pairs, ∃ j len start, j < p ∧ c.Chain place j e.2 len start

theorem Queued.tail
    {leaf : CandidateId}
    {e : CandidateId × CandidateId}
    {rest : List (CandidateId × CandidateId)}
    (h : c.Queued place p leaf (e :: rest))
    (hr : Resembles c c') :
    c'.Queued place p leaf rest where
  markers := hr.markers.trans h.markers
  bare := h.bare.extend hr.grows
  parents e' he := by
    refine (h.parents e' (List.mem_cons_of_mem e he)).imp_right fun ⟨hhas, hslot⟩ => ?_
    rw [hr.grows.slot hhas]
    exact ⟨hr.grows.has hhas, hslot⟩
  children e' he := by
    obtain ⟨i, len, start, hi, hchain⟩ := h.children e' (List.mem_cons_of_mem e he)
    exact ⟨i, len, start, hi, hchain.extend hr.grows⟩

/-- Of all pairs, those of the bare candidate are joined, in their order. -/
theorem stage_sequence
    {leaf : CandidateId}
    {pairs : List (CandidateId × CandidateId)}
    (h : c.Queued place p leaf pairs)
    (staged : List CandidateId)
    (hrelation : rule.relation = .next)
    (hstackable : rule.stackable = false)
    (hwidth : staged.length + (pairs.filter fun e => e.1 = leaf).length ≤ c.settings.beamWidth)
    (hroom : (c.stage rule staged pairs).2.candidatesFull = false) :
    Resembles c (c.stage rule staged pairs).2 ∧
      ∃ ids, (c.stage rule staged pairs).1 = staged ++ ids ∧
        List.Forall₂ (fun id y => (c.stage rule staged pairs).2.Has id ∧
            Behind c (c.stage rule staged pairs).2 place p id y)
          ids ((pairs.filter fun e => e.1 = leaf).map Prod.snd) := by
  induction pairs generalizing c staged with
  | nil => exact ⟨.refl c, [], by simp [stage], .nil⟩
  | cons e rest ih =>
    obtain ⟨x, y⟩ := e
    unfold stage at hroom ⊢
    split at hroom
    · rename_i hstop
      have hfull : c.settings.beamWidth ≤ staged.length := by
        simpa [hroom] using hstop
      have hnone : ((x, y) :: rest).filter (fun e => e.1 = leaf) = [] :=
        List.length_eq_zero_iff.1 (by omega)
      rw [if_pos hstop, hnone]
      exact ⟨.refl c, [], (List.append_nil staged).symm, .nil⟩
    · rename_i hgo
      obtain ⟨j, len, start, hj, hy⟩ := h.children (x, y) List.mem_cons_self
      have hsome : ¬ (c.candidate y).isEmpty = true := by
        rw [hy.isEmpty]
        exact Bool.false_ne_true
      have hfull : c.candidatesFull = false := by
        have hnot : ¬ c.candidatesFull = true := fun h => hgo (by simp [h])
        exact eq_false_of_ne_true hnot
      rw [if_neg hgo, if_neg hsome] at *
      by_cases hx : x = leaf
      · subst hx
        obtain ⟨c₁, hattach, hfirst, hbehind, hhas⟩ :=
          h.bare.attach hy hj hrelation hstackable h.markers hfull
        rw [hattach] at hroom ⊢
        dsimp only at hroom ⊢
        rw [List.filter_cons_of_pos (by simp), List.length_cons] at hwidth
        obtain ⟨htail, ids, hids, hall⟩ := ih (h.tail hfirst) (staged ++ [c.nextCandidate])
          (by rw [hfirst.grows.settings, List.length_append, List.length_singleton]; omega) hroom
        refine ⟨hfirst.trans htail, c.nextCandidate :: ids, ?_, ?_⟩
        · rw [hids, List.append_assoc, List.singleton_append]
        · rw [List.filter_cons_of_pos (by simp), List.map_cons]
          refine .cons ⟨htail.grows.has hhas, hbehind.extend hhas htail.grows⟩ ?_
          exact hall.imp fun id z hz => ⟨hz.1, hz.2.weaken hfirst.grows⟩
      · have htaken : ((c.candidate x).slot rule.relation).isSome := by
          rw [hrelation]
          exact ((h.parents (x, y) List.mem_cons_self).resolve_left hx).2
        obtain ⟨c₁, hattach, hfirst⟩ := attach_taken (y := y) htaken
        rw [hattach] at hroom ⊢
        dsimp only at hroom ⊢
        rw [List.filter_cons_of_neg (by simpa using hx)] at hwidth ⊢
        obtain ⟨htail, ids, hids, hall⟩ := ih (h.tail hfirst) staged
          (by rw [hfirst.grows.settings]; exact hwidth) hroom
        exact ⟨hfirst.trans htail, ids, hids, hall.imp fun id z hz =>
          ⟨hz.1, hz.2.weaken hfirst.grows⟩⟩

end Attaching

section Offering

variable {u v : ItemId} {leaf : CandidateId}

/-- The pairs of one parent are its pairs with all children. -/
theorem filter_pairs
    (leaf : CandidateId)
    (existing children : List CandidateId)
    (hnodup : existing.Nodup) :
    ((existing.flatMap fun x => children.map (x, ·)).filter fun e => e.1 = leaf).map Prod.snd =
      if leaf ∈ existing then children else [] := by
  induction existing with
  | nil => rfl
  | cons x rest ih =>
    obtain ⟨hx, hrest⟩ := List.nodup_cons.1 hnodup
    rw [List.flatMap_cons, List.filter_append, List.map_append, ih hrest]
    by_cases hleaf : x = leaf
    · subst hleaf
      rw [if_neg hx, List.append_nil, if_pos List.mem_cons_self, List.filter_eq_self.2]
      · rw [List.map_map]
        exact List.map_id' children
      · intro e he
        obtain ⟨y, -, rfl⟩ := List.mem_map.1 he
        simp
    · rw [List.filter_eq_nil_iff.2]
      · simp [Ne.symm hleaf]
      · intro e he
        obtain ⟨y, -, rfl⟩ := List.mem_map.1 he
        simpa using hleaf

/-- Candidates behind different chains are apart. -/
theorem apart_of_behind
    {ids ys : List CandidateId}
    (h : List.Forall₂ (Behind c c' place p) ids ys)
    (hys : ys.Nodup) :
    Pool.Apart c'.candidate ids := by
  induction h with
  | nil => exact List.Pairwise.nil
  | @cons id y ids ys hbehind hrest ih =>
    obtain ⟨hy, hnodup⟩ := List.nodup_cons.1 hys
    refine List.pairwise_cons.2 ⟨fun other hother hcongruent => hy ?_, ih hnodup⟩
    obtain ⟨z, hz, hlater⟩ := exists_of_mem_forall₂ hrest hother
    have hslots := hbehind.slots.symm.trans (hcongruent.2.2.2.1.trans hlater.slots)
    have hnext := congrArg (fun s => s.get .next) hslots
    simp only [Slots.get_set_self, Option.some.injEq, Slot.mk.injEq, and_true] at hnext
    rw [hnext]
    exact hz

theorem Extends.apart
    {ids : List CandidateId}
    (h : Extends c c')
    (hids : ∀ x ∈ ids, c.Has x)
    (hapart : Pool.Apart c.candidate ids) :
    Pool.Apart c'.candidate ids :=
  List.Pairwise.imp_of_mem (fun hx hy hne hcongruent => hne
    ((h.congruent (hids _ hx)).symm.trans (hcongruent.trans (h.congruent (hids _ hy))))) hapart

theorem Extends.heaviest
    {width : Nat}
    {ids pool : List CandidateId}
    (h : Extends c c')
    (hids : ∀ x ∈ ids, c.Has x)
    (hpool : Pool.Heaviest c.candidate width ids pool) :
    Pool.Heaviest c'.candidate width ids pool where
  length := hpool.length
  subset := hpool.subset
  nodup := hpool.nodup
  kept z hz := (hpool.kept z hz).imp_right fun hlight => ⟨hlight.full, fun y hy => by
    rw [(h.congruent (hids z hz)).2.1, (h.congruent (hids y (hpool.subset hy))).2.1]
    exact hlight.heavier y hy⟩

/-- What comes of offering the candidates of one place to another place. -/
structure Taken
    (c c' : Chart)
    (place : Nat → ItemId)
    (p : Nat)
    (leaf : CandidateId)
    (children : List CandidateId) : Prop where
  aside : Aside (place p) c c'
  unchanged : leaf ∉ (c.item (place p)).pool → (c'.item (place p)).pool = (c.item (place p)).pool
  heaviest : leaf ∈ (c.item (place p)).pool → ∃ ids,
    List.Forall₂ (fun id y => c'.Has id ∧ Behind c c' place p id y) ids children ∧
      Pool.Apart c'.candidate (ids ++ (c.item (place p)).pool) ∧
        Pool.Heaviest c'.candidate c.settings.beamWidth (ids ++ (c.item (place p)).pool)
          (c'.item (place p)).pool

/-- What stands at place `p` has room for the chains of an item in its bare candidate only. -/
structure Meets
    (c : Chart)
    (place : Nat → ItemId)
    (p : Nat)
    (v : ItemId)
    (leaf : CandidateId) : Prop where
  bare : c.Bare place p leaf
  chain : ∀ x ∈ (c.item (place p)).pool, ∃ len start, c.Chain place p x len start
  slot : ∀ x ∈ (c.item (place p)).pool, x = leaf ∨ ((c.candidate x).slot .next).isSome
  free : ∀ x ∈ (c.item (place p)).pool, ∀ r, ¬ c.Holds x r v
  children : ∀ y ∈ (c.item v).pool, ∃ j len start, j < p ∧ c.Chain place j y len start

namespace Meets

theorem queued
    (h : c.Meets place p v leaf)
    (hc : Closed c)
    (hmarkers : c.markers = .empty) :
    c.Queued place p leaf
      ((c.item (place p)).pool.flatMap fun x => (c.item v).pool.map (x, ·)) where
  markers := hmarkers
  bare := h.bare
  parents e he := by
    obtain ⟨x, hx, hmap⟩ := List.mem_flatMap.1 he
    obtain ⟨y, -, rfl⟩ := List.mem_map.1 hmap
    exact (h.slot x hx).imp_right fun hslot => ⟨hc.has_of_mem hx, hslot⟩
  children e he := by
    obtain ⟨x, -, hmap⟩ := List.mem_flatMap.1 he
    obtain ⟨y, hy, rfl⟩ := List.mem_map.1 hmap
    exact h.children y hy

variable {ids : List CandidateId}

/-- What has been joined is a chain that holds something, as is what was there before. -/
theorem staged_chain
    (h : c.Meets place p v leaf)
    (hext : Extends c c')
    (hall : List.Forall₂ (fun id y => c'.Has id ∧ Behind c c' place p id y) ids (c.item v).pool)
    {x : CandidateId}
    (hx : x ∈ ids ++ (c.item (place p)).pool) :
    (∃ len start, c'.Chain place p x len start) ∧
      (x = leaf ∨ ((c'.candidate x).slot .next).isSome) := by
  rcases List.mem_append.1 hx with hnew | hold
  · obtain ⟨y, hy, -, hbehind⟩ := exists_of_mem_forall₂ hall hnew
    obtain ⟨j, len, start, hj, hchain⟩ := h.children y hy
    refine ⟨⟨len + 1, start, hbehind.chain j len start hj hchain⟩, Or.inr ?_⟩
    rw [Candidate.slot, hbehind.slots, Slots.get_set_self]
    rfl
  · obtain ⟨len, start, hchain⟩ := h.chain x hold
    refine ⟨⟨len, start, hchain.extend hext⟩, (h.slot x hold).imp_right fun hslot => ?_⟩
    rw [hext.slot hchain.has]
    exact hslot

/-- What has been joined is apart from what was there before. -/
theorem staged_apart
    (h : c.Meets place p v leaf)
    (hc : Sound True c)
    (hext : Extends c c')
    (hall : List.Forall₂ (fun id y => c'.Has id ∧ Behind c c' place p id y) ids (c.item v).pool) :
    Pool.Apart c'.candidate (ids ++ (c.item (place p)).pool) := by
  have hbeam := fun u => ((hc.lawful trivial).ranks u).beam
  refine List.pairwise_append.2 ⟨?_, ?_, fun id hid x hx hcongruent => ?_⟩
  · exact apart_of_behind (hall.imp fun _ _ hz => hz.2) (hbeam v).apart.nodup
  · exact (hext.isBeam (fun x hx => hc.closed.has_of_mem hx) (hbeam (place p))).apart
  · obtain ⟨y, hy, -, hbehind⟩ := exists_of_mem_forall₂ hall hid
    refine h.free x hx .next ⟨⟨y, 0⟩, ?_, hc.closed.root_of_mem hy⟩
    rw [← hext.slot (hc.closed.has_of_mem hx), Candidate.slot, ← hcongruent.2.2.2.1,
      hbehind.slots, Slots.get_set_self]

end Meets

/-- The bare candidate of a place takes the candidates of another place one by one. -/
theorem Plain.taken
    {connect : Connector}
    (h : Plain c)
    (hmeets : c.Meets place p v leaf)
    (hlicensed : c.Licensed (place p) v rule.relation)
    (hrelation : rule.relation = .next)
    (hstackable : rule.stackable = false)
    (htop : (c.item (place p)).fixedParent = none)
    (hsome : (c.item v).pool ≠ [])
    (hwidth : (c.item v).pool.length ≤ c.settings.beamWidth)
    (hroom : (offerWith connect c (place p) v rule).2.candidatesFull = false) :
    Taken c (offerWith connect c (place p) v rule).2 place p leaf (c.item v).pool := by
  have hdetach := detachAll_of_not_holds (c.item (place p)).pool hmeets.free
  rcases hstage : c.stage rule [] ((c.item (place p)).pool.flatMap fun x =>
    (c.item v).pool.map (x, ·)) with ⟨staged, c₂⟩
  obtain ⟨hresembles, hgrows, haside, hresult⟩ :=
    h.offer connect hlicensed hstackable htop hdetach hstage
  have hcount := filter_pairs leaf (c.item (place p)).pool (c.item v).pool
    ((h.sound.lawful trivial).ranks (place p)).beam.apart.nodup
  have hstaged := stage_sequence (hmeets.queued h.sound.closed h.markers) [] hrelation hstackable
    (by
      have hlength := congrArg List.length hcount
      rw [List.length_map] at hlength
      rw [hlength]
      split <;> simp [hwidth])
    (by rw [hstage]; exact hgrows.room hroom)
  rw [hstage, hcount] at hstaged
  obtain ⟨-, ids, hids, hall⟩ := hstaged
  rw [List.nil_append] at hids
  dsimp only at hids hall
  subst hids
  by_cases hmem : leaf ∈ (c.item (place p)).pool
  · rw [if_pos hmem] at hall
    have hne : staged.isEmpty = false := by
      rw [List.isEmpty_eq_false_iff, ← List.length_pos_iff, hall.length_eq]
      exact List.length_pos_iff.2 hsome
    have hchain := fun x hx => (hmeets.staged_chain hresembles.grows hall (x := x) hx).1
    have hkept : (staged ++ (c.item (place p)).pool).filter
        (fun x => !(c₂.candidate x).isEmpty) = staged ++ (c.item (place p)).pool := by
      refine List.filter_eq_self.2 fun x hx => ?_
      obtain ⟨len, start, hx⟩ := hchain x hx
      rw [hx.isEmpty]
      rfl
    have hapart := hmeets.staged_apart h.sound hresembles.grows hall
    have hhas : ∀ x ∈ staged ++ (c.item (place p)).pool, c₂.Has x := fun x hx =>
      (hchain x hx).choose_spec.choose_spec.has
    rw [hne, if_neg Bool.false_ne_true, beam, hkept, hresembles.grows.settings] at hresult
    refine ⟨haside, fun hout => absurd hmem hout, fun _ =>
      ⟨staged, ?_, hgrows.apart hhas hapart, ?_⟩⟩
    · exact hall.imp fun id y hz => ⟨hgrows.has hz.1, hz.2.extend hz.1 hgrows⟩
    · rw [hresult]
      exact hgrows.heaviest hhas (Pool.heaviest_ofList hapart)
  · rw [if_neg hmem] at hall
    rw [List.forall₂_nil_right_iff.1 hall, List.isEmpty_nil, if_pos rfl] at hresult
    exact ⟨haside, fun _ => hresult, fun hin => absurd hin hmem⟩

end Offering

end Chart

end BeamChart
