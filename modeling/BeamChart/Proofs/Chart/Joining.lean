import BeamChart.Proofs.Chart.Cover
import BeamChart.Proofs.Chart.Marked

/-!
# What comes of an attempt to attach

A taken slot, a common position and a full arena are found in this order, and
each of them leaves all but the tally as it is. Otherwise the next candidate is
the parent with the child: it has the slots of the parent and the new one, owns
what either of them owns, and weighs what both weigh together with the bonus of
the new slot (`attach_verdict`).

Two peers in sequence earn nothing, unless a marker stands between them: one that
is posted at a position of the gap and stops by the start of the right peer. Then
the marker is recorded, and earns its bonus (`Divides`).
-/

namespace BeamChart

namespace Chart

variable {g : Grammar} {s : Settings} {c c' : Chart} {p d id : CandidateId}

/-- From the stop of the extent that starts first to the start of the other one. -/
def gap (a b : Nat × Nat) : Nat × Nat :=
  if a.1 ≤ b.1 then (a.2, b.1) else (b.2, a.1)

/-- Of the markers that stop by the end of the gap, the leftmost one was posted here first. -/
structure Divides (c : Chart) (a b : Nat × Nat) (position : Nat) (m : ItemId) : Prop where
  start_le : (gap a b).1 ≤ position
  lt_stop : position < (gap a b).2
  first : (c.markers.under position).find? (fun u => (c.item u).stop ≤ (gap a b).2) = some m
  leftmost : ∀ k, (gap a b).1 ≤ k → k < position → ∀ u ∈ c.markers.under k,
    (gap a b).2 < (c.item u).stop

/-- The marker stands between two candidates. -/
def Between (c : Chart) (p d : Candidate) (m : ItemId) : Prop :=
  ∃ a b position, p.span? = some a ∧ d.span? = some b ∧ c.Divides a b position m

/-- Some position is owned by both candidates. -/
def Share (c : Chart) (p d : CandidateId) : Prop :=
  ∃ position, (c.candidate p).coverage.Owns position ∧ (c.candidate d).coverage.Owns position

/-- What taking a child earns: the bonus of the relation, or that of a marker between the two. -/
structure EarnsFrom
    (c : Chart)
    (r : Relation)
    (p d x : Candidate)
    (bonus : Weight) : Prop where
  structural : r ≠ .next → bonus = c.settings.scoring.structural ∧ x.marker = p.marker
  plain : r = .next → (∀ m, ¬ c.Between p d m) → bonus = 0 ∧ x.marker = p.marker
  marked : r = .next → ∀ m, c.Between p d m →
    bonus = c.settings.scoring.markerBonus (c.markerWeight m) ∧ x.marker = some m

/-- The candidate is the parent with the child. -/
structure Joins
    (c : Chart)
    (p : Candidate)
    (id : CandidateId)
    (d : Candidate)
    (r : Relation)
    (x : Candidate) : Prop where
  root : x.root = p.root
  ownWeight : x.ownWeight = p.ownWeight
  wellFormed : x.coverage.WellFormed
  owns : ∀ position, x.coverage.Owns position ↔
    p.coverage.Owns position ∨ d.coverage.Owns position
  scored : ∃ bonus, c.EarnsFrom r p d x bonus ∧
    x.slots = p.slots.set r (some ⟨id, bonus⟩) ∧ x.weight = p.weight + d.weight + bonus

/-- What an attempt to attach comes to. -/
structure Verdict (c : Chart) (p d : CandidateId) (rule : Rule SymbolId) : Prop where
  slotTaken : (c.attach p d rule).1 = .slotTaken ↔
    ((c.candidate p).slot rule.relation).isSome
  conflict : (c.attach p d rule).1 = .conflict ↔
    (c.candidate p).slot rule.relation = none ∧ c.Share p d
  exhausted : (c.attach p d rule).1 = .exhausted ↔
    (c.candidate p).slot rule.relation = none ∧ ¬ c.Share p d ∧
      c.settings.candidateCapacity ≤ c.candidates.size
  attached : ∀ id, (c.attach p d rule).1 = .attached id ↔
    (c.candidate p).slot rule.relation = none ∧ ¬ c.Share p d ∧
      c.candidates.size < c.settings.candidateCapacity ∧ id = ⟨c.candidates.size⟩
  /-- What is refused leaves everything but the tally as it is. -/
  refused : (∀ id, (c.attach p d rule).1 ≠ .attached id) →
    ∃ tally, (c.attach p d rule).2 = { c with tally }
  made : ∀ id, (c.attach p d rule).1 = .attached id → (c.attach p d rule).2.Has id ∧
    c.Joins (c.candidate p) d (c.candidate d) rule.relation ((c.attach p d rule).2.candidate id)

section Scoring

variable {x y : Candidate} {r : Relation} {m : ItemId}

theorem markerBetween?_eq_some_iff
    (hordered : c.markers.Ordered)
    {a b : Nat × Nat} :
    c.markerBetween? a b = some m ↔ ∃ position, c.Divides a b position m := by
  have hgap : c.markerBetween? a b =
      c.markers.firstBetween? (gap a b).1 (gap a b).2 fun u => (c.item u).stop ≤ (gap a b).2 := by
    unfold markerBetween? gap
    by_cases hle : a.1 ≤ b.1 <;> simp [hle]
  rw [hgap, Postings.firstBetween?_eq_some_iff hordered]
  constructor
  · rintro ⟨position, hlower, hupper, hfirst, hleft⟩
    refine ⟨position, hlower, hupper, hfirst, fun k hk hlt u hu => ?_⟩
    simpa using hleft k hk hlt u hu
  · rintro ⟨position, h⟩
    refine ⟨position, h.start_le, h.lt_stop, h.first, fun k hk hlt u hu => ?_⟩
    simpa using h.leftmost k hk hlt u hu

/-- A marker between two peers is recorded, and its bonus is that of the slot. -/
theorem joined_next_of_between
    (hordered : c.markers.Ordered)
    (id : CandidateId)
    (hm : c.Between x y m) :
    c.joined id .next x y =
      { x.attach .next ⟨id, c.settings.scoring.markerBonus (c.markerWeight m)⟩ y with
        marker := some m, pending := true } := by
  obtain ⟨a, b, position, ha, hb, hdivides⟩ := hm
  have hfound := (markerBetween?_eq_some_iff hordered).2 ⟨position, hdivides⟩
  simp [joined, Relation.isSequencing, ha, hb, hfound, withMarker, Candidate.attach,
    Weight.zero_add]

/-- Without a marker between them, peers are joined for nothing. -/
theorem joined_next_of_not_between
    (hordered : c.markers.Ordered)
    (id : CandidateId)
    (hnone : ∀ m, ¬ c.Between x y m) :
    c.joined id .next x y = { x.attach .next ⟨id, 0⟩ y with pending := true } := by
  cases ha : x.span? with
  | none => simp [joined, Relation.isSequencing, ha]
  | some a =>
    cases hb : y.span? with
    | none => simp [joined, Relation.isSequencing, ha, hb]
    | some b =>
      have hfound : c.markerBetween? a b = none := by
        rw [Option.eq_none_iff_forall_ne_some]
        intro m hm
        obtain ⟨position, hdivides⟩ := (markerBetween?_eq_some_iff hordered).1 hm
        exact hnone m ⟨a, b, position, ha, hb, hdivides⟩
      simp [joined, Relation.isSequencing, ha, hb, hfound]

/-- No more than one marker decides between two candidates. -/
theorem Between.unique
    (hordered : c.markers.Ordered)
    {m' : ItemId}
    (h : c.Between x y m)
    (h' : c.Between x y m') :
    m' = m := by
  obtain ⟨a, b, position, ha, hb, hdivides⟩ := h
  obtain ⟨a', b', position', ha', hb', hdivides'⟩ := h'
  rw [ha] at ha'
  rw [hb] at hb'
  cases ha'
  cases hb'
  have hfound := (markerBetween?_eq_some_iff hordered).2 ⟨position, hdivides⟩
  rw [(markerBetween?_eq_some_iff hordered).2 ⟨position', hdivides'⟩] at hfound
  exact Option.some.inj hfound

/-- Joining takes the child for the bonus that it earns. -/
theorem joined_earns
    (hordered : c.markers.Ordered)
    (id : CandidateId)
    (r : Relation)
    (x y : Candidate) :
    ∃ bonus readings marker, c.joined id r x y =
        { x.attach r ⟨id, bonus⟩ y with readings, marker, pending := true } ∧
      c.EarnsFrom r x y (c.joined id r x y) bonus := by
  by_cases hr : r = .next
  · subst hr
    by_cases hany : ∃ m, c.Between x y m
    · obtain ⟨m, hm⟩ := hany
      have heq := joined_next_of_between hordered id hm
      refine ⟨_, x.readings, some m, heq, fun h => absurd rfl h,
        fun _ hnone => absurd hm (hnone m), fun _ m' hm' => ?_⟩
      rw [heq, hm.unique hordered hm']
      exact ⟨rfl, rfl⟩
    · have hnone : ∀ m, ¬ c.Between x y m := fun m hm => hany ⟨m, hm⟩
      have heq := joined_next_of_not_between hordered id hnone
      refine ⟨_, x.readings, x.marker, heq, fun h => absurd rfl h, fun _ _ => ?_,
        fun _ m hm => absurd hm (hnone m)⟩
      rw [heq]
      exact ⟨rfl, rfl⟩
  · have hseq : r.isSequencing = false := by
      simpa [Relation.isSequencing] using hr
    have heq : c.joined id r x y =
        { c.withReadings (x.attach r ⟨id, c.settings.scoring.childBonus r⟩ y)
            (c.boundReadings x y r) with pending := true } := by
      simp only [joined, hseq, Bool.false_eq_true, if_false]
    refine ⟨_, _, x.marker, heq, fun _ => ?_, fun h => absurd h hr, fun h => absurd h hr⟩
    rw [heq]
    exact ⟨Scoring.childBonus_of_ne_next _ hr, rfl⟩

theorem joins_joined
    (hordered : c.markers.Ordered)
    (hx : x.coverage.WellFormed)
    (hy : y.coverage.WellFormed)
    (happart : x.coverage.intersects y.coverage = false)
    (id : CandidateId)
    (r : Relation) :
    c.Joins x id y r (c.joined id r x y) := by
  obtain ⟨bonus, readings, marker, heq, hearns⟩ := joined_earns hordered id r x y
  have hcoverage : (c.joined id r x y).coverage = x.coverage.union y.coverage := by rw [heq]; rfl
  refine ⟨by rw [heq]; rfl, by rw [heq]; rfl, ?_, fun position => ?_,
    ⟨bonus, hearns, by rw [heq]; rfl, by rw [heq]; rfl⟩⟩
  · rw [hcoverage]
    exact Coverage.wellFormed_union hx hy happart
  · rw [hcoverage]
    simp only [Coverage.Owns, (Coverage.runs_union_perm _ _).mem_iff, List.mem_append, or_and_right,
      exists_or]

/-- Marks do not matter for what a candidate has been joined from. -/
theorem Joins.congr_body
    {id : CandidateId}
    {z z' : Candidate}
    (h : c.Joins x id y r z)
    (hbody : z'.body = z.body) :
    c.Joins x id y r z' := by
  obtain ⟨hroot, hweight, hown, hslots, hcoverage⟩ := Candidate.congruent_of_body_eq hbody
  have hmarker : z'.marker = z.marker := (congrArg Candidate.marker hbody :)
  obtain ⟨bonus, hearns, hs, hw⟩ := h.scored
  refine ⟨hroot.trans h.root, hown.trans h.ownWeight, hcoverage ▸ h.wellFormed, ?_,
    ⟨bonus, ⟨?_, ?_, ?_⟩, hslots.trans hs, hweight.trans hw⟩⟩
  · rw [hcoverage]
    exact h.owns
  · rw [hmarker]
    exact hearns.structural
  · rw [hmarker]
    exact hearns.plain
  · rw [hmarker]
    exact hearns.marked

end Scoring

/-- The checks of an attempt in their order, and what each of them leaves. -/
inductive Attempt (c : Chart) (p d : CandidateId) (rule : Rule SymbolId) : Prop
  | slotTaken
      (hslot : ((c.candidate p).slot rule.relation).isSome)
      (houtcome : (c.attach p d rule).1 = .slotTaken)
      (hkept : ∃ tally, (c.attach p d rule).2 = { c with tally })
  | conflict
      (hslot : (c.candidate p).slot rule.relation = none)
      (hmeet : (c.candidate p).coverage.intersects (c.candidate d).coverage = true)
      (houtcome : (c.attach p d rule).1 = .conflict)
      (hkept : ∃ tally, (c.attach p d rule).2 = { c with tally })
  | exhausted
      (hslot : (c.candidate p).slot rule.relation = none)
      (happart : (c.candidate p).coverage.intersects (c.candidate d).coverage = false)
      (hfull : c.candidatesFull = true)
      (houtcome : (c.attach p d rule).1 = .exhausted)
      (hkept : ∃ tally, (c.attach p d rule).2 = { c with tally })
  | attached
      (hslot : (c.candidate p).slot rule.relation = none)
      (happart : (c.candidate p).coverage.intersects (c.candidate d).coverage = false)
      (hroom : c.candidatesFull = false)
      (houtcome : (c.attach p d rule).1 = .attached c.nextCandidate)
      (hhas : (c.attach p d rule).2.Has c.nextCandidate)
      (hbody : ((c.attach p d rule).2.candidate c.nextCandidate).body =
        (c.joined d rule.relation (c.candidate p) (c.candidate d)).body)

theorem attempt
    (hc : Sound False c)
    (hp : c.Has p)
    (hd : c.Has d)
    (rule : Rule SymbolId) :
    Attempt c p d rule := by
  cases trial c p d rule.relation (c.joined d rule.relation) with
  | slotTaken hslot htry =>
    have heq := (attach_of_refused (by rw [htry]; nofun)).trans htry
    exact .slotTaken hslot (by rw [heq]) ⟨_, by rw [heq]; rfl⟩
  | conflict hslot hmeet htry =>
    have heq := (attach_of_refused (by rw [htry]; nofun)).trans htry
    exact .conflict hslot hmeet (by rw [heq]) ⟨_, by rw [heq]; rfl⟩
  | exhausted hslot happart hfull htry =>
    have heq := (attach_of_refused (by rw [htry]; nofun)).trans htry
    exact .exhausted hslot happart hfull (by rw [heq]) ⟨_, by rw [heq]; rfl⟩
  | attached hslot happart hroom htry =>
    obtain ⟨hsteps, hstored⟩ := tryAttach_spec (p := p) (d := d) (r := rule.relation) False
      (c.joined d rule.relation) hp hd fun hfits => .joined hfits False.elim False.elim
    rw [htry] at hsteps hstored
    obtain ⟨hhas, -, hmade⟩ := hstored _ rfl
    -- an aggregate is made for the new candidate, and marks it
    rcases attach_cases c p d rule with heq | ⟨-, c₁, hattached, heq⟩
    · rw [htry] at heq
      refine .attached hslot happart hroom ?_ ?_ ?_ <;> rw [heq]
      · exact hhas
      · exact congrArg Candidate.body hmade
    · rw [htry] at hattached
      cases hattached
      have hwrapped := (wrap_evolves (hsteps.sound hc) hhas
        (by rw [hmade, wrapper_joined]) fun h => h.elim).grows
      refine .attached hslot happart hroom ?_ ?_ ?_ <;> rw [heq]
      · exact hwrapped.has hhas
      · exact (hwrapped.body _ hhas).trans (congrArg Candidate.body hmade)

/-- What has been attached has found a free slot and no common position. -/
theorem free_of_attached
    (hc : Sound False c)
    (hp : c.Has p)
    (hd : c.Has d)
    {rule : Rule SymbolId}
    (h : (c.attach p d rule).1 = .attached id) :
    (c.candidate p).slot rule.relation = none ∧
      (c.candidate p).coverage.intersects (c.candidate d).coverage = false ∧
      (c.attach p d rule).2.Has id ∧
      ((c.attach p d rule).2.candidate id).body =
        (c.joined d rule.relation (c.candidate p) (c.candidate d)).body := by
  cases attempt hc hp hd rule with
  | slotTaken _ houtcome => rw [houtcome] at h; cases h
  | conflict _ _ houtcome => rw [houtcome] at h; cases h
  | exhausted _ _ _ houtcome => rw [houtcome] at h; cases h
  | attached hslot happart _ houtcome hhas hbody =>
    obtain rfl : c.nextCandidate = id := by
      rw [houtcome] at h
      exact Attachment.attached.inj h
    exact ⟨hslot, happart, hhas, hbody⟩

theorem extends_attach
    (hc : Sound False c)
    (hp : c.Has p)
    (hd : c.Has d)
    (rule : Rule SymbolId) :
    Extends c (c.attach p d rule).2 :=
  (attach_spec rule hc ⟨hp, rfl⟩ ⟨hd, rfl⟩ False.elim False.elim).1.grows

/--
An attempt to attach is refused for a taken slot, else for a common position, else
for want of room, and then changes nothing but the tally; otherwise the next candidate
is the parent with the child. A marker decides between two peers where it has been
posted. Postings stay in the order of registration until the chart is reset, and unless a
registered item is filled by hand they are the registered markers at their positions.
-/
theorem attach_verdict
    (hrun : Operated g s c)
    (hp : c.Has p)
    (hd : c.Has d)
    (rule : Rule SymbolId) :
    Verdict c p d rule ∧
      (∀ op : Operation, op.Names c → op ≠ .input .reset → ∀ position,
        c.markers.under position <+: (op.apply c).markers.under position) ∧
      (Kempt g s c → ∀ position u, u ∈ c.markers.under position ↔
        (c.item u).registered = true ∧ c.IsMarker u ∧ (c.item u).position = position) := by
  have hwp := (hrun.tiled p hp).wellFormed
  have hwd := (hrun.tiled d hd).wellFormed
  have hshare : c.Share p d ↔
      (c.candidate p).coverage.intersects (c.candidate d).coverage = true :=
    (Coverage.intersects_iff hwp hwd).symm
  have hfull : c.candidatesFull = true ↔ c.settings.candidateCapacity ≤ c.candidates.size :=
    decide_eq_true_iff
  refine ⟨?_, fun op hnames hop position => hrun.under_prefix op hnames hop position,
    fun hkempt position u => hkempt.markersListed.mem u position⟩
  cases attempt hrun.kept.sound hp hd rule with
  | slotTaken hslot houtcome htally =>
    have hne : (c.candidate p).slot rule.relation ≠ none := Option.isSome_iff_ne_none.1 hslot
    constructor <;> simp [houtcome, hslot, hne, htally]
  | conflict hslot hmeet houtcome htally =>
    constructor <;> simp [houtcome, hslot, hshare, hmeet, htally]
  | exhausted hslot happart hroom houtcome htally =>
    rw [hfull] at hroom
    constructor <;> simp [houtcome, hslot, hshare, happart, hroom, htally]
  | attached hslot happart hroom houtcome hhas hbody =>
    have hlt : c.candidates.size < c.settings.candidateCapacity := by
      rw [← Nat.not_le, ← hfull, hroom]
      exact Bool.false_ne_true
    constructor
    · simp [houtcome, hslot]
    · simp [houtcome, hshare, happart]
    · simp [houtcome, hlt]
    · intro id
      simp [houtcome, hslot, hshare, happart, hlt, nextCandidate, eq_comm]
    · intro hrefused
      exact absurd houtcome (hrefused _)
    · intro id hid
      rw [houtcome] at hid
      cases hid
      exact ⟨hhas, (joins_joined hrun.markers_ordered hwp hwd happart d rule.relation).congr_body
        hbody⟩

section Sample

/-- Items that follow each other, and a marker. -/
def itemGrammar : Grammar :=
  Declaration.built
    { symbols :=
        [{ name := "item", rules := [{ relation := .next, target := "item", placement := .after }] },
          { name := "and", kind := .groupMarker }] }

/-- Makes an item of a symbol by hand. -/
def made (u : ItemId) (symbol : SymbolId) (position : Nat) : List Operation :=
  [.allocate, .instantiate u (some symbol) { concept := symbol, position, extent := 1 }]

/-- Two items with a marker between them. -/
def partedOperations : List Operation :=
  made ⟨0⟩ 1 0 ++ made ⟨1⟩ 1 2 ++ made ⟨2⟩ 2 1 ++ [.register ⟨2⟩]

def partedChart : Chart :=
  (new itemGrammar {}).operate partedOperations

theorem kempt_partedChart :
    Kempt itemGrammar {} partedChart :=
  .operate .new (by decide +kernel)

/-- The marker has weight 1, and the bonus for a marker is 5. -/
theorem attach_verdict_sample :
    Kempt itemGrammar {} partedChart ∧ partedChart.Has ⟨0⟩ ∧ partedChart.Has ⟨1⟩ ∧
      partedChart.Between (partedChart.candidate ⟨0⟩) (partedChart.candidate ⟨1⟩) ⟨2⟩ ∧
      Verdict partedChart ⟨0⟩ ⟨1⟩ { relation := .next, target := 1 } ∧
      (partedChart.attach ⟨0⟩ ⟨1⟩ { relation := .next, target := 1 }).1 = .attached ⟨3⟩ ∧
      ((partedChart.attach ⟨0⟩ ⟨1⟩ { relation := .next, target := 1 }).2.candidate ⟨3⟩).weight =
        .ofInt 8 := by
  have hp : partedChart.Has ⟨0⟩ := by decide +kernel
  have hd : partedChart.Has ⟨1⟩ := by decide +kernel
  have hbetween :
      partedChart.Between (partedChart.candidate ⟨0⟩) (partedChart.candidate ⟨1⟩) ⟨2⟩ := by
    refine ⟨(0, 1), (2, 3), 1, by decide +kernel, by decide +kernel, by decide +kernel,
      by decide +kernel, by decide +kernel, ?_⟩
    intro k hk hlt
    have hgap : (gap (0, 1) (2, 3)).1 = 1 := by decide
    omega
  exact ⟨kempt_partedChart, hp, hd, hbetween,
    (attach_verdict kempt_partedChart.operated hp hd _).1, by decide +kernel, by decide +kernel⟩

/-- The marker is filled anew as an item after it has been registered. -/
def refilledChart : Chart :=
  partedChart.operate
    [.instantiate ⟨2⟩ (some 1) { concept := 1, position := 1, extent := 1 }]

/-- No marker is left in the chart, and joining two items still earns the bonus for one. -/
theorem refilled_marker_counts :
    Operated itemGrammar {} refilledChart ∧ (∀ u, ¬ refilledChart.IsMarker u) ∧
      (refilledChart.attach ⟨0⟩ ⟨1⟩ { relation := .next, target := 1 }).1 = .attached ⟨4⟩ ∧
      ((refilledChart.attach ⟨0⟩ ⟨1⟩
          { relation := .next, target := 1 }).2.candidate ⟨4⟩).marker = some ⟨2⟩ ∧
      ((refilledChart.attach ⟨0⟩ ⟨1⟩
          { relation := .next, target := 1 }).2.candidate ⟨4⟩).slot .next =
        some ⟨⟨1⟩, .ofInt 6⟩ := by
  refine ⟨kempt_partedChart.operated.operate (by decide +kernel), ?_, by decide +kernel,
    by decide +kernel, by decide +kernel⟩
  intro u hu
  have hlt : u.index < 3 := hu.lt_size
  obtain ⟨k⟩ := u
  have hordinary : ∀ i < 3, refilledChart.recognized? ⟨i⟩ = some 1 ∧
      refilledChart.kindOf 1 = .ordinary := by decide +kernel
  obtain ⟨hsymbol, hkind⟩ := hordinary k hlt
  obtain ⟨s, hs, hmarker⟩ := hu
  rw [hsymbol] at hs
  cases hs
  rw [hkind] at hmarker
  exact hmarker.elim (fun h => by cases h) fun h => by cases h

end Sample

end Chart

end BeamChart
