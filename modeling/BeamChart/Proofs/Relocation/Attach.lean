import BeamChart.Proofs.Chart.Offer
import BeamChart.Proofs.Relocation.Chart

/-!
# Attaching and detaching in relocated charts

A child is attached, given up or replaced alike in a chart and in a relocation of
it. Attempts are made for the same candidates and come to the same result, since
coverage maps meet, slots are taken and markers stand between two peers no matter
where the input begins.
-/

namespace BeamChart

namespace Chart

variable {m : Relocation} {c c' : Chart} {u v : ItemId} {x p d : CandidateId} {r : Relation}

section Attaching

/-- The marker between two extents moves with them. -/
theorem Mirrors.markerBetween?
    (h : Mirrors m c c')
    (a b : Nat × Nat) :
    c'.markerBetween? (m.extent a) (m.extent b) = (c.markerBetween? a b).map m.item := by
  have hgap : ∀ left right : Nat × Nat,
      c'.markers.firstBetween? (m.extent left).2 (m.extent right).1
          (fun k => (c'.item k).stop ≤ (m.extent right).1) =
        (c.markers.firstBetween? left.2 right.1 fun k => (c.item k).stop ≤ right.1).map m.item := by
    intro left right
    rw [h.markers]
    refine m.firstBetween?_postings m.distance c.markers left.2 right.1 fun k hk => ?_
    have hlocated : (c.item k).located = true := by
      obtain ⟨s, hs⟩ := Option.isSome_iff_exists.1 (h.grounded.markers k hk)
      exact Item.located_of_symbol hs
    rw [h.item, m.stop_moved hlocated]
    exact decide_eq_decide.2 Nat.add_le_add_iff_right
  have horder : (m.extent a).1 ≤ (m.extent b).1 ↔ a.1 ≤ b.1 := Nat.add_le_add_iff_right
  unfold Chart.markerBetween?
  by_cases hle : a.1 ≤ b.1
  · rw [if_pos hle, if_pos (horder.2 hle)]
    exact hgap a b
  · rw [if_neg hle, if_neg fun hle' => hle (horder.1 hle')]
    exact hgap b a

theorem Mirrors.withMarker
    (h : Mirrors m c c')
    (y : Candidate)
    (k : ItemId) :
    c'.withMarker (m.candidate y) (m.item k) = m.candidate (c.withMarker y k) := by
  have hweight : c'.markerWeight (m.item k) = c.markerWeight k := by
    unfold markerWeight
    rw [h.pool]
    cases hpool : (c.item k).pool.head? with
    | none => rfl
    | some z => exact h.weightOf (h.closed.has_of_mem (List.mem_of_mem_head? hpool))
  simp only [Chart.withMarker, hweight, h.settings]
  rfl

theorem Relocates.boundReadings
    (h : Relocates m c c')
    (y z : Candidate)
    (r : Relation) :
    c'.boundReadings (m.candidate y) (m.candidate z) r = c.boundReadings y z r := by
  simp only [Chart.boundReadings, m.root_candidate, h.symbol, h.grammar]

/-- A parent with a child is scored and read alike. -/
theorem Mirrors.joined
    (h : Mirrors m c c')
    (y z : Candidate) :
    c'.joined d r (m.candidate y) (m.candidate z) = m.candidate (c.joined d r y z) := by
  unfold Chart.joined
  rw [h.settings, ← m.candidate_attach]
  generalize y.attach r ⟨d, c.settings.scoring.childBonus r⟩ z = x
  have hplain : ∀ x, { m.candidate x with pending := true } =
      m.candidate { x with pending := true } := fun _ => rfl
  by_cases hr : r.isSequencing = true
  · simp only [if_pos hr, m.span?_candidate]
    cases y.span? with
    | none => exact hplain x
    | some a =>
      cases z.span? with
      | none => exact hplain x
      | some b =>
        simp only [Option.map_some, h.markerBetween?]
        cases c.markerBetween? a b with
        | none => exact hplain x
        | some k =>
          simp only [Option.map_some, h.withMarker]
          exact hplain _
  · simp only [if_neg hr, h.boundReadings, Chart.withReadings, h.settings]
    rfl

theorem Relocates.tryAttach
    (h : Relocates m c c')
    (hp : c.Has p)
    (hd : c.Has d)
    {make make' : Candidate → Candidate → Candidate}
    (hmake : make' (m.candidate (c.candidate p)) (m.candidate (c.candidate d)) =
      m.candidate (make (c.candidate p) (c.candidate d))) :
    Agrees (Relocates m) (c.tryAttach p d r make) (c'.tryAttach p d r make') := by
  have hattempt : Relocates m (c.count fun t => { t with attempts := t.attempts + 1 })
      (c'.count fun t => { t with attempts := t.attempts + 1 }) :=
    h.count fun _ _ he => congrArg (· + 1) he
  unfold Chart.tryAttach
  simp only [h.candidate p hp, h.candidate d hd, m.slot_candidate, m.coverage_candidate,
    m.intersects_coverage, hmake]
  generalize c.count _ = c₁ at hattempt ⊢
  generalize c'.count _ = c₁' at hattempt ⊢
  split
  · exact ⟨_, _, _, hattempt⟩
  · split
    · exact ⟨_, _, _, hattempt.count fun _ _ he => he⟩
    · have hstore := hattempt.store (make (c.candidate p) (c.candidate d))
      generalize c₁.store _ = result at hstore ⊢
      generalize c₁'.store _ = result' at hstore ⊢
      obtain ⟨outcome, c₂, c₂', hstored⟩ := hstore
      cases outcome with
      | error e => exact ⟨_, _, _, hstored⟩
      | ok id => exact ⟨_, _, _, hstored.count fun _ _ he => he⟩

/-- An aggregate covers what its candidate covers, wherever that is. -/
theorem Relocates.wrap
    (h : Relocates m c c')
    (hx : c.Has x) :
    Relocates m (c.wrap x) (c'.wrap x) := by
  unfold Chart.wrap
  rcases h.allocateAggregate with ⟨heq, heq'⟩ | ⟨heq, heq'⟩
  · rw [heq, heq']
    have hpush := h.pushAggregate
    have hblank : c.pushAggregate.item c.nextItem = { isAggregate := true } := by
      rw [item_pushAggregate, if_pos rfl]
    simp only [candidate_pushAggregate, h.candidate x hx, m.span?_candidate]
    cases (c.candidate x).span? with
    | none => exact hpush
    | some span =>
      obtain ⟨start, stop⟩ := span
      have hlifted : (Candidate.seed (m.item c.nextItem)).attach .aggregate ⟨x, 0⟩
            (m.candidate (c.candidate x)) =
          m.candidate ((Candidate.seed c.nextItem).attach .aggregate ⟨x, 0⟩ (c.candidate x)) := by
        rw [m.candidate_attach, m.candidate_seed]
      have hitem := item_of_items_eq (items_store c.pushAggregate
        ((Candidate.seed c.nextItem).attach .aggregate ⟨x, 0⟩ (c.candidate x))) c.nextItem
      have hstore := hpush.store
        ((Candidate.seed c.nextItem).attach .aggregate ⟨x, 0⟩ (c.candidate x))
      simp only [Option.map_some, Relocation.extent, hlifted, m.root_candidate, hpush.symbol]
      generalize c.pushAggregate.store _ = result at hstore hitem ⊢
      generalize c'.pushAggregate.store _ = result' at hstore ⊢
      obtain ⟨outcome, c₁, c₁', hstored⟩ := hstore
      cases outcome with
      | error e => exact hstored
      | ok w =>
        refine (hstored.modifyItem ?_).modifyCandidate rfl
        have hextent : stop + m.distance - (start + m.distance) = stop - start :=
          Nat.add_sub_add_right stop m.distance start
        dsimp only at hitem
        rw [hitem, hblank, hextent]
        simp [Relocation.moved, Item.located]
  · rw [heq, heq']
    exact h.refused

theorem Mirrors.attach
    (h : Mirrors m c c')
    (hp : c.Has p)
    (hd : c.Has d)
    (rule : Rule SymbolId) :
    Agrees (Mirrors m) (c.attach p d rule) (c'.attach p d rule) := by
  have hsteps : Evolves False c (c.attach p d rule).2 :=
    (attach_spec rule h.sound ⟨hp, rfl⟩ ⟨hd, rfl⟩ False.elim False.elim).1
  have hnew : ∀ id, (c.tryAttach p d rule.relation (c.joined d rule.relation)).1 = .attached id →
      (c.tryAttach p d rule.relation (c.joined d rule.relation)).2.Has id :=
    fun id hid => (tryAttach_attached hid).2.1
  have htry := h.toRelocates.tryAttach (r := rule.relation) hp hd
    (h.joined (d := d) (r := rule.relation) _ _)
  refine h.evolves hsteps ?_
  unfold Chart.attach
  generalize c.tryAttach p d _ _ = result at htry hnew ⊢
  generalize c'.tryAttach p d _ _ = result' at htry ⊢
  obtain ⟨outcome, c₁, c₁', htried⟩ := htry
  cases outcome with
  | attached id =>
    dsimp only
    split
    · exact ⟨_, _, _, htried.wrap (hnew id rfl)⟩
    · exact ⟨_, _, _, htried⟩
  | slotTaken => exact ⟨_, _, _, htried⟩
  | conflict => exact ⟨_, _, _, htried⟩
  | exhausted => exact ⟨_, _, _, htried⟩

/-- The same pairs are attached, up to the same end. -/
theorem Mirrors.stage
    (h : Mirrors m c c')
    (rule : Rule SymbolId)
    (staged : List CandidateId)
    (pairs : List (CandidateId × CandidateId))
    (hpairs : ∀ e ∈ pairs, c.Has e.1 ∧ c.Has e.2) :
    Agrees (Mirrors m) (c.stage rule staged pairs) (c'.stage rule staged pairs) := by
  induction pairs generalizing c c' staged with
  | nil => exact ⟨_, _, _, h⟩
  | cons e rest ih =>
    obtain ⟨p, d⟩ := e
    obtain ⟨hp, hd⟩ := hpairs (p, d) List.mem_cons_self
    have hrest : ∀ e ∈ rest, c.Has e.1 ∧ c.Has e.2 := fun e he =>
      hpairs e (List.mem_cons_of_mem _ he)
    unfold Chart.stage
    rw [h.settings, h.candidatesFull, h.candidate d hd, m.isEmpty_candidate]
    split
    · exact ⟨_, _, _, h⟩
    · split
      · exact ih h staged hrest
      · have hgrows : Extends c (c.attach p d rule).2 :=
          (attach_spec rule h.sound ⟨hp, rfl⟩ ⟨hd, rfl⟩ False.elim False.elim).1.grows
        have hattach := h.attach hp hd rule
        generalize c.attach p d rule = result at hattach hgrows ⊢
        generalize c'.attach p d rule = result' at hattach ⊢
        obtain ⟨outcome, c₁, c₁', hattached⟩ := hattach
        have hrest' : ∀ e ∈ rest, c₁.Has e.1 ∧ c₁.Has e.2 := fun e he =>
          ⟨hgrows.has (hrest e he).1, hgrows.has (hrest e he).2⟩
        cases outcome with
        | attached id => exact ih hattached _ hrest'
        | exhausted => exact ⟨_, _, _, hattached⟩
        | slotTaken => exact ih hattached _ hrest'
        | conflict => exact ih hattached _ hrest'

end Attaching

section Detaching

theorem Relocates.holdsItem
    (h : Relocates m c c')
    {s : Slot}
    (hs : c.Has s.child)
    (u : ItemId) :
    c'.holdsItem (m.item u) s = c.holdsItem u s := by
  rw [Chart.holdsItem, Chart.holdsItem, h.candidate _ hs, m.root_candidate]
  exact decide_eq_decide.2 m.item_inj

theorem Relocates.withoutItem
    (h : Relocates m c c')
    (y : Candidate)
    (hy : ∀ r s, y.slot r = some s → c.Has s.child)
    (u : ItemId) :
    c'.withoutItem (m.candidate y) (m.item u) = m.candidate (c.withoutItem y u) := by
  unfold Chart.withoutItem
  generalize Relation.all = relations
  induction relations generalizing y with
  | nil => rfl
  | cons r rest ih =>
    rw [List.foldl_cons, List.foldl_cons, m.slot_candidate]
    cases hs : y.slot r with
    | none => exact ih y hy
    | some s =>
      have hchild : c.Has s.child := hy r s hs
      dsimp only
      rw [h.holdsItem hchild, h.candidate _ hchild, ← m.candidate_detach]
      split
      · exact ih _ fun q t ht => hy q t (Candidate.slot_of_slot_detach ht)
      · exact ih y hy

theorem Mirrors.detach
    (h : Mirrors m c c')
    (hx : c.Has x)
    (u : ItemId) :
    Agrees (Mirrors m) (c.detach x u) (c'.detach x (m.item u)) := by
  have hsteps : Evolves False c (c.detach x u).2 := (detach_spec hx False.elim).1
  have hchild : ∀ r s, (c.candidate x).slot r = some s → c.Has s.child :=
    fun r s hs => h.closed.has_child hx hs
  have hany : ((c.candidate x).slots.filled.any fun e => c'.holdsItem (m.item u) e.2) =
      (c.candidate x).slots.filled.any fun e => c.holdsItem u e.2 := by
    rw [Bool.eq_iff_iff, List.any_eq_true, List.any_eq_true]
    refine exists_congr fun e => and_congr_right fun he => ?_
    rw [h.holdsItem (hchild e.1 e.2 ((Slots.mem_filled _ e.1 e.2).1 he))]
  refine h.evolves hsteps ?_
  unfold Chart.detach
  simp only [h.candidate x hx, m.slots_candidate, hany, h.withoutItem _ hchild]
  split
  · have hstore := h.store (c.withoutItem (c.candidate x) u)
    generalize c.store _ = result at hstore ⊢
    generalize c'.store _ = result' at hstore ⊢
    obtain ⟨outcome, c₁, c₁', hstored⟩ := hstore
    cases outcome <;> exact ⟨_, _, _, hstored⟩
  · exact ⟨_, _, _, h.toRelocates⟩

theorem Mirrors.detachAll
    (h : Mirrors m c c')
    (u : ItemId)
    (pool : List CandidateId)
    (hpool : ∀ x ∈ pool, c.Has x) :
    Agrees (Mirrors m) (c.detachAll u pool) (c'.detachAll (m.item u) pool) := by
  induction pool generalizing c c' with
  | nil => exact ⟨_, _, _, h⟩
  | cons x rest ih =>
    have hx : c.Has x := hpool x List.mem_cons_self
    have hgrows : Extends c (c.detach x u).2 := (detach_spec hx False.elim).1.grows
    have hfirst := h.detach hx u
    unfold Chart.detachAll
    generalize c.detach x u = result at hfirst hgrows ⊢
    generalize c'.detach x (m.item u) = result' at hfirst ⊢
    obtain ⟨outcome, c₁, c₁', hdetached⟩ := hfirst
    cases outcome with
    | error e => exact ⟨_, _, _, hdetached⟩
    | ok replaced =>
      have htail := ih hdetached fun y hy => hgrows.has (hpool y (List.mem_cons_of_mem x hy))
      dsimp only
      generalize c₁.detachAll u rest = result at htail ⊢
      generalize c₁'.detachAll (m.item u) rest = result' at htail ⊢
      obtain ⟨outcome, c₂, c₂', hdone⟩ := htail
      cases outcome <;> exact ⟨_, _, _, hdone⟩

end Detaching

section Refitting

theorem Relocates.holdsOlder
    (h : Relocates m c c')
    (hc : Closed c)
    (hx : c.Has x)
    (newer : CandidateId) :
    c'.holdsOlder x r (m.item u) newer = c.holdsOlder x r u newer := by
  unfold Chart.holdsOlder
  rw [h.candidate x hx, m.slot_candidate]
  cases hs : (c.candidate x).slot r with
  | none => rfl
  | some s => simp only [Option.any_some, h.holdsItem (hc.has_child hx hs)]

theorem Relocates.repoint
    (h : Relocates m c c')
    (hc : Closed c)
    (hx : c.Has x)
    (hd : c.Has d) :
    Agrees (Relocates m) (c.repoint x r d) (c'.repoint x r d) := by
  unfold Chart.repoint
  simp only [h.candidate x hx, h.candidate d hd, m.slot_candidate]
  cases hs : (c.candidate x).slot r with
  | none => exact ⟨_, _, _, h⟩
  | some s =>
    simp only [h.candidate _ (hc.has_child hx hs), ← m.candidate_detach, m.coverage_candidate,
      m.intersects_coverage]
    split
    · exact ⟨_, _, _, h.count fun _ _ he => he⟩
    · simp only [← m.candidate_attach]
      generalize ((c.candidate x).detach r (c.candidate s.child)).attach r ⟨d, s.bonus⟩
        (c.candidate d) = made
      have hmade :
          { m.candidate made with
            readings := (m.candidate (c.candidate x)).readings
            marker := (m.candidate (c.candidate x)).marker
            pending := true } =
          m.candidate
            { made with
              readings := (c.candidate x).readings
              marker := (c.candidate x).marker
              pending := true } := rfl
      rw [hmade]
      generalize ({ made with readings := _, marker := _, pending := true } : Candidate) = y
      have hstore := h.store y
      generalize c.store y = result at hstore ⊢
      generalize c'.store _ = result' at hstore ⊢
      obtain ⟨outcome, c₁, c₁', hstored⟩ := hstore
      cases outcome <;> exact ⟨_, _, _, hstored⟩

/-- A candidate is put in its place among the ones that are kept of a pool. -/
theorem Relocates.insert
    {kept : List CandidateId}
    {y : CandidateId}
    (h : Relocates m c c')
    (hkept : ∀ k ∈ kept, c.Has k)
    (hy : c.Has y) :
    Pool.insert c'.candidate c'.settings.beamWidth kept y =
        Pool.insert c.candidate c.settings.beamWidth kept y ∧
      ∀ k ∈ Pool.insert c.candidate c.settings.beamWidth kept y, c.Has k := by
  rw [h.settings]
  refine ⟨m.insert_pool _ (fun k hk => h.candidate k (hkept k hk)) (h.candidate y hy), ?_⟩
  intro k hk
  rcases Pool.mem_insert hk with hmem | rfl
  · exact hkept k hmem
  · exact hy

variable {above : ItemId} {newer : CandidateId}

/-- A pool is rebuilt alike; what is kept in it is stored. -/
theorem Mirrors.refitPool
    (h : Mirrors m c c')
    (kept : List CandidateId)
    (changed : Bool)
    (pool : List CandidateId)
    (hkept : ∀ k ∈ kept, c.Has k)
    (hpool : c.RootedAt above pool)
    (hnewer : c.Has newer)
    (hroot : (c.candidate newer).root = u)
    (hfixed : (c.item u).fixedParent = some (above, r)) :
    Agrees (Mirrors m) (Chart.refitPool r u newer c kept changed pool)
      (Chart.refitPool r (m.item u) newer c' kept changed pool) := by
  induction pool generalizing c c' kept changed with
  | nil => exact ⟨_, _, _, h⟩
  | cons x rest ih =>
    obtain ⟨hx, hxroot⟩ := hpool x List.mem_cons_self
    have hrest : c.RootedAt above rest := fun y hy => hpool y (List.mem_cons_of_mem x hy)
    unfold Chart.refitPool
    rw [h.holdsOlder h.closed hx]
    split
    · rename_i holder
      obtain ⟨hsteps, hnew⟩ := repoint_spec (u := above) False (r := r) h.closed hx hnewer
        (by rw [hroot]; exact holder) (by rw [hroot, hxroot]; exact hfixed)
      have hrepoint := h.evolves hsteps (h.repoint (r := r) h.closed hx hnewer)
      generalize c.repoint x r newer = result at hrepoint hsteps hnew ⊢
      generalize c'.repoint x r newer = result' at hrepoint ⊢
      obtain ⟨outcome, c₁, c₁', hrepointed⟩ := hrepoint
      cases outcome with
      | error e => exact ⟨_, _, _, hrepointed⟩
      | ok replaced =>
        have hext : Extends c c₁ := hsteps.grows
        have hreplaced : c₁.Has (replaced.getD x) := by
          cases replaced with
          | none => exact hext.has hx
          | some id => exact (hnew id rfl).1
        obtain ⟨hsame, hkept₁⟩ :=
          hrepointed.insert (fun k hk => hext.has (hkept k hk)) hreplaced
        dsimp only
        rw [hsame]
        exact ih hrepointed _ _ hkept₁ (hext.rootedAt hrest) (hext.has hnewer)
          ((hext.root hnewer).trans hroot) ((hsteps.fixedParent u).trans hfixed)
    · obtain ⟨hsame, hkept₁⟩ := h.insert hkept hx
      dsimp only
      rw [hsame]
      exact ih h _ changed hkept₁ hrest hnewer hroot hfixed

theorem Mirrors.refit
    (h : Mirrors m c c')
    (hnewer : c.Has newer)
    (hroot : (c.candidate newer).root = u)
    (hfixed : (c.item u).fixedParent = some (above, r)) :
    Agrees (Mirrors m) (c.refit above r u newer) (c'.refit (m.item above) r (m.item u) newer) := by
  refine h.evolves (refit_evolves h.sound False.elim False.elim hnewer hroot hfixed) ?_
  have hpool := h.refitPool [] false (c.item above).pool (fun k hk => by cases hk)
    (h.closed.pool above) hnewer hroot hfixed
  unfold Chart.refit
  rw [h.pool]
  generalize Chart.refitPool r u newer c _ _ _ = result at hpool ⊢
  generalize Chart.refitPool r (m.item u) newer c' _ _ _ = result' at hpool ⊢
  obtain ⟨outcome, c₁, c₁', hrefitted⟩ := hpool
  cases outcome with
  | error e => exact ⟨_, _, _, hrefitted.toRelocates⟩
  | ok pair =>
    obtain ⟨kept, changed⟩ := pair
    cases changed with
    | false => exact ⟨_, _, _, hrefitted.toRelocates⟩
    | true => exact ⟨_, _, _, hrefitted.setPool kept⟩

end Refitting

end Chart

end BeamChart
