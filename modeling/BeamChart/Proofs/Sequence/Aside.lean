import BeamChart.Proofs.Chart.Growth
import BeamChart.Proofs.Chart.Wrapping

/-!
# What an offer leaves alone

Where no rule wraps and no marker stands, an offer changes the pool of the item that
it is made to, and no other item (`Plain.offer`). It has no effect at all on a chart
that is full (`resembles_offer`).
-/

namespace BeamChart

namespace Chart

variable {c c' c'' : Chart} {u v : ItemId} {x y : CandidateId} {rule : Rule SymbolId}
variable {connect : Connector}

/-- Only candidates, marks and counts are different. -/
structure Resembles (c c' : Chart) : Prop where
  grows : Extends c c'
  items : c'.items = c.items
  bySymbol : c'.bySymbol = c.bySymbol
  markers : c'.markers = c.markers
  depth : c'.depth = c.depth

namespace Resembles

theorem refl (c : Chart) :
    Resembles c c :=
  ⟨.refl c, rfl, rfl, rfl, rfl⟩

theorem trans
    (h : Resembles c c')
    (k : Resembles c' c'') :
    Resembles c c'' :=
  ⟨h.grows.trans k.grows, k.items.trans h.items, k.bySymbol.trans h.bySymbol,
    k.markers.trans h.markers, k.depth.trans h.depth⟩

theorem count (c : Chart) (f : Tally → Tally) :
    Resembles c (c.count f) :=
  ⟨.of_arenas rfl rfl rfl rfl, rfl, rfl, rfl, rfl⟩

theorem pushCandidate (c : Chart) (z : Candidate) :
    Resembles c (c.pushCandidate z) :=
  ⟨.pushCandidate c z, rfl, rfl, rfl, rfl⟩

theorem item
    (h : Resembles c c')
    (u : ItemId) :
    c'.item u = c.item u :=
  item_of_items_eq h.items u

end Resembles

/-- Nothing but the pool of an item, candidates and counts are different. -/
structure Aside (u : ItemId) (c c' : Chart) : Prop where
  grows : Extends c c'
  item : ∀ w, w ≠ u → c'.item w = c.item w
  registered : (c'.item u).registered = (c.item u).registered
  size : c'.items.size = c.items.size
  bySymbol : c'.bySymbol = c.bySymbol
  markers : c'.markers = c.markers
  depth : c'.depth = c.depth

namespace Aside

theorem trans
    (h : Aside u c c')
    (k : Aside u c' c'') :
    Aside u c c'' where
  grows := h.grows.trans k.grows
  item w hw := (k.item w hw).trans (h.item w hw)
  registered := k.registered.trans h.registered
  size := k.size.trans h.size
  bySymbol := k.bySymbol.trans h.bySymbol
  markers := k.markers.trans h.markers
  depth := k.depth.trans h.depth

end Aside

theorem Resembles.aside
    (h : Resembles c c')
    (u : ItemId) :
    Aside u c c' where
  grows := h.grows
  item _ _ := h.item _
  registered := congrArg Item.registered (h.item u)
  size := congrArg Array.size h.items
  bySymbol := h.bySymbol
  markers := h.markers
  depth := h.depth

theorem aside_setPool
    (c : Chart)
    (u : ItemId)
    (pool : List CandidateId) :
    Aside u c (c.setPool u pool) where
  grows := Extends.modifyItem c u _ (fun _ => rfl) rfl (fun h => h) (fun h => h) (fun _ h => h)
  item _ hw := item_modifyItem_of_ne _ hw.symm
  registered := field_modifyItem Item.registered rfl u
  size := size_items_modifyItem c u _
  bySymbol := rfl
  markers := rfl
  depth := rfl

section Attaching

theorem resembles_tryAttach
    (x y : CandidateId)
    (r : Relation)
    (make : Candidate → Candidate → Candidate) :
    Resembles c (c.tryAttach x y r make).2 := by
  cases trial c x y r make with
  | slotTaken _ heq | conflict _ _ heq =>
    simp only [heq]
    exact .count c _
  | exhausted _ _ _ heq =>
    simp only [heq]
    exact (Resembles.count c _).trans (.count _ _)
  | attached _ _ _ heq =>
    simp only [heq]
    exact (Resembles.pushCandidate c _).trans (.count _ _)

/-- Without a wrapper an attachment makes at most one candidate. -/
theorem resembles_attach
    (hstackable : rule.stackable = false)
    (x y : CandidateId) :
    Resembles c (c.attach x y rule).2 := by
  rcases attach_cases c x y rule with heq | ⟨hstacked, -⟩
  · rw [heq]
    exact resembles_tryAttach x y rule.relation _
  · rw [hstackable] at hstacked
    cases hstacked

/-- Lifting makes nothing but candidates. -/
theorem resembles_liftPool
    (u : ItemId)
    (r : Relation)
    (pool : List CandidateId) :
    Resembles c (liftPool u r c pool).2 := by
  induction pool generalizing c with
  | nil => exact .refl c
  | cons x rest ih =>
    unfold liftPool
    dsimp only
    split
    · exact ih
    · rcases store_cases c ((Candidate.seed u).attach r ⟨x, 0⟩ (c.candidate x)) with
        ⟨-, heq⟩ | heq <;> rw [heq] <;> dsimp only
      · exact (Resembles.pushCandidate c _).trans ih
      · exact Resembles.count c fun t => { t with refusals := t.refusals + 1 }

/-- If nothing is refused there was room for the first candidate. -/
theorem liftPool_ne_nil
    {u : ItemId}
    {r : Relation}
    {pool : List CandidateId}
    (hpool : pool ≠ [])
    (hcovers : ∀ x ∈ pool, (c.candidate x).isEmpty = false)
    (hrefusals : (liftPool u r c pool).2.tally.refusals = 0) :
    c.candidatesFull = false ∧ (liftPool u r c pool).1 ≠ [] := by
  cases pool with
  | nil => exact absurd rfl hpool
  | cons x rest =>
    unfold liftPool at hrefusals ⊢
    dsimp only at hrefusals ⊢
    rw [hcovers x List.mem_cons_self, if_neg Bool.false_ne_true] at hrefusals ⊢
    rcases store_cases c ((Candidate.seed u).attach r ⟨x, 0⟩ (c.candidate x)) with
      ⟨hroom, heq⟩ | heq <;> rw [heq] at hrefusals ⊢
    · exact ⟨hroom, List.cons_ne_nil _ _⟩
    · cases hrefusals

/-- Staging makes nothing but candidates. -/
theorem resembles_stage
    (hstackable : rule.stackable = false)
    (staged : List CandidateId)
    (pairs : List (CandidateId × CandidateId)) :
    Resembles c (c.stage rule staged pairs).2 := by
  induction pairs generalizing c staged with
  | nil => exact .refl c
  | cons e rest ih =>
    obtain ⟨x, y⟩ := e
    unfold stage
    split
    · exact .refl c
    · split
      · exact ih staged
      · have hfirst := resembles_attach (c := c) hstackable x y
        generalize c.attach x y rule = result at hfirst ⊢
        obtain ⟨outcome, c₁⟩ := result
        cases outcome with
        | attached id => exact hfirst.trans (ih _)
        | slotTaken => exact hfirst.trans (ih _)
        | conflict => exact hfirst.trans (ih _)
        | exhausted => exact hfirst

end Attaching

section Passing

/-- Without aggregates there is nothing to admit. -/
theorem resembles_passOn
    (connect : Connector)
    (pool : List CandidateId)
    (h : ∀ x, (c.candidate x).wrapper = none) :
    Resembles c (passOnWith connect none c pool) := by
  induction pool generalizing c with
  | nil => exact .refl c
  | cons x rest ih =>
    have hsettle : Resembles c (c.settle x) :=
      ⟨(Step.settle : Step True c (c.settle x)).grows, rfl, rfl, rfl, rfl⟩
    unfold passOnWith
    rw [h x]
    split
    · refine hsettle.trans (ih fun y => ?_)
      rw [settle, candidate_modifyCandidate]
      split
      · exact h x
      · exact h y
    · exact ih h

/-- Neither aggregates nor markers have been made. -/
structure Plain (c : Chart) : Prop where
  sound : Sound True c
  marked : Marked c
  single : ∀ w, (c.item w).isAggregate = false
  markers : c.markers = .empty

theorem Plain.wrapper_eq_none
    (h : Plain c)
    (x : CandidateId) :
    (c.candidate x).wrapper = none := by
  cases ha : (c.candidate x).wrapper with
  | none => rfl
  | some a =>
    have haggregate := h.marked.aggregate x a ha
    rw [h.single a] at haggregate
    cases haggregate

theorem Plain.evolve
    (h : Plain c)
    (hsteps : Evolves True c c')
    (haside : Aside u c c') :
    Plain c' where
  sound := hsteps.sound h.sound
  marked := hsteps.marked h.marked
  single w := by
    by_cases hlt : w.index < c.items.size
    · rw [hsteps.grows.isAggregate w hlt]
      exact h.single w
    · rw [item_of_size_le (haside.size ▸ Nat.le_of_not_lt hlt)]
  markers := haside.markers.trans h.markers

/-- What is passed on changes no item. -/
theorem Plain.resembles_cascade
    (h : Plain c)
    (htop : (c.item u).fixedParent = none) :
    Resembles c (cascadeWith connect c u) := by
  rw [cascadeWith_of_top connect htop]
  exact resembles_passOn connect _ h.wrapper_eq_none

/-- An offer that gives up nothing stages candidates, and keeps the best in the pool. -/
theorem Plain.offer
    {staged : List CandidateId}
    {c₂ : Chart}
    (h : Plain c)
    (connect : Connector)
    (hlicensed : c.Licensed u v rule.relation)
    (hstackable : rule.stackable = false)
    (htop : (c.item u).fixedParent = none)
    (hdetach : c.detachAll v (c.item u).pool = (.ok ((c.item u).pool, false), c))
    (hstage : c.stage rule [] ((c.item u).pool.flatMap fun x => (c.item v).pool.map (x, ·)) =
      (staged, c₂)) :
    Resembles c c₂ ∧ Extends c₂ (offerWith connect c u v rule).2 ∧
      Aside u c (offerWith connect c u v rule).2 ∧
        ((offerWith connect c u v rule).2.item u).pool =
          if staged.isEmpty then (c.item u).pool else c₂.beam (staged ++ (c.item u).pool) := by
  have hresembles : Resembles c c₂ := by
    have hall := resembles_stage (c := c) hstackable []
      ((c.item u).pool.flatMap fun x => (c.item v).pool.map (x, ·))
    rw [hstage] at hall
    exact hall
  have hoffer : offerWith connect c u v rule = if staged.isEmpty then (false, c₂) else
      (true, cascadeWith connect (c₂.setPool u (c₂.beam (staged ++ (c.item u).pool))) u) := by
    unfold offerWith
    rw [hdetach]
    dsimp only
    rw [hstage]
    rfl
  rw [hoffer]
  cases hstaged : staged.isEmpty with
  | true =>
    rw [if_pos rfl, if_pos rfl]
    exact ⟨hresembles, .refl c₂, hresembles.aside u, congrArg Item.pool (hresembles.item u)⟩
  | false =>
    rw [if_neg Bool.false_ne_true, if_neg Bool.false_ne_true]
    have hoffered := offered h.sound (fun _ => hlicensed) hdetach hstage
    have hpooled := aside_setPool c₂ u (c₂.beam (staged ++ (c.item u).pool))
    have hwritten : True → staged = [] → false = true := fun _ hnone => by
      rw [hnone] at hstaged
      cases hstaged
    have hplain := (h.evolve hoffered.attached (hresembles.aside u)).evolve
      (hoffered.pooled hwritten) hpooled
    have hlt : u.index < c₂.items.size := by
      rw [hresembles.items]
      exact lt_size_of_present hlicensed.parent
    have hitem : (c₂.setPool u (c₂.beam (staged ++ (c.item u).pool))).item u =
        { c.item u with pool := c₂.beam (staged ++ (c.item u).pool) } := by
      rw [setPool, item_modifyItem_self _ hlt, hresembles.item]
    have hcascade : Resembles _ (cascadeWith connect
        (c₂.setPool u (c₂.beam (staged ++ (c.item u).pool))) u) :=
      hplain.resembles_cascade (by rw [hitem]; exact htop)
    refine ⟨hresembles, hpooled.grows.trans hcascade.grows,
      ((hresembles.aside u).trans hpooled).trans (hcascade.aside u), ?_⟩
    dsimp only
    rw [hcascade.item, hitem]

/-- A place that is not taken covers nothing. -/
theorem has_of_covers
    (h : (c.candidate x).isEmpty = false) :
    c.Has x := by
  refine Nat.lt_of_not_le fun hle => ?_
  rw [candidate_of_size_le hle] at h
  cases h

/-- There are candidates in a pool, all of which cover something. -/
structure Stocked (c : Chart) (u : ItemId) : Prop where
  some : (c.item u).pool ≠ []
  covers : ∀ x ∈ (c.item u).pool, (c.candidate x).isEmpty = false

theorem Stocked.extend
    (h : c.Stocked u)
    (hc : Closed c)
    (hext : Extends c c')
    (hpool : (c'.item u).pool = (c.item u).pool) :
    c'.Stocked u where
  some := by
    rw [hpool]
    exact h.some
  covers x hx := by
    rw [hpool] at hx
    rw [Candidate.isEmpty, hext.coverage (hc.has_of_mem hx)]
    exact h.covers x hx

/-- An offer that gives up nothing leaves something in the pool. -/
theorem Stocked.offer
    (hstocked : c.Stocked u)
    (h : Plain c)
    (hlicensed : c.Licensed u v rule.relation)
    (hstackable : rule.stackable = false)
    (htop : (c.item u).fixedParent = none)
    (hdetach : c.detachAll v (c.item u).pool = (.ok ((c.item u).pool, false), c))
    (hwidth : 1 ≤ c.settings.beamWidth) :
    (offerWith connect c u v rule).2.Stocked u := by
  rcases hstage : c.stage rule [] ((c.item u).pool.flatMap fun x => (c.item v).pool.map (x, ·))
    with ⟨staged, c₂⟩
  obtain ⟨hresembles, hgrows, haside, hpool⟩ :=
    h.offer connect hlicensed hstackable htop hdetach hstage
  cases hstaged : staged.isEmpty with
  | true =>
    rw [hstaged, if_pos rfl] at hpool
    exact hstocked.extend h.sound.closed haside.grows hpool
  | false =>
    rw [hstaged, if_neg Bool.false_ne_true] at hpool
    have hold : ∀ x ∈ (c.item u).pool, x ∈ (staged ++ (c.item u).pool).filter
        fun x => !(c₂.candidate x).isEmpty := by
      intro x hx
      refine List.mem_filter.2 ⟨List.mem_append_right _ hx, ?_⟩
      rw [Candidate.isEmpty, hresembles.grows.coverage (h.sound.closed.has_of_mem hx),
        ← Candidate.isEmpty, hstocked.covers x hx]
      rfl
    constructor
    · obtain ⟨x, hx⟩ := List.exists_mem_of_ne_nil _ hstocked.some
      rw [← hresembles.grows.settings] at hwidth
      obtain ⟨y, hy, -⟩ := Pool.exists_le_ofList hwidth (hold x hx)
      rw [hpool]
      exact List.ne_nil_of_mem hy
    · intro x hx
      rw [hpool] at hx
      have hcovers : (c₂.candidate x).isEmpty = false := by
        simpa using (List.mem_filter.1 (Pool.mem_of_mem_ofList hx)).2
      rw [Candidate.isEmpty, hgrows.coverage (has_of_covers hcovers)]
      exact hcovers

end Passing

section Full

theorem Extends.room
    (h : Extends c c')
    (hroom : c'.candidatesFull = false) :
    c.candidatesFull = false := by
  have hle := h.candidates_le
  unfold candidatesFull at hroom ⊢
  rw [h.settings] at hroom
  rw [decide_eq_false_iff_not] at hroom ⊢
  omega

/-- In a full chart nothing is given up. -/
theorem detachAll_of_full
    (h : c.candidatesFull = true)
    (pool : List CandidateId) :
    c.detachAll v pool = (.ok (pool, false), c) ∨
      ∃ e, c.detachAll v pool = (.error e, c.refused) := by
  induction pool with
  | nil => exact Or.inl rfl
  | cons x rest ih =>
    cases detachment c x v with
    | kept _ hfirst =>
      rw [detachAll, hfirst]
      dsimp only
      rcases ih with heq | ⟨e, heq⟩ <;> rw [heq]
      · exact Or.inl rfl
      · exact Or.inr ⟨e, rfl⟩
    | exhausted _ _ hfirst =>
      rw [detachAll, hfirst]
      exact Or.inr ⟨_, rfl⟩
    | replaced _ hroom =>
      rw [h] at hroom
      cases hroom

/-- In a full chart an offer has no effect. -/
theorem resembles_offer
    (h : c.candidatesFull = true) :
    Resembles c (offerWith connect c u v rule).2 := by
  unfold offerWith
  rcases detachAll_of_full (v := v) h (c.item u).pool with heq | ⟨e, heq⟩ <;> rw [heq]
  · have hstage : ∀ pairs, c.stage rule [] pairs = ([], c) := by
      intro pairs
      cases pairs with
      | nil => rfl
      | cons e rest =>
        unfold stage
        rw [if_pos (by simp [h])]
    dsimp only
    rw [hstage]
    exact .refl c
  · exact Resembles.count c fun t => { t with refusals := t.refusals + 1 }

end Full

end Chart

end BeamChart
