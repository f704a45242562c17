import BeamChart.Proofs.Sequence.Digits
import BeamChart.Proofs.Sequence.Offer

/-!
# Digits that are chained

A positional chart chains each digit to the one before it, which is its tail. Every
item has one candidate, and that is the chain of all digits up to it.
-/

namespace BeamChart

namespace Chart

open Sequence

variable {c c' : Chart} {s : Settings} {t : Token} {p : Nat} {x : CandidateId}

/-- The chart between two digits, each of which holds all digits before it. -/
structure Tailed (s : Settings) (p : Nat) (c : Chart) : Prop where
  sound : Sound True c
  grammar : c.grammar = (digits .positional).built
  settings : c.settings = s
  digit : ∀ k, k < p → c.DigitAt ⟨k⟩ k
  pool : ∀ k, k < p → ∃ x, (c.item ⟨k⟩).pool = [x] ∧ c.Chain ItemId.mk k x (k + 1) 0
  tail : c.tail = if p = 0 then none else some ⟨p - 1⟩
  size : c.items.size = p
  depth : c.depth = 0

theorem tailed_new (s : Settings) :
    Tailed s 0 (new (digits .positional).built s) where
  sound := sound_new _ _ _
  grammar := rfl
  settings := rfl
  digit k hk := by omega
  pool k hk := by omega
  tail := rfl
  size := rfl
  depth := rfl

/-- What is chained is behind the tail, if nothing is refused. -/
theorem chain_digit
    {q : Nat}
    {y : CandidateId}
    (hu : c.DigitAt ⟨q + 1⟩ (q + 1))
    (hv : c.DigitAt ⟨q⟩ q)
    (hx : c.Bare ItemId.mk (q + 1) x)
    (hown : (c.item ⟨q + 1⟩).pool = [x])
    (hformer : (c.item ⟨q⟩).pool = [y])
    (hy : c.Chain ItemId.mk q y (q + 1) 0)
    (htail : c.tail = some ⟨q⟩)
    (hrefusals : (c.chain ⟨q + 1⟩).tally.refusals = 0) :
    Aside ⟨q + 1⟩ c (c.chain ⟨q + 1⟩) ∧
      ∃ id, ((c.chain ⟨q + 1⟩).item ⟨q + 1⟩).pool = [id] ∧
        (c.chain ⟨q + 1⟩).Chain ItemId.mk (q + 1) id (q + 2) 0 := by
  obtain ⟨owner, hcoverage⟩ := hx.coverage
  have hfree : (c.candidate x).slot .next = none := by
    rw [Candidate.slot, hx.slots]
    rfl
  have hapart : (c.candidate x).coverage.intersects (c.candidate y).coverage = false := by
    rw [hcoverage]
    exact Coverage.not_intersects_of_spans hy.spans (Nat.le_refl _)
  have hstop : (c.item ⟨q⟩).stop = q + 1 := by
    rw [Item.stop, hv.position, hv.extent]
  have hbehind : (c.tail.filter fun t => t ≠ ⟨q + 1⟩) = some ⟨q⟩ := by
    rw [htail]
    simp
  cases trial c x y .next (·.attach .next ⟨y, 0⟩ ·) with
  | slotTaken hslot =>
    rw [hfree] at hslot
    cases hslot
  | conflict _ hmeet =>
    rw [hapart] at hmeet
    cases hmeet
  | exhausted _ _ _ htry =>
    simp only [chain, hbehind, hu.position, hstop, Nat.lt_irrefl, if_false, hformer, hown, htry]
      at hrefusals
    cases hrefusals
  | attached _ _ _ htry =>
    simp only [chain, hbehind, hu.position, hstop, Nat.lt_irrefl, if_false, hformer, hown, htry]
    generalize hmade : (c.candidate x).attach .next ⟨y, 0⟩ (c.candidate y) = made
    generalize hd : (c.pushCandidate made).count _ = d
    have hresembles : Resembles c d := by
      rw [← hd]
      exact (Resembles.pushCandidate c made).trans (.count _ _)
    have hpooled := aside_setPool d ⟨q + 1⟩ [c.nextCandidate]
    have haside := (hresembles.aside ⟨q + 1⟩).trans hpooled
    have hid : d.Has c.nextCandidate := hd ▸ has_nextCandidate c made
    have hstored : (d.setPool ⟨q + 1⟩ [c.nextCandidate]).candidate c.nextCandidate =
        { (c.candidate x).attach .next ⟨y, 0⟩ (c.candidate y) with pending := false } := by
      rw [← hd]
      exact (candidate_nextCandidate c made).trans hmade.symm
    have hbehind := hx.behind false hy.has haside.grows (Nat.lt_irrefl _) (hpooled.grows.has hid)
      hstored
    have hlt : (⟨q + 1⟩ : ItemId).index < d.items.size := by
      rw [hresembles.items]
      exact lt_size_of_present hu.present
    refine ⟨haside, c.nextCandidate, ?_, hbehind.chain q (q + 1) 0 (Nat.lt_succ_self q) hy⟩
    rw [setPool, item_modifyItem_self _ hlt]

/-- The chart before a new digit is chained. -/
structure Untied (s : Settings) (p : Nat) (x : CandidateId) (c : Chart) : Prop where
  sound : Sound True c
  grammar : c.grammar = (digits .positional).built
  settings : c.settings = s
  digit : ∀ k, k < p + 1 → c.DigitAt ⟨k⟩ k
  pool : ∀ k, k < p → ∃ x, (c.item ⟨k⟩).pool = [x] ∧ c.Chain ItemId.mk k x (k + 1) 0
  bare : c.Bare ItemId.mk p x
  own : (c.item ⟨p⟩).pool = [x]
  fresh : (c.item ⟨p⟩).registered = false
  tail : c.tail = if p = 0 then none else some ⟨p - 1⟩
  size : c.items.size = p + 1
  depth : c.depth = 1

theorem Tailed.untied
    (h : Tailed s p c)
    (harrives : Arrives c c' p x) :
    Untied s p x c'.enter := by
  have hnext : c.nextItem = ⟨p⟩ := by
    rw [nextItem, h.size]
  have henter : Evolves True c' c'.enter := .single (.note _ _ rfl rfl rfl (Nat.le_refl _))
  have hsteps : Evolves True c c'.enter := harrives.evolves.trans henter
  obtain ⟨token, hitem⟩ := harrives.item
  rw [hnext] at hitem
  refine
    { sound := hsteps.sound h.sound
      grammar := hsteps.grows.grammar.trans h.grammar
      settings := hsteps.grows.settings.trans h.settings
      digit := fun k hk => ?_
      pool := fun k hk => ?_
      bare := ⟨harrives.has, harrives.root.trans hnext, harrives.slots, harrives.weight,
        x, harrives.coverage⟩
      own := congrArg Item.pool hitem
      fresh := congrArg Item.registered hitem
      tail := harrives.tail.trans h.tail
      size := harrives.size.trans (by rw [h.size])
      depth := by rw [enter, harrives.depth, h.depth] }
  · rcases Nat.lt_or_eq_of_le (Nat.le_of_lt_succ hk) with hlt | rfl
    · exact (h.digit k hlt).evolve hsteps
    · exact hnext ▸ harrives.digitAt.evolve henter
  · obtain ⟨y, hpool, hchain⟩ := h.pool k hk
    have hold : c'.enter.item ⟨k⟩ = c.item ⟨k⟩ := harrives.old ⟨k⟩ fun heq => by
      rw [hnext] at heq
      cases heq
      exact Nat.lt_irrefl _ hk
    exact ⟨y, by rw [hold]; exact hpool, hchain.extend hsteps.grows⟩

/-- The candidate of a new digit becomes the chain of all digits. -/
theorem Untied.chained
    (h : Untied s p x c)
    (hrefusals : (c.chain ⟨p⟩).tally.refusals = 0) :
    Aside ⟨p⟩ c (c.chain ⟨p⟩) ∧
      ∃ id, ((c.chain ⟨p⟩).item ⟨p⟩).pool = [id] ∧
        (c.chain ⟨p⟩).Chain ItemId.mk p id (p + 1) 0 := by
  cases p with
  | zero =>
    have hchain : c.chain ⟨0⟩ = c := by
      unfold chain
      rw [h.tail]
      rfl
    rw [hchain]
    exact ⟨(Resembles.refl c).aside _, x, h.own, h.bare.chain⟩
  | succ q =>
    obtain ⟨y, hpool, hchain⟩ := h.pool q (Nat.lt_succ_self q)
    exact chain_digit (h.digit _ (by omega)) (h.digit q (by omega)) h.bare h.own hpool hchain h.tail
      hrefusals

/-- Posting a digit that has been chained makes it the tail. -/
theorem Untied.tailed
    (h : Untied s p x c)
    (hrefusals : (c.chain ⟨p⟩).tally.refusals = 0) :
    Tailed s (p + 1) ((c.chain ⟨p⟩).leave.register ⟨p⟩) := by
  obtain ⟨haside, id, hid, hchain⟩ := h.chained hrefusals
  have hown := h.digit p (Nat.lt_succ_self p)
  have hchained : Evolves True c (c.chain ⟨p⟩) := chain_evolves h.sound (by rw [h.grammar]; rfl) ⟨p⟩
  have hleave : Evolves True (c.chain ⟨p⟩) (c.chain ⟨p⟩).leave :=
    .single (.note _ _ rfl rfl rfl (Nat.le_refl _))
  have hlists : Lists .positional (c.chain ⟨p⟩).leave ((c.chain ⟨p⟩).leave.register ⟨p⟩) ⟨p⟩ :=
    register_digit (hchained.grows.grammar.trans h.grammar)
      (by rw [show (c.chain ⟨p⟩).leave.items.size = c.items.size from haside.size, h.size]
          exact Nat.lt_succ_self p)
      (hown.evolve hchained).symbol (haside.registered.trans h.fresh)
  have hpresent : ((c.chain ⟨p⟩).leave.item ⟨p⟩).present = true := (hown.evolve hchained).present
  have hposted : Evolves True (c.chain ⟨p⟩) ((c.chain ⟨p⟩).leave.register ⟨p⟩) :=
    hleave.trans (.single .register)
  have hsteps := hchained.trans hposted
  have hdepth : (c.chain ⟨p⟩).leave.depth = 0 := by rw [leave, haside.depth, h.depth]
  refine
    { sound := hsteps.sound h.sound
      grammar := hsteps.grows.grammar.trans h.grammar
      settings := hsteps.grows.settings.trans h.settings
      digit := fun k hk => (h.digit k hk).evolve hsteps
      pool := fun k hk => ?_
      tail := ?_
      size := (hlists.size.trans haside.size).trans h.size
      depth := hlists.depth.trans hdepth }
  · rcases Nat.lt_or_eq_of_le (Nat.le_of_lt_succ hk) with hlt | rfl
    · obtain ⟨y, hpool, hlong⟩ := h.pool k hlt
      have hne : (⟨k⟩ : ItemId) ≠ ⟨p⟩ := fun heq => by
        cases heq
        exact Nat.lt_irrefl _ hlt
      refine ⟨y, ?_, hlong.extend hsteps.grows⟩
      rw [hlists.old _ hne]
      exact (congrArg Item.pool (haside.item _ hne)).trans hpool
    · refine ⟨id, ?_, hchain.extend hposted.grows⟩
      rw [hlists.own]
      exact hid
  · rw [hlists.tail, if_pos ⟨hpresent, rfl⟩, if_neg (Nat.succ_ne_zero p)]
    rfl

/-- The next digit is chained, if nothing is refused. -/
theorem Tailed.feed
    {n : Nat}
    (h : Tailed s p c)
    (hs : Ample s n)
    (hp : p < n)
    (ht : IsDigit t p)
    (hrefusals : (c.feed t).2.tally.refusals = 0) :
    (∃ u, (c.feed t).1 = .ok u) ∧ Tailed s (p + 1) (c.feed t).2 := by
  obtain ⟨x, c₁, room, harrives, hfeed, hzero⟩ :=
    feed_arrives h.sound h.grammar h.settings h.depth hs hp ht hrefusals
  have hnext : c.nextItem = ⟨p⟩ := by
    rw [nextItem, h.size]
  have huntied := h.untied harrives
  have hbody : connectBody (connectWithin room) c₁.enter ⟨p⟩ digitSymbol =
      c₁.enter.chain ⟨p⟩ := by
    unfold connectBody
    rw [huntied.grammar, kind_digits, if_pos rfl]
  rw [hnext, hbody] at hzero
  rw [hfeed, hnext, hbody]
  exact ⟨⟨_, rfl⟩, huntied.tailed hzero⟩

end Chart

end BeamChart
