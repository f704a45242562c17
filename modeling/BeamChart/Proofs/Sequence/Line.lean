import BeamChart.Proofs.Sequence.Digits
import BeamChart.Proofs.Sequence.Gather

/-!
# Digits that seek each other

Each digit of an operational chart makes two items: the one that was seen, and a
placeholder for the digit that would take it. The next digits find the placeholders,
oldest first, and are offered what these hold. `Line` says what the chart looks like
after a number of digits, `Line.feed` that the next one keeps it so.
-/

namespace BeamChart

namespace Chart

open Sequence

variable {c c' : Chart} {s : Settings} {p k : Nat} {leaf : CandidateId} {connect : Connector}

/-- The item of the digit at a position. -/
def place (k : Nat) : ItemId := ⟨2 * k⟩

/-- The placeholder for the digit that would take the one at a position. -/
def missing (k : Nat) : ItemId := ⟨2 * k + 1⟩

theorem place_injective
    {i j : Nat}
    (h : place i = place j) :
    i = j := by
  simp only [place, ItemId.mk.injEq] at h
  omega

theorem place_ne
    {i j : Nat}
    (h : i ≠ j) :
    place i ≠ place j :=
  fun heq => h (place_injective heq)

theorem missing_ne_place (i j : Nat) :
    missing i ≠ place j := by
  simp only [missing, place, ne_eq, ItemId.mk.injEq]
  omega

theorem eq_place_or_missing
    {u : ItemId}
    {n : Nat}
    (h : u.index < 2 * n) :
    ∃ k < n, u = place k ∨ u = missing k := by
  obtain ⟨i⟩ := u
  refine ⟨i / 2, by simp only at h; omega, ?_⟩
  simp only [place, missing, ItemId.mk.injEq]
  omega

/-- An item stands for a digit that would take the one at a position. -/
structure AwaitedAt (c : Chart) (k : Nat) : Prop where
  absent : (c.item (missing k)).present = false
  symbol : (c.item (missing k)).symbol = some 1
  first : ∃ x rest, (c.item (missing k)).pool = x :: rest
  held : ∀ x ∈ (c.item (missing k)).pool, ∃ y, c.Has y ∧ (c.candidate y).root = place k ∧
    (c.candidate x).slots = Slots.empty.set .next (some ⟨y, 0⟩)

theorem AwaitedAt.keep
    (h : c.AwaitedAt k)
    (hc : Closed c)
    (hext : Extends c c')
    (hitem : c'.item (missing k) = c.item (missing k)) :
    c'.AwaitedAt k := by
  refine ⟨by rw [hitem]; exact h.absent, by rw [hitem]; exact h.symbol,
    by rw [hitem]; exact h.first, fun x hx => ?_⟩
  rw [hitem] at hx
  obtain ⟨y, hy, hroot, hslots⟩ := h.held x hx
  exact ⟨y, hext.has hy, (hext.root hy).trans hroot,
    (hext.congruent (hc.has_of_mem hx)).2.2.2.1.trans hslots⟩

/-- What is posted for the first digits. -/
def posts (p : Nat) : List ItemId :=
  (List.range p).flatMap fun k => [missing k, place k]

theorem posts_succ (p : Nat) :
    posts (p + 1) = posts p ++ [missing p, place p] := by
  simp [posts, List.range_succ]

/-- The first digits of a line, whatever else has been made, and what is posted. -/
structure Row (s : Settings) (p : Nat) (entries : List ItemId) (c : Chart) : Prop where
  plain : Plain c
  grammar : c.grammar = (digits .operational).built
  settings : c.settings = s
  digit : ∀ k, k < p → c.DigitAt (place k) k
  awaited : ∀ k, k < p → c.AwaitedAt k
  filled : ∀ k, k < p → c.Filled place s.maxGap k
  ordered : c.bySymbol.Ordered
  posted : c.bySymbol.under 1 = entries

theorem Row.keep
    {entries listed : List ItemId}
    (h : Row s p entries c)
    (hsteps : Evolves True c c')
    (hplain : Plain c')
    (hitem : ∀ w : ItemId, w.index < 2 * p → c'.item w = c.item w)
    (hordered : c'.bySymbol.Ordered)
    (hposted : c'.bySymbol.under 1 = listed) :
    Row s p listed c' where
  plain := hplain
  grammar := hsteps.grows.grammar.trans h.grammar
  settings := hsteps.grows.settings.trans h.settings
  digit k hk := (h.digit k hk).evolve hsteps
  awaited k hk := (h.awaited k hk).keep h.plain.sound.closed hsteps.grows
    (hitem _ (by simp only [missing]; omega))
  filled k hk := (h.filled k hk).extend hsteps.grows
    (congrArg Item.pool (hitem _ (by simp only [place]; omega)))
  ordered := hordered
  posted := hposted

/-- Other items than the next two leave a row alone. -/
theorem Row.keep_of_bySymbol
    {entries : List ItemId}
    (h : Row s p entries c)
    (hsteps : Evolves True c c')
    (hplain : Plain c')
    (hitem : ∀ w : ItemId, w.index < 2 * p → c'.item w = c.item w)
    (hposts : c'.bySymbol = c.bySymbol) :
    Row s p entries c' :=
  h.keep hsteps hplain hitem (by rw [hposts]; exact h.ordered) (by rw [hposts]; exact h.posted)

theorem Row.itemsOf
    {entries : List ItemId}
    (h : Row s p entries c) :
    c.itemsOf 1 = entries := by
  rw [Chart.itemsOf, h.grammar, bucketOf_digits]
  exact h.posted

section Fulfilling

/-- A digit of earlier positions stands where the rule wants it if it is near enough. -/
theorem placed_digit
    {u v : ItemId}
    (hu : c.DigitAt u p)
    (hv : c.DigitAt v k)
    (hk : k < p) :
    c.placed u v digitRule = decide (p ≤ k + 1 + c.settings.maxGap) := by
  rw [Bool.eq_iff_iff]
  simp [placed, digitRule, Item.stop, hu.position, hv.position, hv.extent]
  omega

/-- What is held by the placeholder for a digit is offered, if it is near enough. -/
theorem takeOver_digit
    (hgrammar : c.grammar = (digits .operational).built)
    (hu : c.DigitAt (place p) p)
    (hv : c.DigitAt (place k) k)
    (hawaited : c.AwaitedAt k)
    (hk : k < p) :
    takeOverWith connect c (place p) (missing k) 1 =
      if p ≤ k + 1 + c.settings.maxGap then
        (offerWith connect c (place p) (place k) digitRule).2
      else c := by
  obtain ⟨x, rest, hpool⟩ := hawaited.first
  obtain ⟨y, -, hroot, hslots⟩ := hawaited.held x (by rw [hpool]; exact List.mem_cons_self)
  have hfilled : (c.candidate x).slots.filled = [(.next, ⟨y, 0⟩)] := by
    rw [hslots]
    rfl
  unfold takeOverWith
  rw [hpool, List.head?_cons]
  dsimp only
  rw [hfilled, List.foldl_cons, List.foldl_nil]
  dsimp only
  rw [hroot, if_neg (place_ne (by omega)), hv.symbol]
  dsimp only
  rw [hgrammar, ruleFor?_digits]
  dsimp only
  rw [placed_digit hu hv hk]
  simp only [decide_eq_true_eq]

/-- One round of taking over. -/
def round (connect : Connector) (u : ItemId) (c : Chart) (w : ItemId) : Chart :=
  if w ≠ u && c.awaits w 1 then takeOverWith connect c u w 1 else c

theorem fulfil_digit
    (h : Row s p (posts p) c)
    (u : ItemId) :
    fulfilWith connect c u 1 = (posts p).foldl (round connect u) c := by
  rw [fulfilWith, h.grammar, ancestry_digits, List.foldl_cons, List.foldl_nil, h.itemsOf]
  rfl

theorem round_evolves
    (hconnect : connect.Stepwise True)
    (hc : Sound True c)
    (hgrammar : c.grammar = (digits .operational).built)
    {u : ItemId}
    (hu : c.DigitAt u p)
    (w : ItemId) :
    Evolves True c (round connect u c w) := by
  unfold round
  split
  · refine takeOverWith_evolves hconnect hc w fun _ => ⟨?_, hu.present, 1, hu.symbol, Or.inl rfl⟩
    rw [hgrammar, kind_digits]
    exact GrammarKind.noConfusion
  · exact .refl c

/-- What has become of a digit that was offered what stands at the first places. -/
structure Offering (s : Settings) (p k : Nat) (leaf : CandidateId) (c c' : Chart) : Prop where
  aside : Aside (place p) c c'
  plain : Plain c'
  stocked : c'.Stocked (place p)
  gathers : c'.candidatesFull = false → c'.Gathers place s.maxGap p k leaf

theorem Offering.row
    (h : Offering s p k leaf c c')
    (hrow : Row s p (posts p) c)
    (hsteps : Evolves True c c') :
    Row s p (posts p) c' :=
  hrow.keep_of_bySymbol hsteps h.plain
    (fun w hw => h.aside.item w fun heq => by
      rw [heq, place] at hw
      exact Nat.lt_irrefl _ hw)
    h.aside.bySymbol

/-- The grammar lets a digit take an earlier one that is near enough. -/
theorem licensed_digit
    (hgrammar : c.grammar = (digits .operational).built)
    (hu : c.DigitAt (place p) p)
    (hv : c.DigitAt (place k) k)
    (hk : k < p)
    (hnear : p ≤ k + 1 + c.settings.maxGap) :
    c.Licensed (place p) (place k) digitRule.relation := by
  have hfollows : c.Follows (place p) 1 := by
    refine ⟨?_, hu.present, 1, hu.symbol, Or.inl rfl⟩
    rw [hgrammar, kind_digits]
    exact GrammarKind.noConfusion
  refine hfollows.licensed (r := .next) hv.present hv.symbol ?_ ?_
  · rw [hgrammar]
    exact ruleFor?_digits _
  · rw [placed_digit hu hv hk]
    exact decide_eq_true hnear

/-- A digit takes what stands at an earlier place that is near enough. -/
theorem Offering.take
    (h : Offering s p k leaf c c')
    (hconnect : connect.Stepwise True)
    (hrow : Row s p (posts p) c')
    (hu : c'.DigitAt (place p) p)
    (hwidth : 1 ≤ s.beamWidth)
    (hp : p + 1 ≤ Weight.highest)
    (hk : k < p)
    (hnear : p ≤ k + 1 + s.maxGap) :
    Offering s p (k + 1) leaf c (offerWith connect c' (place p) (place k) digitRule).2 := by
  have hclosed := hrow.plain.sound.closed
  rw [← hrow.settings] at hwidth hnear
  have hlicensed := licensed_digit hrow.grammar hu (hrow.digit k hk) hk hnear
  have hsteps := offerWith_evolves hconnect hrow.plain.sound fun _ => hlicensed
  by_cases hfull : c'.candidatesFull = true
  · have hkept : Resembles c' (offerWith connect c' (place p) (place k) digitRule).2 :=
      resembles_offer hfull
    have haside := hkept.aside (place p)
    refine ⟨h.aside.trans haside, h.plain.evolve hsteps haside, ?_, fun hroom => ?_⟩
    · exact h.stocked.extend hclosed haside.grows
        (congrArg Item.pool (hkept.item (place p)))
    · rw [haside.grows.room hroom] at hfull
      cases hfull
  · have hgathers := h.gathers (eq_false_of_ne_true hfull)
    have hfilled := hrow.filled k hk
    have hmeets := hgathers.meets hfilled hclosed (fun j hj => place_ne hj) hk
    have hdetach := detachAll_of_not_holds _ hmeets.free
    obtain ⟨-, -, haside, -⟩ := h.plain.offer connect hlicensed rfl hu.top hdetach rfl
    refine ⟨h.aside.trans haside, h.plain.evolve hsteps haside,
      h.stocked.offer h.plain hlicensed rfl hu.top hdetach hwidth, fun hroom => ?_⟩
    have hlength : (c'.item (place k)).pool.length ≤ c'.settings.beamWidth := by
      rw [hfilled.length]
      exact Nat.min_le_left _ _
    have htaken := h.plain.taken hmeets hlicensed rfl rfl hu.top (hfilled.ne_nil hwidth) hlength
      hroom
    rw [hrow.settings] at hnear
    exact hgathers.take hmeets hfilled (fun j hj => place_ne (Nat.ne_of_lt hj)) hwidth hp hk hnear
      htaken

/-- A digit is offered what stands at the first places, one after the other. -/
theorem offering_posts
    (hconnect : connect.Stepwise True)
    (hrow : Row s p (posts p) c)
    (hu : c.DigitAt (place p) p)
    (hstocked : c.Stocked (place p))
    (hleaf : c.Gathers place s.maxGap p 0 leaf)
    (hwidth : 1 ≤ s.beamWidth)
    (hp : p + 1 ≤ Weight.highest)
    (hk : k ≤ p) :
    Evolves True c ((posts k).foldl (round connect (place p)) c) ∧
      Offering s p k leaf c ((posts k).foldl (round connect (place p)) c) := by
  induction k with
  | zero => exact ⟨.refl c, (Resembles.refl c).aside _, hrow.plain, hstocked, fun _ => hleaf⟩
  | succ k ih =>
    obtain ⟨hsteps, hoffering⟩ := ih (by omega)
    rw [posts_succ, List.foldl_append]
    generalize (posts k).foldl (round connect (place p)) c = c₁ at hsteps hoffering ⊢
    rw [List.foldl_cons, List.foldl_cons, List.foldl_nil]
    have hrow₁ := hoffering.row hrow hsteps
    have hu₁ := hu.evolve hsteps
    have hfirst := round_evolves hconnect hrow₁.plain.sound hrow₁.grammar hu₁ (missing k)
    have hseen := (hrow₁.digit k hk).evolve hfirst
    have hlast : round connect (place p) (round connect (place p) c₁ (missing k)) (place k) =
        round connect (place p) c₁ (missing k) := by
      generalize round connect (place p) c₁ (missing k) = c₂ at hseen
      simp [round, awaits, hseen.present]
    have hround : round connect (place p) c₁ (missing k) =
        takeOverWith connect c₁ (place p) (missing k) 1 := by
      have hawaited := hrow₁.awaited k hk
      simp [round, awaits, hawaited.absent, hawaited.symbol, missing_ne_place]
    rw [hlast]
    refine ⟨hsteps.trans hfirst, ?_⟩
    rw [hround, takeOver_digit hrow₁.grammar hu₁ (hrow₁.digit k hk) (hrow₁.awaited k hk) hk,
      hrow₁.settings]
    split
    · rename_i hnear
      exact hoffering.take hconnect hrow₁ hu₁ hwidth hp hk hnear
    · exact ⟨hoffering.aside, hoffering.plain, hoffering.stocked, fun hroom =>
        (hoffering.gathers hroom).skip (by omega)⟩

end Fulfilling

section Predicting

/-- No digit takes one behind it. -/
theorem try_digit
    (hrow : Row s p (posts p) c)
    (hu : c.DigitAt (place p) p)
    {w : ItemId}
    (hw : w ∈ posts p) :
    tryParentWith connect c (place p) w 1 .next = (false, c) := by
  obtain ⟨k, hk, hmem⟩ := List.mem_flatMap.1 hw
  rw [List.mem_range] at hk
  unfold tryParentWith
  dsimp only
  rcases List.mem_cons.1 hmem with rfl | hlast
  · rw [if_pos (by rw [(hrow.awaited k hk).absent]; simp)]
  · rw [List.mem_singleton.1 hlast]
    have hv := hrow.digit k hk
    have hplaced : c.placed (place k) (place p) digitRule = false := by
      simp [placed, digitRule, hu.position, hv.position]
      omega
    rw [if_neg (by rw [hv.present]; simp [place_ne (Nat.ne_of_lt hk)]), hv.symbol]
    dsimp only
    rw [hrow.grammar, ruleFor?_digits]
    dsimp only
    rw [hplaced]
    rfl

/-- No digit in the line takes a new one, so the digit that would take it is predicted. -/
theorem seekParents_digit
    (hrow : Row s p (posts p) c)
    (hu : c.DigitAt (place p) p) :
    seekParentsWith connect c (place p) 1 = predictWith connect c (place p) 1 digitRule := by
  have hrules : c.parentRules 1 = [digitRule.seenFromChild 1] := by
    rw [parentRules, hrow.grammar]
    rfl
  have hrelation : (digitRule.seenFromChild 1).relation = .next := rfl
  have htarget : (digitRule.seenFromChild 1).target = 1 := rfl
  have hrule : (digits .operational).built.ruleFor? (digitRule.seenFromChild 1).target
      (digitRule.seenFromChild 1).relation 1 = some digitRule := ruleFor?_digits _
  have htried : ∀ (entries : List ItemId), entries ⊆ posts p →
      entries.foldl (fun (acc : Bool × Chart) w =>
        (acc.1 || (tryParentWith connect acc.2 (place p) w 1 .next).1,
          (tryParentWith connect acc.2 (place p) w 1 .next).2)) (false, c) = (false, c) := by
    intro entries hentries
    induction entries with
    | nil => rfl
    | cons w rest ih =>
      rw [List.foldl_cons, try_digit hrow hu (hentries List.mem_cons_self)]
      exact ih (List.subset_of_cons_subset hentries)
  rw [seekParentsWith, hrow.grammar, ancestry_digits, List.reverse_singleton, List.foldl_cons,
    List.foldl_nil, hrules, List.foldl_cons, List.foldl_nil, seekParentWith, hu.symbol,
    hrow.grammar]
  dsimp only
  rw [hrule, htarget, hrelation]
  dsimp only
  rw [hrow.itemsOf, htried (posts p) (List.Subset.refl _)]

/-- A placeholder has been made for the digit that would take the new one. -/
structure Foreseen (c c' : Chart) (p : Nat) : Prop where
  evolves : Evolves True c c'
  item : ∀ w, w ≠ missing p → c'.item w = c.item w
  awaited : c'.AwaitedAt p
  single : (c'.item (missing p)).isAggregate = false
  size : c'.items.size = c.items.size + 1
  bySymbol : c'.bySymbol = c.bySymbol.add 1 (missing p)
  markers : c'.markers = c.markers
  depth : c'.depth = c.depth

/-- A placeholder has got its place. -/
structure Placed (c c' : Chart) (p : Nat) : Prop where
  evolves : Evolves True c c'
  item : ∀ w, w ≠ missing p → c'.item w = c.item w
  fresh : (c'.item (missing p)).Fresh
  symbol : (c'.item (missing p)).symbol = some 1
  size : c'.items.size = c.items.size + 1
  candidates : c'.candidates = c.candidates
  bySymbol : c'.bySymbol = c.bySymbol
  markers : c'.markers = c.markers
  depth : c'.depth = c.depth

theorem placed_predicted
    (hc : Sound True c)
    (hsize : c.items.size = 2 * p + 1)
    (hroom : c.plainItems < c.settings.itemCapacity) :
    Placed c (c.predicted (place p) 1) p := by
  have hnext : c.nextItem = missing p := by
    rw [nextItem, hsize, missing]
  obtain ⟨hready, -, hfresh, hsymbol, -, -⟩ := predicted_spec True hc hroom (place p) 1
  rw [hnext] at hfresh hsymbol
  refine ⟨hready, fun w hw => ?_, hfresh, hsymbol, ?_, rfl, rfl, rfl, rfl⟩
  · rw [← hnext] at hw
    rw [predicted, item_modifyItem_of_ne _ hw.symm, item_count, item_pushItem, if_neg hw]
  · rw [predicted, size_items_modifyItem]
    exact Array.size_push _

/-- If nothing is refused, there was room for what a placeholder is to hold. -/
theorem Placed.foreseen
    {part : List CandidateId}
    (h : Placed c c' p)
    (hrow : Row s p (posts p) c)
    (hsize : c.items.size = 2 * p + 1)
    (hsome : part ≠ [])
    (hcovers : ∀ x ∈ part, (c.candidate x).isEmpty = false)
    (hrooted : c.RootedAt (place p) part)
    (hevolves : Evolves True c
      (((liftPool (missing p) .next c' part).2.setPool (missing p)
        (liftPool (missing p) .next c' part).1).register (missing p)))
    (hrefusals : (((liftPool (missing p) .next c' part).2.setPool (missing p)
        (liftPool (missing p) .next c' part).1).register (missing p)).tally.refusals = 0) :
    c.candidatesFull = false ∧
      Foreseen c (((liftPool (missing p) .next c' part).2.setPool (missing p)
        (liftPool (missing p) .next c' part).1).register (missing p)) p := by
  have hlt : (missing p).index < c'.items.size := by
    rw [h.size, hsize, missing]
    exact Nat.lt_succ_self _
  have hcandidate : ∀ x, c'.candidate x = c.candidate x := fun x => by
    rw [candidate, candidate, h.candidates]
  have hlift := resembles_liftPool (c := c') (missing p) .next part
  obtain ⟨-, xs, hsub, hlifts⟩ := liftPool_spec (r := .next) False (u := missing p)
    (v := place p) part hlt (h.evolves.grows.rootedAt hrooted) (fun hs => hs.elim)
  have hroomy := liftPool_ne_nil (c := c') (u := missing p) (r := .next) hsome
    fun x hx => by rw [hcandidate]; exact hcovers x hx
  generalize liftPool (missing p) .next c' part = result at *
  obtain ⟨ids, c₂⟩ := result
  dsimp only at *
  have haside := aside_setPool c₂ (missing p) ids
  have hpooled : (c₂.setPool (missing p) ids).item (missing p) =
      { c'.item (missing p) with pool := ids } := by
    rw [setPool, item_modifyItem_self _ (by rw [hlift.items]; exact hlt), hlift.item]
  have hlists := register_digit (c := c₂.setPool (missing p) ids)
    (u := missing p) ((hlift.grows.grammar.trans h.evolves.grows.grammar).trans hrow.grammar)
    (by rw [haside.size, hlift.items]; exact hlt) (by rw [hpooled]; exact h.symbol)
    (by rw [hpooled]; exact h.fresh.2.2.2.1)
  rw [hlists.tally] at hrefusals
  obtain ⟨hroom, hne⟩ := hroomy hrefusals
  have hown := hlists.own
  rw [hpooled] at hown
  refine ⟨?_, hevolves, fun w hw => ?_, ?_, ?_, ?_, ?_, ?_, ?_⟩
  · exact h.evolves.grows.room hroom
  · rw [hlists.old w hw, haside.item w hw, hlift.item, h.item w hw]
  · refine ⟨by rw [hown]; exact h.fresh.2.1, by rw [hown]; exact h.symbol, ?_, fun x hx => ?_⟩
    · rw [hown]
      exact List.exists_cons_of_ne_nil hne
    · rw [hown] at hx
      obtain ⟨y, hy, hlifted⟩ := exists_of_mem_forall₂ hlifts hx
      have hold := hrooted y (hsub.mem hy)
      have hgrows := haside.grows.trans (Extends.register _ (missing p))
      have hall := (h.evolves.grows.trans hlift.grows).trans hgrows
      exact ⟨y, hall.has hold.1, (hall.root hold.1).trans hold.2,
        (hgrows.congruent hlifted.has).2.2.2.1.trans hlifted.slots⟩
  · rw [hown]
    exact h.fresh.2.2.1
  · rw [hlists.size, haside.size, hlift.items, h.size]
  · rw [hlists.bySymbol, haside.bySymbol, hlift.bySymbol, h.bySymbol]
  · rw [hlists.markers, haside.markers, hlift.markers, h.markers]
  · rw [hlists.depth, haside.depth, hlift.depth, h.depth]

/-- If nothing is refused, there was room, and the new digit is awaited. -/
theorem predict_digit
    (hconnect : connect.Stepwise True)
    (hrow : Row s p (posts p) c)
    (hu : c.DigitAt (place p) p)
    (hstocked : c.Stocked (place p))
    (hsize : c.items.size = 2 * p + 1)
    (hwidth : 1 ≤ s.beamWidth)
    (hrefusals : (predictWith connect c (place p) 1 digitRule).tally.refusals = 0) :
    c.candidatesFull = false ∧ Foreseen c (predictWith connect c (place p) 1 digitRule) p := by
  have hnext : c.nextItem = missing p := by
    rw [nextItem, hsize, missing]
  have hpredicts : c.Predicts (place p) 1 digitRule := by
    refine ⟨?_, hu.present, 1, 1, digitRule.seenFromChild 1, hu.symbol, Or.inl rfl, ?_, rfl, ?_⟩
    · rw [hrow.grammar, kind_digits]
      exact GrammarKind.noConfusion
    · rw [parentRules, hrow.grammar]
      exact List.mem_singleton_self _
    · rw [hrow.grammar]
      exact ruleFor?_digits _
  have hevolves := predictWith_evolves hconnect hrow.plain.sound fun _ => hpredicts
  rcases allocateItem_cases c with ⟨hroom, heq⟩ | heq
  · rw [predictWith_eq connect heq, if_neg (by exact Bool.false_ne_true), hnext]
      at hrefusals hevolves ⊢
    have hplaced := placed_predicted hrow.plain.sound hsize hroom
    have hpool : ((c.predicted (place p) 1).item (place p)).pool = (c.item (place p)).pool := by
      rw [hplaced.item _ (missing_ne_place p p).symm]
    have hsettings : (c.predicted (place p) 1).settings.beamWidth = s.beamWidth := by
      rw [hplaced.evolves.grows.settings, hrow.settings]
    rw [hpool, hsettings] at hrefusals hevolves ⊢
    refine hplaced.foreseen hrow hsize (fun hnil => ?_)
      (fun x hx => hstocked.covers x (List.mem_of_mem_take hx))
      (fun x hx => hrow.plain.sound.closed.pool (place p) x (List.mem_of_mem_take hx))
      hevolves hrefusals
    rcases List.take_eq_nil_iff.1 hnil with hzero | hempty
    · omega
    · exact hstocked.some hempty
  · unfold predictWith at hrefusals
    rw [heq] at hrefusals
    cases hrefusals

end Predicting

section Feeding

variable {t : Token} {x : CandidateId}

/-- The chart between two digits. -/
structure Line (s : Settings) (p : Nat) (c : Chart) : Prop extends Row s p (posts p) c where
  size : c.items.size = 2 * p
  depth : c.depth = 0

theorem line_new (s : Settings) :
    Line s 0 (new (digits .operational).built s) where
  plain :=
    { sound := sound_new _ _ _
      marked := marked_new _ _
      single := fun w => by rw [item_of_size_le (Nat.zero_le _)]
      markers := rfl }
  grammar := rfl
  settings := rfl
  digit k hk := by omega
  awaited k hk := by omega
  filled k hk := by omega
  ordered := Postings.ordered_empty
  posted := rfl
  size := rfl
  depth := rfl

/-- What a new digit finds when it is connected. -/
structure Entering (s : Settings) (p : Nat) (x : CandidateId) (c : Chart) : Prop
    extends Row s p (posts p) c where
  own : c.DigitAt (place p) p
  stocked : c.Stocked (place p)
  leaf : c.Gathers place s.maxGap p 0 x
  fresh : (c.item (place p)).registered = false
  size : c.items.size = 2 * p + 1

theorem Line.entering
    (h : Line s p c)
    (harrives : Arrives c c' p x)
    (hwidth : 1 ≤ s.beamWidth) :
    Entering s p x c'.enter := by
  have hnext : c.nextItem = place p := by
    rw [nextItem, h.size, place]
  have henter : Evolves True c' c'.enter := .single (.note _ _ rfl rfl rfl (Nat.le_refl _))
  have hsteps : Evolves True c c'.enter := harrives.evolves.trans henter
  have hown : c'.enter.DigitAt (place p) p := by
    rw [← hnext]
    exact harrives.digitAt.evolve henter
  obtain ⟨token, hitem⟩ := harrives.item
  rw [hnext] at hitem
  have hitem' : c'.enter.item (place p) = _ := hitem
  have hbare : c'.enter.Bare place p x :=
    ⟨harrives.has, harrives.root.trans hnext, harrives.slots, harrives.weight,
      x, harrives.coverage⟩
  have hold : ∀ w, w ≠ place p → c'.enter.item w = c.item w := fun w hw =>
    harrives.old w (by rw [hnext]; exact hw)
  have hplain : Plain c'.enter := by
    refine ⟨hsteps.sound h.plain.sound, hsteps.marked h.plain.marked, fun w => ?_,
      harrives.markers.trans h.plain.markers⟩
    by_cases hw : w = place p
    · rw [hw, hitem']
    · rw [hold w hw]
      exact h.plain.single w
  have hrow : Row s p (posts p) c'.enter := h.toRow.keep_of_bySymbol hsteps hplain
    (fun w hw => hold w fun heq => by rw [heq, place] at hw; exact Nat.lt_irrefl _ hw)
    harrives.bySymbol
  refine ⟨hrow, hown, ⟨?_, fun y hy => ?_⟩, hbare.gathers ?_ ?_, ?_, ?_⟩
  · rw [hitem']
    exact List.cons_ne_nil _ _
  · rw [hitem', List.mem_singleton] at hy
    rw [hy]
    exact hbare.chain.isEmpty
  · rw [hitem']
  · rw [hrow.settings]
    exact hwidth
  · rw [hitem']
  · exact harrives.size.trans (by rw [h.size])

/-- What a new digit leaves behind when it has been connected. -/
structure Leaving (s : Settings) (p : Nat) (c c' : Chart) : Prop
    extends Row s p (posts p ++ [missing p]) c' where
  evolves : Evolves True c c'
  awaits : c'.AwaitedAt p
  fills : c'.Filled place s.maxGap p
  fresh : (c'.item (place p)).registered = false
  size : c'.items.size = 2 * p + 2
  depth : c'.depth = c.depth

theorem Entering.leaving
    (h : Entering s p x c)
    (hconnect : connect.Stepwise True)
    (hwidth : 1 ≤ s.beamWidth)
    (hp : p + 1 ≤ Weight.highest)
    (hrefusals : (connectBody connect c (place p) digitSymbol).tally.refusals = 0) :
    Leaving s p c (connectBody connect c (place p) digitSymbol) := by
  have hbody : connectBody connect c (place p) digitSymbol =
      seekParentsWith connect (fulfilWith connect c (place p) 1) (place p) 1 := by
    unfold connectBody
    rw [h.grammar, kind_digits, if_neg GrammarKind.noConfusion]
    rfl
  obtain ⟨hsteps, hoffering⟩ :=
    offering_posts hconnect h.toRow h.own h.stocked h.leaf hwidth hp (Nat.le_refl p)
  rw [← fulfil_digit h.toRow] at hsteps hoffering
  generalize fulfilWith connect c (place p) 1 = c₁ at hbody hsteps hoffering
  have hrow := hoffering.row h.toRow hsteps
  have hown := h.own.evolve hsteps
  rw [hbody, seekParents_digit hrow hown] at hrefusals ⊢
  obtain ⟨hroom, hforeseen⟩ := predict_digit hconnect hrow hown hoffering.stocked
    (hoffering.aside.size.trans h.size) hwidth hrefusals
  generalize predictWith connect c₁ (place p) 1 digitRule = c₂ at hforeseen ⊢
  have hplain : Plain c₂ := by
    refine ⟨hforeseen.evolves.sound hrow.plain.sound, hforeseen.evolves.marked hrow.plain.marked,
      fun w => ?_, hforeseen.markers.trans hrow.plain.markers⟩
    by_cases hw : w = missing p
    · rw [hw]
      exact hforeseen.single
    · rw [hforeseen.item w hw]
      exact hrow.plain.single w
  have hitem := hforeseen.item (place p) (missing_ne_place p p).symm
  have hfilled : c₁.Filled place s.maxGap p :=
    (hoffering.gathers hroom).filled hrow.plain.sound.closed (fun _ _ => place_injective)
      (by rw [hrow.settings]; exact hwidth)
  refine ⟨hrow.keep hforeseen.evolves hplain (fun w hw => hforeseen.item w fun heq => ?_) ?_ ?_,
    hsteps.trans hforeseen.evolves, hforeseen.awaited,
    hfilled.extend hforeseen.evolves.grows (congrArg Item.pool hitem), ?_, ?_, ?_⟩
  · rw [heq, missing] at hw
    exact Nat.not_succ_lt_self hw
  · rw [hforeseen.bySymbol]
    exact Postings.ordered_add hrow.ordered _ _
  · rw [hforeseen.bySymbol, Postings.under_add hrow.ordered, if_pos rfl, hrow.posted]
  · rw [hitem, hoffering.aside.registered]
    exact h.fresh
  · rw [hforeseen.size, hoffering.aside.size, h.size]
  · rw [hforeseen.depth, hoffering.aside.depth]

/-- Posting a new digit completes the line. -/
theorem Leaving.line
    (h : Leaving s p c c')
    (hown : c'.DigitAt (place p) p)
    (hdepth : c'.depth = 1) :
    Line s (p + 1) (c'.leave.register (place p)) := by
  have hleave : Evolves True c' c'.leave := .single (.note _ _ rfl rfl rfl (Nat.le_refl _))
  have hlt : (place p).index < c'.leave.items.size := lt_size_of_present hown.present
  have hlists := register_digit (c := c'.leave) h.grammar hlt hown.symbol
    h.fresh
  have hsteps : Evolves True c' (c'.leave.register (place p)) := hleave.trans (.single .register)
  have hleft : c'.leave.bySymbol = c'.bySymbol ∧ c'.leave.markers = c'.markers ∧
      c'.leave.items.size = c'.items.size ∧ c'.leave.depth = 0 :=
    ⟨rfl, rfl, rfl, by rw [leave, hdepth]⟩
  have hold : ∀ w, w ≠ place p → (c'.leave.register (place p)).item w = c'.item w := hlists.old
  have hitem : (c'.leave.register (place p)).item (place p) =
      { c'.item (place p) with registered := true } := hlists.own
  generalize c'.leave.register (place p) = c₂ at hlists hsteps hold hitem ⊢
  have hpool : ∀ k, (c₂.item (place k)).pool = (c'.item (place k)).pool := by
    intro k
    by_cases hk : place k = place p
    · rw [hk, hitem]
    · rw [hold _ hk]
  have hcases : ∀ {k}, k < p + 1 → k < p ∨ k = p := fun hk => by omega
  refine
    { plain := ⟨hsteps.sound h.plain.sound, hsteps.marked h.plain.marked, fun w => ?_, ?_⟩
      grammar := hsteps.grows.grammar.trans h.grammar
      settings := hsteps.grows.settings.trans h.settings
      digit := fun k hk => ?_
      awaited := fun k hk => ?_
      filled := fun k hk => ?_
      ordered := ?_
      posted := ?_
      size := ?_
      depth := hlists.depth.trans hleft.2.2.2 }
  · by_cases hw : w = place p
    · rw [hw, hitem]
      exact h.plain.single (place p)
    · rw [hold w hw]
      exact h.plain.single w
  · rw [hlists.markers, hleft.2.1, h.plain.markers]
  · rcases hcases hk with hlt | rfl
    · exact (h.digit k hlt).evolve hsteps
    · exact hown.evolve hsteps
  · have hkept := hold (missing k) (missing_ne_place k p)
    rcases hcases hk with hlt | rfl
    · exact (h.awaited k hlt).keep h.plain.sound.closed hsteps.grows hkept
    · exact h.awaits.keep h.plain.sound.closed hsteps.grows hkept
  · rcases hcases hk with hlt | rfl
    · exact (h.filled k hlt).extend hsteps.grows (hpool k)
    · exact h.fills.extend hsteps.grows (hpool k)
  · rw [hlists.bySymbol, hleft.1]
    exact Postings.ordered_add h.ordered _ _
  · rw [hlists.bySymbol, hleft.1, Postings.under_add h.ordered, if_pos rfl, h.posted, posts_succ,
      List.append_assoc]
    rfl
  · rw [hlists.size, hleft.2.2.1, h.size]
    omega

/-- The next digit makes a line longer, if nothing is refused. -/
theorem Line.feed
    {n : Nat}
    (h : Line s p c)
    (hs : Ample s n)
    (hn : n ≤ Weight.highest)
    (hp : p < n)
    (ht : IsDigit t p)
    (hrefusals : (c.feed t).2.tally.refusals = 0) :
    (∃ u, (c.feed t).1 = .ok u) ∧ Line s (p + 1) (c.feed t).2 := by
  obtain ⟨x, c₁, room, harrives, hfeed, hzero⟩ :=
    feed_arrives h.plain.sound h.grammar h.settings h.depth hs hp ht hrefusals
  have hnext : c.nextItem = place p := by
    rw [nextItem, h.size, place]
  rw [hfeed, hnext]
  rw [hnext] at hzero
  have hentering := h.entering harrives hs.width
  have hleaving := hentering.leaving (connectWithin_evolves room) hs.width (by omega) hzero
  refine ⟨⟨_, rfl⟩, hleaving.line (hentering.own.evolve hleaving.evolves)
    (hleaving.depth.trans ?_)⟩
  rw [enter, harrives.depth, h.depth]

end Feeding

end Chart

end BeamChart
