import BeamChart.Proofs.Sequence.Chain
import BeamChart.Decoder
import BeamChart.Proofs.Chart.Run
import BeamChart.Proofs.Scoring.Clamping

/-!
# Digits

The grammar of one symbol that follows itself, and the tokens of an input that
stand side by side. A token makes an item with one candidate (`Arrives`), unless
something is refused.
-/

namespace BeamChart

namespace Sequence

/-- One symbol, which takes the one before it in sequence. -/
def digits (kind : GrammarKind) : Declaration :=
  { kind
    symbols :=
      [{ name := "DIGIT"
         rules := [{ relation := .next, target := "DIGIT", placement := .before }] }] }

/-- The rule of a digit for the digit before it. -/
def digitRule : Rule SymbolId :=
  { relation := .next, target := 1, placement := .before }

def digitSymbol : Symbol :=
  { name := "DIGIT"
    id := 1
    rules := [digitRule]
    parents := [digitRule.seenFromChild 1] }

section Grammar

variable (kind : GrammarKind)

theorem resolve_digits :
    (digits kind).resolve = .ok (digits kind).built :=
  Declaration.resolve_eq_built (by cases kind <;> decide +kernel)

theorem kind_digits :
    (digits kind).built.kind = kind := rfl

theorem symbol?_digits :
    (digits kind).built.symbol? 1 = some digitSymbol := rfl

theorem ancestry_digits :
    (digits kind).built.ancestry 1 = [1] := rfl

theorem ruleFor?_digits :
    (digits kind).built.ruleFor? 1 .next 1 = some digitRule := rfl

theorem bucketOf_digits :
    (digits kind).built.bucketOf 1 = 1 := rfl

theorem size_digits :
    (digits kind).built.size = 2 := rfl

end Grammar

/-- The token is a digit at a position. -/
structure IsDigit (t : Token) (k : Nat) : Prop where
  concept : t.concept = 1
  position : t.position = k
  extent : t.extent = 1

instance (t : Token) (k : Nat) : Decidable (IsDigit t k) :=
  decidable_of_iff (t.concept = 1 ∧ t.position = k ∧ t.extent = 1)
    ⟨fun h => ⟨h.1, h.2.1, h.2.2⟩, fun h => ⟨h.concept, h.position, h.extent⟩⟩

/-- The tokens are digits side by side, the first of which is at `k`. -/
def AdjacentFrom (k : Nat) (tokens : List Token) : Prop :=
  ∀ e ∈ tokens.zipIdx k, IsDigit e.1 e.2

instance (k : Nat) (tokens : List Token) : Decidable (AdjacentFrom k tokens) :=
  inferInstanceAs (Decidable (∀ e ∈ tokens.zipIdx k, IsDigit e.1 e.2))

theorem AdjacentFrom.cons
    {k : Nat}
    {t : Token}
    {tokens : List Token}
    (h : AdjacentFrom k (t :: tokens)) :
    IsDigit t k ∧ AdjacentFrom (k + 1) tokens := by
  rw [AdjacentFrom, List.zipIdx_cons, List.forall_mem_cons] at h
  exact h

/-- What the settings have to be for all digits to be connected. -/
structure Ample (s : Settings) (n : Nat) : Prop where
  width : 1 ≤ s.beamWidth
  window : n ≤ s.window
  depth : 1 ≤ s.maxDepth
  budget : s.attemptBudget = 0

/-- A digit weighs one, be it dense or sparse. -/
theorem tokenWeight_digit (s : Scoring) (sparse : Bool) :
    s.tokenWeight 1 sparse 0 = .ofInt 1 := by
  unfold Scoring.tokenWeight
  rw [if_pos rfl]
  cases sparse with
  | true => rfl
  | false =>
    change Weight.ofPower (Weight.ofInt (1 : Nat)).toInt.toNat s.exponent = .ofInt 1
    rw [Weight.ofPower_ofInt, Nat.one_pow]
    rfl

end Sequence

namespace Chart

open Sequence

variable {strict : Prop} {c c' : Chart} {kind : GrammarKind} {t : Token} {p : Nat}

section Refusals

theorem Step.refusals_le
    (h : Step strict c c') :
    c.tally.refusals ≤ c'.tally.refusals := by
  cases h with
  | note _ _ _ _ _ hrefusals => exact hrefusals
  | @register u =>
    rcases register_cases c u with ⟨heq, -⟩ | ⟨b, q, d, m, f, l, -, heq⟩
    · rw [heq]
    · rw [heq]
      exact Nat.le_refl _
  | _ => exact Nat.le_refl _

/-- What has been refused is never taken back. -/
theorem Evolves.refusals_le
    (h : Evolves strict c c') :
    c.tally.refusals ≤ c'.tally.refusals := by
  induction h with
  | refl => exact Nat.le_refl _
  | tail _ hstep ih => exact Nat.le_trans ih hstep.refusals_le

theorem Moves.refusals_le
    (h : Moves strict c c') :
    c.tally.refusals ≤ c'.tally.refusals := by
  induction h with
  | refl => exact Nat.le_refl _
  | tail _ hmove ih =>
    cases hmove with
    | step hstep => exact Nat.le_trans ih hstep.refusals_le
    | fix => exact ih
    | refill => exact ih

theorem refusals_le_feedAll
    (hc : Sound strict c)
    (tokens : List Token) :
    c.tally.refusals ≤ (Decoder.feedAll c tokens).tally.refusals := by
  induction tokens generalizing c with
  | nil => exact Nat.le_refl _
  | cons t rest ih =>
    have hmoves := (feed_advances hc t).moves
    have hfirst := hmoves.refusals_le
    have hsound := hmoves.sound hc
    unfold Decoder.feedAll
    generalize c.feed t = result at hfirst hsound ⊢
    obtain ⟨outcome, c₁⟩ := result
    cases outcome with
    | ok u => exact Nat.le_trans hfirst (ih hsound)
    | error e =>
      cases e with
      | exhausted reserve => exact hfirst
      | outsideWindow stop window => exact Nat.le_trans hfirst (ih hsound)

end Refusals

section Arriving

/-- An item has been seen for the digit at a position. -/
structure DigitAt (c : Chart) (u : ItemId) (k : Nat) : Prop where
  present : (c.item u).present = true
  symbol : (c.item u).symbol = some 1
  position : (c.item u).position = k
  extent : (c.item u).extent = 1
  top : (c.item u).fixedParent = none

theorem DigitAt.evolve
    {u : ItemId}
    {k : Nat}
    (h : c.DigitAt u k)
    (hsteps : Evolves strict c c') :
    c'.DigitAt u k := by
  have hplace := hsteps.grows.place u (Or.inr h.present)
  exact ⟨hsteps.grows.present u h.present, (congrArg (fun e => e.2.1) hplace).trans h.symbol,
    (congrArg (fun e => e.2.2.1) hplace).trans h.position,
    (congrArg (fun e => e.2.2.2.1) hplace).trans h.extent, (hsteps.fixedParent u).trans h.top⟩

/-- A token has made an item, which holds one candidate for nothing but the token. -/
structure Arrives (c c' : Chart) (p : Nat) (x : CandidateId) : Prop where
  evolves : Evolves True c c'
  item : ∃ t, c'.item c.nextItem =
    { concept := 1, symbol := some 1, position := p, extent := 1, present := true, token := t,
      pool := [x] }
  old : ∀ w, w ≠ c.nextItem → c'.item w = c.item w
  size : c'.items.size = c.items.size + 1
  has : c'.Has x
  root : (c'.candidate x).root = c.nextItem
  slots : (c'.candidate x).slots = .empty
  weight : (c'.candidate x).weight = .ofInt 1
  coverage : (c'.candidate x).coverage = .single p (p + 1) x
  bySymbol : c'.bySymbol = c.bySymbol
  markers : c'.markers = c.markers
  tail : c'.tail = c.tail
  depth : c'.depth = c.depth

theorem Arrives.digitAt
    {x : CandidateId}
    (h : Arrives c c' p x) :
    c'.DigitAt c.nextItem p := by
  obtain ⟨t, hitem⟩ := h.item
  constructor <;> rw [hitem]

/-- A blank item is appended, and gets its place from a digit. -/
def seated (c : Chart) (t : Token) : Chart :=
  (c.pushItem {}).modifyItem c.nextItem fun i =>
    { i with
      concept := 1
      symbol := some 1
      position := t.position
      extent := t.extent
      token := some t
      pool := [] }

theorem makeItem_digit
    (hgrammar : c.grammar = (digits kind).built)
    (t : Token)
    (h : c.allocateItem = (.ok c.nextItem, c.pushItem {})) :
    c.makeItem (some 1) t =
      match (c.seated t).store ((c.seated t).leafOf c.nextItem digitSymbol 1 t) with
      | (.error e, c') => (.error e, c')
      | (.ok x, c') => (.ok c.nextItem, (c'.setPool c.nextItem [x]).markPresent c.nextItem) := by
  have hfilter : (some 1 : Option SymbolId).filter (fun s => s ≠ unrecognized) = some 1 := rfl
  have hsymbol : (c.seated t).grammar.symbol? 1 = some digitSymbol := by
    change c.grammar.symbol? 1 = _
    rw [hgrammar]
    rfl
  unfold makeItem instantiate
  rw [h]
  dsimp only
  rw [hfilter]
  dsimp only [Option.getD_some]
  rw [← seated, hsymbol]
  dsimp only
  rcases store_cases (c.seated t) ((c.seated t).leafOf c.nextItem digitSymbol 1 t) with
    ⟨-, hstore⟩ | hstore <;> rw [hstore]

/-- A digit arrives, if nothing is refused. -/
theorem arrives_makeItem
    (hc : Sound True c)
    (hgrammar : c.grammar = (digits kind).built)
    (ht : IsDigit t p)
    (hrefusals : (c.makeItem (some 1) t).2.tally.refusals = 0) :
    ∃ x, (c.makeItem (some 1) t).1 = .ok c.nextItem ∧
      Arrives c (c.makeItem (some 1) t).2 p x := by
  have hevolves := (makeItem_spec hc (some 1) t).1
  rcases allocateItem_cases c with ⟨-, heq⟩ | heq
  · rw [makeItem_digit hgrammar t heq] at hevolves hrefusals ⊢
    have hlt : c.nextItem.index < (c.pushItem {}).items.size := (vacant_pushItem hc.closed).lt
    have hsize : (c.seated t).items.size = c.items.size + 1 := by
      rw [seated, size_items_modifyItem]
      exact Array.size_push _
    have hitem : (c.seated t).item c.nextItem =
        { concept := 1, symbol := some 1, position := p, extent := 1, token := some t } := by
      rw [seated, item_modifyItem_self _ hlt, item_pushItem_nextItem, ht.position, ht.extent]
    have hold : ∀ w, w ≠ c.nextItem → (c.seated t).item w = c.item w := by
      intro w hw
      rw [seated, item_modifyItem_of_ne _ hw.symm, item_pushItem, if_neg hw]
    have hsame : (c.seated t).bySymbol = c.bySymbol ∧ (c.seated t).markers = c.markers ∧
        (c.seated t).tail = c.tail ∧ (c.seated t).depth = c.depth := ⟨rfl, rfl, rfl, rfl⟩
    generalize c.seated t = d at hevolves hrefusals hsize hitem hold hsame ⊢
    have hweight : (d.leafOf c.nextItem digitSymbol 1 t).weight = .ofInt 1 := by
      change d.settings.scoring.tokenWeight t.extent t.sparse 0 = .ofInt 1
      rw [ht.extent]
      exact tokenWeight_digit _ _
    have hcoverage : (d.leafOf c.nextItem digitSymbol 1 t).coverage =
        .single p (p + 1) d.nextCandidate := by
      change Coverage.single t.position t.stop d.nextCandidate = _
      rw [Token.stop, ht.position, ht.extent]
    have hbare : (d.leafOf c.nextItem digitSymbol 1 t).root = c.nextItem ∧
        (d.leafOf c.nextItem digitSymbol 1 t).slots = .empty := ⟨rfl, rfl⟩
    generalize d.leafOf c.nextItem digitSymbol 1 t = leaf
      at hevolves hrefusals hweight hcoverage hbare ⊢
    rcases store_cases d leaf with ⟨-, hstore⟩ | hstore
    · rw [hstore] at hevolves ⊢
      dsimp only at hevolves ⊢
      have hlt' : c.nextItem.index < d.items.size := by
        rw [hsize]
        exact Nat.lt_succ_self _
      have hpooled : c.nextItem.index <
          ((d.pushCandidate leaf).setPool c.nextItem [d.nextCandidate]).items.size := by
        rw [setPool, size_items_modifyItem]
        exact hlt'
      have hstored : (((d.pushCandidate leaf).setPool c.nextItem [d.nextCandidate]).markPresent
          c.nextItem).candidate d.nextCandidate = leaf := candidate_nextCandidate d leaf
      refine ⟨d.nextCandidate, rfl, hevolves, ⟨some t, ?_⟩, fun w hw => ?_, ?_,
        has_nextCandidate d leaf, ?_, ?_, ?_, ?_, hsame.1, hsame.2.1, hsame.2.2.1, hsame.2.2.2⟩
      · rw [markPresent, item_modifyItem_self _ hpooled, setPool,
          item_modifyItem_self _ (by exact hlt'), item_pushCandidate, hitem]
      · rw [markPresent, item_modifyItem_of_ne _ hw.symm, setPool, item_modifyItem_of_ne _ hw.symm,
          item_pushCandidate, hold w hw]
      · rw [markPresent, size_items_modifyItem, setPool, size_items_modifyItem]
        exact hsize
      · rw [hstored, hbare.1]
      · rw [hstored, hbare.2]
      · rw [hstored, hweight]
      · rw [hstored, hcoverage]
    · rw [hstore] at hrefusals
      cases hrefusals
  · unfold makeItem at hrefusals
    rw [heq] at hrefusals
    cases hrefusals

end Arriving

section Feeding

/-- A digit in the window makes an item that is connected and posted. -/
theorem feed_digit
    (hgrammar : c.grammar = (digits kind).built)
    (ht : IsDigit t p)
    (hwindow : p < c.settings.window) :
    c.feed t =
      match c.makeItem (some 1) t with
      | (.error e, c') => (.error e, c')
      | (.ok u, c') => (.ok u, (c'.connectInBudget u).register u) := by
  have hsymbol : c.symbolOf? t = some 1 := by
    rw [symbolOf?, ht.concept, hgrammar, symbol?_digits]
    rfl
  have hsingle : ((some 1 : Option SymbolId).bind c.grammar.symbol?).bind
      (fun s => s.composition) = none := by
    rw [Option.bind_some, hgrammar, symbol?_digits]
    rfl
  have hstop : t.stop = p + 1 := by
    rw [Token.stop, ht.position, ht.extent]
  rw [feed, hsymbol, feedAs, hsingle, hstop]
  exact if_neg (by omega)

/-- Connecting a digit is one connection, with nested ones made by less room. -/
theorem connect_digit
    {u : ItemId}
    {room : Nat}
    (hgrammar : c.grammar = (digits kind).built)
    (hu : c.DigitAt u p)
    (hdepth : c.depth = 0)
    (hroom : c.settings.maxDepth = room + 1) :
    c.connect u = (connectBody (connectWithin room) c.enter u digitSymbol).leave := by
  have hconnectable : c.connectable? u = some digitSymbol := by
    rw [connectable?, if_pos hu.present, recognized?, hu.symbol, hgrammar]
    rfl
  rw [connect, hroom, connectWithin, hconnectable]
  dsimp only
  rw [if_neg (by omega)]

/-- If nothing is refused, a digit arrives and is connected and posted. -/
theorem feed_arrives
    {s : Settings}
    {n : Nat}
    (hc : Sound True c)
    (hgrammar : c.grammar = (digits kind).built)
    (hsettings : c.settings = s)
    (hdepth : c.depth = 0)
    (hs : Ample s n)
    (hp : p < n)
    (ht : IsDigit t p)
    (hrefusals : (c.feed t).2.tally.refusals = 0) :
    ∃ x c₁ room, Arrives c c₁ p x ∧
      c.feed t = (.ok c.nextItem,
        (connectBody (connectWithin room) c₁.enter c.nextItem digitSymbol).leave.register
          c.nextItem) ∧
        (connectBody (connectWithin room) c₁.enter c.nextItem digitSymbol).tally.refusals = 0 := by
  have hwindow : p < c.settings.window := by
    rw [hsettings]
    exact Nat.lt_of_lt_of_le hp hs.window
  have hmake := (makeItem_spec hc (some 1) t).1
  have harrives := arrives_makeItem hc hgrammar ht
  rw [feed_digit hgrammar ht hwindow] at hrefusals ⊢
  generalize c.makeItem (some 1) t = result at hmake harrives hrefusals ⊢
  obtain ⟨outcome, c₁⟩ := result
  cases outcome with
  | error e =>
    obtain ⟨x, hok, -⟩ := harrives hrefusals
    cases hok
  | ok u =>
    obtain ⟨x, hok, hx⟩ := harrives
      (Nat.le_zero.1 (hrefusals ▸ (admit_evolves (hmake.sound hc) u).refusals_le))
    cases hok
    obtain ⟨room, hroom⟩ : ∃ room, s.maxDepth = room + 1 :=
      ⟨s.maxDepth - 1, by have := hs.depth; omega⟩
    have hsame : c₁.settings = s := hmake.grows.settings.trans hsettings
    have hconnect : c₁.connectInBudget c.nextItem =
        (connectBody (connectWithin room) c₁.enter c.nextItem digitSymbol).leave := by
      unfold connectInBudget
      rw [hsame, hs.budget]
      exact connect_digit (hmake.grows.grammar.trans hgrammar) hx.digitAt (hx.depth.trans hdepth)
        (hsame ▸ hroom)
    have hlast : ∀ d : Chart, Evolves True d (d.leave.register c.nextItem) := fun d =>
      (Evolves.single (.note _ _ rfl rfl rfl (Nat.le_refl _))).trans (.single .register)
    dsimp only at hrefusals ⊢
    rw [hconnect] at hrefusals ⊢
    exact ⟨x, c₁, room, hx, rfl, Nat.le_zero.1 (hrefusals ▸ (hlast _).refusals_le)⟩

/-- What one digit carries on is carried on by digits side by side, if nothing is refused. -/
theorem feedAll_digits
    {n : Nat}
    {holds : Nat → Chart → Prop}
    (hsound : ∀ p c, holds p c → Sound True c)
    (hfeed : ∀ p c t, holds p c → p < n → IsDigit t p → (c.feed t).2.tally.refusals = 0 →
      (∃ u, (c.feed t).1 = .ok u) ∧ holds (p + 1) (c.feed t).2)
    (h : holds p c)
    (tokens : List Token)
    (hadjacent : AdjacentFrom p tokens)
    (hlength : p + tokens.length ≤ n)
    (hrefusals : (Decoder.feedAll c tokens).tally.refusals = 0) :
    holds (p + tokens.length) (Decoder.feedAll c tokens) := by
  induction tokens generalizing p c with
  | nil => exact h
  | cons t rest ih =>
    obtain ⟨ht, hrest⟩ := hadjacent.cons
    rw [List.length_cons] at hlength ⊢
    have hnext := (feed_advances (hsound p c h) t).sound (hsound p c h)
    have hstep := hfeed p c t h (by omega) ht
    unfold Decoder.feedAll at hrefusals ⊢
    generalize c.feed t = result at hnext hstep hrefusals ⊢
    obtain ⟨outcome, c₁⟩ := result
    have hzero : c₁.tally.refusals = 0 := by
      cases outcome with
      | ok u => exact Nat.le_zero.1 (hrefusals ▸ refusals_le_feedAll hnext rest)
      | error e =>
        cases e with
        | exhausted reserve => exact hrefusals
        | outsideWindow stop window =>
          exact Nat.le_zero.1 (hrefusals ▸ refusals_le_feedAll hnext rest)
    obtain ⟨⟨u, hok⟩, hheld⟩ := hstep hzero
    cases hok
    rw [show p + (rest.length + 1) = p + 1 + rest.length by omega]
    exact ih hheld hrest (by omega) hrefusals

end Feeding

section Posting

variable {u : ItemId}

/-- An item has been posted in the bucket of the digits. -/
structure Lists (kind : GrammarKind) (c c' : Chart) (u : ItemId) : Prop where
  own : c'.item u = { c.item u with registered := true }
  old : ∀ w, w ≠ u → c'.item w = c.item w
  size : c'.items.size = c.items.size
  bySymbol : c'.bySymbol = c.bySymbol.add 1 u
  markers : c'.markers = c.markers
  depth : c'.depth = c.depth
  tally : c'.tally = c.tally
  tail : c'.tail = if (c.item u).present = true ∧ kind = .positional then some u else c.tail

/-- An item for a digit, be it seen or predicted, is posted in one bucket. -/
theorem register_digit
    (hgrammar : c.grammar = (digits kind).built)
    (hlt : u.index < c.items.size)
    (hsymbol : (c.item u).symbol = some 1)
    (hfresh : (c.item u).registered = false) :
    Lists kind c (c.register u) u := by
  have hrecognized : c.recognized? u = some 1 := by
    rw [recognized?, hsymbol]
    rfl
  have hordinary : c.kindOf 1 = .ordinary := by
    rw [kindOf, hgrammar]
    rfl
  cases posting c u with
  | repeated hregistered =>
    rw [hfresh] at hregistered
    cases hregistered
  | unrecognized _ hnone =>
    rw [hrecognized] at hnone
    cases hnone
  | separator _ hs hkind | marker _ hs hkind =>
    rw [hrecognized] at hs
    cases hs
    rw [hordinary] at hkind
    simp at hkind
  | ordinary _ hs _ heq =>
    rw [hrecognized] at hs
    cases hs
    rw [hgrammar, bucketOf_digits, size_digits, kind_digits, if_pos Nat.one_lt_two] at heq
    rw [heq]
    exact ⟨item_modifyItem_self _ hlt, fun w hw => item_modifyItem_of_ne _ hw.symm,
      size_items_modifyItem c u _, rfl, rfl, rfl, rfl, rfl⟩

end Posting

end Chart

end BeamChart
