import BeamChart.Chart.Feed
import BeamChart.Proofs.Chart.Frame
import Mathlib.Data.List.Forall2

/-!
# Sightings

A token is sighted when an item is made for it and posted, without being
connected. `makeItem_outcome` says that making an item either gives it to the
chart as a whole (`unpostedAs`) or is refused and leaves nothing that is shown
(`Cut`); `makeItem_cases` is the case of an item of the symbol that its token names.

`Sights` is the chain of the tokens that have been sighted. What one of them
adds to a chart is said once, and carried along the chain by induction.
-/

namespace BeamChart

/-- The symbol of a token, with the unrecognized one left out. -/
def Token.symbol? (t : Token) : Option SymbolId :=
  (some t.concept).filter fun s => s ≠ unrecognized

@[simp] theorem Token.getD_symbol? (t : Token) :
    t.symbol?.getD unrecognized = t.concept := by
  by_cases h : t.concept = unrecognized <;> simp [Token.symbol?, Option.filter, h]

theorem Token.eq_concept
    {t : Token}
    {s : SymbolId}
    (h : t.symbol? = some s) :
    s = t.concept := by
  rw [← t.getD_symbol?, h, Option.getD_some]

theorem Token.ne_unrecognized
    {t : Token}
    {s : SymbolId}
    (h : t.symbol? = some s) :
    s ≠ unrecognized := by
  simp only [Token.symbol?, Option.filter_eq_some_iff, decide_eq_true_eq] at h
  exact h.2

/-- The item that shows a token. -/
def Item.shown (t : Token) (pool : List CandidateId) : Item :=
  { concept := t.concept
    symbol := t.symbol?
    position := t.position
    extent := t.extent
    present := true
    token := some t
    pool }

/-- The item that shows a token as an instance of a symbol, or of none. -/
def Item.shownAs (symbol : Option SymbolId) (t : Token) (pool : List CandidateId) : Item :=
  { concept := symbol.getD unrecognized
    symbol
    position := t.position
    extent := t.extent
    present := true
    token := some t
    pool }

/-- The item of a token before it is shown. -/
def Item.hiddenAs (symbol : Option SymbolId) (t : Token) : Item :=
  { Item.shownAs symbol t [] with present := false }

/-- A posted item shows a token. -/
def Item.Shows (i : Item) (t : Token) : Prop :=
  i = { Item.shown t i.pool with registered := true }

namespace Chart

variable {c c' d : Chart} {t : Token} {tokens : List Token}

/-- An item that has just been appended is changed in the same place. -/
theorem modifyItem_pushItem (c : Chart) (i : Item) (f : Item → Item) :
    (c.pushItem i).modifyItem c.nextItem f = c.pushItem (f i) := by
  have harray : (c.items.push i).modify c.items.size f = c.items.push (f i) := by
    apply Array.ext
    · simp
    · intro k hk hk'
      simp only [Array.size_push] at hk'
      by_cases hlast : c.items.size = k
      · subst hlast
        simp [Array.getElem_modify]
      · have hlt : k < c.items.size := by omega
        simp [Array.getElem_modify, Array.getElem_push, hlast, hlt]
  simp only [modifyItem, pushItem, nextItem, harray]

/-- The leaf that an item of the token gets, if its symbol is defined. -/
def leaf? (c : Chart) (t : Token) : Option Candidate :=
  (t.symbol?.bind c.grammar.symbol?).map fun s => c.leafOf c.nextItem s t.concept t

/-- The chart with the item of a token, which is not posted yet. -/
def unposted (c : Chart) (t : Token) : Chart :=
  match c.leaf? t with
  | none => c.pushItem (.shown t [])
  | some leaf => (c.pushItem (.shown t [c.nextCandidate])).pushCandidate leaf

/-- The chart with the item of a token, posted. -/
def sight (c : Chart) (t : Token) : Chart :=
  (c.unposted t).register c.nextItem

/-- An item was refused its place, or its leaf was, and then it is not shown. -/
inductive Cut (c : Chart) : Chart → Prop
  | item (hfull : c.settings.itemCapacity ≤ c.plainItems) : Cut c c.refused
  | leaf
      (i : Item)
      (hhidden : i.present = false)
      (hfull : c.candidatesFull = true) : Cut c (c.pushItem i).refused

section Making

variable (c : Chart) (symbol : Option SymbolId) (t : Token)

/-- The leaf that an item of a symbol gets over a token, if the symbol is defined. -/
def leafAs? : Option Candidate :=
  symbol.bind fun id => (c.grammar.symbol? id).map fun s => c.leafOf c.nextItem s id t

/-- The chart with an item of a symbol over a token, which is not posted yet. -/
def unpostedAs : Chart :=
  match c.leafAs? symbol t with
  | none => c.pushItem (.shownAs symbol t [])
  | some leaf => (c.pushItem (.shownAs symbol t [c.nextCandidate])).pushCandidate leaf

/-- The symbol that a token names is one that its items may get. -/
theorem unpostedAs_symbol? :
    c.unpostedAs t.symbol? t = c.unposted t := by
  have hleaf : c.leafAs? t.symbol? t = c.leaf? t := by
    unfold leafAs? leaf?
    cases hs : t.symbol? with
    | none => rfl
    | some id =>
      obtain rfl := Token.eq_concept hs
      rfl
  have hshown : ∀ pool, Item.shownAs t.symbol? t pool = .shown t pool := fun pool => by
    rw [Item.shownAs, Item.shown, Token.getD_symbol?]
  simp only [unpostedAs, unposted, hleaf, hshown]

/-- A new item is filled from a token; without room for its leaf it stays hidden. -/
theorem instantiate_pushItem :
    (c.pushItem {}).instantiate c.nextItem symbol t =
      match c.leafAs? (symbol.filter fun s => s ≠ unrecognized) t with
      | none =>
        (.ok (), c.pushItem (.hiddenAs (symbol.filter fun s => s ≠ unrecognized) t))
      | some leaf =>
        match (c.pushItem (.hiddenAs (symbol.filter fun s => s ≠ unrecognized) t)).store leaf with
        | (.error e, c) => (.error e, c)
        | (.ok x, c') => (.ok (), c'.setPool c.nextItem [x]) := by
  simp only [instantiate, modifyItem_pushItem, leafAs?]
  cases symbol.filter fun s => s ≠ unrecognized with
  | none => rfl
  | some id =>
    have hgrammar : ∀ i, (c.pushItem i).grammar = c.grammar := fun _ => rfl
    simp only [Option.bind_some, hgrammar]
    cases c.grammar.symbol? id <;> rfl

/-- A hidden item is shown when it has its pool. -/
theorem markPresent_setPool (x : Candidate) (pool : List CandidateId) :
    ((((c.pushItem (.hiddenAs symbol t)).pushCandidate x).setPool c.nextItem pool).markPresent
      c.nextItem) = (c.pushItem (.shownAs symbol t pool)).pushCandidate x := by
  rw [markPresent, setPool, modifyItem_modifyItem]
  exact congrArg (fun c => c.pushCandidate x)
    (modifyItem_pushItem c (.hiddenAs symbol t) fun i => { i with pool, present := true })

/-- An item is made as a whole, or not shown at all. -/
theorem makeItem_outcome :
    c.makeItem symbol t =
        (.ok c.nextItem, c.unpostedAs (symbol.filter fun s => s ≠ unrecognized) t) ∨
      ∃ reserve c', c.makeItem symbol t = (.error (.exhausted reserve), c') ∧ c.Cut c' := by
  by_cases hitems : c.settings.itemCapacity ≤ c.plainItems
  · right
    refine ⟨.items, c.refused, ?_, .item hitems⟩
    simp [makeItem, allocateItem_of_full hitems]
  · have halloc : c.allocateItem = (.ok c.nextItem, c.pushItem {}) := by
      simp [allocateItem, hitems]
    simp only [makeItem, halloc, instantiate_pushItem]
    generalize symbol.filter (fun s => s ≠ unrecognized) = symbol
    cases hleaf : c.leafAs? symbol t with
    | none =>
      left
      simp [unpostedAs, hleaf, markPresent, modifyItem_pushItem, Item.shownAs, Item.hiddenAs]
    | some leaf =>
      by_cases hfull : c.candidatesFull = true
      · right
        have hstore := store_of_full (c := c.pushItem (.hiddenAs symbol t)) hfull
        simp only [hstore]
        exact ⟨_, _, rfl, .leaf _ rfl hfull⟩
      · left
        have hroom : (c.pushItem (.hiddenAs symbol t)).candidatesFull = false :=
          eq_false_of_ne_true hfull
        simp only [store, hroom, unpostedAs, hleaf]
        exact congrArg _ (markPresent_setPool c symbol t _ _)

variable {c symbol t}

/-- The item of a token is made as a whole, or not shown at all. -/
theorem makeItem_cases
    (c : Chart)
    (hsymbol : symbol.filter (fun s => s ≠ unrecognized) = t.symbol?) :
    c.makeItem symbol t = (.ok c.nextItem, c.unposted t) ∨
      ∃ reserve c', c.makeItem symbol t = (.error (.exhausted reserve), c') ∧ c.Cut c' := by
  have houtcome := c.makeItem_outcome symbol t
  rwa [hsymbol, unpostedAs_symbol?] at houtcome

end Making

/-- Nothing is cut while there is room for an item and its leaf. -/
theorem not_cut_of_room
    (hitems : c.plainItems < c.settings.itemCapacity)
    (hcandidates : c.candidates.size < c.settings.candidateCapacity) :
    ¬ c.Cut c' := by
  rintro (hfull | ⟨-, -, hfull⟩)
  · omega
  · simp [candidatesFull] at hfull
    omega

section Posting

/-- Items of a token are posted by position: it has no symbol, or an ordinary one. -/
def standsByPosition (c : Chart) (t : Token) : Bool :=
  t.symbol?.all fun s => c.kindOf s = .ordinary

/-- An item that is seen is posted by position, unless it separates or marks. -/
theorem byPosition_register
    {u : ItemId}
    (hpresent : (c.item u).present = true)
    (hfresh : (c.item u).registered = false) :
    (c.register u).byPosition =
      if (c.recognized? u).all fun s => c.kindOf s = .ordinary then
        c.byPosition.add (c.item u).position u
      else c.byPosition := by
  cases posting c u with
  | repeated hregistered =>
    rw [hfresh] at hregistered
    cases hregistered
  | unrecognized _ hnone heq =>
    rw [heq, hnone]
    rfl
  | separator _ hsymbol hkind heq =>
    rw [heq, hsymbol, Option.all_some, hkind]
    rfl
  | marker _ hsymbol hkind heq =>
    rw [heq, hsymbol, Option.all_some]
    rcases hkind with hkind | hkind <;> rw [hkind] <;> rfl
  | ordinary _ hsymbol hkind heq =>
    rw [heq, hsymbol, Option.all_some, hkind]
    exact if_pos hpresent

theorem kindOf_congr
    (h : c'.grammar = c.grammar)
    (s : SymbolId) :
    c'.kindOf s = c.kindOf s := by
  simp only [kindOf, h]

/-- The pool of the item of a token. -/
def poolOf (c : Chart) (t : Token) : List CandidateId :=
  match c.leaf? t with
  | none => []
  | some _ => [c.nextCandidate]

/-- What the sighting of a token adds to a chart. -/
structure Sighted (c : Chart) (t : Token) (c' : Chart) : Prop where
  grammar : c'.grammar = c.grammar
  settings : c'.settings = c.settings
  items : c'.items = c.items.push { Item.shown t (c.poolOf t) with registered := true }
  candidates : c'.candidates = c.candidates ++ (c.leaf? t).toArray
  aggregateCount : c'.aggregateCount = c.aggregateCount
  byPosition :
    c'.byPosition =
      if c.standsByPosition t then c.byPosition.add t.position c.nextItem else c.byPosition
  tally : ∃ n m, c'.tally = { c.tally with items := n, candidates := m }

theorem unposted_spec (c : Chart) (t : Token) :
    (c.unposted t).grammar = c.grammar ∧ (c.unposted t).settings = c.settings ∧
      (c.unposted t).items = c.items.push (.shown t (c.poolOf t)) ∧
      (c.unposted t).candidates = c.candidates ++ (c.leaf? t).toArray ∧
      (c.unposted t).aggregateCount = c.aggregateCount ∧
      (c.unposted t).byPosition = c.byPosition ∧
      ∃ n m, (c.unposted t).tally = { c.tally with items := n, candidates := m } := by
  unfold unposted poolOf
  cases c.leaf? t with
  | none => exact ⟨rfl, rfl, rfl, by simp [pushItem], rfl, rfl, _, _, rfl⟩
  | some leaf => exact ⟨rfl, rfl, rfl, by simp [pushItem, pushCandidate], rfl, rfl, _, _, rfl⟩

/-- Registering the item that stands last marks it and writes postings. -/
theorem register_last
    {i : Item}
    (hitems : d.items = c.items.push i)
    (hfresh : i.registered = false) :
    ∃ bySymbol byPosition delimiters markers filled tail,
      d.register c.nextItem =
        { d with
          items := c.items.push { i with registered := true }
          bySymbol, byPosition, delimiters, markers, filled, tail } := by
  have hitem : d.item c.nextItem = i := by
    simp [item, hitems, nextItem]
  have hmark : (d.modifyItem c.nextItem fun i => { i with registered := true }).items =
      c.items.push { i with registered := true } := by
    rw [modifyItem, hitems]
    exact congrArg Chart.items (modifyItem_pushItem c i fun i => { i with registered := true })
  rcases register_cases d c.nextItem with ⟨-, hreg⟩ | ⟨b, p, l, k, f, e, -, heq⟩
  · rw [hitem, hfresh] at hreg
    cases hreg
  · refine ⟨b, p, l, k, f, e, ?_⟩
    rw [heq, ← hmark]
    rfl

/-- A sighting adds the item of its token and perhaps a leaf, and posts the item. -/
theorem sighted_sight (c : Chart) (t : Token) :
    c.Sighted t (c.sight t) := by
  obtain ⟨hgrammar, hsettings, hitems, hcandidates, haggregates, hposition, n, m, htally⟩ :=
    c.unposted_spec t
  unfold sight
  generalize c.unposted t = d at hgrammar hsettings hitems hcandidates haggregates hposition htally ⊢
  have hitem : d.item c.nextItem = .shown t (c.poolOf t) := by
    simp [item, hitems, nextItem]
  have hrecognized : d.recognized? c.nextItem = t.symbol? := by
    simp [recognized?, hitem, Item.shown, Token.symbol?]
  have hkind : ∀ s, d.kindOf s = c.kindOf s := kindOf_congr hgrammar
  have hregister := byPosition_register (c := d) (u := c.nextItem)
    (by rw [hitem]; rfl) (by rw [hitem]; rfl)
  simp only [hrecognized, hkind, hposition, hitem] at hregister
  obtain ⟨b, p, l, k, f, e, heq⟩ := register_last hitems rfl
  refine ⟨?_, ?_, ?_, ?_, ?_, hregister, n, m, ?_⟩ <;> rw [heq]
  · exact hgrammar
  · exact hsettings
  · exact hcandidates
  · exact haggregates
  · exact htally

end Posting

/-- Tokens that have been sighted one after another, whatever is counted in between. -/
inductive Sights (c : Chart) : List Token → Chart → Prop
  | none : Sights c [] c
  | sight
      {tokens : List Token}
      {d : Chart}
      (h : Sights c tokens d)
      (t : Token) : Sights c (tokens ++ [t]) (d.sight t)
  | count
      {tokens : List Token}
      {d : Chart}
      (h : Sights c tokens d)
      (hits misses : Nat) :
      Sights c tokens
        (d.count fun t => { t with tableHits := hits, tableMisses := misses })

namespace Sights

theorem trans
    {more : List Token}
    (h : c.Sights tokens d)
    (h' : d.Sights more c') :
    c.Sights (tokens ++ more) c' := by
  induction h' with
  | none => simpa using h
  | sight _ t ih => simpa [← List.append_assoc] using ih.sight t
  | count _ hits misses ih => exact ih.count hits misses

theorem grammar
    (h : c.Sights tokens d) :
    d.grammar = c.grammar := by
  induction h with
  | none => rfl
  | @sight _ d _ t ih => exact (sighted_sight d t).grammar.trans ih
  | count _ _ _ ih => exact ih

theorem settings
    (h : c.Sights tokens d) :
    d.settings = c.settings := by
  induction h with
  | none => rfl
  | @sight _ d _ t ih => exact (sighted_sight d t).settings.trans ih
  | count _ _ _ ih => exact ih

/-- Nothing else is counted than items, candidates, and what a table counts. -/
theorem tally
    (h : c.Sights tokens d) :
    ∃ n m hits misses,
      d.tally =
        { c.tally with
          items := n, candidates := m, tableHits := hits, tableMisses := misses } := by
  induction h with
  | none => exact ⟨_, _, _, _, rfl⟩
  | @sight _ d _ t ih =>
    obtain ⟨_, _, hits, misses, hd⟩ := ih
    obtain ⟨n, m, hstep⟩ := (sighted_sight d t).tally
    exact ⟨n, m, hits, misses, by rw [hstep, hd]⟩
  | @count _ d _ hits misses ih =>
    obtain ⟨n, m, _, _, hd⟩ := ih
    exact ⟨n, m, hits, misses, by rw [Chart.count, hd]⟩

/-- Behind the earlier items stands one item for each token. -/
theorem items
    (h : c.Sights tokens d) :
    ∃ shown, d.items.toList = c.items.toList ++ shown ∧ List.Forall₂ Item.Shows shown tokens := by
  induction h with
  | none => exact ⟨[], by simp, .nil⟩
  | @sight _ d _ t ih =>
    obtain ⟨shown, hitems, hshows⟩ := ih
    refine ⟨shown ++ [{ Item.shown t (d.poolOf t) with registered := true }], ?_, ?_⟩
    · simp [(sighted_sight d t).items, hitems]
    · exact List.rel_append hshows (.cons rfl .nil)
  | count _ _ _ ih => exact ih

/-- Each token takes room for one item, and for at most one candidate. -/
theorem sizes
    (h : c.Sights tokens d) :
    d.items.size = c.items.size + tokens.length ∧
      d.candidates.size ≤ c.candidates.size + tokens.length ∧
      d.aggregateCount = c.aggregateCount := by
  induction h with
  | none => simp
  | @sight _ d _ t ih =>
    have hleaf : (d.leaf? t).toArray.size ≤ 1 := by
      cases d.leaf? t <;> simp
    simp only [(sighted_sight d t).items, (sighted_sight d t).candidates,
      (sighted_sight d t).aggregateCount, Array.size_push, Array.size_append,
      List.length_append, List.length_singleton]
    omega
  | count _ _ _ ih => exact ih

end Sights

/-- What a cut adds is not shown. -/
theorem Cut.items
    (h : c.Cut c') :
    ∃ hidden, c'.items.toList = c.items.toList ++ hidden ∧
      ∀ i ∈ hidden, i.present = false := by
  cases h with
  | item hfull => exact ⟨[], by simp [refused, count], by simp⟩
  | leaf i hhidden hfull => exact ⟨[i], by simp [refused, count, pushItem], by simpa using hhidden⟩

theorem Cut.tally
    (h : c.Cut c') :
    c'.tally.refusals = c.tally.refusals + 1 ∧
      c'.tally.connections = c.tally.connections ∧ c'.tally.attempts = c.tally.attempts := by
  cases h <;> exact ⟨rfl, rfl, rfl⟩

/-- Some of the tokens have been sighted, and the next one was cut. -/
def Stops (c : Chart) (tokens : List Token) (c' : Chart) : Prop :=
  ∃ done t rest d, tokens = done ++ t :: rest ∧ c.Sights done d ∧ d.Cut c'

theorem Cut.stops
    (h : c.Cut c')
    (t : Token)
    (rest : List Token) :
    c.Stops (t :: rest) c' :=
  ⟨[], t, rest, c, rfl, .none, h⟩

theorem Stops.append
    (h : c.Stops tokens c')
    (more : List Token) :
    c.Stops (tokens ++ more) c' := by
  obtain ⟨done, t, rest, d, rfl, hsights, hcut⟩ := h
  exact ⟨done, t, rest ++ more, d, by simp, hsights, hcut⟩

theorem Sights.stops
    {more : List Token}
    (h : c.Sights tokens d)
    (hstops : d.Stops more c') :
    c.Stops (tokens ++ more) c' := by
  obtain ⟨done, t, rest, e, rfl, hsights, hcut⟩ := hstops
  exact ⟨tokens ++ done, t, rest, e, by simp, h.trans hsights, hcut⟩

/-- Tokens are sighted to the end if there is room for an item and a leaf of each. -/
theorem not_stops_of_room
    (hitems : c.plainItems + tokens.length ≤ c.settings.itemCapacity)
    (hcandidates : c.candidates.size + tokens.length ≤ c.settings.candidateCapacity) :
    ¬ c.Stops tokens c' := by
  rintro ⟨done, t, rest, d, rfl, hsights, hcut⟩
  obtain ⟨hsize, hcandidates', haggregates⟩ := hsights.sizes
  have hplain : d.plainItems ≤ c.plainItems + done.length := by
    simp only [plainItems, haggregates, hsize]
    omega
  simp only [List.length_append, List.length_cons] at hitems hcandidates
  refine not_cut_of_room ?_ ?_ hcut
  · rw [hsights.settings]
    omega
  · rw [hsights.settings]
    omega

end Chart

end BeamChart
