import BeamChart.Proofs.Chart.Outward
import BeamChart.Proofs.Chart.Stopping

/-!
# What absorbing takes over

A chart that absorbs another one takes over what that one passes on: each registered
item that was seen and is no aggregate, once and in the order of the positions, as long
as the item stands by position. The items of separators and markers do not, and drop
out (`absorb_takes_over`, `absorb_drops_separator`).

* `absorbItems_renamed`: under a renaming grammar each item becomes one item.
* `absorbItems_isFed`: under any other grammar each item becomes one token for each
  meaning, unless it has no symbol.

A fresh chart has enough room if nothing is refused. For a renaming grammar it is
enough that there is a place for each item and for its leaf (`absorb_has_room`).
-/

namespace BeamChart

namespace Item

/-- A renaming grammar has made an item for another one, and posted it. -/
def Renames (g : Grammar) (i j : Item) : Prop :=
  j = { Item.shownAs (g.meaningsOf i.concept).head? i.toToken j.pool with registered := true }

end Item

namespace Chart

variable {g : Grammar} {s : Settings} {c c' c'' : Chart} {t : Token}

section Walking

/-- What the first item is refused is not forgotten. -/
theorem absorbItem_refusals_le (c : Chart) (i : Item) (rest : List Item) :
    (c.absorbItem i).2.tally.refusals ≤ (c.absorbItems (i :: rest)).2.tally.refusals := by
  rw [absorbItems]
  generalize c.absorbItem i = result
  obtain ⟨outcome, c₁⟩ := result
  rcases outcome with e | progress | progress
  · exact Nat.le_refl _
  · exact (absorbItems_returns rest).refusals_le
  · exact Nat.le_refl _

theorem absorbItems_of_done
    {i : Item}
    (h : (c.absorbItem i).1 = .ok .done)
    (rest : List Item) :
    c.absorbItems (i :: rest) = (c.absorbItem i).2.absorbItems rest := by
  rw [absorbItems]
  generalize c.absorbItem i = result at h ⊢
  obtain ⟨outcome, c₁⟩ := result
  cases h
  rfl

theorem absorbItem_renaming
    (hkind : c.grammar.kind = .renaming)
    (i : Item) :
    c.absorbItem i = c.rename i := by
  rw [absorbItem, hkind]

theorem absorbItem_feeding
    (hkind : c.grammar.kind ≠ .renaming)
    (i : Item) :
    c.absorbItem i =
      if i.concept = unrecognized then (.ok .done, c)
      else feedEach (fun c s => c.feedAs (some s) i.toToken) c
        (c.grammar.meaningsOf i.concept) := by
  unfold absorbItem
  split
  · rename_i h
    exact absurd h hkind
  · rfl
  · rfl

/-- Selecting refuses nothing. -/
theorem refusals_absorb (c sub : Chart) :
    (c.absorb sub).2.tally.refusals = (c.absorbItems sub.outward).2.tally.refusals := by
  unfold absorb
  generalize c.absorbItems sub.outward = result
  obtain ⟨outcome, c₁⟩ := result
  rcases outcome with e | progress | progress <;> rfl

theorem absorb_of_done
    {sub : Chart}
    (h : (c.absorbItems sub.outward).1 = .ok .done) :
    c.absorb sub = (.ok (), (c.absorbItems sub.outward).2.select.2) := by
  unfold absorb
  generalize c.absorbItems sub.outward = result at h ⊢
  obtain ⟨outcome, c₁⟩ := result
  cases h
  rfl

end Walking

section Renaming

/-- What an item that is posted without being connected adds to a chart. -/
structure SightedAs (c : Chart) (symbol : Option SymbolId) (t : Token) (c' : Chart) : Prop where
  grammar : c'.grammar = c.grammar
  settings : c'.settings = c.settings
  item : ∃ pool, c'.items = c.items.push { Item.shownAs symbol t pool with registered := true }
  leaf : c'.candidates.size ≤ c.candidates.size + 1
  bare : ∀ x, c'.candidate x = c.candidate x ∨ (c'.candidate x).slots = .empty
  aggregates : c'.aggregateCount = c.aggregateCount
  tally : ∃ n m, c'.tally = { c.tally with items := n, candidates := m }

theorem slots_leafAs?
    {symbol : Option SymbolId}
    {x : Candidate}
    (h : c.leafAs? symbol t = some x) :
    x.slots = .empty := by
  obtain ⟨id, -, hleaf⟩ := Option.bind_eq_some_iff.1 h
  obtain ⟨s, -, rfl⟩ := Option.map_eq_some_iff.1 hleaf
  rfl

theorem sightedAs_unpostedAs (c : Chart) (symbol : Option SymbolId) (t : Token) :
    c.SightedAs symbol t ((c.unpostedAs symbol t).register c.nextItem) := by
  unfold unpostedAs
  cases hleaf : c.leafAs? symbol t with
  | none =>
    obtain ⟨b, p, l, m, f, e, heq⟩ := register_last
      (d := c.pushItem (.shownAs symbol t [])) (c := c) rfl rfl
    refine ⟨?_, ?_, ⟨[], ?_⟩, ?_, fun x => ?_, ?_, ?_⟩ <;> dsimp only <;> rw [heq]
    · rfl
    · rfl
    · exact Nat.le_succ _
    · exact Or.inl rfl
    · rfl
    · exact ⟨_, _, rfl⟩
  | some x =>
    obtain ⟨b, p, l, m, f, e, heq⟩ := register_last
      (d := (c.pushItem (.shownAs symbol t [c.nextCandidate])).pushCandidate x) (c := c) rfl rfl
    refine ⟨?_, ?_, ⟨[c.nextCandidate], ?_⟩, ?_, fun y => ?_, ?_, ?_⟩ <;> dsimp only <;> rw [heq]
    · rfl
    · rfl
    · exact Nat.le_of_eq (size_candidates_pushCandidate c x)
    · change (c.pushCandidate x).candidate y = _ ∨ ((c.pushCandidate x).candidate y).slots = _
      rw [candidate_pushCandidate]
      split
      · exact Or.inr (slots_leafAs? hleaf)
      · exact Or.inl rfl
    · rfl
    · exact ⟨_, _, rfl⟩

/-- A renaming grammar's chart holds an item for each one taken over, and nothing is connected. -/
structure Renamed (g : Grammar) (s : Settings) (taken : List Item) (c : Chart) : Prop where
  grammar : c.grammar = g
  settings : c.settings = s
  items : List.Forall₂ (Item.Renames g) taken c.items.toList
  leaves : c.candidates.size ≤ taken.length
  bare : ∀ x, (c.candidate x).slots = .empty
  aggregates : c.aggregateCount = 0
  connections : c.tally.connections = 0
  attempts : c.tally.attempts = 0

theorem renamed_new (g : Grammar) (s : Settings) :
    Renamed g s [] (new g s) where
  grammar := rfl
  settings := rfl
  items := .nil
  leaves := Nat.le_refl _
  bare x := by
    rw [candidate_of_size_le (Nat.zero_le _)]
    rfl
  aggregates := rfl
  connections := rfl
  attempts := rfl

variable {items done : List Item} {i : Item}

theorem Renamed.add
    (h : Renamed g s done c)
    (hsighted : c.SightedAs (g.meaningsOf i.concept).head? i.toToken c') :
    Renamed g s (done ++ [i]) c' := by
  obtain ⟨pool, hitem⟩ := hsighted.item
  obtain ⟨n, m, htally⟩ := hsighted.tally
  refine ⟨hsighted.grammar.trans h.grammar, hsighted.settings.trans h.settings, ?_, ?_, fun x => ?_,
    hsighted.aggregates.trans h.aggregates, ?_, ?_⟩
  · rw [hitem, Array.toList_push]
    exact List.rel_append h.items (.cons rfl .nil)
  · rw [List.length_append]
    exact Nat.le_trans hsighted.leaf (Nat.succ_le_succ h.leaves)
  · rcases hsighted.bare x with heq | hempty
    · rw [heq]
      exact h.bare x
    · exact hempty
  · rw [htally]
    exact h.connections
  · rw [htally]
    exact h.attempts

/-- An item is renamed as a whole, or cut. -/
theorem rename_outcome (c : Chart) (i : Item) :
    c.rename i = (.ok .done,
        (c.unpostedAs ((c.grammar.meaningsOf i.concept).head?.filter fun s => s ≠ unrecognized)
          i.toToken).register c.nextItem) ∨
      c.Cut (c.rename i).2 := by
  have hmake := c.makeItem_outcome (c.grammar.meaningsOf i.concept).head? i.toToken
  rcases c.rename_cases i with ⟨⟨e, herror⟩, heq⟩ | ⟨c₁, hmade, heq⟩
  · rcases hmake with hmade | ⟨reserve, c₂, hcut, hc₂⟩
    · rw [hmade] at herror
      cases herror
    · rw [heq, hcut]
      exact Or.inr hc₂
  · rcases hmake with hmake | ⟨reserve, c₂, hcut, -⟩
    · rw [hmade] at hmake
      rw [heq, (Prod.mk.inj hmake).2]
      exact Or.inl rfl
    · rw [hmade] at hcut
      cases hcut

theorem Renamed.rename
    (h : Renamed g s done c)
    (hmeant : g.Meant)
    (i : Item) :
    (c.rename i).1 = .ok .done ∧ (c.rename i).2.tally.refusals = c.tally.refusals ∧
        Renamed g s (done ++ [i]) (c.rename i).2 ∨
      c.Cut (c.rename i).2 := by
  have houtcome := c.rename_outcome i
  have hsighted := sightedAs_unpostedAs c (g.meaningsOf i.concept).head? i.toToken
  obtain ⟨n, m, htally⟩ := hsighted.tally
  rw [h.grammar, hmeant.filter_head?] at houtcome
  refine houtcome.imp_left fun heq => ?_
  rw [heq]
  exact ⟨rfl, by rw [htally], h.add hsighted⟩

/-- Unless something is refused, every item is renamed. -/
theorem absorbItems_renamed
    (hkind : g.kind = .renaming)
    (hmeant : g.Meant)
    (h : Renamed g s done c)
    (hroom : (c.absorbItems items).2.tally.refusals = c.tally.refusals) :
    (c.absorbItems items).1 = .ok .done ∧ Renamed g s (done ++ items) (c.absorbItems items).2 := by
  induction items generalizing c done with
  | nil => exact ⟨rfl, by rwa [List.append_nil]⟩
  | cons i rest ih =>
    have hitem := absorbItem_renaming (h.grammar ▸ hkind) i
    rcases h.rename hmeant i with ⟨hdone, hrefusals, hrenamed⟩ | hcut
    · rw [← hitem] at hdone hrefusals hrenamed
      rw [absorbItems_of_done hdone, ← hrefusals] at hroom
      rw [absorbItems_of_done hdone, List.append_cons]
      exact ih hrenamed hroom
    · have hlt := hcut.exhausts.refusals_lt
      have hle := absorbItem_refusals_le c i rest
      rw [hitem] at hle
      omega

/-- Where there is a place for each item and for its leaf, nothing is refused. -/
theorem absorbItems_has_room
    (hkind : g.kind = .renaming)
    (hmeant : g.Meant)
    (h : Renamed g s done c)
    (hitems : done.length + items.length ≤ s.itemCapacity)
    (hleaves : done.length + items.length ≤ s.candidateCapacity) :
    (c.absorbItems items).2.tally.refusals = c.tally.refusals := by
  -- Each item that has been renamed has taken one place, and at most one for its leaf.
  induction items generalizing c done with
  | nil => rfl
  | cons i rest ih =>
    rw [List.length_cons] at hitems hleaves
    have hitem := absorbItem_renaming (h.grammar ▸ hkind) i
    rcases h.rename hmeant i with ⟨hdone, hrefusals, hrenamed⟩ | hcut
    · rw [← hitem] at hdone hrefusals hrenamed
      rw [absorbItems_of_done hdone, ← hrefusals]
      refine ih hrenamed ?_ ?_ <;> rw [List.length_append, List.length_singleton] <;> omega
    · have hsize : c.items.size = done.length := h.items.length_eq.symm
      refine absurd hcut (not_cut_of_room ?_ ?_)
      · rw [plainItems, h.settings, hsize, h.aggregates]
        omega
      · rw [h.settings]
        have hleaf := h.leaves
        omega

end Renaming

section Feeding

/-- The tokens are taken one after the other, each as an instance of its symbol. -/
inductive IsFed : Chart → List (SymbolId × Token) → Chart → Prop
  | nil (c : Chart) : IsFed c [] c
  | cons
      {c c₁ c' : Chart}
      {k : SymbolId}
      {t : Token}
      {u : ItemId}
      {rest : List (SymbolId × Token)}
      (htaken : c.feedAs (some k) t = (.ok u, c₁))
      (hrest : IsFed c₁ rest c') :
      IsFed c ((k, t) :: rest) c'

theorem IsFed.append
    {first rest : List (SymbolId × Token)}
    (h : IsFed c first c')
    (k : IsFed c' rest c'') :
    IsFed c (first ++ rest) c'' := by
  induction h with
  | nil => exact k
  | cons htaken _ ih => exact .cons htaken (ih k)

theorem grammar_feedAs (c : Chart) (symbol : Option SymbolId) (t : Token) :
    (c.feedAs symbol t).2.grammar = c.grammar ∧ (c.feedAs symbol t).2.settings = c.settings :=
  ((compositional_acts False).feedAs c (fun h => h.elim) t).grammar

theorem IsFed.grammar
    {entries : List (SymbolId × Token)}
    (h : IsFed c entries c') :
    c'.grammar = c.grammar ∧ c'.settings = c.settings := by
  induction h with
  | nil => exact ⟨rfl, rfl⟩
  | @cons c c₁ c' k t u rest htaken _ ih =>
    have hfirst := grammar_feedAs c (some k) t
    rw [htaken] at hfirst
    exact ⟨ih.1.trans hfirst.1, ih.2.trans hfirst.2⟩

/-- Unless something is refused, a token is taken once for each symbol. -/
theorem feedEach_isFed
    (hwindow : t.stop ≤ c.settings.window)
    (symbols : List SymbolId)
    (hroom : (feedEach (fun c k => c.feedAs (some k) t) c symbols).2.tally.refusals =
      c.tally.refusals) :
    (feedEach (fun c k => c.feedAs (some k) t) c symbols).1 = .ok .done ∧
      IsFed c (symbols.map fun k => (k, t))
        (feedEach (fun c k => c.feedAs (some k) t) c symbols).2 := by
  induction symbols generalizing c with
  | nil => exact ⟨rfl, .nil c⟩
  | cons k rest ih =>
    have hreturns := feedAs_returns c (some k) t
    have hgrammar := grammar_feedAs c (some k) t
    have hexhausts := fun e => feedAs_exhausts (c := c) (t := t) (e := e) (some k)
    have htaken : ∀ u c₁, c.feedAs (some k) t = (.ok u, c₁) → ∀ {rest c'}, IsFed c₁ rest c' →
        IsFed c ((k, t) :: rest) c' := fun u c₁ h _ _ hrest => .cons h hrest
    unfold feedEach at hroom ⊢
    generalize c.feedAs (some k) t = result at hreturns hgrammar hexhausts htaken hroom ⊢
    obtain ⟨outcome, c₁⟩ := result
    cases outcome with
    | ok u =>
      have hrest := feedEach_returns (c := c₁) (fun c k => c.feedAs (some k) t)
        (fun c k => feedAs_returns c (some k) t) rest
      have hrefusals : c₁.tally.refusals = c.tally.refusals :=
        Nat.le_antisymm (hroom ▸ hrest.refusals_le) hreturns.refusals_le
      obtain ⟨hdone, hfed⟩ := ih (c := c₁) (hgrammar.2 ▸ hwindow) (hroom.trans hrefusals.symm)
      exact ⟨hdone, htaken u c₁ rfl hfed⟩
    | error e =>
      rcases hexhausts e rfl with hout | ⟨hbeyond, -⟩
      · have hlt := hout.refusals_lt
        cases e <;> exact absurd hroom (Nat.ne_of_gt hlt)
      · omega

/-- What an item is fed as: nothing if it is unrecognized, else once for each meaning. -/
def tokensOf (g : Grammar) (i : Item) : List (SymbolId × Token) :=
  if i.concept = unrecognized then []
  else (g.meaningsOf i.concept).map fun k => (k, i.toToken)

theorem absorbItem_isFed
    (hkind : c.grammar.kind ≠ .renaming)
    {i : Item}
    (hwindow : i.stop ≤ c.settings.window)
    (hroom : (c.absorbItem i).2.tally.refusals = c.tally.refusals) :
    (c.absorbItem i).1 = .ok .done ∧ IsFed c (tokensOf c.grammar i) (c.absorbItem i).2 := by
  rw [absorbItem_feeding hkind] at hroom ⊢
  unfold tokensOf
  by_cases hconcept : i.concept = unrecognized
  · rw [if_pos hconcept, if_pos hconcept]
    exact ⟨rfl, .nil c⟩
  · rw [if_neg hconcept] at hroom
    rw [if_neg hconcept, if_neg hconcept]
    exact feedEach_isFed (t := i.toToken) hwindow _ hroom

/-- Unless something is refused, every item is fed. -/
theorem absorbItems_isFed
    {items : List Item}
    (hkind : c.grammar.kind ≠ .renaming)
    (hwindow : ∀ i ∈ items, i.stop ≤ c.settings.window)
    (hroom : (c.absorbItems items).2.tally.refusals = c.tally.refusals) :
    (c.absorbItems items).1 = .ok .done ∧
      IsFed c (items.flatMap (tokensOf c.grammar)) (c.absorbItems items).2 := by
  induction items generalizing c with
  | nil => exact ⟨rfl, .nil c⟩
  | cons i rest ih =>
    rw [List.forall_mem_cons] at hwindow
    have hrefusals : (c.absorbItem i).2.tally.refusals = c.tally.refusals :=
      Nat.le_antisymm (hroom ▸ absorbItem_refusals_le c i rest)
        (absorbItem_returns c i).refusals_le
    obtain ⟨hdone, hfirst⟩ := absorbItem_isFed hkind hwindow.1 hrefusals
    obtain ⟨hgrammar, hsettings⟩ := hfirst.grammar
    rw [absorbItems_of_done hdone, ← hrefusals] at hroom
    rw [absorbItems_of_done hdone, List.flatMap_cons]
    obtain ⟨hrest, hfed⟩ := ih (hgrammar ▸ hkind) (hsettings ▸ hwindow.2) hroom
    rw [hgrammar] at hfed
    exact ⟨hrest, hfirst.append hfed⟩

end Feeding

section Absorbing

/-- The recognized items of some, once with each meaning of their concepts. -/
def tokensFor (c : Chart) (g : Grammar) (ids : List ItemId) : List (SymbolId × Token) :=
  (ids.filter fun u => (c.recognized? u).isSome).flatMap fun u =>
    (g.meaningsOf (c.item u).concept).map fun k => (k, (c.item u).toToken)

theorem Arranged.tokensFor
    (h : Arranged c)
    (g : Grammar)
    (ids : List ItemId) :
    c.tokensFor g ids = (ids.map c.item).flatMap (tokensOf g) := by
  have hrecognized : ∀ u, (c.recognized? u).isSome = true ↔ (c.item u).concept ≠ unrecognized := by
    intro u
    rw [h.named u, recognized?]
    cases (c.item u).symbol with
    | none => simp
    | some k => by_cases hk : k = unrecognized <;> simp [Option.filter, hk]
  induction ids with
  | nil => rfl
  | cons u rest ih =>
    rw [List.map_cons, List.flatMap_cons, ← ih, tokensOf, Chart.tokensFor, List.filter_cons]
    by_cases hu : (c.item u).concept = unrecognized
    · have hnone : ¬ (c.recognized? u).isSome = true := fun hsome => (hrecognized u).1 hsome hu
      rw [if_neg hnone, if_pos hu]
      rfl
    · rw [if_pos ((hrecognized u).2 hu), if_neg hu]
      rfl

/-- Where there is a place for each item and for its leaf, nothing is refused. -/
theorem absorb_has_room
    {d : Declaration}
    {sub : Chart}
    (hresolve : d.resolve = .ok g)
    (hkind : g.kind = .renaming)
    (hitems : sub.outward.length ≤ s.itemCapacity)
    (hleaves : sub.outward.length ≤ s.candidateCapacity) :
    ((new g s).absorb sub).2.tally.refusals = 0 := by
  rw [refusals_absorb]
  exact absorbItems_has_room hkind (Declaration.meant_of_resolve hresolve) (renamed_new g s)
    (by simpa using hitems) (by simpa using hleaves)

/--
A fresh chart that absorbs another one takes over each registered item that was seen, is
no aggregate and stands by position, once and in the order of the positions. It renames
all of them, or is fed the recognized ones, once for each meaning of their concepts.
-/
theorem absorb_takes_over
    {d ds : Declaration}
    {gs : Grammar}
    {ss : Settings}
    {sub : Chart}
    (hresolve : d.resolve = .ok g)
    (hsource : ds.resolve = .ok gs)
    (hrun : Streamed gs ss sub)
    (hwindow : ∀ u, (sub.item u).registered = true → (sub.item u).present = true →
      (sub.item u).stop ≤ s.window)
    (hroom : ((new g s).absorb sub).2.tally.refusals = 0) :
    ((new g s).absorb sub).1 = .ok () ∧ ∃ ids, Outward sub ids ∧
      (g.kind = .renaming → Renamed g s (ids.map sub.item) ((new g s).absorb sub).2) ∧
      (g.kind ≠ .renaming → ∃ c, IsFed (new g s) (sub.tokensFor g ids) c ∧
        ((new g s).absorb sub).2 = c.select.2) := by
  have houtward : Outward sub sub.outwardIds := .of_streamed hsource hrun
  rw [refusals_absorb] at hroom
  by_cases hkind : g.kind = .renaming
  · obtain ⟨hall, hrenamed⟩ := absorbItems_renamed hkind (Declaration.meant_of_resolve hresolve)
      (renamed_new g s) hroom
    rw [outward_eq] at hrenamed
    rw [absorb_of_done hall, outward_eq]
    exact ⟨rfl, _, houtward, fun _ => ⟨hrenamed.grammar, hrenamed.settings, hrenamed.items,
      hrenamed.leaves, hrenamed.bare, hrenamed.aggregates, hrenamed.connections,
      hrenamed.attempts⟩, fun h => absurd hkind h⟩
  · have hwithin : ∀ i ∈ sub.outward, i.stop ≤ (new g s).settings.window := by
      intro i hi
      rw [outward_eq] at hi
      obtain ⟨u, hu, rfl⟩ := List.mem_map.1 hi
      obtain ⟨hregistered, hpresent, -⟩ := (houtward.mem u).1 hu
      exact hwindow u hregistered hpresent
    obtain ⟨hall, hfed⟩ := absorbItems_isFed hkind hwithin hroom
    rw [absorb_of_done hall]
    refine ⟨rfl, _, houtward, fun h => absurd h hkind, fun _ => ⟨_, ?_, rfl⟩⟩
    rw [hrun.driven.arranged.tokensFor, ← outward_eq]
    exact hfed

/-- A word and a separator. -/
def stoppedDeclaration : Declaration :=
  { symbols := [{ name := "word" }, { name := "stop", kind := .separator }] }

/-- Both concepts get a name. -/
def renamingDeclaration : Declaration :=
  { kind := .renaming, symbols := [{ name := "name" }], meanings := [(1, "name"), (2, "name")] }

/-- A word with a separator behind it. -/
def stoppedChart : Chart :=
  (Input.feed { concept := 2, position := 1, extent := 1 }).apply
    ((Input.feed { concept := 1, position := 0, extent := 1 }).apply
      (new stoppedDeclaration.built {}))

/-- Names are given to a word and a separator. -/
def absorbedStop : Except ChartError Unit × Chart :=
  (new renamingDeclaration.built {}).absorb stoppedChart

/-- A word is taken over under a renaming grammar, and under one that is fed. -/
theorem absorb_takes_over_sample :
    Streamed stoppedDeclaration.built {} stoppedChart ∧ absorbedStop.2.tally.refusals = 0 ∧
      absorbedStop.1 = .ok () ∧ (∃ ids, Outward stoppedChart ids ∧
        Renamed renamingDeclaration.built {} (ids.map stoppedChart.item) absorbedStop.2) ∧
      ∃ ids c, Outward stoppedChart ids ∧ IsFed (new namingDeclaration.built {})
        (stoppedChart.tokensFor namingDeclaration.built ids) c := by
  have hsource := Declaration.resolve_eq_built (d := stoppedDeclaration) (by decide +kernel)
  have hnaming := Declaration.resolve_eq_built (d := namingDeclaration) (by decide +kernel)
  have hrenaming := Declaration.resolve_eq_built (d := renamingDeclaration) (by decide +kernel)
  have hrun : Streamed stoppedDeclaration.built {} stoppedChart :=
    .input (.input .new (.feed _) rfl) (.feed _) rfl
  have hroom : absorbedStop.2.tally.refusals = 0 :=
    absorb_has_room hrenaming (by decide +kernel) (by decide +kernel) (by decide +kernel)
  have hwindow : ∀ u, (stoppedChart.item u).registered = true →
      (stoppedChart.item u).present = true → (stoppedChart.item u).stop ≤ 256 := by
    have hfilled : stoppedChart.filled ≤ 256 := by decide +kernel
    intro u hregistered hpresent
    have hlisted := (hrun.listed (Declaration.total_of_resolve hsource)).2
    exact Nat.le_trans (hlisted.filled_ge u hregistered hpresent) hfilled
  obtain ⟨hok, ids, hids, hrenamed, -⟩ := absorb_takes_over (s := {}) hrenaming hsource hrun
    hwindow hroom
  obtain ⟨-, more, hmore, -, hfed⟩ := absorb_takes_over (s := {}) hnaming hsource hrun hwindow
    (by decide +kernel)
  obtain ⟨c, hc, -⟩ := hfed (by decide +kernel)
  exact ⟨hrun, hroom, hok, ⟨ids, hids, hrenamed (by decide +kernel)⟩, more, c, hmore, hc⟩

/-- Of the word and the separator, both registered and seen, only the word is taken over. -/
theorem absorb_drops_separator :
    (∀ u ∈ [⟨0⟩, ⟨1⟩], (stoppedChart.item u).registered = true ∧
        (stoppedChart.item u).present = true ∧ (stoppedChart.item u).isAggregate = false) ∧
      absorbedStop.1 = .ok () ∧ absorbedStop.2.tally.refusals = 0 ∧
      absorbedStop.2.items.size = 1 := by
  decide +kernel

end Absorbing

end Chart

end BeamChart
