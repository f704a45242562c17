import BeamChart.Proofs.Chart.InputReturns
import BeamChart.Proofs.Relocation.Basic

/-!
# Charts that are relocations of each other

One chart relocates another one (`Chart.Relocates`) if it has the same candidates
and the same items, up to their places in the arena and the positions of the input.
It may have further items, of no symbol, that nothing refers to. The postings that
no operation reads are left out, and so is the tally where items are moved.

Everything that an operation does to a chart is one of the changes that are treated
here. `Chart.Mirrors` adds what has to be known of the chart that is relocated.
-/

namespace BeamChart

/-- Something is known of the place of an item. -/
def Item.located (i : Item) : Bool :=
  i.symbol.isSome || i.present || i.token.isSome

namespace Item

variable {i : Item}

theorem located_of_symbol
    {s : SymbolId}
    (h : i.symbol = some s) :
    i.located = true := by
  simp [located, h]

theorem located_of_present
    (h : i.present = true) :
    i.located = true := by
  simp [located, h]

end Item

namespace Relocation

variable (m : Relocation) (i : Item)

/-- An item at its new place; one that has no place yet has no position to move. -/
def moved : Item :=
  { i with
    position := if i.located then i.position + m.distance else i.position
    token := i.token.map m.token
    fixedParent := i.fixedParent.map m.link }

@[simp] theorem symbol_moved : (m.moved i).symbol = i.symbol := rfl

@[simp] theorem extent_moved : (m.moved i).extent = i.extent := rfl

@[simp] theorem present_moved : (m.moved i).present = i.present := rfl

@[simp] theorem registered_moved : (m.moved i).registered = i.registered := rfl

@[simp] theorem pool_moved : (m.moved i).pool = i.pool := rfl

@[simp] theorem fixedParent_moved :
    (m.moved i).fixedParent = i.fixedParent.map m.link := rfl

variable {i}

theorem position_moved
    (h : i.located = true) :
    (m.moved i).position = i.position + m.distance :=
  if_pos h

theorem stop_moved
    (h : i.located = true) :
    (m.moved i).stop = i.stop + m.distance := by
  rw [Item.stop, Item.stop, m.position_moved h, extent_moved]
  exact Nat.add_right_comm ..

end Relocation

namespace Chart

theorem tally_register (c : Chart) (u : ItemId) :
    (c.register u).tally = c.tally := by
  rcases register_cases c u with ⟨heq, -⟩ | ⟨b, p, d, k, f, t, -, heq⟩ <;> rw [heq]
  rfl

/-- The second chart has the items of the first one at other places, and nothing else. -/
structure Relocates (m : Relocation) (c c' : Chart) : Prop where
  grammar : c'.grammar = c.grammar
  settings : c'.settings = c.settings
  behind : ∀ n, m.place (c.items.size + n) = c'.items.size + n
  item : ∀ u, c'.item (m.item u) = m.moved (c.item u)
  spare : ∀ u, (∀ v, m.item v ≠ u) → (c'.item u).symbol = none
  candidates : c'.candidates.size = c.candidates.size
  candidate : ∀ x, c.Has x → c'.candidate x = m.candidate (c.candidate x)
  aggregateCount : c'.aggregateCount = c.aggregateCount
  bySymbol : c'.bySymbol = m.postings 0 c.bySymbol
  markers : c'.markers = m.postings m.distance c.markers
  tail : c'.tail = c.tail.map m.item
  depth : c'.depth = c.depth
  attempts : c'.tally.attempts = c.tally.attempts
  tally : m.Exact → c'.tally = c.tally

/-- Two operations come to the same outcome, in charts that are related. -/
inductive Agrees {α : Type} (R : Chart → Chart → Prop) : α × Chart → α × Chart → Prop
  | intro
      (outcome : α)
      (c c' : Chart)
      (h : R c c') :
      Agrees R (outcome, c) (outcome, c')

variable {m : Relocation} {c c' d d' : Chart} {u : ItemId}

namespace Relocates

theorem new
    (hexact : m.Exact)
    (g : Grammar)
    (s : Settings) :
    Relocates m (new g s) (new g s) where
  grammar := rfl
  settings := rfl
  behind n := hexact _
  item u := by
    rw [item_of_size_le (Nat.zero_le _), item_of_size_le (Nat.zero_le _)]
    rfl
  spare u hu := absurd (m.item_of_exact hexact u) (hu u)
  candidates := rfl
  candidate x hx := absurd hx (Nat.not_lt_zero _)
  aggregateCount := rfl
  bySymbol := rfl
  markers := rfl
  tail := rfl
  depth := rfl
  attempts := rfl
  tally _ := rfl

section Reading

theorem has
    (h : Relocates m c c')
    {x : CandidateId} :
    c'.Has x ↔ c.Has x := by
  rw [Has, Has, h.candidates]

theorem nextItem (h : Relocates m c c') :
    c'.nextItem = m.item c.nextItem :=
  congrArg ItemId.mk (h.behind 0).symm

theorem nextCandidate (h : Relocates m c c') :
    c'.nextCandidate = c.nextCandidate :=
  congrArg CandidateId.mk h.candidates

theorem candidatesFull (h : Relocates m c c') :
    c'.candidatesFull = c.candidatesFull := by
  rw [Chart.candidatesFull, Chart.candidatesFull, h.settings, h.candidates]

theorem size_le (h : Relocates m c c') :
    c.items.size ≤ c'.items.size :=
  Nat.le_trans (m.le_place _) (Nat.le_of_eq (h.behind 0))

theorem size_eq
    (h : Relocates m c c')
    (hexact : m.Exact) :
    c'.items.size = c.items.size :=
  (h.behind 0).symm.trans (hexact _)

theorem lt_size_iff (h : Relocates m c c') :
    (m.item u).index < c'.items.size ↔ u.index < c.items.size := by
  rw [show c'.items.size = m.place c.items.size from (h.behind 0).symm]
  exact m.increasing.lt_iff_lt

theorem symbol
    (h : Relocates m c c')
    (u : ItemId) :
    (c'.item (m.item u)).symbol = (c.item u).symbol := by
  rw [h.item, m.symbol_moved]

theorem present
    (h : Relocates m c c')
    (u : ItemId) :
    (c'.item (m.item u)).present = (c.item u).present := by
  rw [h.item, m.present_moved]

theorem pool
    (h : Relocates m c c')
    (u : ItemId) :
    (c'.item (m.item u)).pool = (c.item u).pool := by
  rw [h.item, m.pool_moved]

theorem recognized?
    (h : Relocates m c c')
    (u : ItemId) :
    c'.recognized? (m.item u) = c.recognized? u := by
  rw [Chart.recognized?, Chart.recognized?, h.symbol]

theorem kindOf
    (h : Relocates m c c')
    (s : SymbolId) :
    c'.kindOf s = c.kindOf s := by
  rw [Chart.kindOf, Chart.kindOf, h.grammar]

theorem itemsOf
    (h : Relocates m c c')
    (s : SymbolId) :
    c'.itemsOf s = (c.itemsOf s).map m.item := by
  rw [Chart.itemsOf, Chart.itemsOf, h.bySymbol, h.grammar]
  exact m.under_postings 0 c.bySymbol _

theorem weightOf
    (h : Relocates m c c')
    {x : CandidateId}
    (hx : c.Has x) :
    c'.weightOf x = c.weightOf x := by
  rw [Chart.weightOf, Chart.weightOf, h.candidate x hx, m.weight_candidate]

end Reading

section Changing

/-- Counting and nesting go on alike. -/
theorem note
    (h : Relocates m c c')
    {t t' : Tally}
    {depth depth' : Nat}
    (hdepth : depth' = depth)
    (hattempts : t'.attempts = t.attempts)
    (htally : m.Exact → t' = t) :
    Relocates m { c with tally := t, depth } { c' with tally := t', depth := depth' } :=
  { h with depth := hdepth, attempts := hattempts, tally := htally }

theorem count
    (h : Relocates m c c')
    {f : Tally → Tally}
    (hf : ∀ t t', t'.attempts = t.attempts → (f t').attempts = (f t).attempts) :
    Relocates m (c.count f) (c'.count f) :=
  h.note h.depth (hf _ _ h.attempts) fun hexact => congrArg f (h.tally hexact)

theorem refused (h : Relocates m c c') :
    Relocates m c.refused c'.refused :=
  h.count fun _ _ hattempts => hattempts

theorem pushCandidate
    (h : Relocates m c c')
    (x : Candidate) :
    Relocates m (c.pushCandidate x) (c'.pushCandidate (m.candidate x)) :=
  { h with
    candidates := by rw [size_candidates_pushCandidate, size_candidates_pushCandidate, h.candidates]
    candidate := fun y hy => by
      rw [candidate_pushCandidate, candidate_pushCandidate, h.nextCandidate]
      split
      · rfl
      · rename_i hne
        by_cases hold : c.Has y
        · exact h.candidate y hold
        · exact absurd (eq_nextCandidate hold hy) hne
    tally := fun hexact => by
      simp only [Chart.pushCandidate, h.tally hexact] }

/-- A candidate is stored, or refused, alike. -/
theorem store
    (h : Relocates m c c')
    (x : Candidate) :
    Agrees (Relocates m) (c.store x) (c'.store (m.candidate x)) := by
  rcases store_cases c x with ⟨hroom, heq⟩ | heq
  · have hroom' : c'.candidatesFull = false := h.candidatesFull.trans hroom
    have heq' : c'.store (m.candidate x) =
        (.ok c'.nextCandidate, c'.pushCandidate (m.candidate x)) := by
      rcases store_cases c' (m.candidate x) with ⟨-, heq'⟩ | heq'
      · exact heq'
      · simp [Chart.store, hroom'] at heq'
    rw [heq, heq', h.nextCandidate]
    exact ⟨_, _, _, h.pushCandidate x⟩
  · have hfull : c.candidatesFull = true := by
      by_contra hroom
      simp [Chart.store, hroom] at heq
    rw [heq, store_of_full (h.candidatesFull.trans hfull)]
    exact ⟨_, _, _, h.refused⟩

theorem pushItem
    (h : Relocates m c c')
    (i : Item) :
    Relocates m (c.pushItem i) (c'.pushItem (m.moved i)) :=
  { h with
    behind := fun n => by
      have hnext := h.behind (n + 1)
      simp only [Chart.pushItem, Array.size_push]
      rw [show c.items.size + 1 + n = c.items.size + (n + 1) by omega, hnext]
      omega
    item := fun u => by
      rw [item_pushItem, item_pushItem, h.nextItem]
      simp only [m.item_inj]
      split
      · rfl
      · exact h.item u
    spare := fun u hu => by
      rw [item_pushItem, h.nextItem, if_neg fun he => hu _ he.symm]
      exact h.spare u hu
    tally := fun hexact => by
      simp only [Chart.pushItem, h.tally hexact] }

theorem pushAggregate (h : Relocates m c c') :
    Relocates m c.pushAggregate c'.pushAggregate := by
  have hcounted : Relocates m { c with aggregateCount := c.aggregateCount + 1 }
      { c' with aggregateCount := c'.aggregateCount + 1 } :=
    { h with aggregateCount := congrArg (· + 1) h.aggregateCount }
  exact (hcounted.pushItem { isAggregate := true }).count fun _ _ hattempts => hattempts

/-- An aggregate is made, or refused, alike: other items do not count. -/
theorem allocateAggregate (h : Relocates m c c') :
    (c.allocateAggregate = (.ok c.nextItem, c.pushAggregate) ∧
      c'.allocateAggregate = (.ok (m.item c.nextItem), c'.pushAggregate)) ∨
    (c.allocateAggregate = (.error (.exhausted .aggregates), c.refused) ∧
      c'.allocateAggregate = (.error (.exhausted .aggregates), c'.refused)) := by
  by_cases hfull : c.settings.aggregateCapacity ≤ c.aggregateCount
  · right
    have hfull' : c'.settings.aggregateCapacity ≤ c'.aggregateCount := by
      rw [h.settings, h.aggregateCount]
      exact hfull
    exact ⟨allocateAggregate_of_full hfull, allocateAggregate_of_full hfull'⟩
  · left
    have hfull' : ¬ c'.settings.aggregateCapacity ≤ c'.aggregateCount := by
      rw [h.settings, h.aggregateCount]
      exact hfull
    rw [← h.nextItem]
    exact ⟨if_neg hfull, if_neg hfull'⟩

theorem modifyItem
    (h : Relocates m c c')
    {f f' : Item → Item}
    (hf : f' (m.moved (c.item u)) = m.moved (f (c.item u))) :
    Relocates m (c.modifyItem u f) (c'.modifyItem (m.item u) f') :=
  { h with
    behind := fun n => by
      rw [size_items_modifyItem, size_items_modifyItem]
      exact h.behind n
    item := fun v => by
      rw [item_modifyItem, item_modifyItem]
      simp only [m.item_inj, h.lt_size_iff, h.item]
      split
      · exact hf
      · rfl
    spare := fun v hv => by
      rw [item_modifyItem_of_ne f' (hv u)]
      exact h.spare v hv }

theorem setPool
    (h : Relocates m c c')
    (pool : List CandidateId) :
    Relocates m (c.setPool u pool) (c'.setPool (m.item u) pool) :=
  h.modifyItem rfl

theorem modifyCandidate
    (h : Relocates m c c')
    {x : CandidateId}
    {f f' : Candidate → Candidate}
    (hf : f' (m.candidate (c.candidate x)) = m.candidate (f (c.candidate x))) :
    Relocates m (c.modifyCandidate x f) (c'.modifyCandidate x f') :=
  { h with
    candidates := by
      rw [size_candidates_modifyCandidate, size_candidates_modifyCandidate, h.candidates]
    candidate := fun y hy => by
      have hold : c.Has y := by
        rw [Has, size_candidates_modifyCandidate] at hy
        exact hy
      rw [candidate_modifyCandidate, candidate_modifyCandidate, h.candidates]
      split
      · rename_i hx
        rw [h.candidate x hx.2]
        exact hf
      · exact h.candidate y hold }

theorem settle
    (h : Relocates m c c')
    (x : CandidateId) :
    Relocates m (c.settle x) (c'.settle x) :=
  h.modifyCandidate rfl

theorem markPresent
    (h : Relocates m c c')
    (hlocated : (c.item u).located = true) :
    Relocates m (c.markPresent u) (c'.markPresent (m.item u)) := by
  refine h.modifyItem ?_
  have hseen : ({ c.item u with present := true } : Item).located = true :=
    Item.located_of_present rfl
  simp only [Relocation.moved, hlocated, hseen, if_true]

/-- Only the postings of symbols and of markers are compared, and the tail. -/
theorem posted
    (h : Relocates m c c')
    {symbols symbols' positions positions' delimiters delimiters' markers markers' : Postings}
    {filled filled' : Nat}
    {tail tail' : Option ItemId}
    (hsymbols : symbols' = m.postings 0 symbols)
    (hmarkers : markers' = m.postings m.distance markers)
    (htail : tail' = tail.map m.item) :
    Relocates m
      { c with bySymbol := symbols, byPosition := positions, delimiters, markers, filled, tail }
      { c' with
        bySymbol := symbols'
        byPosition := positions'
        delimiters := delimiters'
        markers := markers'
        filled := filled'
        tail := tail' } :=
  { h with bySymbol := hsymbols, markers := hmarkers, tail := htail }

theorem postOrdinary
    (h : Relocates m c c')
    (u : ItemId)
    (s : SymbolId) :
    Relocates m (c.postOrdinary u s) (c'.postOrdinary (m.item u) s) := by
  have hadd : c'.bySymbol.add (c'.grammar.bucketOf s) (m.item u) =
      m.postings 0 (c.bySymbol.add (c.grammar.bucketOf s) u) := by
    rw [h.grammar, h.bySymbol]
    exact m.postings_add 0 c.bySymbol _ u
  have htail : (if c'.grammar.kind = .positional then some (m.item u) else c'.tail) =
      (if c.grammar.kind = .positional then some u else c.tail).map m.item := by
    rw [h.grammar, h.tail]
    split <;> rfl
  have hbucket : c'.grammar.bucketOf s < c'.grammar.size ↔
      c.grammar.bucketOf s < c.grammar.size := by
    rw [h.grammar]
  simp only [Chart.postOrdinary, h.present, hbucket]
  split <;> split
  · exact h.posted hadd h.markers htail
  · exact h.posted h.bySymbol h.markers htail
  · exact h.posted hadd h.markers h.tail
  · exact h

/-- An item is posted alike; a marker has a symbol, so it moves with its position. -/
theorem register
    (h : Relocates m c c')
    (u : ItemId) :
    Relocates m (c.register u) (c'.register (m.item u)) := by
  have hmarked : Relocates m (c.modifyItem u fun i => { i with registered := true })
      (c'.modifyItem (m.item u) fun i => { i with registered := true }) := h.modifyItem rfl
  have hsymbol : (c.modifyItem u fun i => { i with registered := true }).recognized? u =
      c.recognized? u := by
    rw [Chart.recognized?, Chart.recognized?, field_modifyItem Item.symbol rfl]
  unfold Chart.register
  simp only [h.item, m.registered_moved, m.present_moved]
  split
  · exact h
  · generalize hd : (if (c.item u).present = true then _ else _ : Chart) = d
    generalize hd' : (if (c.item u).present = true then _ else _ : Chart) = d'
    have hready : Relocates m d d' ∧ d.recognized? u = c.recognized? u := by
      rw [← hd, ← hd']
      split
      · exact ⟨hmarked.posted hmarked.bySymbol hmarked.markers hmarked.tail, hsymbol⟩
      · exact ⟨hmarked, hsymbol⟩
    obtain ⟨hready, hrecognized⟩ := hready
    rw [hready.recognized?]
    cases hs : d.recognized? u with
    | none => exact hready.posted hready.bySymbol hready.markers hready.tail
    | some s =>
      have hlocated : (c.item u).located = true :=
        Item.located_of_symbol (Option.filter_eq_some_iff.1 (hrecognized.symm.trans hs)).1
      have hmarkers : d'.markers.add (m.moved (c.item u)).position (m.item u) =
          m.postings m.distance (d.markers.add (c.item u).position u) := by
        rw [m.position_moved hlocated, hready.markers]
        exact m.postings_add m.distance d.markers _ u
      dsimp only
      rw [hready.kindOf]
      cases d.kindOf s with
      | ordinary => exact hready.postOrdinary u s
      | separator => exact hready.posted hready.bySymbol hready.markers hready.tail
      | groupMarker => exact hready.posted hready.bySymbol hmarkers hready.tail
      | alternationMarker => exact hready.posted hready.bySymbol hmarkers hready.tail

end Changing

end Relocates

section Grounding

/-- Markers have symbols, and fixed parents have been made later than their children. -/
structure Grounded (c : Chart) : Prop where
  sound : Sound False c
  markers : ∀ u ∈ c.markers.items, (c.item u).symbol.isSome
  fixedParent : ∀ u p r, (c.item u).fixedParent = some (p, r) →
    u.index < p.index ∧ p.index < c.items.size

theorem grounded_new (g : Grammar) (s : Settings) :
    Grounded (new g s) where
  sound := sound_new False g s
  markers u hu := by cases hu
  fixedParent u p r h := by
    rw [item_of_size_le (Nat.zero_le _)] at h
    cases h

theorem Step.grounded
    (h : Step False c d)
    (hc : Grounded c) :
    Grounded d where
  sound := h.sound hc.sound
  markers u hu := by
    obtain ⟨v, hposts⟩ := h.posts
    have hsymbol : (c.item u).symbol.isSome = true := by
      rcases hposts.markers u hu with hold | ⟨rfl, hsome⟩
      · exact hc.markers u hold
      · exact symbol_of_recognized hsome
    obtain ⟨s, hs⟩ := Option.isSome_iff_exists.1 hsymbol
    rw [h.grows.symbol hs]
    rfl
  fixedParent u p r hp := by
    rw [h.fixedParent u] at hp
    obtain ⟨hrises, hlt⟩ := hc.fixedParent u p r hp
    exact ⟨hrises, Nat.lt_of_lt_of_le hlt h.grows.items_le⟩

theorem Evolves.grounded
    (h : Evolves False c d)
    (hc : Grounded c) :
    Grounded d := by
  induction h with
  | refl => exact hc
  | tail _ hstep ih => exact hstep.grounded ih

/-- A tower may be put below a later item. -/
theorem Grounded.fix
    {below : ItemId}
    {r : Relation}
    (hc : Grounded c)
    (hnone : (c.item below).fixedParent = none)
    (hbelow : below.index < u.index)
    (hu : u.index < c.items.size)
    (hplain : (c.item u).isAggregate = false) :
    Grounded (c.modifyItem below fun i => { i with fixedParent := some (u, r) }) where
  sound := (Move.fix hnone hu hplain).sound hc.sound
  markers v hv := by
    rw [field_modifyItem Item.symbol rfl]
    exact hc.markers v hv
  fixedParent v p q hp := by
    rw [size_items_modifyItem]
    rw [item_modifyItem] at hp
    split at hp
    · rename_i hself
      obtain ⟨rfl, -⟩ := hself
      cases hp
      exact ⟨hbelow, hu⟩
    · exact hc.fixedParent v p q hp

end Grounding

/-- The second chart relocates the first one, which is grounded. -/
structure Mirrors (m : Relocation) (c c' : Chart) : Prop extends Relocates m c c' where
  grounded : Grounded c

namespace Mirrors

theorem new
    (hexact : m.Exact)
    (g : Grammar)
    (s : Settings) :
    Mirrors m (new g s) (new g s) :=
  ⟨.new hexact g s, grounded_new g s⟩

theorem sound (h : Mirrors m c c') :
    Sound False c :=
  h.grounded.sound

theorem closed (h : Mirrors m c c') :
    Closed c :=
  h.sound.closed

/-- Where the first chart takes steps, only the relocation is left to show. -/
theorem evolve
    (h : Mirrors m c c')
    (hsteps : Evolves False c d)
    (hd : Relocates m d d') :
    Mirrors m d d' :=
  ⟨hd, hsteps.grounded h.grounded⟩

theorem evolves
    {α : Type}
    {p p' : α × Chart}
    (h : Mirrors m c c')
    (hsteps : Evolves False c p.2)
    (hp : Agrees (Relocates m) p p') :
    Agrees (Mirrors m) p p' := by
  obtain ⟨outcome, d, d', hd⟩ := hp
  exact ⟨outcome, d, d', h.evolve hsteps hd⟩

end Mirrors

end Chart

/--
No allocation has been refused where items are moved, so the chart with more items
did not run out of room for them before the other one.
-/
def Relocation.Clean (m : Relocation) (c : Chart) : Prop :=
  m.Exact ∨ c.tally.refusals = 0

namespace Relocation.Clean

variable {m : Relocation} {c d : Chart}

theorem before
    (h : m.Clean d)
    (hreturns : Chart.Returns c d) :
    m.Clean c :=
  h.imp_right fun hnone => Nat.eq_zero_of_le_zero (hreturns.refusals_le.trans_eq hnone)

theorem of_register
    {u : ItemId}
    (h : m.Clean (c.register u)) :
    m.Clean c := by
  rwa [Clean, Chart.tally_register] at h

end Relocation.Clean

namespace Chart

variable {m : Relocation} {c c' : Chart}

/-- An item is made, or refused, alike. -/
theorem Relocates.allocateItem
    (h : Relocates m c c')
    (hclean : m.Clean c'.allocateItem.2) :
    (c.plainItems < c.settings.itemCapacity ∧
      c.allocateItem = (.ok c.nextItem, c.pushItem {}) ∧
      c'.allocateItem = (.ok (m.item c.nextItem), c'.pushItem {})) ∨
    (c.allocateItem = (.error (.exhausted .items), c.refused) ∧
      c'.allocateItem = (.error (.exhausted .items), c'.refused)) := by
  have hle : c.plainItems ≤ c'.plainItems := by
    rw [plainItems, plainItems, h.aggregateCount]
    exact Nat.sub_le_sub_right h.size_le _
  by_cases hfull : c'.settings.itemCapacity ≤ c'.plainItems
  · right
    rw [allocateItem_of_full hfull] at hclean ⊢
    have hexact : m.Exact := hclean.resolve_right (Nat.succ_ne_zero _)
    refine ⟨allocateItem_of_full ?_, rfl⟩
    rw [plainItems, h.settings, h.aggregateCount, h.size_eq hexact] at hfull
    exact hfull
  · left
    have hroom : c.plainItems < c.settings.itemCapacity := by
      rw [← h.settings]
      exact Nat.lt_of_le_of_lt hle (Nat.lt_of_not_le hfull)
    refine ⟨hroom, ?_, ?_⟩
    · rw [Chart.allocateItem, if_neg (Nat.not_le_of_lt hroom)]
    · rw [Chart.allocateItem, if_neg hfull, h.nextItem]

end Chart

end BeamChart
