import BeamChart.Proofs.Chart.Input
import BeamChart.Proofs.Grammar.Built

/-!
# Runs

A chart can be driven by input alone, or operated on directly, with items and
candidates that it has given out before. Either way it only moves, so what every
move keeps holds after any sequence of operations (`Operated.invariant`,
`Driven.invariant`). In a chart that is driven by input all moves are strict.
-/

namespace BeamChart

/-- What a chart is driven by. -/
inductive Input where
  | feed (t : Token)
  | absorb (sub : Chart)
  | lookup (table : PhraseTable) (atoms : List Token)
  | select
  | reset

namespace Input

/-- The chart after an input, taken or refused. -/
def apply (c : Chart) : Input → Chart
  | feed t => (c.feed t).2
  | absorb sub => (c.absorb sub).2
  | lookup table atoms => (table.lookup atoms c).2
  | select => c.select.2
  | reset => c.reset

end Input

/-- What can be done with a chart from outside. -/
inductive Operation where
  | input (i : Input)
  | allocate
  | instantiate (u : ItemId) (symbol : Option SymbolId) (t : Token)
  | register (u : ItemId)
  | connect (u : ItemId)
  | fulfil (u : ItemId) (s : SymbolId)
  | takeOver (u placeholder : ItemId) (s : SymbolId)
  | seekParents (u : ItemId) (s : SymbolId)
  | seekParent (u : ItemId) (level : SymbolId) (rule : Rule SymbolId)
  | offer (parent child : ItemId) (rule : Rule SymbolId)
  | attach (parent child : CandidateId) (rule : Rule SymbolId)
  | detach (x : CandidateId) (child : ItemId)

namespace Operation

/-- The chart after an operation, done or refused. -/
def apply (c : Chart) : Operation → Chart
  | input i => i.apply c
  | allocate => c.allocateItem.2
  | instantiate u symbol t => (c.instantiate u symbol t).2
  | register u => c.register u
  | connect u => c.connect u
  | fulfil u s => c.fulfil u s
  | takeOver u placeholder s => c.takeOver u placeholder s
  | seekParents u s => c.seekParents u s
  | seekParent u level rule => c.seekParent u level rule
  | offer parent child rule => (c.offer parent child rule).2
  | attach parent child rule => (c.attach parent child rule).2
  | detach x child => (c.detach x child).2

/-- What an operation fills, joins or takes apart has been stored. -/
def Names (c : Chart) : Operation → Prop
  | instantiate u _ _ => u.index < c.items.size
  | attach parent child _ => c.Has parent ∧ c.Has child
  | detach x _ => c.Has x
  | _ => True

instance (c : Chart) (op : Operation) : Decidable (op.Names c) := by
  cases op <;> unfold Names <;> unfold Chart.Has <;> infer_instance

end Operation

namespace Chart

variable {g : Grammar} {s : Settings} {c c' : Chart}

/-- The charts that input leads to. -/
inductive Driven (g : Grammar) (s : Settings) : Chart → Prop
  | new : Driven g s (new g s)
  | input
      {c : Chart}
      (h : Driven g s c)
      (i : Input) :
      Driven g s (i.apply c)

/-- The charts that operations lead to. -/
inductive Operated (g : Grammar) (s : Settings) : Chart → Prop
  | new : Operated g s (new g s)
  | operation
      {c : Chart}
      (h : Operated g s c)
      (op : Operation)
      (hnames : op.Names c) :
      Operated g s (op.apply c)

theorem Driven.operated
    (h : Driven g s c) :
    Operated g s c := by
  induction h with
  | new => exact .new
  | input _ i ih => exact .operation ih (.input i) trivial

section Moving

variable {strict : Prop}

theorem Move.grammar
    (h : Move strict c c') :
    c'.grammar = c.grammar ∧ c'.settings = c.settings := by
  cases h with
  | step h => exact ⟨h.grows.grammar, h.grows.settings⟩
  | fix => exact ⟨rfl, rfl⟩
  | refill => exact ⟨rfl, rfl⟩

theorem Advances.grammar
    (h : Advances strict c c') :
    c'.grammar = c.grammar := by
  induction h with
  | refl => rfl
  | tail _ h ih => exact h.move.grammar.1.trans ih

/-- What a chart of a grammar and settings keeps in every move. -/
structure Kept
    (strict : Prop)
    (g : Grammar)
    (s : Settings)
    (P : Chart → Prop)
    (c : Chart) : Prop where
  grammar : c.grammar = g
  settings : c.settings = s
  sound : Sound strict c
  holds : P c

variable {P : Chart → Prop}

theorem Kept.moves
    (hk : Kept strict g s P c)
    (hmove : ∀ c c', c.grammar = g → c.settings = s → Sound strict c → P c →
      Move strict c c' → P c')
    (h : Moves strict c c') :
    Kept strict g s P c' := by
  induction h with
  | refl => exact hk
  | tail _ h ih =>
    exact
      { grammar := h.grammar.1.trans ih.grammar
        settings := h.grammar.2.trans ih.settings
        sound := h.sound ih.sound
        holds := hmove _ _ ih.grammar ih.settings ih.sound ih.holds h }

/-- An input advances the chart, unless it is a reset. -/
theorem Input.apply_advances
    (hc : Sound strict c)
    (i : Input)
    (hi : i ≠ .reset) :
    Advances strict c (i.apply c) := by
  cases i with
  | feed t => exact feed_advances hc t
  | absorb sub => exact absorb_advances hc sub
  | lookup table atoms => exact lookup_advances table atoms hc
  | select => exact .single (.step .select)
  | reset => exact absurd rfl hi

/-- An input resets the chart, or moves it. -/
theorem Input.apply_cases
    (hc : Sound strict c)
    (i : Input) :
    i.apply c = c.reset ∨ Moves strict c (i.apply c) := by
  by_cases hi : i = .reset
  · rw [hi]
    exact Or.inl rfl
  · exact Or.inr (Input.apply_advances hc i hi).moves

/-- An operation advances the chart, unless it is a reset or fills an item by hand. -/
theorem Operation.apply_advances
    (hc : Sound False c)
    (op : Operation)
    (hnames : op.Names c)
    (hop : op ≠ .input .reset)
    (hfill : ∀ u symbol t, op ≠ .instantiate u symbol t) :
    Advances False c (op.apply c) := by
  cases op with
  | input i => exact Input.apply_advances hc i fun h => hop (by rw [h])
  | allocate =>
    rcases allocateItem_cases c with ⟨hroom, heq⟩ | heq
    · rw [Operation.apply, heq]
      exact .single (.step (.allocateItem hroom))
    · rw [Operation.apply, heq]
      exact (evolves_refused c).advances
  | instantiate u symbol t => exact absurd rfl (hfill u symbol t)
  | register u => exact .single (.step .register)
  | connect u => exact (connect_evolves c u hc).advances
  | fulfil u s => exact (fulfilWith_evolves connect_evolves hc (fun h => h.elim)).advances
  | takeOver u placeholder s =>
    exact (takeOverWith_evolves connect_evolves hc placeholder (fun h => h.elim)).advances
  | seekParents u s =>
    exact (seekParentsWith_evolves connect_evolves hc (fun h => h.elim)).advances
  | seekParent u level rule =>
    exact (seekParentWith_evolves connect_evolves hc (fun h => h.elim)).advances
  | offer parent child rule =>
    exact (offerWith_evolves connect_evolves hc (fun h => h.elim)).advances
  | attach parent child rule =>
    exact (attach_spec rule hc ⟨hnames.1, rfl⟩ ⟨hnames.2, rfl⟩ False.elim False.elim).1.advances
  | detach x child => exact (detach_spec hnames (fun h => h.elim)).1.advances

/-- An operation moves the chart, unless it is a reset. -/
theorem Operation.apply_moves
    (hc : Sound False c)
    (op : Operation)
    (hnames : op.Names c)
    (hop : op ≠ .input .reset) :
    Moves False c (op.apply c) := by
  by_cases hfill : ∃ u symbol t, op = .instantiate u symbol t
  · obtain ⟨u, symbol, t, rfl⟩ := hfill
    exact instantiate_moves id hnames symbol t
  · exact (Operation.apply_advances hc op hnames hop
      fun u symbol t h => hfill ⟨u, symbol, t, h⟩).moves

/-- An operation resets the chart, or moves it. -/
theorem Operation.apply_cases
    (hc : Sound False c)
    (op : Operation)
    (hnames : op.Names c) :
    op.apply c = c.reset ∨ Moves False c (op.apply c) := by
  by_cases hop : op = .input .reset
  · rw [hop]
    exact Or.inl rfl
  · exact Or.inr (Operation.apply_moves hc op hnames hop)

end Moving

theorem Driven.invariant
    {P : Chart → Prop}
    (hnew : P (Chart.new g s))
    (hmove : ∀ c c', c.grammar = g → c.settings = s → Sound True c → P c →
      Move True c c' → P c')
    (h : Driven g s c) :
    Kept True g s P c := by
  have hstart : Kept True g s P (Chart.new g s) := ⟨rfl, rfl, sound_new True g s, hnew⟩
  induction h with
  | new => exact hstart
  | @input c _ i ih =>
    rcases Input.apply_cases ih.sound i with heq | hmoves
    · rw [heq, reset_eq_new, ih.grammar, ih.settings]
      exact hstart
    · exact ih.moves hmove hmoves

theorem Operated.invariant
    {P : Chart → Prop}
    (hnew : P (Chart.new g s))
    (hmove : ∀ c c', c.grammar = g → c.settings = s → Sound False c → P c →
      Move False c c' → P c')
    (h : Operated g s c) :
    Kept False g s P c := by
  have hstart : Kept False g s P (Chart.new g s) := ⟨rfl, rfl, sound_new False g s, hnew⟩
  induction h with
  | new => exact hstart
  | @operation c _ op hnames ih =>
    rcases Operation.apply_cases ih.sound op hnames with heq | hmoves
    · rw [heq, reset_eq_new, ih.grammar, ih.settings]
      exact hstart
    · exact ih.moves hmove hmoves

/-- Input leaves the grammar and the settings, and a sound chart. -/
theorem Driven.kept
    (h : Driven g s c) :
    Kept True g s (fun _ => True) c :=
  h.invariant trivial fun _ _ _ _ _ _ _ => trivial

/-- Operations leave the grammar and the settings, and a sound chart. -/
theorem Operated.kept
    (h : Operated g s c) :
    Kept False g s (fun _ => True) c :=
  h.invariant trivial fun _ _ _ _ _ _ _ => trivial

section Feeds

/-- The chart after some tokens, each taken or refused. -/
def feeds (c : Chart) (tokens : List Token) : Chart :=
  tokens.foldl (fun c t => (c.feed t).2) c

theorem driven_feeds
    (h : Driven g s c)
    (tokens : List Token) :
    Driven g s (c.feeds tokens) := by
  unfold feeds
  induction tokens generalizing c with
  | nil => exact h
  | cons t rest ih => exact ih (.input h (.feed t))

end Feeds

section Runs

/-- The chart after some operations, each done or refused. -/
def operate (c : Chart) (ops : List Operation) : Chart :=
  ops.foldl (fun c op => op.apply c) c

/-- Each of some operations meets a condition on the chart that it is done in. -/
def Throughout (P : Operation → Chart → Prop) (c : Chart) : List Operation → Prop
  | [] => True
  | op :: rest => P op c ∧ (op.apply c).Throughout P rest

instance decidableThroughout
    (P : Operation → Chart → Prop)
    [∀ op c, Decidable (P op c)]
    (c : Chart)
    (ops : List Operation) :
    Decidable (c.Throughout P ops) :=
  match ops with
  | [] => isTrue trivial
  | op :: rest =>
    have := decidableThroughout P (op.apply c) rest
    inferInstanceAs (Decidable (P op c ∧ (op.apply c).Throughout P rest))

theorem Operated.operate
    (h : Operated g s c)
    {ops : List Operation}
    (hnames : c.Throughout (fun op c => op.Names c) ops) :
    Operated g s (c.operate ops) := by
  induction ops generalizing c with
  | nil => exact h
  | cons op rest ih => exact ih (.operation h op hnames.1) hnames.2

end Runs

section Sample

/-- One symbol that takes another one as its property. -/
def sampleDeclaration : Declaration :=
  { symbols :=
      [{ name := "head", rules := [{ relation := .property, target := "mark" }] },
        { name := "mark" }] }

def sampleGrammar : Grammar :=
  match sampleDeclaration.resolve with
  | .ok g => g
  | .error _ => { name := "", kind := .operational, symbols := #[] }

theorem resolve_sampleDeclaration :
    sampleDeclaration.resolve = .ok sampleGrammar :=
  Declaration.resolve_eq_built (by decide +kernel)

/-- The first symbol has taken the second one behind it. -/
def sampleChart : Chart :=
  (Input.feed { concept := 2, position := 1, extent := 1 }).apply
    ((Input.feed { concept := 1, position := 0, extent := 1 }).apply (new sampleGrammar {}))

theorem driven_sampleChart :
    Driven sampleGrammar {} sampleChart :=
  .input (.input .new _) _

end Sample

end Chart

end BeamChart
