import BeamChart.Proofs.Chart.Growth
import BeamChart.Proofs.Chart.Posted
import BeamChart.Proofs.Grammar.Built

/-!
# What an input keeps of the pools before it

A candidate leaves a pool only for a heavier one, unless it holds the very item
that its root is offered. So the pools from before an input do not get worse as
long as none of them is offered what it already holds. This module follows one
input through the chart and shows that it is so, for grammars in which a symbol
seeks its parents in different buckets and takes nothing at an inner level of a
tower (`Grammar.Orderly`).

The first `n` items and `m` candidates are those from before the input.
`Chart.Poised` is the invariant in the midst of it: an aggregate that is still to
be connected is new, and no old pool holds it. `Chart.Raises` says what an
operation does to the old pools, and `Chart.Passes` adds that nothing is left to
be passed on. Both name the items that may have been taken into old pools
(`given`), apart from new ones and from aggregates that had been waiting.
-/

namespace BeamChart

namespace Grammar

/-- The parent rules of a symbol under every relation but the superclass one. -/
def parentRules (g : Grammar) (s : SymbolId) : List (Rule SymbolId) :=
  match g.symbol? s with
  | none => []
  | some d => (Relation.all.filter fun r => r ≠ .subclass).flatMap d.parentsAt

/-- The buckets in which some levels of a symbol seek parents. -/
def bucketsSought (g : Grammar) (levels : List SymbolId) : List SymbolId :=
  levels.flatMap fun level => (g.parentRules level).map fun rule => g.bucketOf rule.target

/--
No symbol seeks its parents twice in a bucket, and only the outermost level of a
tower takes children.
-/
structure Orderly (g : Grammar) : Prop where
  buckets : ∀ entry ∈ g.symbols.toList, (g.bucketsSought (g.ancestry entry.id).reverse).Nodup
  towers : ∀ entry ∈ g.symbols.toList, ∀ tower ∈ entry.composition,
    ∀ inner ∈ tower.levels.tail, ∀ e ∈ g.symbol? inner.1, e.rules = []

instance (g : Grammar) : Decidable g.Orderly :=
  decidable_of_iff
    ((∀ entry ∈ g.symbols.toList, (g.bucketsSought (g.ancestry entry.id).reverse).Nodup) ∧
      ∀ entry ∈ g.symbols.toList, ∀ tower ∈ entry.composition,
        ∀ inner ∈ tower.levels.tail, ∀ e ∈ g.symbol? inner.1, e.rules = [])
    ⟨fun h => ⟨h.1, h.2⟩, fun h => ⟨h.buckets, h.towers⟩⟩

theorem mem_symbols
    {g : Grammar}
    {s : SymbolId}
    {entry : Symbol}
    (h : g.symbol? s = some entry) :
    entry ∈ g.symbols.toList :=
  Array.mem_toList_iff.2 (Array.mem_of_getElem? h)

end Grammar

namespace Chart

variable {n m : Nat} {given : ItemId → ItemId → Prop}
variable {c c' c'' : Chart} {u v a : ItemId} {x : CandidateId}

section Passing

/-- A candidate that has been passed on once is not passed on again. -/
theorem Step.pending
    {strict : Prop}
    (h : Step strict c c')
    (hx : c.Has x)
    (hpending : (c'.candidate x).pending = true) :
    (c.candidate x).pending = true := by
  cases h with
  | store =>
    rw [candidate_pushCandidate, if_neg (ne_nextCandidate hx)] at hpending
    exact hpending
  | wrap =>
    rw [enclose, candidate_modifyCandidate] at hpending
    split at hpending
    · rename_i hy
      rw [hy.1]
      exact hpending
    · exact hpending
  | settle =>
    rw [Chart.settle, candidate_modifyCandidate] at hpending
    split at hpending
    · cases hpending
    · exact hpending
  | @register u =>
    rcases register_cases c u with ⟨heq, -⟩ | ⟨b, p, d, m, f, t, -, heq⟩ <;>
      rw [heq] at hpending <;> exact hpending
  | _ => exact hpending

theorem Evolves.pending
    {strict : Prop}
    (h : Evolves strict c c')
    (hx : c.Has x)
    (hpending : (c'.candidate x).pending = true) :
    (c.candidate x).pending = true := by
  induction h with
  | refl => exact hpending
  | tail hsteps hstep ih =>
    exact ih (hstep.pending ((Evolves.grows hsteps).has hx) hpending)

/-- Some candidate of the pool holds the other item. -/
def Carries (c : Chart) (u v : ItemId) : Prop :=
  ∃ x ∈ (c.item u).pool, ∃ r, c.Holds x r v

/-- The aggregate of a new candidate is still to be connected. -/
def Waiting (m : Nat) (c : Chart) (a : ItemId) : Prop :=
  ∃ x : CandidateId, m ≤ x.index ∧ (c.candidate x).pending = true ∧
    (c.candidate x).wrapper = some a

/-- What covers something in the pool is matched by what does so in the later one. -/
def Matched (c c' : Chart) (u : ItemId) : Prop :=
  ∀ x ∈ (c.item u).pool, (c.candidate x).isEmpty = false →
    ∃ y ∈ (c'.item u).pool, (c'.candidate y).isEmpty = false ∧ c.weightOf x ≤ c'.weightOf y

theorem Matched.trans
    (h : Matched c c' u)
    (k : Matched c' c'' u) :
    Matched c c'' u := by
  intro x hx hfull
  obtain ⟨y, hy, hyfull, hxy⟩ := h x hx hfull
  obtain ⟨z, hz, hzfull, hyz⟩ := k y hy hyfull
  exact ⟨z, hz, hzfull, Weight.le_trans hxy hyz⟩

theorem Carries.lt
    (h : c.Carries u v)
    (hc : Closed c) :
    v.index < c.items.size := by
  obtain ⟨x, hx, r, s, hs, rfl⟩ := h
  exact hc.root _ (hc.has_child (hc.has_of_mem hx) hs)

theorem Carries.of_pool_eq
    (h : c'.Carries u v)
    (hc : Closed c)
    (hext : Extends c c')
    (hpool : (c'.item u).pool = (c.item u).pool) :
    c.Carries u v := by
  obtain ⟨x, hx, r, hholds⟩ := h
  rw [hpool] at hx
  exact ⟨x, hx, r, (holds_iff_of_extends hc (hc.has_of_mem hx) hext).1 hholds⟩

/-- What holds of a chart at any time, and does not speak of an input. -/
structure Steady (c : Chart) : Prop where
  sound : Sound True c
  marked : Marked c
  posted : Posted c
  width : 1 ≤ c.settings.beamWidth
  orderly : c.grammar.Orderly
  floating : ∀ u, (c.item u).fixedParent ≠ none → (c.item u).present = true ∧
    ∀ s entry, (c.item u).symbol = some s → c.grammar.symbol? s = some entry → entry.rules = []

theorem Evolves.steady
    (h : Evolves True c c')
    (hc : Steady c) :
    Steady c' where
  sound := h.sound hc.sound
  marked := h.marked hc.marked
  posted := h.posted hc.posted
  width := by
    rw [h.grows.settings]
    exact hc.width
  orderly := by
    rw [h.grows.grammar]
    exact hc.orderly
  floating u hu := by
    rw [h.fixedParent] at hu
    obtain ⟨hpresent, hrules⟩ := hc.floating u hu
    refine ⟨h.grows.present u hpresent, fun s entry hs hentry => ?_⟩
    rw [h.grows.symbol_eq hpresent] at hs
    rw [h.grows.grammar] at hentry
    exact hrules s entry hs hentry

/-- The invariant in the midst of an input. -/
structure Poised (n m : Nat) (c : Chart) : Prop extends Steady c where
  items_le : n ≤ c.items.size
  candidates_le : m ≤ c.candidates.size
  recent : ∀ u, ∀ x ∈ (c.item u).pool, (c.candidate x).pending = true →
    ∀ a, (c.candidate x).wrapper = some a → m ≤ x.index
  young : ∀ x : CandidateId, m ≤ x.index → ∀ a, (c.candidate x).wrapper = some a → n ≤ a.index
  free : ∀ a, Waiting m c a → ∀ u, u.index < n → ¬ c.Carries u a

/-- No old pool gets worse, and what is new in old pools has been given. -/
structure Raises
    (n m : Nat)
    (given : ItemId → ItemId → Prop)
    (c c' : Chart) : Prop where
  steps : Evolves True c c'
  best : ∀ u, u.index < n → Matched c c' u
  wrapper : ∀ x a, (c'.candidate x).wrapper = some a →
    (c.candidate x).wrapper = some a ∨ ¬ c.Has x ∧ c.items.size ≤ a.index
  carries : ∀ u v, u.index < n → c'.Carries u v → c.Carries u v ∨
    (given u v ∨ c.items.size ≤ v.index ∨ Waiting m c v) ∧ ¬ Waiting m c' v

/-- Nothing is left to pass on that was not there before. -/
structure Passes
    (n m : Nat)
    (given : ItemId → ItemId → Prop)
    (c c' : Chart) : Prop extends Raises n m given c c' where
  quiet : ∀ u, ∀ x ∈ (c'.item u).pool, (c'.candidate x).pending = true →
    ∀ a, (c'.candidate x).wrapper = some a →
    x ∈ (c.item u).pool ∧ (c.candidate x).pending = true ∧ (c.candidate x).wrapper = some a

/-- Nothing but what has been given already. -/
abbrev Nothing : ItemId → ItemId → Prop := fun _ _ => False

theorem Raises.waiting
    (h : Raises n m given c c')
    (ha : Waiting m c' a) :
    Waiting m c a ∨ c.items.size ≤ a.index := by
  obtain ⟨x, hx, hpending, hwrapper⟩ := ha
  rcases h.wrapper x a hwrapper with hold | ⟨-, hnew⟩
  · exact Or.inl ⟨x, hx, h.steps.pending (has_of_wrapper hold) hpending, hold⟩
  · exact Or.inr hnew

theorem Raises.poised
    (h : Raises n m given c c')
    (hc : Poised n m c)
    (hrecent : ∀ u, ∀ x ∈ (c'.item u).pool, (c'.candidate x).pending = true →
      ∀ a, (c'.candidate x).wrapper = some a → m ≤ x.index) :
    Poised n m c' where
  toSteady := h.steps.steady hc.toSteady
  items_le := Nat.le_trans hc.items_le h.steps.grows.items_le
  candidates_le := Nat.le_trans hc.candidates_le h.steps.grows.candidates_le
  recent := hrecent
  young x hx a ha := by
    rcases h.wrapper x a ha with hold | ⟨-, hnew⟩
    · exact hc.young x hx a hold
    · exact Nat.le_trans hc.items_le hnew
  free a ha u hu hcarries := by
    rcases h.carries u a hu hcarries with hold | ⟨-, hidle⟩
    · rcases h.waiting ha with hwaiting | hnew
      · exact hc.free a hwaiting u hu hold
      · exact Nat.not_lt_of_le hnew (hold.lt hc.sound.closed)
    · exact hidle ha

theorem Passes.poised
    (h : Passes n m given c c')
    (hc : Poised n m c) :
    Poised n m c' :=
  h.toRaises.poised hc fun u x hx hpending a ha => by
    obtain ⟨hmem, hold, hwrapper⟩ := h.quiet u x hx hpending a ha
    exact hc.recent u x hmem hold a hwrapper

/-- Two operations in a row; what the second one gives may have been waiting for it. -/
theorem Raises.trans
    {more : ItemId → ItemId → Prop}
    (h : Raises n m given c c')
    (k : Raises n m more c' c'')
    (hc : Poised n m c)
    (hmore : ∀ u v, more u v → given u v ∨ c.items.size ≤ v.index ∨ Waiting m c v) :
    Raises n m given c c'' where
  steps := h.steps.trans k.steps
  best u hu := (h.best u hu).trans (k.best u hu)
  wrapper x a ha := by
    rcases k.wrapper x a ha with hold | ⟨hx, hnew⟩
    · exact h.wrapper x a hold
    · exact Or.inr ⟨fun hhas => hx (h.steps.grows.has hhas),
        Nat.le_trans h.steps.grows.items_le hnew⟩
  carries u v hu hcarries := by
    rcases k.carries u v hu hcarries with hmid | ⟨hgiven, hidle⟩
    · rcases h.carries u v hu hmid with hold | ⟨hgiven, hidle⟩
      · exact Or.inl hold
      · refine Or.inr ⟨hgiven, fun hwaiting => ?_⟩
        rcases k.waiting hwaiting with hlater | hnew
        · exact hidle hlater
        · exact Nat.not_lt_of_le hnew (hmid.lt (h.steps.sound hc.sound).closed)
    · refine Or.inr ⟨?_, hidle⟩
      rcases hgiven with hgiven | hnew | hwaiting
      · exact hmore u v hgiven
      · exact Or.inr (Or.inl (Nat.le_trans h.steps.grows.items_le hnew))
      · rcases h.waiting hwaiting with hearlier | hnew
        · exact Or.inr (Or.inr hearlier)
        · exact Or.inr (Or.inl hnew)

theorem Passes.trans
    {more : ItemId → ItemId → Prop}
    (h : Passes n m given c c')
    (k : Passes n m more c' c'')
    (hc : Poised n m c)
    (hmore : ∀ u v, more u v → given u v ∨ c.items.size ≤ v.index ∨ Waiting m c v) :
    Passes n m given c c'' where
  toRaises := h.toRaises.trans k.toRaises hc hmore
  quiet u x hx hpending a ha := by
    obtain ⟨hmem, hmid, hwrapper⟩ := k.quiet u x hx hpending a ha
    exact h.quiet u x hmem hmid a hwrapper

/-- An operation that gives as the one before it. -/
theorem Passes.then
    (h : Passes n m given c c')
    (k : Passes n m given c' c'')
    (hc : Poised n m c) :
    Passes n m given c c'' :=
  h.trans k hc fun _ _ hgiven => Or.inl hgiven

theorem Passes.weaken
    {more : ItemId → ItemId → Prop}
    (h : Passes n m given c c')
    (hmore : ∀ u v, given u v → more u v) :
    Passes n m more c c' where
  steps := h.steps
  best := h.best
  wrapper := h.wrapper
  carries u v hu hcarries := (h.carries u v hu hcarries).imp_right fun ⟨hgiven, hidle⟩ =>
    ⟨hgiven.imp_left (hmore u v), hidle⟩
  quiet := h.quiet

/-- What leaves the old pools alone gives nothing. -/
theorem passes_of_pools
    (hc : Poised n m c)
    (hsteps : Evolves True c c')
    (hpool : ∀ u, (c'.item u).pool = (c.item u).pool ∨ n ≤ u.index ∧
      ∀ x ∈ (c'.item u).pool, x ∈ (c.item u).pool ∨
        (c'.candidate x).wrapper = none ∨ (c'.candidate x).pending = false)
    (hwrapper : ∀ x a, (c'.candidate x).wrapper = some a →
      (c.candidate x).wrapper = some a ∨ ¬ c.Has x ∧ c.items.size ≤ a.index) :
    Passes n m given c c' where
  steps := hsteps
  best u hu x hx hfull := by
    have hold : (c'.item u).pool = (c.item u).pool :=
      (hpool u).resolve_right fun h => Nat.not_lt_of_le h.1 hu
    have hcongruent := hsteps.grows.congruent (hc.sound.closed.has_of_mem hx)
    refine ⟨x, by rw [hold]; exact hx, ?_, ?_⟩
    · rw [Candidate.isEmpty, hcongruent.2.2.2.2]
      exact hfull
    · rw [weightOf, weightOf, hcongruent.2.1]
      exact Weight.le_refl _
  wrapper := hwrapper
  carries u v hu h := by
    refine Or.inl (h.of_pool_eq hc.sound.closed hsteps.grows ?_)
    exact (hpool u).resolve_right fun h => Nat.not_lt_of_le h.1 hu
  quiet u x hx hpending a ha := by
    have hcalm : x ∈ (c.item u).pool ∨
        (c'.candidate x).wrapper = none ∨ (c'.candidate x).pending = false := by
      rcases hpool u with hold | ⟨-, hmember⟩
      · rw [hold] at hx
        exact Or.inl hx
      · exact hmember x hx
    rcases hcalm with hmem | hnone | hsettled
    · have hhas := hc.sound.closed.has_of_mem hmem
      exact ⟨hmem, hsteps.pending hhas hpending,
        (hwrapper x a ha).resolve_right fun h => h.1 hhas⟩
    · rw [hnone] at ha
      cases ha
    · rw [hsettled] at hpending
      cases hpending

theorem Adds.wrapper_cases
    (h : Adds c c')
    (x : CandidateId)
    (a : ItemId)
    (ha : (c'.candidate x).wrapper = some a) :
    (c.candidate x).wrapper = some a ∨ ¬ c.Has x ∧ c.items.size ≤ a.index := by
  by_cases hx : c.Has x
  · rw [h.candidate x hx] at ha
    exact Or.inl ha
  · exact Or.inr ⟨hx, h.wrapper x a hx ha⟩

theorem Adds.passes
    (h : Adds c c')
    (hc : Poised n m c)
    (hsteps : Evolves True c c') :
    Passes n m given c c' := by
  refine passes_of_pools hc hsteps (fun u => ?_) h.wrapper_cases
  by_cases hu : u.index < c.items.size
  · exact Or.inl (h.pool u hu)
  · have hle := Nat.le_of_not_lt hu
    exact Or.inr ⟨Nat.le_trans hc.items_le hle, fun x hx => Or.inr (h.calm u hle x hx).2⟩

theorem passes_refl (hc : Poised n m c) :
    Passes n m given c c :=
  (Adds.refl c).passes hc (.refl c)

theorem passes_register
    (hc : Poised n m c)
    (u : ItemId) :
    Passes n m given c (c.register u) :=
  (Adds.register c u).passes hc (.single .register)

theorem passes_refused (hc : Poised n m c) :
    Passes n m given c c.refused :=
  (Adds.count c _).passes hc (evolves_refused c)

theorem passes_settle
    (hc : Poised n m c)
    (x : CandidateId) :
    Passes n m given c (c.settle x) := by
  refine passes_of_pools hc (.single .settle) (fun u => Or.inl rfl) fun y a ha => ?_
  rw [settle, candidate_modifyCandidate] at ha
  split at ha
  · rename_i hy
    rw [hy.1]
    exact Or.inl ha
  · exact Or.inl ha

end Passing

end Chart

/-- Connecting a new item that no old pool holds may give it to old pools. -/
def Connector.Raising (n m : Nat) (connect : Connector) : Prop :=
  ∀ (c : Chart) (u : ItemId), Chart.Poised n m c → n ≤ u.index → u.index < c.items.size →
    ¬ Chart.Waiting m c u → (∀ w : ItemId, w.index < n → ¬ c.Carries w u) →
    Chart.Passes n m (fun _ v => v = u) c (connect c u)

namespace Chart

variable {n m : Nat} {given : ItemId → ItemId → Prop}
variable {c c' c'' : Chart} {u v a : ItemId} {x : CandidateId}

section Offering

variable {connect : Connector}

/-- An aggregate that has been waiting is connected. -/
theorem passes_admit
    (hconnect : connect.Raising n m)
    (hc : Poised n m c)
    (hx : m ≤ x.index)
    (hpending : (c.candidate x).pending = true)
    (hwrapper : (c.candidate x).wrapper = some a) :
    Passes n m Nothing c (admitWith connect (c.settle x) a) ∧
      ((admitWith connect (c.settle x) a).candidate x).pending = false := by
  have hsettle : Passes n m Nothing c (c.settle x) := passes_settle hc x
  have hc₁ : Poised n m (c.settle x) := hsettle.poised hc
  have hwaiting : Waiting m c a := ⟨x, hx, hpending, hwrapper⟩
  have hsettled : ((c.settle x).candidate x).pending = false := by
    rw [settle, candidate_modifyCandidate_self _ (has_of_wrapper hwrapper)]
  have hmarked : ((c.settle x).candidate x).wrapper = some a :=
    hsettle.steps.grows.wrapper x a hwrapper
  unfold admitWith
  split
  · exact ⟨hsettle, hsettled⟩
  · have hpassed : Passes n m (fun _ v => v = a) (c.settle x) (connect (c.settle x) a) := by
      refine hconnect (c.settle x) a hc₁ (hc.young x hx a hwrapper)
        (lt_size_of_present (hc₁.marked.present x a hmarked)) ?_ fun w hw hcarries => ?_
      · rintro ⟨y, hy, hstill, hother⟩
        rw [hc₁.marked.unique y x a hother hmarked, hsettled] at hstill
        cases hstill
      · exact hc.free a hwaiting w hw
          (hcarries.of_pool_eq hc.sound.closed hsettle.steps.grows rfl)
    have hall := hpassed.then (passes_register (hpassed.poised hc₁) a) hc₁
    refine ⟨hsettle.trans hall hc fun _ v hv => Or.inr (Or.inr (hv ▸ hwaiting)),
      eq_false_of_ne_true fun hstill => ?_⟩
    rw [hall.steps.pending (hsettle.steps.grows.has (has_of_wrapper hwrapper)) hstill] at hsettled
    cases hsettled

/-- All of a list is passed on, and nothing of it is pending any more. -/
theorem passes_passOn
    (hconnect : connect.Raising n m)
    (pool : List CandidateId)
    (hc : Poised n m c)
    (hpool : ∀ x ∈ pool, c.Has x ∧ ((c.candidate x).pending = true →
      ∀ a, (c.candidate x).wrapper = some a → m ≤ x.index)) :
    Passes n m Nothing c (passOnWith connect none c pool) ∧
      ∀ x ∈ pool, ((passOnWith connect none c pool).candidate x).pending = false := by
  induction pool generalizing c with
  | nil => exact ⟨passes_refl hc, fun x hx => by cases hx⟩
  | cons x rest ih =>
    obtain ⟨hx, hrecent⟩ := hpool x List.mem_cons_self
    have hfirst : ∀ c', Passes n m Nothing c c' → (c'.candidate x).pending = false →
        Passes n m Nothing c (passOnWith connect none c' rest) ∧
          ∀ y ∈ x :: rest, ((passOnWith connect none c' rest).candidate y).pending = false := by
      intro c' hpassed hsettled
      have hc' : Poised n m c' := hpassed.poised hc
      obtain ⟨htail, hrest⟩ := ih hc' fun y hy => by
        obtain ⟨hhas, hyrecent⟩ := hpool y (List.mem_cons_of_mem x hy)
        refine ⟨hpassed.steps.grows.has hhas, fun hpending a ha => ?_⟩
        exact hyrecent (hpassed.steps.pending hhas hpending) a
          ((hpassed.wrapper y a ha).resolve_right fun h => h.1 hhas)
      refine ⟨hpassed.then htail hc, fun y hy => ?_⟩
      rcases List.mem_cons.1 hy with rfl | hmem
      · refine eq_false_of_ne_true fun hpending => ?_
        rw [htail.steps.pending (hpassed.steps.grows.has hx) hpending] at hsettled
        cases hsettled
      · exact hrest y hmem
    have hsettled : ((c.settle x).candidate x).pending = false := by
      rw [settle, candidate_modifyCandidate_self _ hx]
    unfold passOnWith
    split
    · rename_i hpending
      split
      · rename_i a hwrapper
        obtain ⟨hfits, hpassed⟩ :=
          passes_admit hconnect hc (hrecent hpending a hwrapper) hpending hwrapper
        exact hfirst _ hfits hpassed
      · rename_i f hnone
        cases hnone
      · exact hfirst _ (passes_settle hc x) hsettled
    · rename_i hquiet
      exact hfirst c (passes_refl hc) (eq_false_of_ne_true hquiet)

/-- What a parent has been offered stays where it was, or is new and holds the child. -/
theorem raises_setPool
    {rule : Rule SymbolId}
    {existing staged : List CandidateId}
    {changed : Bool}
    {c₁ c₂ : Chart}
    (hc : Poised n m c)
    (hoffered : Offered True c c₁ c₂ u v rule.relation existing changed staged)
    (hwritten : staged = [] → changed = true)
    (hadds : Adds c c₂)
    (hchild : v.index < c.items.size)
    (hold : u.index < n → given u v ∧ ¬ Waiting m c v ∧ existing = (c.item u).pool) :
    Raises n m given c (c₂.setPool u (c₂.beam (staged ++ existing))) := by
  have hsteps : Evolves True c c₂ := hoffered.detached.trans hoffered.attached
  have hpassed : Passes n m given c c₂ := hadds.passes hc hsteps
  have hother : ∀ w, w ≠ u →
      ((c₂.setPool u (c₂.beam (staged ++ existing))).item w).pool = (c₂.item w).pool :=
    fun w hw => congrArg Item.pool (item_modifyItem_of_ne _ hw.symm)
  have hpool : u.index < c₂.items.size →
      ((c₂.setPool u (c₂.beam (staged ++ existing))).item u).pool =
        c₂.beam (staged ++ existing) :=
    fun hlt => congrArg Item.pool (item_modifyItem_self _ hlt)
  refine ⟨hsteps.trans (hoffered.pooled fun _ => hwritten), fun w hw x hx hfull => ?_, hpassed.wrapper, ?_⟩
  · have hlt : w.index < c.items.size := Nat.lt_of_lt_of_le hw hc.items_le
    obtain ⟨y, hy, hyfull, hxy⟩ := hpassed.best w hw x hx hfull
    by_cases hwu : w = u
    · subst hwu
      have hmem : y ∈ (staged ++ existing).filter fun z => !(c₂.candidate z).isEmpty := by
        rw [List.mem_filter, (hold hw).2.2, List.mem_append]
        refine ⟨Or.inr ?_, by rw [hyfull]; rfl⟩
        rw [← hadds.pool w hlt]
        exact hy
      have hwidth : 1 ≤ c₂.settings.beamWidth := by
        rw [hsteps.grows.settings]
        exact hc.width
      obtain ⟨z, hz, hyz⟩ := Pool.exists_le_ofList hwidth hmem
      have hzfull : (c₂.candidate z).isEmpty = false := by
        simpa using (List.mem_filter.1 (Pool.mem_of_mem_ofList hz)).2
      refine ⟨z, ?_, hzfull, Weight.le_trans hxy hyz⟩
      rw [hpool (Nat.lt_of_lt_of_le hlt hadds.items_le)]
      exact hz
    · refine ⟨y, ?_, hyfull, hxy⟩
      rw [hother w hwu]
      exact hy
  · rintro w z hw ⟨y, hy, r, hholds⟩
    have hlt : w.index < c.items.size := Nat.lt_of_lt_of_le hw hc.items_le
    have hkept : ∀ y, y ∈ (c.item w).pool → c₂.Holds y r z → c.Carries w z := by
      intro y hy hholds
      exact ⟨y, hy, r, (holds_iff_of_extends hc.sound.closed (hc.sound.closed.has_of_mem hy)
        hsteps.grows).1 hholds⟩
    by_cases hwu : w = u
    · subst hwu
      obtain ⟨hgiven, hidle, heq⟩ := hold hw
      rw [hpool (Nat.lt_of_lt_of_le hlt hadds.items_le)] at hy
      rcases List.mem_append.1 (mem_of_mem_beam hy) with hnew | hmem
      · obtain ⟨x, hx, hgrown⟩ := hoffered.grown y hnew
        rcases (hgrown.holds r z).1 hholds with ⟨-, rfl⟩ | hparent
        · refine Or.inr ⟨Or.inl hgiven, fun hwaiting => ?_⟩
          rcases hpassed.waiting hwaiting with hearlier | hlate
          · exact hidle hearlier
          · exact Nat.not_lt_of_le hlate hchild
        · rw [heq] at hx
          refine Or.inl ⟨x, hx, r, ?_⟩
          exact (holds_iff_of_extends hc.sound.closed (hc.sound.closed.has_of_mem hx)
            hoffered.detached.grows).1 hparent
      · rw [heq] at hmem
        exact Or.inl (hkept y hmem hholds)
    · rw [hother w hwu, hadds.pool w hlt] at hy
      exact Or.inl (hkept y hy hholds)

/-- What an offer puts in a pool is new, or has been in it before. -/
theorem Offered.mem_or_new
    {strict : Prop}
    {rule : Rule SymbolId}
    {existing staged : List CandidateId}
    {changed : Bool}
    {c₁ c₂ : Chart}
    (hc : Closed c)
    (hoffered : Offered strict c c₁ c₂ u v rule.relation existing changed staged)
    (hadds : Adds c₁ c₂)
    (hdetach : c.detachAll v (c.item u).pool = (.ok (existing, changed), c₁)) :
    ∀ y ∈ staged ++ existing, c₂.Has y ∧
      (y ∈ (c.item u).pool ∨ ¬ c.Has y ∧ (y ∈ staged ∨ (c₂.candidate y).wrapper = none)) := by
  intro y hy
  rcases List.mem_append.1 hy with hnew | hold
  · obtain ⟨x, -, hgrown⟩ := hoffered.grown y hnew
    exact ⟨hgrown.has, Or.inr ⟨fun h => hgrown.new (hoffered.detached.grows.has h), Or.inl hnew⟩⟩
  · have hhas : c₁.Has y := (hoffered.rooted y hold).1
    have hkept := (adds_detachAll c v (c.item u).pool).2 (fun x hx => hc.has_of_mem hx)
    rw [hdetach] at hkept
    refine ⟨hadds.has hhas, (hkept existing changed rfl y hold).imp_right fun h => ⟨h.1, ?_⟩⟩
    rw [hadds.candidate y hhas]
    exact Or.inr h.2

/-- What holds in the new pool, and in every other one, holds in all pools. -/
theorem pools_setPool
    {pool : List CandidateId}
    {P : ItemId → CandidateId → Prop}
    (hself : ∀ x ∈ pool, P u x)
    (hother : ∀ w, w ≠ u → ∀ x ∈ (c.item w).pool, P w x) :
    ∀ w, ∀ x ∈ ((c.setPool u pool).item w).pool, P w x := by
  intro w x hx
  by_cases hw : w = u
  · subst hw
    rw [setPool, item_modifyItem] at hx
    split at hx
    · exact hself x hx
    · rename_i hout
      rw [item_of_size_le (Nat.le_of_not_lt fun hlt => hout ⟨rfl, hlt⟩)] at hx
      cases hx
  · rw [setPool, item_modifyItem_of_ne _ (Ne.symm hw)] at hx
    exact hother w hw x hx

/-- A parent at the top of its tower may be offered what its pool does not hold yet. -/
theorem passes_offer
    {rule : Rule SymbolId}
    (hconnect : connect.Raising n m)
    (hc : Poised n m c)
    (hlicensed : c.Licensed u v rule.relation)
    (hfree : (c.item u).fixedParent = none)
    (hold : u.index < n → given u v ∧ ¬ c.Carries u v ∧ ¬ Waiting m c v) :
    Passes n m given c (offerWith connect c u v rule).2 := by
  have hchild : v.index < c.items.size := lt_size_of_present hlicensed.child
  have hdetached := (detachAll_spec (v := v) (c.item u).pool hc.sound
    (hc.sound.closed.pool u) fun _ => ⟨rule.relation, hlicensed⟩).1
  have hadds₁ := (adds_detachAll c v (c.item u).pool).1
  unfold offerWith
  rcases hdetach : c.detachAll v (c.item u).pool with ⟨e | ⟨existing, changed⟩, c₁⟩
  · rw [hdetach] at hdetached hadds₁
    exact hadds₁.passes hc hdetached
  dsimp only
  rcases hstage : c₁.stage rule [] (existing.flatMap fun x => (c₁.item v).pool.map (x, ·))
    with ⟨staged, c₂⟩
  have hoffered := offered hc.sound (fun _ => hlicensed) hdetach hstage
  have hadds₂ := adds_stage c₁ rule [] (existing.flatMap fun x => (c₁.item v).pool.map (x, ·))
  rw [hdetach] at hadds₁
  rw [hstage] at hadds₂
  have hadds : Adds c c₂ := hadds₁.trans hadds₂
  have hpassed : Passes n m given c c₂ :=
    hadds.passes hc (hoffered.detached.trans hoffered.attached)
  have hwritten : (staged = [] → changed = true) →
      Raises n m given c (c₂.setPool u (c₂.beam (staged ++ existing))) := by
    intro hchanged
    refine raises_setPool hc hoffered hchanged hadds hchild
      fun hu => ⟨(hold hu).1, (hold hu).2.2, ?_⟩
    have hnone := detachAll_of_not_holds (v := v) (c.item u).pool
      fun x hx r hholds => (hold hu).2.1 ⟨x, hx, r, hholds⟩
    rw [hdetach] at hnone
    cases hnone
    rfl
  have hmember : ∀ x ∈ c₂.beam (staged ++ existing),
      (x ∈ (c.item u).pool ∧ c₂.candidate x = c.candidate x) ∨
        ¬ c.Has x ∧ (x ∈ staged ∨ (c₂.candidate x).wrapper = none) := by
    intro x hx
    refine (hoffered.mem_or_new hc.sound.closed hadds₂ hdetach x (mem_of_mem_beam hx)).2.imp_left
      fun hmem => ⟨hmem, hadds.candidate x (hc.sound.closed.has_of_mem hmem)⟩
  dsimp only
  split
  · -- Only what the pool has held of the child is given up.
    rename_i hempty
    dsimp only
    split
    · rename_i hchanged
      refine ⟨hwritten fun _ => hchanged, pools_setPool (fun x hx hpending a ha => ?_)
        fun w _ x hx => hpassed.quiet w x hx⟩
      rw [setPool, candidate_modifyItem] at hpending ha
      rcases hmember x hx with ⟨hmem, hcandidate⟩ | ⟨-, hstaged | hnone⟩
      · rw [hcandidate] at hpending ha
        exact ⟨hmem, hpending, ha⟩
      · rw [List.isEmpty_iff.1 hempty] at hstaged
        cases hstaged
      · rw [hnone] at ha
        cases ha
    · exact hpassed
  · rename_i hnew
    have hraises := hwritten fun hnone => absurd (List.isEmpty_iff.2 hnone) hnew
    have hc₃ : Poised n m (c₂.setPool u (c₂.beam (staged ++ existing))) := by
      refine hraises.poised hc (pools_setPool (fun x hx hpending a ha => ?_)
        fun w _ x hx => (hpassed.poised hc).recent w x hx)
      rw [setPool, candidate_modifyItem] at hpending ha
      rcases hmember x hx with ⟨hmem, hcandidate⟩ | ⟨hfresh, -⟩
      · rw [hcandidate] at hpending ha
        exact hc.recent u x hmem hpending a ha
      · exact Nat.le_trans hc.candidates_le (Nat.le_of_not_lt hfresh)
    have htop : ((c₂.setPool u (c₂.beam (staged ++ existing))).item u).fixedParent = none :=
      (hraises.steps.fixedParent u).trans hfree
    obtain ⟨hclimb, hsettled⟩ := passes_passOn hconnect
      (((c₂.setPool u (c₂.beam (staged ++ existing))).item u).pool) hc₃ fun x hx =>
        ⟨hc₃.sound.closed.has_of_mem hx, fun hpending => hc₃.recent u x hx hpending⟩
    rw [cascadeWith_of_top connect htop]
    refine ⟨hraises.trans hclimb.toRaises hc fun _ _ h => h.elim, fun w x hx hpending a ha => ?_⟩
    obtain ⟨hmem, hpending₃, ha₃⟩ := hclimb.quiet w x hx hpending a ha
    by_cases hw : w = u
    · subst hw
      rw [hsettled x hmem] at hpending
      cases hpending
    · rw [setPool, item_modifyItem_of_ne _ (Ne.symm hw)] at hmem
      exact hpassed.quiet w x hmem hpending₃ a ha₃

end Offering

end Chart

end BeamChart
