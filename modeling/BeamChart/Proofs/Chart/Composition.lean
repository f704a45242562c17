import BeamChart.Proofs.Chart.Intake
import BeamChart.Proofs.Chart.Making
import BeamChart.Proofs.Chart.Run

/-!
# What operations come down to

All that an operation does besides offering children to parents is a matter of
acts. So a relation between an earlier and a later chart that holds of acts, that
can be chained, and that offering keeps if connecting does (`Compositional`), holds
of every operation but a reset (`Compositional.operation`). This is shown once, along
the definitions of the operations.
-/

namespace BeamChart

/-- The input is the phrases of a table. -/
def Input.isLookup : Input → Bool
  | lookup _ _ => true
  | _ => false

namespace Chart

variable {strict : Prop} {c c' : Chart} {u : ItemId}

/--
Acts are in the relation, and so is the growth of a tower; it can be chained, and
offering keeps it if connecting does.
-/
structure Compositional (strict : Prop) (R : Chart → Chart → Prop) : Prop where
  acts : ∀ {c c'}, Acts strict False c c' → R c c'
  fix : ∀ {c} {below u : ItemId} {r : Relation}, below.index < u.index → u.index < c.items.size →
    R c (c.modifyItem below fun i => { i with fixedParent := some (u, r) })
  trans : ∀ {c c' c''}, R c c' → R c' c'' → R c c''
  items_le : ∀ {c c'}, R c c' → c.items.size ≤ c'.items.size
  grammar : ∀ {c c'}, R c c' → c'.grammar = c.grammar
  offer : ∀ {connect : Connector}, (∀ c u, R c (connect c u)) →
    ∀ c parent child rule, R c (offerWith connect c parent child rule).2

namespace Compositional

variable {R : Chart → Chart → Prop}

theorem refl
    (h : Compositional strict R)
    (c : Chart) :
    R c c :=
  h.acts (.refl c)

theorem act
    (h : Compositional strict R)
    (hact : Act strict False c c') :
    R c c' :=
  h.acts (.single hact)

theorem note
    (h : Compositional strict R)
    (f : Tally → Tally)
    (hitems : (f c.tally).items = c.tally.items)
    (haggregates : (f c.tally).aggregates = c.tally.aggregates)
    (hcandidates : (f c.tally).candidates = c.tally.candidates)
    (hpredictions : (f c.tally).predictions = c.tally.predictions)
    (hattachments : (f c.tally).attachments = c.tally.attachments)
    (hrefusals : (f c.tally).refusals = c.tally.refusals)
    (hattempts : c.tally.attempts ≤ (f c.tally).attempts) :
    R c (c.count f) :=
  h.acts (.count c f hitems haggregates hcandidates hpredictions hattachments hrefusals hattempts)

/-- A fold is in the relation if each of its rounds is. -/
theorem foldl
    (h : Compositional strict R)
    {σ α : Type}
    (chart : σ → Chart)
    (step : σ → α → σ)
    (entries : List α)
    (start : σ)
    (hstep : ∀ s a, R (chart s) (chart (step s a))) :
    R (chart start) (chart (entries.foldl step start)) :=
  List.foldlRecOn (motive := fun s => R (chart start) (chart s)) entries step
    (h.refl _) fun s hs a _ => h.trans hs (hstep s a)

/-- A stored item is registered after what has just been done. -/
theorem register
    (h : Compositional strict R)
    (hR : R c c')
    (hu : u.index < c.items.size) :
    R c (c'.register u) :=
  h.trans hR (h.act (.register fun _ => Or.inl (Nat.lt_of_lt_of_le hu (h.items_le hR))))

section Connecting

variable {connect : Connector}

theorem takeOverWith
    (h : Compositional strict R)
    (hconnect : ∀ c u, R c (connect c u))
    (c : Chart)
    (u placeholder : ItemId)
    (s : SymbolId) :
    R c (takeOverWith connect c u placeholder s) := by
  unfold Chart.takeOverWith
  split
  · exact h.refl c
  · refine h.foldl (fun c => c) _ _ c fun c₁ e => ?_
    dsimp only
    split
    · exact h.refl c₁
    · split
      · exact h.refl c₁
      · split
        · exact h.refl c₁
        · split
          · exact h.offer hconnect c₁ u _ _
          · exact h.refl c₁

theorem fulfilWith
    (h : Compositional strict R)
    (hconnect : ∀ c u, R c (connect c u))
    (c : Chart)
    (u : ItemId)
    (s : SymbolId) :
    R c (fulfilWith connect c u s) := by
  refine h.foldl (fun c => c) _ _ c fun c₁ level => ?_
  refine h.foldl (fun c => c) _ _ c₁ fun c₂ p => ?_
  split
  · exact h.takeOverWith hconnect c₂ u p level
  · exact h.refl c₂

/-- A parent that counts as present is seen before it is offered its child. -/
theorem implyWith
    (h : Compositional strict R)
    (hconnect : ∀ c u, R c (connect c u))
    (c : Chart)
    {parent : ItemId}
    (hparent : parent.index < c.items.size)
    (hfresh : (c.item parent).registered = false)
    (child : ItemId)
    (rule : Rule SymbolId) :
    R c (implyWith connect c parent child rule) := by
  obtain ⟨hstore, hidle⟩ := Acts.store strict c (z := Candidate.seed parent) rfl
  have hitems := items_store c (Candidate.seed parent)
  replace hidle := hidle rfl
  unfold Chart.implyWith
  generalize c.store (Candidate.seed parent) = result at hstore hidle hitems ⊢
  obtain ⟨outcome, c₁⟩ := result
  cases outcome with
  | error e => exact h.acts hstore
  | ok x =>
    have hlt : parent.index < c₁.items.size := Nat.lt_of_lt_of_le hparent hstore.items_le
    have hseen : Act strict False c₁
        (c₁.modifyItem parent fun i => { i with pool := i.pool ++ [x], present := true }) := by
      refine .fill _ hlt rfl rfl rfl (fun y hy => ?_) fun _ => ⟨?_, fun _ hs => Or.inl hs⟩
      · rcases List.mem_append.1 hy with hold | hnew
        · exact Or.inl hold
        · rw [List.mem_singleton.1 hnew]
          exact Or.inr (hidle x rfl)
      · rw [item_of_items_eq hitems]
        exact hfresh
    have hready := h.trans (h.acts hstore) (h.act hseen)
    have hoffered := h.trans hready (h.offer hconnect _ parent child rule)
    exact h.register (h.trans hoffered (hconnect _ parent)) hparent

theorem predictWith
    (h : Compositional strict R)
    (hconnect : ∀ c u, R c (connect c u))
    (c : Chart)
    (child : ItemId)
    {s : SymbolId}
    (hs : s < c.grammar.size)
    (rule : Rule SymbolId) :
    R c (predictWith connect c child s rule) := by
  rcases allocateItem_cases c with ⟨hroom, heq⟩ | heq
  · obtain ⟨hready, hlt, hfresh⟩ := predicted_acts strict hroom (fun _ => hs) child
    rw [predictWith_eq connect heq]
    generalize c.predicted child s = c₁ at hready hlt hfresh ⊢
    split
    · exact h.trans (h.acts hready) (h.implyWith hconnect c₁ hlt hfresh child rule)
    · obtain ⟨hlift, hidle⟩ := liftPool_acts strict c.nextItem rule.relation
        ((c₁.item child).pool.take c₁.settings.beamWidth) (c := c₁)
      generalize liftPool c.nextItem rule.relation c₁ _ = result at hlift hidle ⊢
      obtain ⟨pool, c₂⟩ := result
      have hpool : Acts strict False c₁ (c₂.setPool c.nextItem pool) :=
        hlift.trans (.single (.pool (Or.inr fun y hy => Or.inr (hidle y hy))))
      exact h.trans (h.acts hready) (h.register (h.acts hpool) hlt)
  · unfold Chart.predictWith
    rw [heq]
    exact h.acts (.refused (.item heq))

theorem tryParentWith
    (h : Compositional strict R)
    (hconnect : ∀ c u, R c (connect c u))
    (c : Chart)
    (child parent : ItemId)
    (s : SymbolId)
    (r : Relation) :
    R c (tryParentWith connect c child parent s r).2 := by
  unfold Chart.tryParentWith
  dsimp only
  split
  · exact h.refl c
  · split
    · exact h.refl c
    · split
      · exact h.refl c
      · split
        · exact h.offer hconnect c parent child _
        · exact h.refl c

theorem seekParentWith
    (h : Compositional strict R)
    (hconnect : ∀ c u, R c (connect c u))
    (c : Chart)
    (child : ItemId)
    (level : SymbolId)
    (parentRule : Rule SymbolId) :
    R c (seekParentWith connect c child level parentRule) := by
  unfold Chart.seekParentWith
  split
  · rename_i s rule _ hrule
    dsimp only
    have htry : R c ((c.itemsOf parentRule.target).foldl
        (fun (acc : Bool × Chart) parent =>
          ((acc.1 || (Chart.tryParentWith connect acc.2 child parent s parentRule.relation).1),
            (Chart.tryParentWith connect acc.2 child parent s parentRule.relation).2))
          (false, c)).2 :=
      h.foldl (fun acc : Bool × Chart => acc.2) _ _ (false, c) fun acc parent =>
        h.tryParentWith hconnect acc.2 child parent s parentRule.relation
    generalize (c.itemsOf parentRule.target).foldl _ (false, c) = result at htry ⊢
    obtain ⟨taken, c₁⟩ := result
    cases taken with
    | true => exact htry
    | false =>
      obtain ⟨entry, hentry, -⟩ := Grammar.mem_of_ruleFor? hrule
      refine h.trans htry (h.predictWith hconnect c₁ child ?_ rule)
      rw [h.grammar htry]
      exact (Array.getElem?_eq_some_iff.1 hentry).1
  · exact h.refl c

theorem seekParentsWith
    (h : Compositional strict R)
    (hconnect : ∀ c u, R c (connect c u))
    (c : Chart)
    (u : ItemId)
    (s : SymbolId) :
    R c (seekParentsWith connect c u s) := by
  refine h.foldl (fun c => c) _ _ c fun c₁ level => ?_
  exact h.foldl (fun c => c) _ _ c₁ fun c₂ rule =>
    h.seekParentWith hconnect c₂ u level rule

theorem connectBody
    (h : Compositional strict R)
    (hconnect : ∀ c u, R c (connect c u))
    (c : Chart)
    (u : ItemId)
    (s : Symbol) :
    R c (connectBody connect c u s) := by
  unfold Chart.connectBody
  split
  · exact h.acts (chain_acts strict c u)
  · have hfulfil : R c (if s.hasRules then Chart.fulfilWith connect c u s.id else c) := by
      split
      · exact h.fulfilWith hconnect c u s.id
      · exact h.refl c
    exact h.trans hfulfil (h.seekParentsWith hconnect _ u s.id)

theorem connectWithin
    (h : Compositional strict R)
    (room : Nat)
    (c : Chart)
    (u : ItemId) :
    R c (connectWithin room c u) := by
  induction room generalizing c u with
  | zero =>
    unfold Chart.connectWithin
    split
    · exact h.refl c
    · split <;> exact h.note _ rfl rfl rfl rfl rfl rfl (Nat.le_refl _)
  | succ room ih =>
    unfold Chart.connectWithin
    split
    · exact h.refl c
    · rename_i s _
      split
      · exact h.note _ rfl rfl rfl rfl rfl rfl (Nat.le_refl _)
      · have henter : R c c.enter :=
          h.act (.note _ _ rfl rfl rfl rfl rfl rfl (Nat.le_refl _))
        have hleave : ∀ c : Chart, R c c.leave := fun c =>
          h.act (.note c.tally _ rfl rfl rfl rfl rfl rfl (Nat.le_refl _))
        exact h.trans (h.trans henter (h.connectBody ih c.enter u s)) (hleave _)

end Connecting

section Feeding

theorem connect
    (h : Compositional strict R)
    (c : Chart)
    (u : ItemId) :
    R c (c.connect u) :=
  h.connectWithin c.settings.maxDepth c u

theorem connectInBudget
    (h : Compositional strict R)
    (c : Chart)
    (u : ItemId) :
    R c (c.connectInBudget u) := by
  unfold Chart.connectInBudget
  split
  · exact h.connect c u
  · exact h.note _ rfl rfl rfl rfl rfl rfl (Nat.le_refl _)

theorem post
    (h : Compositional strict R)
    (hu : u.index < c.items.size) :
    R c ((c.connectInBudget u).register u) :=
  h.register (h.connectInBudget c u) hu

/-- A tower grows by an item that is made later than those below. -/
theorem placeOver
    (h : Compositional strict R)
    {below : ItemId}
    (hlater : below.index < u.index)
    (hitem : u.index < c.items.size)
    (r : Relation) :
    R c (c.placeOver u below r).2 := by
  have hfix : R c (c.modifyItem below fun i => { i with fixedParent := some (u, r) }) :=
    h.fix hlater hitem
  cases placing c u below r with
  | @refused _ c₁ _ hfixed hlifted heq =>
    have hlift := (liftAll_acts strict u r (c₁.item below).pool (c := c₁)).1
    rw [← hfixed] at hfix
    rw [hlifted] at hlift
    rw [heq]
    exact h.trans hfix (h.acts hlift)
  | @placed pool c₁ _ hfixed hlifted heq =>
    obtain ⟨hlift, hall⟩ := liftAll_acts strict u r (c₁.item below).pool (c := c₁)
    rw [← hfixed] at hfix
    rw [hlifted] at hlift hall
    rw [heq]
    exact h.trans hfix (h.acts (hlift.trans (.single (.pool (Or.inr fun y hy =>
      Or.inr (hall pool rfl y hy))))))

/-- An item that has been admitted is stored. -/
theorem admission
    (h : Compositional strict R)
    {symbol : Option SymbolId}
    {t : Token}
    {outcome : Except ChartError ItemId × Chart}
    (hstrict : strict → ∀ s ∈ symbol, s < c.grammar.size)
    (hadmission : Admission c symbol t outcome) :
    R c outcome.2 ∧ ∀ u, outcome.1 = .ok u → u.index < outcome.2.items.size := by
  obtain ⟨hmake, hlt⟩ := makeItem_acts hstrict t
  cases hadmission with
  | refused hmade heq =>
    rw [hmade] at hmake
    rw [heq]
    exact ⟨h.acts hmake, fun u hu => by cases hu⟩
  | @admitted u _ hmade heq =>
    rw [hmade] at hmake hlt
    rw [heq]
    have hpost := h.post (hlt u rfl).2
    refine ⟨h.trans (h.acts hmake) hpost, fun v hv => ?_⟩
    cases hv
    exact Nat.lt_of_lt_of_le (hlt u rfl).2 (h.items_le hpost)

/-- The items of a tower are made and admitted from the inside out. -/
theorem feedComposition
    (h : Compositional strict R)
    (t : Token)
    (tower : Composition SymbolId)
    (c : Chart)
    (hstrict : strict → ∀ e ∈ tower.levels, e.1 < c.grammar.size) :
    R c (feedComposition t tower c).2 ∧
      ∀ u, (Chart.feedComposition t tower c).1 = .ok u →
        u.index < (Chart.feedComposition t tower c).2.items.size := by
  induction tower generalizing c with
  | single s =>
    refine h.admission (fun hk => ?_) (admission_single t s c)
    rintro k ⟨⟩
    exact hstrict hk (s, none) (by simp [Composition.levels])
  | holding s r inner ih =>
    obtain ⟨hinner, hbelow⟩ := ih c fun h e he => hstrict h e (by simp [Composition.levels, he])
    have hmakes : ∀ {below c₁}, Chart.feedComposition t inner c = (.ok below, c₁) →
        Acts strict False c₁ (c₁.makeItem (some s) t).2 ∧
          ∀ u, (c₁.makeItem (some s) t).1 = .ok u →
            c₁.items.size ≤ u.index ∧ u.index < (c₁.makeItem (some s) t).2.items.size := by
      intro below c₁ hfed
      rw [hfed] at hinner
      refine makeItem_acts (fun hk => ?_) t
      rintro k ⟨⟩
      rw [h.grammar hinner]
      exact hstrict hk (s, some r) (by simp [Composition.levels])
    have hplaces : ∀ {below u c₁ c₂}, Chart.feedComposition t inner c = (.ok below, c₁) →
        c₁.makeItem (some s) t = (.ok u, c₂) →
          R c (c₂.placeOver u below r).2 ∧ u.index < (c₂.placeOver u below r).2.items.size := by
      intro below u c₁ c₂ hfed hmade
      obtain ⟨hmake, hlt⟩ := hmakes hfed
      rw [hfed] at hinner hbelow
      rw [hmade] at hmake hlt
      obtain ⟨hnew, hitem⟩ := hlt u rfl
      have hplace := h.placeOver (Nat.lt_of_lt_of_le (hbelow below rfl) hnew) hitem r
      exact ⟨h.trans (h.trans hinner (h.acts hmake)) hplace,
        Nat.lt_of_lt_of_le hitem (h.items_le hplace)⟩
    cases stacking t s r inner c with
    | incomplete hfed heq =>
      rw [hfed] at hinner
      rw [heq]
      exact ⟨hinner, fun u hu => by cases hu⟩
    | unmade hfed hmade heq =>
      have hmake := (hmakes hfed).1
      rw [hfed] at hinner
      rw [hmade] at hmake
      rw [heq]
      exact ⟨h.trans hinner (h.acts hmake), fun u hu => by cases hu⟩
    | unplaced hfed hmade hplaced heq =>
      obtain ⟨hall, -⟩ := hplaces hfed hmade
      rw [hplaced] at hall
      rw [heq]
      exact ⟨hall, fun u hu => by cases hu⟩
    | stacked hfed hmade hplaced heq =>
      obtain ⟨hall, hitem⟩ := hplaces hfed hmade
      rw [hplaced] at hall hitem
      rw [heq]
      refine ⟨h.trans hall (h.post hitem), fun v hv => ?_⟩
      cases hv
      exact Nat.lt_of_lt_of_le hitem (h.items_le (h.post hitem))

theorem feedAs
    (h : Compositional strict R)
    (c : Chart)
    {symbol : Option SymbolId}
    (hstrict : strict → c.grammar.Total ∧ ∀ s ∈ symbol, s < c.grammar.size)
    (t : Token) :
    R c (c.feedAs symbol t).2 := by
  cases taking c symbol t with
  | beyond _ heq =>
    rw [heq]
    exact h.refl c
  | @tower levels _ hlevels heq =>
    rw [heq]
    refine (h.feedComposition t levels c fun hs => ?_).1
    obtain ⟨entry, hentry, hcomposition⟩ := Option.bind_eq_some_iff.1 hlevels
    obtain ⟨k, hk, hsymbol⟩ := Option.bind_eq_some_iff.1 hentry
    exact (hstrict hs).1.composition k entry levels hsymbol hcomposition
  | single _ _ hadmission => exact (h.admission (fun hs => (hstrict hs).2) hadmission).1

theorem feed
    (h : Compositional strict R)
    (c : Chart)
    (hstrict : strict → c.grammar.Total)
    (t : Token) :
    R c (c.feed t).2 := by
  refine h.feedAs c (fun hs => ⟨hstrict hs, fun s hmem => ?_⟩) t
  have hid : (c.grammar.symbol? t.concept).map Symbol.id = some s :=
    (Option.filter_eq_some_iff.1 hmem).1
  obtain ⟨entry, hentry, rfl⟩ := Option.map_eq_some_iff.1 hid
  rw [(hstrict hs).numbered _ entry hentry]
  exact (Array.getElem?_eq_some_iff.1 hentry).1

end Feeding

section Absorbing

theorem absorbItem
    (h : Compositional strict R)
    (c : Chart)
    (hstrict : strict → c.grammar.Total)
    (i : Item) :
    R c (c.absorbItem i).2 := by
  refine absorbItem_keeps i (h.acts (rename_acts hstrict i)) (fun s hs c₁ hR => ?_) (h.refl c)
  refine h.trans hR (h.feedAs c₁ (fun hk => ?_) i.toToken)
  rw [h.grammar hR]
  refine ⟨hstrict hk, ?_⟩
  rintro k ⟨⟩
  exact (hstrict hk).meanings i.concept s hs

theorem absorb
    (h : Compositional strict R)
    (c : Chart)
    (hstrict : strict → c.grammar.Total)
    (sub : Chart) :
    R c (c.absorb sub).2 := by
  refine absorb_keeps sub (fun c₁ hR => h.trans hR (h.act .select)) ?_
  refine absorbItems_keeps _ (fun i c₁ hR => ?_) (h.refl c)
  refine h.trans hR (h.absorbItem c₁ (fun hk => ?_) i)
  rw [h.grammar hR]
  exact hstrict hk

end Absorbing

section LookingUp

/-- A phrase table may name symbols that the grammar does not have. -/
theorem keeps
    (h : Compositional False R)
    (c : Chart) :
    Scan.Keeps (R c) where
  make hR _ t := h.trans hR (h.acts (makeItem_acts (fun hs => hs.elim) t).1)
  post {c₁ _ _} hR symbol t hmade := by
    have hmake : Acts False False c₁ (c₁.makeItem symbol t).2 :=
      (makeItem_acts (fun hs => hs.elim) t).1
    rw [hmade] at hmake
    exact h.trans hR (h.trans (h.acts hmake) (h.act (.register fun hs => hs.elim)))
  hit hR := h.trans hR (h.note _ rfl rfl rfl rfl rfl rfl (Nat.le_refl _))
  miss hR := h.trans hR (h.note _ rfl rfl rfl rfl rfl rfl (Nat.le_refl _))

theorem lookup
    (h : Compositional False R)
    (table : PhraseTable)
    (atoms : List Token)
    (c : Chart) :
    R c (table.lookup atoms c).2 :=
  (h.keeps c).lookup (h.refl c) table atoms

end LookingUp

theorem input
    (h : Compositional strict R)
    (c : Chart)
    (i : Input)
    (hi : i ≠ .reset)
    (hstrict : strict → c.grammar.Total ∧ i.isLookup = false) :
    R c (i.apply c) := by
  cases i with
  | feed t => exact h.feed c (fun hs => (hstrict hs).1) t
  | absorb sub => exact h.absorb c (fun hs => (hstrict hs).1) sub
  | lookup table atoms =>
    obtain rfl : strict = False := by simpa [Input.isLookup] using hstrict
    exact h.lookup table atoms c
  | select => exact h.act .select
  | reset => exact absurd rfl hi

theorem operation
    (h : Compositional False R)
    (c : Chart)
    (op : Operation)
    (hnames : op.Names c)
    (hop : op ≠ .input .reset) :
    R c (op.apply c) := by
  cases op with
  | input i => exact h.input c i (fun hi => hop (by rw [hi])) fun hs => hs.elim
  | allocate =>
    rcases allocateItem_cases c with ⟨hroom, heq⟩ | heq <;> rw [Operation.apply, heq]
    · exact h.act (.allocateItem hroom)
    · exact h.acts (.refused (.item heq))
  | instantiate u symbol t => exact h.acts (instantiate_acts hnames (fun hs => hs.elim) t)
  | register u => exact h.act (.register fun hs => hs.elim)
  | connect u => exact h.connect c u
  | fulfil u s => exact h.fulfilWith h.connect c u s
  | takeOver u placeholder s => exact h.takeOverWith h.connect c u placeholder s
  | seekParents u s => exact h.seekParentsWith h.connect c u s
  | seekParent u level rule => exact h.seekParentWith h.connect c u level rule
  | offer parent child rule => exact h.offer h.connect c parent child rule
  | attach parent child rule => exact h.acts (attach_acts False c parent child rule).1
  | detach x child => exact h.acts (detach_acts False c x child).1

end Compositional

section Passing

variable {connect : Connector}

/-- An aggregate is still that of its candidate when it is registered. -/
theorem admitWith_acts
    (hconnect : ∀ c u, Acts strict True c (connect c u))
    {x : CandidateId}
    (hx : c.Has x)
    (hsettled : (c.candidate x).pending = false)
    (hmark : (c.candidate x).wrapper = some u) :
    Acts strict True c (admitWith connect c u) := by
  unfold admitWith
  split
  · exact .refl c
  · exact (hconnect c u).trans (.single (.register fun _ =>
      Or.inr ⟨x, ((hconnect c u).wrapper_eq hx hsettled).trans hmark⟩))

theorem passOnWith_acts
    (hconnect : ∀ c u, Acts strict True c (connect c u))
    (patch : Option (Chart → CandidateId → Chart))
    (pool : List CandidateId)
    (hpatch : ∀ f, patch = some f → ∀ c x, Acts strict True c (f c x)) :
    Acts strict True c (passOnWith connect patch c pool) := by
  induction pool generalizing c patch with
  | nil => exact .refl c
  | cons x rest ih =>
    have hsettle : Acts strict True c (c.settle x) := .single (.settle trivial)
    unfold passOnWith
    split
    · split
      · rename_i a hmark
        have hx : c.Has x := has_of_wrapper hmark
        have hsettled : (c.settle x).candidate x = { c.candidate x with pending := false } :=
          candidate_modifyCandidate_self _ hx
        have hadmit : Acts strict True (c.settle x) (admitWith connect (c.settle x) a) := by
          refine admitWith_acts hconnect (hsettle.has hx) ?_ ?_ <;> rw [hsettled]
          exact hmark
        exact (hsettle.trans hadmit).trans (ih _ hpatch)
      · rename_i f _
        exact (hsettle.trans (hpatch f rfl _ x)).trans (ih none fun _ h => by cases h)
      · exact hsettle.trans (ih none fun _ h => by cases h)
    · exact ih patch hpatch

theorem refit_acts
    (strict : Prop)
    (c : Chart)
    (above : ItemId)
    (r : Relation)
    (child : ItemId)
    (newer : CandidateId) :
    Acts strict True c (c.refit above r child newer).2 := by
  have hpool : Acts strict False c
      (refitPool r child newer c [] false (c.item above).pool).2 :=
    (refitPool_acts r child newer [] false (c.item above).pool
      (fun _ h => by cases h) fun _ h => h).1
  rcases refit_cases c above r child newer with heq | ⟨kept, -, heq⟩ <;> rw [heq]
  · exact hpool.weaken
  · exact hpool.weaken.trans (.single (.pool (Or.inl trivial)))

theorem climbWith_acts
    (hconnect : ∀ c u, Acts strict True c (connect c u))
    (higher : List (ItemId × Relation))
    (c : Chart)
    (u : ItemId) :
    Acts strict True c (climbWith connect higher c u) := by
  induction higher generalizing c u with
  | nil => exact passOnWith_acts hconnect none _ fun _ h => by cases h
  | cons e higher ih =>
    obtain ⟨above, r⟩ := e
    refine passOnWith_acts hconnect _ _ ?_
    intro f hf c₁ x
    cases hf
    have hrefit := refit_acts strict c₁ above r u x
    dsimp only
    generalize c₁.refit above r u x = result at hrefit ⊢
    obtain ⟨changed, c₂⟩ := result
    cases changed with
    | false => exact hrefit
    | true => exact hrefit.trans (ih c₂ above)

theorem offerWith_acts
    (hconnect : ∀ c u, Acts strict True c (connect c u))
    (c : Chart)
    (parent child : ItemId)
    (rule : Rule SymbolId) :
    Acts strict True c (offerWith connect c parent child rule).2 := by
  obtain ⟨hdetach, -⟩ := detachAll_acts strict child (c.item parent).pool (c := c)
  unfold offerWith
  generalize c.detachAll child _ = result at hdetach ⊢
  obtain ⟨outcome, c₁⟩ := result
  cases outcome with
  | error e => exact hdetach.weaken
  | ok pair =>
    obtain ⟨existing, changed⟩ := pair
    obtain ⟨hstage, -⟩ := stage_acts strict rule [] (c := c₁)
      (existing.flatMap fun x => (c₁.item child).pool.map (x, ·)) fun _ h => by cases h
    dsimp only
    generalize c₁.stage rule [] _ = result at hstage ⊢
    obtain ⟨staged, c₂⟩ := result
    have hboth : Acts strict True c c₂ := (hdetach.trans hstage).weaken
    have hpool : Acts strict True c (c₂.setPool parent (c₂.beam (staged ++ existing))) :=
      hboth.trans (.single (.pool (Or.inl trivial)))
    dsimp only
    split
    · dsimp only
      split
      · exact hpool
      · exact hboth
    · exact hpool.trans (climbWith_acts hconnect _ _ parent)

/-- Every operation is made of acts. -/
theorem compositional_acts (strict : Prop) :
    Compositional strict (Acts strict True) where
  acts h := h.weaken
  fix hlater hitem := .single (.fix trivial hlater hitem)
  trans h k := h.trans k
  items_le h := h.items_le
  grammar h := h.grammar.1
  offer hconnect := offerWith_acts hconnect

end Passing

end Chart

end BeamChart
