import BeamChart.Proofs.Chart.Seeking
import BeamChart.Proofs.Chart.Selected
import BeamChart.Proofs.Chart.Run
import Mathlib

/-!
# The best candidate of a growing input

Under an orderly grammar the weight of the selected candidate does not fall when
another token is fed, whatever comes of the token (`best_not_lowered`). What is in
the pools before an input is matched after it (`Chart.Fed`), and what is selected
is as heavy as all that may be selected (`le_bestWeight?`).

The grammar has to be orderly (`best_lowered`). If a pool is offered twice what it
has taken once, the second offer gives up the first, and the pool may keep less
than it had. The same happens where an inner level of a tower takes children: what
it gains is passed upwards as a newer candidate that may be lighter.
-/

namespace BeamChart

namespace Chart

variable {c c' c'' : Chart} {u v : ItemId} {r : Relation} {x : CandidateId}

section Filling

theorem adds_makeItem
    (c : Chart)
    (symbol : Option SymbolId)
    (t : Token) :
    Adds c (c.makeItem symbol t).2 := by
  have hle : c.items.size ≤ c.nextItem.index := Nat.le_refl _
  have hpush : Adds c (c.pushItem {}) := .pushItem c rfl
  have hplace : Adds c ((c.pushItem {}).fillItem c.nextItem symbol t) :=
    hpush.modifyItem hle fun x hx => by cases hx
  have hfill : Adds c ((c.pushItem {}).instantiate c.nextItem symbol t).2 := by
    cases filling (c.pushItem {}) c.nextItem symbol t with
    | placed _ heq =>
      rw [heq]
      exact hplace
    | exhausted _ _ _ heq =>
      rw [heq]
      exact hplace.trans (.of_arenas rfl rfl)
    | filled _ _ _ heq =>
      rw [heq]
      refine (hplace.trans (.pushCandidate _ rfl)).modifyItem hle fun x hx => ?_
      rw [List.mem_singleton.1 hx]
      exact ⟨has_nextCandidate _ _,
        Or.inl (congrArg Candidate.wrapper (candidate_nextCandidate _ _))⟩
  cases making c symbol t with
  | refused _ heq =>
    rw [heq]
    exact .of_arenas rfl rfl
  | unfilled _ hfilled heq =>
    rw [hfilled] at hfill
    rw [heq]
    exact hfill
  | made _ hfilled heq =>
    rw [hfilled] at hfill
    rw [heq]
    exact hfill.modifyItem hle (hfill.calm c.nextItem hle)

/-- The symbol of a new item is the one that it was made for. -/
theorem symbol_makeItem
    (symbol : Option SymbolId)
    (t : Token)
    {s : SymbolId}
    (hu : (c.makeItem symbol t).1 = .ok u)
    (hs : ((c.makeItem symbol t).2.item u).symbol = some s) :
    symbol = some s := by
  have hsymbol : ((c.makeItem symbol t).2.item u).symbol =
      symbol.filter fun s => s ≠ unrecognized :=
    congrArg (fun e => e.2.1) (place_makeItem symbol t hu)
  rw [hsymbol] at hs
  exact (Option.filter_eq_some_iff.1 hs).1

end Filling

section Feeding

/-- Between two inputs nothing is left to be passed on. -/
structure Ready (c : Chart) : Prop extends Steady c where
  quiet : ∀ u, ∀ x ∈ (c.item u).pool, (c.candidate x).pending = true →
    (c.candidate x).wrapper = none

theorem ready_new
    {g : Grammar}
    {s : Settings}
    (hg : g.Orderly)
    (hwidth : 1 ≤ s.beamWidth) :
    Ready (new g s) where
  sound := sound_new True g s
  marked := marked_new g s
  posted := posted_new g s
  width := hwidth
  orderly := hg
  floating u hu := by
    rw [item_of_size_le (Nat.zero_le _)] at hu
    exact absurd rfl hu
  quiet u x hx := by
    rw [item_of_size_le (Nat.zero_le _)] at hx
    cases hx

/-- A later chart, of which all that was covered by pools before is matched. -/
structure Fed (c c' : Chart) : Prop where
  poised : Poised c.items.size c.candidates.size c'
  grows : Extends c c'
  best : ∀ u, u.index < c.items.size → Matched c c' u
  quiet : ∀ u, ∀ x ∈ (c'.item u).pool, (c'.candidate x).pending = true →
    (c'.candidate x).wrapper = none

theorem Fed.ready
    (h : Fed c c') :
    Ready c' where
  toSteady := h.poised.toSteady
  quiet := h.quiet

/-- No candidate of a chart is newer than the chart. -/
theorem Ready.fed
    (h : Ready c) :
    Fed c c where
  poised :=
    { toSteady := h.toSteady
      items_le := Nat.le_refl _
      candidates_le := Nat.le_refl _
      recent := fun u x hx hpending a ha => by
        rw [h.quiet u x hx hpending] at ha
        cases ha
      young := fun x hx a ha => absurd (has_of_wrapper ha) (Nat.not_lt_of_le hx)
      free := fun a ⟨_, hx, _, ha⟩ => absurd (has_of_wrapper ha) (Nat.not_lt_of_le hx) }
  grows := .refl c
  best _ _ x hx hfull := ⟨x, hx, hfull, Weight.le_refl _⟩
  quiet := h.quiet

theorem Fed.passes
    {given : ItemId → ItemId → Prop}
    (h : Fed c c')
    (k : Passes c.items.size c.candidates.size given c' c'') :
    Fed c c'' where
  poised := k.poised h.poised
  grows := h.grows.trans k.steps.grows
  best u hu := (h.best u hu).trans (k.best u hu)
  quiet u x hx hpending := by
    cases ha : (c''.candidate x).wrapper with
    | none => rfl
    | some a =>
      obtain ⟨hmem, hold, hwrapper⟩ := k.quiet u x hx hpending a ha
      rw [h.quiet u x hmem hold] at hwrapper
      cases hwrapper

/-- A new item that no old pool holds. -/
structure Newcomer (c c' : Chart) (u : ItemId) : Prop where
  loose : c'.Loose u
  new : c.items.size ≤ u.index
  unheld : ∀ w : ItemId, w.index < c.items.size → ¬ c'.Carries w u

theorem Newcomer.idle
    {m : Nat}
    (h : Newcomer c c' u)
    (hm : Marked c') :
    ¬ Waiting m c' u := by
  rintro ⟨x, -, -, hwrapper⟩
  have haggregate := hm.aggregate x u hwrapper
  rw [h.loose.plain] at haggregate
  cases haggregate

theorem Newcomer.raise
    (hu : Newcomer c c' u)
    (h : Fed c c')
    (k : Raises c.items.size c.candidates.size Nothing c' c'') :
    Newcomer c c'' u where
  loose := hu.loose.extend k.steps
  new := hu.new
  unheld := not_carries_of_new k (hu.idle h.poised.marked) (lt_size_of_present hu.loose.present)
    hu.unheld

/-- A new item is connected and posted. -/
theorem Fed.connected
    (h : Fed c c')
    (hu : Newcomer c c' u) :
    Fed c ((c'.connectInBudget u).register u) := by
  have hconnect : Fed c (c'.connectInBudget u) := by
    unfold connectInBudget
    split
    · exact h.passes (passes_connect c' u h.poised hu.new (lt_size_of_present hu.loose.present)
        (hu.idle h.poised.marked) hu.unheld)
    · have hadds : Adds c' (c'.count fun t => { t with overBudget := true }) := .count c' _
      have hpassed : Passes c.items.size c.candidates.size Nothing c' _ :=
        hadds.passes h.poised (evolves_count c' _ rfl rfl rfl (Nat.le_refl _))
      exact h.passes hpassed
  have hposted : Passes c.items.size c.candidates.size Nothing (c'.connectInBudget u) _ :=
    passes_register hconnect.poised u
  exact hconnect.passes hposted

theorem Fed.make
    (h : Fed c c')
    (symbol : Option SymbolId)
    (t : Token) :
    Passes c.items.size c.candidates.size Nothing c' (c'.makeItem symbol t).2 ∧
      ∀ u, (c'.makeItem symbol t).1 = .ok u →
        c'.items.size ≤ u.index ∧ Newcomer c (c'.makeItem symbol t).2 u := by
  obtain ⟨hsteps, hmade⟩ := makeItem_spec h.poised.sound symbol t
  have hadds := adds_makeItem c' symbol t
  refine ⟨hadds.passes h.poised hsteps, fun u hu => ?_⟩
  obtain ⟨rfl, hloose⟩ := hmade u hu
  refine ⟨Nat.le_refl _, hloose, h.poised.items_le, fun w hw hcarries => ?_⟩
  have hold := hcarries.of_pool_eq h.poised.sound.closed hsteps.grows
    (hadds.pool w (Nat.lt_of_lt_of_le hw h.poised.items_le))
  exact Nat.lt_irrefl _ (hold.lt h.poised.sound.closed)

/-- No level of a tower but the outermost one takes children. -/
def Barren (g : Grammar) (levels : List (SymbolId × Option Relation)) : Prop :=
  ∀ inner ∈ levels, ∀ e ∈ g.symbol? inner.1, e.rules = []

section Towers

variable {levels : List (SymbolId × Option Relation)}

/-- An item without children becomes an inner level of a tower. -/
theorem Fed.fix
    (h : Fed c c')
    (hbelow : c'.Loose v)
    (hitem : u.index < c'.items.size)
    (hplain : (c'.item u).isAggregate = false)
    (hrules : ∀ s entry, (c'.item v).symbol = some s → c'.grammar.symbol? s = some entry →
      entry.rules = []) :
    Fed c (c'.modifyItem v fun i => { i with fixedParent := some (u, r) }) := by
  have hext : Extends c' (c'.modifyItem v fun i => { i with fixedParent := some (u, r) }) :=
    Extends.fix hbelow.fixedParent
  have hmove : Move True c' (c'.modifyItem v fun i => { i with fixedParent := some (u, r) }) :=
    .fix hbelow.fixedParent hitem hplain
  have hpool : ∀ w, ((c'.modifyItem v fun i => { i with fixedParent := some (u, r) }).item w).pool =
      (c'.item w).pool := field_modifyItem Item.pool rfl
  have hcarries : ∀ w z, (c'.modifyItem v fun i =>
      { i with fixedParent := some (u, r) }).Carries w z → c'.Carries w z :=
    fun w z hwz => hwz.of_pool_eq h.poised.sound.closed hext (hpool w)
  constructor
  case poised =>
    refine
      { sound := hmove.sound h.poised.sound
        marked := h.poised.marked.extend hext fun x a ha => ha
        posted := h.poised.posted.extend hext rfl
        width := h.poised.width
        orderly := h.poised.orderly
        floating := fun w hw => ?_
        items_le := by
          rw [size_items_modifyItem]
          exact h.poised.items_le
        candidates_le := h.poised.candidates_le
        recent := fun w x hx => h.poised.recent w x (by rw [← hpool w]; exact hx)
        young := h.poised.young
        free := fun a ha w hw hheld => h.poised.free a ha w hw (hcarries w a hheld) }
    rw [item_modifyItem] at hw ⊢
    split at hw
    · rename_i heq
      rw [if_pos heq]
      obtain ⟨rfl, -⟩ := heq
      exact ⟨hbelow.present, hrules⟩
    · rename_i hne
      rw [if_neg hne]
      exact h.poised.floating w hw
  case grows => exact h.grows.trans hext
  case best =>
    intro w hw x hx hfull
    rw [hpool]
    exact h.best w hw x hx hfull
  case quiet =>
    intro w x hx
    rw [hpool] at hx
    exact h.quiet w x hx

theorem Newcomer.fix
    (hu : Newcomer c c' u)
    (h : Fed c c')
    (hbelow : c'.Loose v)
    (hne : u ≠ v) :
    Newcomer c (c'.modifyItem v fun i => { i with fixedParent := some (u, r) }) u where
  loose := by
    constructor <;> rw [item_modifyItem_of_ne _ hne.symm]
    · exact hu.loose.present
    · exact hu.loose.fixedParent
    · exact hu.loose.plain
  new := hu.new
  unheld w hw hcarries := hu.unheld w hw (hcarries.of_pool_eq h.poised.sound.closed
    (Extends.fix hbelow.fixedParent) (field_modifyItem Item.pool rfl w))

theorem passes_placeOver
    {n m : Nat}
    (hc : Poised n m (c.modifyItem v fun i => { i with fixedParent := some (u, r) }))
    (hnew : n ≤ u.index)
    (hsteps : Evolves True (c.modifyItem v fun i => { i with fixedParent := some (u, r) })
      (c.placeOver u v r).2) :
    Passes n m Nothing (c.modifyItem v fun i => { i with fixedParent := some (u, r) })
      (c.placeOver u v r).2 := by
  cases placing c u v r with
  | @refused _ c₁ _ hfixed hlift heq =>
    have hadds := (adds_liftAll c₁ u r (c₁.item v).pool).1
    rw [← hfixed] at hc hsteps ⊢
    rw [hlift] at hadds
    rw [heq] at hsteps ⊢
    exact hadds.passes hc hsteps
  | @placed pool c₁ c₂ hfixed hlift heq =>
    obtain ⟨hadds, hmembers⟩ := adds_liftAll c₁ u r (c₁.item v).pool
    rw [← hfixed] at hc hsteps ⊢
    rw [hlift] at hadds hmembers
    rw [heq] at hsteps ⊢
    dsimp only at hsteps hadds hmembers ⊢
    refine passes_of_pools hc hsteps (fun w => ?_) hadds.wrapper_cases
    by_cases hw : w = u
    · subst hw
      refine Or.inr ⟨hnew, fun x hx => Or.inr (Or.inl ?_)⟩
      refine pools_setPool (P := fun w' x => w' = w → (c₂.candidate x).wrapper = none)
        (fun x hx _ => (hmembers pool rfl x hx).2) (fun w' hne _ _ heq => absurd heq hne) w x hx rfl
    · rw [setPool, item_modifyItem_of_ne _ (Ne.symm hw)]
      by_cases hlt : w.index < c₁.items.size
      · exact Or.inl (hadds.pool w hlt)
      · have hle := Nat.le_of_not_lt hlt
        exact Or.inr ⟨Nat.le_trans hc.items_le hle, fun x hx => Or.inr (hadds.calm w hle x hx).2⟩

/-- An item that has been admitted has the symbol it is admitted with. -/
theorem Fed.admission
    {symbol : Option SymbolId}
    {t : Token}
    {outcome : Except ChartError ItemId × Chart}
    (h : Fed c c')
    (hadmission : Admission c' symbol t outcome) :
    Fed c outcome.2 ∧ ∀ u, outcome.1 = .ok u → ∀ s, (outcome.2.item u).symbol = some s →
      symbol = some s := by
  obtain ⟨hmake, hnew⟩ := h.make symbol t
  have hsymbol := fun v q => symbol_makeItem (c := c') (u := v) (s := q) symbol t
  cases hadmission with
  | refused hmade heq =>
    rw [hmade] at hmake
    rw [heq]
    exact ⟨h.passes hmake, fun u hu => by cases hu⟩
  | @admitted v c₁ hmade heq =>
    rw [hmade] at hmake hnew hsymbol
    rw [heq]
    have hmade : Fed c c₁ := h.passes hmake
    refine ⟨hmade.connected (hnew v rfl).2, fun u hu q hq => ?_⟩
    cases hu
    have hgrows := (admit_evolves hmade.poised.sound v).grows
    rw [hgrows.symbol_eq (hnew v rfl).2.loose.present] at hq
    exact hsymbol v q rfl hq

theorem Fed.feedComposition
    (t : Token)
    (tower : Composition SymbolId)
    (h : Fed c c')
    (hbarren : Barren c.grammar tower.levels.tail) :
    Fed c (feedComposition t tower c').2 ∧
      ∀ u, (feedComposition t tower c').1 = .ok u →
        ∀ s, ((feedComposition t tower c').2.item u).symbol = some s →
          ∃ level ∈ tower.levels, level.1 = s := by
  induction tower with
  | single s =>
    obtain ⟨hfed, hsymbol⟩ := h.admission (admission_single t s c')
    refine ⟨hfed, fun u hu q hq => ?_⟩
    cases hsymbol u hu q hq
    exact ⟨(s, none), List.mem_cons_self, rfl⟩
  | holding s r inner ih =>
    obtain ⟨hinner, hlevel⟩ := ih fun level hl => hbarren level (List.mem_of_mem_tail hl)
    have hloose := (feedComposition_spec t inner h.poised.sound).2
    -- A level that has been made stays new and unheld while it is placed.
    have hplaces : ∀ {below v c₁ c₂}, Chart.feedComposition t inner c' = (.ok below, c₁) →
        c₁.makeItem (some s) t = (.ok v, c₂) →
          Fed c (c₂.placeOver v below r).2 ∧ Newcomer c (c₂.placeOver v below r).2 v ∧
            ((c₂.placeOver v below r).2.item v).symbol = (c₂.item v).symbol := by
      intro below v c₁ c₂ hfed hmade
      rw [hfed] at hinner hlevel hloose
      obtain ⟨hmake, hnew⟩ := hinner.make (some s) t
      rw [hmade] at hmake hnew
      have hmade : Fed c c₂ := hinner.passes hmake
      obtain ⟨hle, hv⟩ := hnew v rfl
      have hbelow : c₂.Loose below := (hloose below rfl).extend hmake.steps
      have hlt : v.index < c₂.items.size := lt_size_of_present hv.loose.present
      have hrules : ∀ q entry, (c₂.item below).symbol = some q →
          c₂.grammar.symbol? q = some entry → entry.rules = [] := by
        intro q entry hq hentry
        rw [hmake.steps.grows.symbol_eq (hloose below rfl).present] at hq
        obtain ⟨level, hmem, rfl⟩ := hlevel below rfl q hq
        rw [hmade.grows.grammar] at hentry
        exact hbarren level hmem entry hentry
      have hne : v ≠ below := by
        rintro rfl
        exact Nat.not_lt_of_le hle (lt_size_of_present (hloose v rfl).present)
      have hfixed := hmade.fix (r := r) hbelow hlt hv.loose.plain hrules
      obtain ⟨hplace, -⟩ :=
        placeOver_evolves (r := r) hmade.poised.sound hlt hbelow hv.loose.plain
      have hpassed := passes_placeOver hfixed.poised hv.new hplace
      refine ⟨hfixed.passes hpassed,
        (hv.fix (r := r) hmade hbelow hne).raise hfixed hpassed.toRaises, ?_⟩
      rw [hplace.grows.symbol_eq (hv.fix hmade hbelow hne).loose.present,
        field_modifyItem Item.symbol rfl]
    cases stacking t s r inner c' with
    | incomplete hfed heq =>
      rw [hfed] at hinner
      rw [heq]
      exact ⟨hinner, fun u hu => by cases hu⟩
    | unmade hfed hmade heq =>
      rw [hfed] at hinner
      obtain ⟨hmake, -⟩ := hinner.make (some s) t
      rw [hmade] at hmake
      rw [heq]
      exact ⟨hinner.passes hmake, fun u hu => by cases hu⟩
    | unplaced hfed hmade hplaced heq =>
      obtain ⟨hall, -, -⟩ := hplaces hfed hmade
      rw [hplaced] at hall
      rw [heq]
      exact ⟨hall, fun u hu => by cases hu⟩
    | @stacked _ v _ _ _ hfed hmade hplaced heq =>
      obtain ⟨hall, hv, hsame⟩ := hplaces hfed hmade
      rw [hplaced] at hall hv hsame
      rw [heq]
      refine ⟨hall.connected hv, fun u hu q hq => ?_⟩
      cases hu
      have hgrows := (admit_evolves hall.poised.sound v).grows
      rw [hgrows.symbol_eq hv.loose.present, hsame] at hq
      have hsymbol := symbol_makeItem (s := q) (some s) t (congrArg Prod.fst hmade)
      rw [hmade] at hsymbol
      cases hsymbol hq
      exact ⟨(s, some r), List.mem_cons_self, rfl⟩

end Towers

/-- One token does not make worse what was there. -/
theorem Ready.feed
    (h : Ready c)
    (t : Token) :
    Fed c (c.feed t).2 := by
  unfold Chart.feed
  cases taking c (c.symbolOf? t) t with
  | beyond _ heq =>
    rw [heq]
    exact h.fed
  | @tower levels _ hlevels heq =>
    rw [heq]
    obtain ⟨entry, hentry, hcomposition⟩ := Option.bind_eq_some_iff.1 hlevels
    obtain ⟨s, -, hs⟩ := Option.bind_eq_some_iff.1 hentry
    refine (h.fed.feedComposition t levels fun inner hinner e he => ?_).1
    exact h.orderly.towers entry (Grammar.mem_symbols hs) levels hcomposition inner hinner e he
  | single _ _ hadmission => exact (h.fed.admission hadmission).1

theorem Ready.feeds
    (h : Ready c)
    (tokens : List Token) :
    Ready (c.feeds tokens) := by
  unfold Chart.feeds
  induction tokens generalizing c with
  | nil => exact h
  | cons t rest ih => exact ih (h.feed t).ready

end Feeding

theorem Fed.bestWeight?
    (h : Fed c c')
    {w : Weight}
    (hw : c.bestWeight? = some w) :
    ∃ w', c'.bestWeight? = some w' ∧ w ≤ w' := by
  obtain ⟨s, x, hx, rfl⟩ := bestWeight?_eq_some hw
  obtain ⟨u, hpresent, hsymbol, hmem, hfull⟩ := mem_contenders.1 hx
  obtain ⟨y, hy, hyfull, hxy⟩ := h.best u (lt_size_of_present hpresent) x hmem hfull
  obtain ⟨w', hw', hle⟩ := le_bestWeight? (mem_contenders.2
    ⟨u, h.grows.present u hpresent, h.grows.symbol hsymbol, hy, hyfull⟩)
  exact ⟨w', hw', Weight.le_trans hxy hle⟩

/--
Under an orderly grammar, and with room for a candidate in each pool, one more
token does not lower the weight of the best candidate, whether it is taken or
refused.
-/
theorem best_not_lowered
    {g : Grammar}
    {s : Settings}
    (hg : g.Orderly)
    (hwidth : 1 ≤ s.beamWidth)
    (tokens : List Token)
    (t : Token)
    {w : Weight}
    (hw : ((new g s).feeds tokens).bestWeight? = some w) :
    ∃ w', (((new g s).feeds tokens).feed t).2.bestWeight? = some w' ∧ w ≤ w' :=
  (((ready_new hg hwidth).feeds tokens).feed t).bestWeight? hw

/-- The second token is taken by the item of the first one. -/
theorem best_not_lowered_sample :
    sampleGrammar.Orderly ∧
      ((new sampleGrammar {}).feeds
        [{ concept := 1, position := 0, extent := 1 }]).bestWeight? = some (.ofInt 1) ∧
      ∃ w, (((new sampleGrammar {}).feeds [{ concept := 1, position := 0, extent := 1 }]).feed
        { concept := 2, position := 1, extent := 1 }).2.bestWeight? = some w ∧ .ofInt 1 ≤ w := by
  have hg : sampleGrammar.Orderly := by decide +kernel
  have hw : ((new sampleGrammar {}).feeds
      [{ concept := 1, position := 0, extent := 1 }]).bestWeight? = some (.ofInt 1) := by
    decide +kernel
  exact ⟨hg, hw, best_not_lowered hg (by decide) _ { concept := 2, position := 1, extent := 1 } hw⟩

/-- A head that takes a mark in two ways, and other things in the same slots. -/
def doublingDeclaration : Declaration :=
  { symbols :=
      [{ name := "head",
         rules := [{ relation := .property, target := "mark" },
           { relation := .argument, target := "mark" },
           { relation := .property, target := "wide" },
           { relation := .argument, target := "short" }] },
        { name := "mark", rules := [{ relation := .run, target := "dot" }] },
        { name := "wide" }, { name := "short" }, { name := "dot" }] }

/-- A word over a stem that may take a mark. -/
def toweringDeclaration : Declaration :=
  { symbols :=
      [{ name := "mark" },
        { name := "stem",
          rules := [{ relation := .property, target := "mark", placement := .after }] },
        { name := "word",
          rules := [{ relation := .argument, target := "object", placement := .after }],
          composition := some (.holding "word" .run (.single "stem")) },
        { name := "object" }] }

/-- A head over all that it takes in one way, and a dot that is still to be marked. -/
def doublingChart : Chart :=
  (new doublingDeclaration.built { beamWidth := 2 }).feeds
    [{ concept := 1, position := 0, extent := 1 }, { concept := 4, position := 1, extent := 1 },
      { concept := 3, position := 1, extent := 2, sparse := true },
      { concept := 5, position := 4, extent := 1 }]

/-- A word that has taken an object, over a stem that has taken a mark. -/
def toweringChart : Chart :=
  (new toweringDeclaration.built {}).feeds
    [{ concept := 3, position := 0, extent := 1 }, { concept := 1, position := 1, extent := 2 },
      { concept := 4, position := 3, extent := 1 }]

/--
A head that is offered a mark for a second slot gives it up in the first one, and
a stem passes on a newer candidate that covers less. Neither grammar is orderly.
-/
theorem best_lowered :
    (doublingChart.bestWeight? = some (.ofInt 8) ∧
      (doublingChart.feed { concept := 2, position := 3, extent := 1 }).2.bestWeight? =
        some (.ofInt 7)) ∧
    (toweringChart.bestWeight? = some (.ofInt 20) ∧
      (toweringChart.feed { concept := 1, position := 4, extent := 1 }).2.bestWeight? =
        some (.ofInt 14)) := by
  have hdoubling : doublingChart.bestWeight? = some (.ofInt 8) ∧
      (doublingChart.feed { concept := 2, position := 3, extent := 1 }).2.bestWeight? =
        some (.ofInt 7) := by decide +kernel
  have hbefore : toweringChart.bestWeight? = some (.ofInt 20) := by decide +kernel
  -- The coverage maps are merged here, by a recursion that the kernel does not run.
  have hafter : (toweringChart.feed { concept := 1, position := 4, extent := 1 }).2.bestWeight? =
      some (.ofInt 14) := by cbv
  exact ⟨hdoubling, hbefore, hafter⟩

end Chart

end BeamChart
