import BeamChart.Proofs.Chart.Footing

/-!
# Towers stay as they were built

A level of a tower is held by every candidate of the level above it when the
tower is complete. From then on the candidates of the upper level stem from one
another, so each of them still holds the lower level, at the relation of the
tower. The one exception is an upper level that may also take the lower one by a
rule: it is then offered the lower level like any other child, and gives it up
first.

All levels of a tower stand for one token. So if the token covers something and no
level up to the upper one may be given up, the tower is firm, and the upper level is not
left without a candidate (`tower_keeps_level`). It may be left without one if it has given
up the lower level in a chart that is full (`full_chart_empties_tower`), and over a token that
covers nothing even without giving anything up (`tower_over_nothing_runs_empty`).
-/

namespace BeamChart

/-- The symbol is defined, and not the unrecognized one. -/
def Grammar.Declares (g : Grammar) (s : SymbolId) : Prop :=
  s ≠ unrecognized ∧ (g.symbol? s).isSome = true

/-- The levels of a composition are defined symbols. -/
theorem Declaration.declares_of_mem_levels
    {d : Declaration}
    {g : Grammar}
    (hbuilt : d.resolve = .ok g)
    {k : SymbolId}
    {entry : Symbol}
    {tower : Composition SymbolId}
    (hentry : g.symbol? k = some entry)
    (htower : entry.composition = some tower)
    {e : SymbolId × Option Relation}
    (he : e ∈ tower.levels) :
    g.Declares e.1 := by
  obtain ⟨hpos, hlt⟩ :=
    Declaration.pos_and_lt_of_mentions hbuilt (.definition hentry (.level htower he))
  refine ⟨Nat.ne_of_gt hpos, ?_⟩
  rw [Grammar.symbol?, Array.getElem?_eq_getElem hlt]
  rfl

namespace Chart

variable {strict : Prop} {c c' : Chart} {u v p : ItemId} {r : Relation} {t : Token}

section Instances

/-- The item is a defined symbol over the token, and has been seen. -/
structure OfToken (c : Chart) (t : Token) (u : ItemId) : Prop where
  present : (c.item u).present = true
  token : (c.item u).token = some t
  extent : (c.item u).extent = t.extent
  defined : ∃ id s, (c.item u).symbol = some id ∧ c.grammar.symbol? id = some s

theorem OfToken.extend
    (h : c.OfToken t u)
    (hext : Extends c c') :
    c'.OfToken t u where
  present := hext.present u h.present
  token := by
    rw [← h.token]
    exact congrArg (fun e => e.2.2.2.2) (hext.place u (Or.inr h.present))
  extent := by
    rw [← h.extent]
    exact congrArg (fun e => e.2.2.2.1) (hext.place u (Or.inr h.present))
  defined := by
    obtain ⟨id, s, hsymbol, hdefined⟩ := h.defined
    rw [hext.grammar]
    exact ⟨id, s, hext.symbol hsymbol, hdefined⟩

theorem OfToken.sown
    (h : c.OfToken t u)
    (hpos : 0 < t.extent) :
    c.Sown u where
  token := by
    rw [h.token]
    rfl
  extent := by
    rw [h.extent]
    exact hpos
  defined := h.defined

theorem makeItem_ofToken
    (hc : Sound strict c)
    {s : SymbolId}
    (hs : c.grammar.Declares s)
    (hu : (c.makeItem (some s) t).1 = .ok u) :
    (c.makeItem (some s) t).2.OfToken t u := by
  obtain ⟨hmake, hitem⟩ := makeItem_spec hc (some s) t
  have hplace := place_makeItem (some s) t hu
  have hkept : (some s).filter (fun s => s ≠ unrecognized) = some s := by
    simp [hs.1]
  rw [hkept] at hplace
  obtain ⟨entry, hentry⟩ := Option.isSome_iff_exists.1 hs.2
  exact
    { present := (hitem u hu).2.present
      token := congrArg (fun e => e.2.2.2.2) hplace
      extent := congrArg (fun e => e.2.2.2.1) hplace
      defined := ⟨s, entry, congrArg (fun e => e.2.1) hplace, by rw [hmake.grows.grammar, hentry]⟩ }

end Instances

section Levels

/-- One level of a complete tower: the item above holds it, or may take it freely. -/
structure Secured (c : Chart) (v p : ItemId) (r : Relation) : Prop where
  fixed : (c.item v).fixedParent = some (p, r)
  only : ∀ w q, (c.item w).fixedParent = some (p, q) → w = v ∧ q = r
  token : ∃ t, c.OfToken t v ∧ c.OfToken t p
  held : ∀ y ∈ (c.item p).pool, c.Holds y r v ∨ ∃ q, c.Licensed p v q

theorem Secured.present
    (h : c.Secured v p r) :
    (c.item p).present = true := by
  obtain ⟨t, -, htop⟩ := h.token
  exact htop.present

theorem Step.secured
    (h : Step True c c')
    (hc : Closed c)
    (hs : c.Secured v p r) :
    c'.Secured v p r where
  fixed := (h.fixedParent v).trans hs.fixed
  only w q hw := hs.only w q ((h.fixedParent w).symm.trans hw)
  token := hs.token.imp fun t ht => ⟨ht.1.extend h.grows, ht.2.extend h.grows⟩
  held y hy := by
    have hextend : ∀ {y}, c.Has y → (c.Holds y r v ∨ ∃ q, c.Licensed p v q) →
        c'.Holds y r v ∨ ∃ q, c'.Licensed p v q := fun hy hheld =>
      hheld.imp (fun hholds => (holds_iff_of_extends hc hy h.grows).2 hholds)
        fun hfree => hfree.imp fun q hq => hq.extend h.grows
    rcases h.pool_cases p with hkept | ⟨hrooted, -, hstems, -⟩
    · rw [hkept] at hy
      exact hextend (hc.has_of_mem hy) (hs.held y hy)
    · refine hextend (hrooted y hy).1 ?_
      rcases hstems trivial hs.present with hold | ⟨w, q, hw, hholds⟩
      · obtain ⟨x, hx, hkeeps⟩ := hold y hy
        rcases hs.held x hx with hholds | hfree
        · exact hkeeps r v hholds
        · exact Or.inr hfree
      · obtain ⟨rfl, rfl⟩ := hs.only w q hw
        exact Or.inl (hholds y hy)

theorem Evolves.secured
    (h : Evolves True c c')
    (hc : Sound True c)
    (hs : c.Secured v p r) :
    c'.Secured v p r := by
  induction h with
  | refl => exact hs
  | tail hsteps hstep ih => exact hstep.secured (Evolves.sound hsteps hc).closed ih

/-- All towers are complete. -/
def Rigid (c : Chart) : Prop :=
  ∀ v p r, (c.item v).fixedParent = some (p, r) → c.Secured v p r

theorem rigid_new (g : Grammar) (s : Settings) :
    Rigid (new g s) := by
  intro v p r h
  rw [item_of_size_le (Nat.zero_le _)] at h
  cases h

theorem Evolves.rigid
    (h : Evolves True c c')
    (hc : Sound True c)
    (hr : Rigid c) :
    Rigid c' := fun v p r hfixed =>
  h.secured hc (hr v p r ((h.fixedParent v).symm.trans hfixed))

/-- A tower over a token that covers something is firm, unless a level of it may be given up. -/
theorem Rigid.firm
    (hr : Rigid c)
    (hfixed : (c.item v).fixedParent = some (p, r))
    (hpos : 0 < (c.item p).extent)
    (hkeeps : ∀ w, c.Beneath w p → ¬ c.Concedes w) :
    c.Firm p := by
  obtain ⟨t, -, htop⟩ := (hr v p r hfixed).token
  rw [htop.extent] at hpos
  have hsown : ∀ w, c.Beneath w p → c.Sown w := by
    intro w hbeneath
    induction hbeneath using Relation.ReflTransGen.head_induction_on with
    | refl => exact htop.sown hpos
    | head hfixed _ ih =>
      obtain ⟨q, hq⟩ := hfixed
      -- a level stands for the token of the level above it
      obtain ⟨t', hlower, hupper⟩ := (hr _ _ q hq).token
      have hcovers := ih.extent
      rw [hupper.extent] at hcovers
      exact hlower.sown hcovers
  exact ⟨htop.present, fun w hbeneath _ => hsown w hbeneath, hkeeps⟩

end Levels

section Building

/-- A new level completes the tower again. -/
theorem placeOver_rigid
    (hc : Sound True c)
    (hr : Rigid c)
    (hbelow : c.Loose v)
    (hu : c.Loose u)
    (htoken : ∃ t, c.OfToken t v ∧ c.OfToken t u)
    (hfree : ∀ w q, (c.item w).fixedParent ≠ some (u, q))
    {done : Unit}
    (hdone : (c.placeOver u v r).1 = .ok done) :
    Rigid (c.placeOver u v r).2 := by
  have hlt : u.index < c.items.size := lt_size_of_present hu.present
  obtain ⟨hsteps, hheld⟩ := placeOver_evolves (r := r) hc hlt hbelow hu.plain
  have hfix : Move True c (c.modifyItem v fun i => { i with fixedParent := some (u, r) }) :=
    .fix hbelow.fixedParent hlt hu.plain
  have hpool : ∀ w, ((c.modifyItem v fun i =>
      { i with fixedParent := some (u, r) }).item w).pool = (c.item w).pool :=
    field_modifyItem Item.pool rfl
  have hfixed : ∀ w, ((c.modifyItem v fun i =>
      { i with fixedParent := some (u, r) }).item w).fixedParent =
        if w = v then some (u, r) else (c.item w).fixedParent := by
    intro w
    rw [item_modifyItem]
    by_cases hw : w = v
    · rw [if_pos ⟨hw, lt_size_of_present hbelow.present⟩, if_pos hw]
    · rw [if_neg (fun h => hw h.1), if_neg hw]
  have hext : Extends c (c.modifyItem v fun i => { i with fixedParent := some (u, r) }) :=
    Extends.fix hbelow.fixedParent
  have hheld' := hheld done hdone
  generalize (c.placeOver u v r).2 = c₂ at hsteps hheld' ⊢
  generalize c.modifyItem v _ = c₁ at hsteps hfix hpool hfixed hext
  intro w q s hw
  have hw₁ : (c₁.item w).fixedParent = some (q, s) := (hsteps.fixedParent w).symm.trans hw
  by_cases hwv : w = v
  · rw [hfixed, if_pos hwv] at hw₁
    cases hw₁
    subst hwv
    have hall : Extends c c₂ := hext.trans hsteps.grows
    refine ⟨hw, fun x t hx => ?_, htoken.imp fun t ht => ⟨ht.1.extend hall, ht.2.extend hall⟩,
      fun y hy => Or.inl (hheld' y hy)⟩
    · have hx₁ := (hsteps.fixedParent x).symm.trans hx
      rw [hfixed] at hx₁
      split at hx₁
      · rename_i hxv
        cases hx₁
        exact ⟨hxv, rfl⟩
      · exact absurd hx₁ (hfree x t)
  · rw [hfixed, if_neg hwv] at hw₁
    have hold := hr w q s hw₁
    refine hsteps.secured (hfix.sound hc) ⟨?_, fun x t hx => ?_,
      hold.token.imp fun t ht => ⟨ht.1.extend hext, ht.2.extend hext⟩, fun y hy => ?_⟩
    · rw [hfixed, if_neg hwv]
      exact hw₁
    · rw [hfixed] at hx
      split at hx
      · cases hx
        exact absurd hw₁ (hfree w s)
      · exact hold.only x t hx
    · rw [hpool] at hy
      exact (hold.held y hy).imp
        (fun hholds => (holds_iff_of_extends hc.closed (hc.closed.has_of_mem hy) hext).2 hholds)
        fun hlicensed => hlicensed.imp fun t ht => ht.extend hext

theorem makeItem_free
    (hc : Sound True c)
    (hr : Rigid c)
    (symbol : Option SymbolId)
    (t : Token)
    (hu : (c.makeItem symbol t).1 = .ok u) :
    ∀ w q, ((c.makeItem symbol t).2.item w).fixedParent ≠ some (u, q) := by
  obtain ⟨hmake, hitem⟩ := makeItem_spec hc symbol t
  intro w q hw
  have hold := (hr w u q ((hmake.fixedParent w).symm.trans hw)).present
  have hlt := lt_size_of_present hold
  rw [(hitem u hu).1] at hlt
  exact Nat.lt_irrefl _ hlt

theorem Admission.rigid
    {symbol : Option SymbolId}
    {t : Token}
    {outcome : Except ChartError ItemId × Chart}
    (h : Admission c symbol t outcome)
    (hc : Sound True c)
    (hr : Rigid c) :
    Rigid outcome.2 := by
  obtain ⟨hmake, -⟩ := makeItem_spec hc symbol t
  cases h with
  | refused hmade heq =>
    rw [hmade] at hmake
    rw [heq]
    exact hmake.rigid hc hr
  | admitted hmade heq =>
    rw [hmade] at hmake
    rw [heq]
    exact (hmake.trans (admit_evolves (hmake.sound hc) _)).rigid hc hr

/-- What comes of a tower is an instance of its outermost symbol over the token. -/
theorem feedComposition_ofToken
    (t : Token)
    (tower : Composition SymbolId)
    (hc : Sound strict c)
    (htower : ∀ e ∈ tower.levels, c.grammar.Declares e.1)
    (hu : (feedComposition t tower c).1 = .ok u) :
    (feedComposition t tower c).2.OfToken t u := by
  cases tower with
  | single s =>
    have hs := htower (s, none) List.mem_cons_self
    cases admission_single t s c with
    | refused _ heq =>
      rw [heq] at hu
      cases hu
    | @admitted v c₁ hmade heq =>
      have hitem := makeItem_ofToken hc hs (congrArg Prod.fst hmade)
      have hc₁ := (makeItem_spec hc (some s) t).1.sound hc
      rw [hmade] at hitem hc₁
      rw [heq] at hu ⊢
      cases hu
      exact hitem.extend (admit_evolves hc₁ _).grows
  | holding s r inner =>
    obtain ⟨hinner, hbelow⟩ := feedComposition_spec t inner hc
    cases stacking t s r inner c with
    | incomplete _ heq | unmade _ _ heq | unplaced _ _ _ heq =>
      rw [heq] at hu
      cases hu
    | @stacked below v c₁ c₂ c₃ hfed hmade hplaced heq =>
      rw [hfed] at hinner hbelow
      have hc₁ : Sound strict c₁ := hinner.sound hc
      have hs : c₁.grammar.Declares s := by
        rw [hinner.grammar]
        exact htower (s, some r) List.mem_cons_self
      obtain ⟨hmake, hloose⟩ := makeItem_spec hc₁ (some s) t
      have hitem := makeItem_ofToken hc₁ hs (congrArg Prod.fst hmade)
      rw [hmade] at hmake hloose hitem
      have hbelow₂ : c₂.Loose below := (hbelow below rfl).extend hmake
      have hv : c₂.Loose v := (hloose v rfl).2
      have hc₂ : Sound strict c₂ := hmake.sound hc₁
      have hsteps := (placeOver_evolves (r := r) hc₂ (lt_size_of_present hv.present) hbelow₂
        hv.plain).1
      have hc₃ := (placeOver_advances (r := r) hc₂ (lt_size_of_present hv.present) hbelow₂
        hv.plain).sound hc₂
      rw [hplaced] at hsteps hc₃
      rw [heq] at hu ⊢
      cases hu
      exact (hitem.extend ((Extends.fix hbelow₂.fixedParent).trans hsteps.grows)).extend
        (admit_evolves hc₃ _).grows

theorem feedComposition_rigid
    (t : Token)
    (tower : Composition SymbolId)
    (hc : Sound True c)
    (hr : Rigid c)
    (htower : ∀ e ∈ tower.levels, c.grammar.Declares e.1)
    (hu : (feedComposition t tower c).1 = .ok u) :
    Rigid (feedComposition t tower c).2 := by
  induction tower generalizing c u with
  | single s => exact (admission_single t s c).rigid hc hr
  | holding s r inner ih =>
    obtain ⟨hinner, hbelow⟩ := feedComposition_spec t inner hc
    cases stacking t s r inner c with
    | incomplete _ heq | unmade _ _ heq | unplaced _ _ _ heq =>
      rw [heq] at hu
      cases hu
    | @stacked below v c₁ c₂ c₃ hfed hmade hplaced heq =>
      have hlower : ∀ e ∈ inner.levels, c.grammar.Declares e.1 := fun e he =>
        htower e (List.mem_cons_of_mem _ he)
      have hr₁ := ih hc hr hlower (congrArg Prod.fst hfed)
      have hbelowToken := feedComposition_ofToken t inner hc hlower (congrArg Prod.fst hfed)
      rw [hfed] at hinner hbelow hr₁ hbelowToken
      have hc₁ : Sound True c₁ := hinner.sound hc
      have hs : c₁.grammar.Declares s := by
        rw [hinner.grammar]
        exact htower (s, some r) List.mem_cons_self
      have hitemToken := makeItem_ofToken hc₁ hs (congrArg Prod.fst hmade)
      obtain ⟨hmake, hitem⟩ := makeItem_spec hc₁ (some s) t
      have hfree := makeItem_free hc₁ hr₁ (some s) t (congrArg Prod.fst hmade)
      rw [hmade] at hmake hitem hfree hitemToken
      have hloose : c₂.Loose below := (hbelow below rfl).extend hmake
      have hv : c₂.Loose v := (hitem v rfl).2
      have hc₂ : Sound True c₂ := hmake.sound hc₁
      have hrigid := placeOver_rigid hc₂ (hmake.rigid hc₁ hr₁) hloose hv
        ⟨t, hbelowToken.extend hmake.grows, hitemToken⟩ hfree (congrArg Prod.fst hplaced)
      have hc₃ := (placeOver_advances (r := r) hc₂ (lt_size_of_present hv.present) hloose
        hv.plain).sound hc₂
      rw [hplaced] at hrigid hc₃
      rw [heq]
      exact (admit_evolves hc₃ v).rigid hc₃ hrigid

theorem feedAs_rigid
    {d : Declaration}
    (hbuilt : d.resolve = .ok c.grammar)
    (hc : Sound True c)
    (hr : Rigid c)
    (symbol : Option SymbolId)
    (t : Token)
    (hu : (c.feedAs symbol t).1 = .ok u) :
    Rigid (c.feedAs symbol t).2 := by
  cases taking c symbol t with
  | beyond _ heq =>
    rw [heq]
    exact hr
  | @tower levels _ hlevels heq =>
    obtain ⟨entry, hentry, htower⟩ := Option.bind_eq_some_iff.1 hlevels
    obtain ⟨k, -, hk⟩ := Option.bind_eq_some_iff.1 hentry
    rw [heq] at hu ⊢
    exact feedComposition_rigid t levels hc hr
      (fun e he => Declaration.declares_of_mem_levels hbuilt hk htower he) hu
  | single _ _ hadmission => exact hadmission.rigid hc hr

end Building

/-- The chart after some tokens, if each of them has been taken. -/
def feedsAll? (c : Chart) : List Token → Option Chart
  | [] => some c
  | t :: rest =>
    match c.feed t with
    | (.ok _, c) => c.feedsAll? rest
    | (.error _, _) => none

/-- Tokens that have all been taken leave complete towers. -/
theorem feedsAll?_rigid
    {d : Declaration}
    {g : Grammar}
    {s : Settings}
    {c₁ : Chart}
    (hbuilt : d.resolve = .ok g)
    (hdriven : Driven g s c₁)
    (hr : Rigid c₁)
    {tokens : List Token}
    (h : c₁.feedsAll? tokens = some c) :
    Driven g s c ∧ Rigid c := by
  induction tokens generalizing c₁ with
  | nil =>
    cases h
    exact ⟨hdriven, hr⟩
  | cons t rest ih =>
    have hkept := hdriven.kept
    have hnext : Driven g s (c₁.feed t).2 := .input hdriven (.feed t)
    have hrigid : ∀ u, (c₁.feed t).1 = .ok u → Rigid (c₁.feed t).2 := fun u hu =>
      feedAs_rigid (by rw [hkept.grammar]; exact hbuilt) hkept.sound hr _ t hu
    unfold feedsAll? at h
    generalize c₁.feed t = result at h hnext hrigid
    obtain ⟨outcome, c₂⟩ := result
    cases outcome with
    | error e => cases h
    | ok u => exact ih hnext (hrigid u rfl) h

/--
After tokens that have all been taken, every candidate of an upper level holds
the level below it at the relation of their tower, unless the upper level may
take the lower one by a rule as well. The upper level has a candidate, unless the token
covers nothing, or some level up to there may take the one below it by a rule.
-/
theorem tower_keeps_level
    {d : Declaration}
    {g : Grammar}
    {s : Settings}
    {tokens : List Token}
    (hbuilt : d.resolve = .ok g)
    (hrun : (new g s).feedsAll? tokens = some c)
    (hfixed : (c.item v).fixedParent = some (p, r)) :
    (∀ y ∈ (c.item p).pool, c.Holds y r v ∨ ∃ q, c.Licensed p v q) ∧
      ((c.item p).pool ≠ [] ∨ (c.item p).extent = 0 ∨ ∃ w, c.Beneath w p ∧ c.Concedes w) := by
  obtain ⟨hdriven, hrigid⟩ := feedsAll?_rigid hbuilt .new (rigid_new g s) hrun
  refine ⟨(hrigid v p r hfixed).held, ?_⟩
  by_cases hpos : 0 < (c.item p).extent
  · by_cases hconcedes : ∃ w, c.Beneath w p ∧ c.Concedes w
    · exact Or.inr (Or.inr hconcedes)
    · left
      exact hdriven.firm_pool_ne_nil (hrigid.firm hfixed hpos fun w hbeneath hw =>
        hconcedes ⟨w, hbeneath, hw⟩)
  · exact Or.inr (Or.inl (Nat.eq_zero_of_not_pos hpos))

/-- A word that is always built over a stem, and may have more rules. -/
def towerDeclaration (more : List (Rule String)) : Declaration :=
  { symbols :=
      [{ name := "stem" },
        { name := "word", rules := more,
          composition := some (.holding "word" .run (.single "stem")) }] }

/-- A word over its stem; a chart without input if the word is not taken. -/
def towerChart (more : List (Rule String)) : Chart :=
  let start : Chart := new (towerDeclaration more).built {}
  (start.feedsAll? [{ concept := 2, position := 0, extent := 1 }]).getD start

theorem feedsAll?_towerChart :
    (new (towerDeclaration []).built {}).feedsAll?
      [{ concept := 2, position := 0, extent := 1 }] = some (towerChart []) := by
  have hsome : ((new (towerDeclaration []).built {}).feedsAll?
      [{ concept := 2, position := 0, extent := 1 }]).isSome = true := by decide +kernel
  obtain ⟨c, hc⟩ := Option.isSome_iff_exists.1 hsome
  rw [hc, towerChart, hc]
  rfl

/-- Without rules nothing is taken freely. -/
theorem not_licensed_of_no_rules
    (h : ∀ k s, c.grammar.symbol? k = some s → s.rules = [])
    (q : Relation) :
    ¬ c.Licensed u v q := by
  have hnone : ∀ {level r d rule}, c.grammar.ruleFor? level r d ≠ some rule := by
    intro level r d rule hrule
    obtain ⟨entry, hentry, hmem, -⟩ := Grammar.mem_of_ruleFor? hrule
    have hrules := ((Definition.mem_rulesAt _ _ _).1 hmem).1
    rw [h level entry hentry] at hrules
    cases hrules
  intro hlicensed
  cases hlicensed.grounds with
  | placed _ _ _ hrule => exact hnone hrule
  | implied _ _ _ _ _ _ hrule => exact hnone hrule

theorem tower_keeps_level_sample :
    ((towerChart []).item ⟨0⟩).fixedParent = some (⟨1⟩, .run) ∧
      ((towerChart []).item ⟨1⟩).pool ≠ [] ∧
      ∀ y ∈ ((towerChart []).item ⟨1⟩).pool, (towerChart []).Holds y .run ⟨0⟩ := by
  have hfixed : ((towerChart []).item ⟨0⟩).fixedParent = some (⟨1⟩, .run) := by decide +kernel
  have hbuilt : (towerDeclaration []).resolve = .ok (towerDeclaration []).built :=
    Declaration.resolve_eq_built (by decide +kernel)
  obtain ⟨hheld, hpool⟩ := tower_keeps_level hbuilt feedsAll?_towerChart hfixed
  have hgrammar := (feedsAll?_rigid hbuilt .new (rigid_new _ _) feedsAll?_towerChart).1.kept.grammar
  have hrules : ∀ s ∈ (towerDeclaration []).built.symbols.toList, s.rules = [] := by
    decide +kernel
  have hfree : ∀ p v q, ¬ (towerChart []).Licensed p v q := fun p v q =>
    not_licensed_of_no_rules (fun k s hs => hrules s (by
      rw [hgrammar] at hs
      exact Array.mem_toList_iff.2 (Array.mem_of_getElem? hs))) q
  refine ⟨hfixed, hpool.resolve_right ?_, fun y hy => (hheld y hy).resolve_right ?_⟩
  · rintro (hzero | ⟨w, -, v, r, q, -, hlicensed⟩)
    · exact absurd hzero (by decide +kernel)
    · exact hfree w v q hlicensed
  · rintro ⟨q, hlicensed⟩
    exact hfree _ _ q hlicensed

/-- A word that may take its stem as a property is left with the stem there only. -/
theorem tower_gives_up_level :
    ((towerChart [{ relation := .property, target := "stem" }]).item ⟨0⟩).fixedParent =
        some (⟨2⟩, .run) ∧
      ((towerChart [{ relation := .property, target := "stem" }]).item ⟨2⟩).pool = [⟨5⟩] ∧
      ((towerChart [{ relation := .property, target := "stem" }]).candidate ⟨5⟩).slot .run = none ∧
      (((towerChart [{ relation := .property, target := "stem" }]).candidate ⟨5⟩).slot
        .property).map Slot.child = some ⟨0⟩ := by
  decide +kernel

/-- The same word has no candidate left if the chart has no room to take the stem again. -/
theorem full_chart_empties_tower :
    let start : Chart := new (towerDeclaration [{ relation := .property, target := "stem" }]).built
      { candidateCapacity := 5 }
    let c := (start.feedsAll? [{ concept := 2, position := 0, extent := 1 }]).getD start
    (c.item ⟨0⟩).fixedParent = some (⟨2⟩, .run) ∧ (c.item ⟨2⟩).pool = [] := by
  decide +kernel

/-- A word that covers nothing gives up the mark it has taken, and no candidate is left to it. -/
theorem tower_over_nothing_runs_empty :
    let marks : Declaration :=
      { symbols :=
          [{ name := "stem" },
            { name := "word",
              rules :=
                [{ relation := .property, target := "mark" },
                  { relation := .argument, target := "mark" }],
              composition := some (.holding "word" .run (.single "stem")) },
            { name := "mark" }] }
    let start : Chart := new marks.built { candidateCapacity := 6 }
    let c := (start.feedsAll?
      [{ concept := 2, position := 0, extent := 0 },
        { concept := 3, position := 5, extent := 1 }]).getD start
    (c.item ⟨0⟩).fixedParent = some (⟨1⟩, .run) ∧ (c.item ⟨1⟩).pool = [] := by
  decide +kernel

end Chart

end BeamChart
