import BeamChart.Proofs.Relocation.Connect

/-!
# Tokens in relocated charts

A token at a position makes in a chart what the same token, moved by the distance,
makes in a relocation of the chart, as long as neither of them is refused for its
position alone. This holds for the items of a tower as well, whose fixed parents are
made one after the other.
-/

namespace BeamChart

namespace Chart

/-- Two operations come to the same outcome, an item being relocated. -/
inductive Yields (m : Relocation) (R : Chart → Chart → Prop) :
    Except ChartError ItemId × Chart → Except ChartError ItemId × Chart → Prop
  | ok
      (u : ItemId)
      (c c' : Chart)
      (h : R c c') :
      Yields m R (.ok u, c) (.ok (m.item u), c')
  | error
      (e : ChartError)
      (c c' : Chart)
      (h : R c c') :
      Yields m R (.error e, c) (.error e, c')

variable {m : Relocation} {c c' : Chart} {u below : ItemId} {r : Relation} {s : SymbolId}
  {symbol : Option SymbolId} {t : Token}

section Connecting

/-- An item is connected alike. -/
theorem Mirrors.connect
    (h : Mirrors m c c')
    (u : ItemId)
    (hclean : m.Clean (c'.connect (m.item u))) :
    Mirrors m (c.connect u) (c'.connect (m.item u)) := by
  unfold Chart.connect at hclean ⊢
  rw [h.settings] at hclean ⊢
  exact h.connected (tracks_connectWithin m c.settings.maxDepth) hclean

theorem Mirrors.connectInBudget
    (h : Mirrors m c c')
    (u : ItemId)
    (hclean : m.Clean (c'.connectInBudget (m.item u))) :
    Mirrors m (c.connectInBudget u) (c'.connectInBudget (m.item u)) := by
  unfold Chart.connectInBudget at hclean ⊢
  rw [h.settings, h.attempts] at hclean ⊢
  split
  · rename_i hbudget
    rw [if_pos hbudget] at hclean
    exact h.connect u hclean
  · exact h.evolve (evolves_count c _ rfl rfl rfl (Nat.le_refl _)) (h.count fun _ _ he => he)

end Connecting

section Filling

theorem Relocates.leafOf
    (h : Relocates m c c')
    (u : ItemId)
    (entry : Symbol)
    (id : SymbolId)
    (t : Token) :
    c'.leafOf (m.item u) entry id (m.token t) = m.candidate (c.leafOf u entry id t) := by
  simp only [Chart.leafOf, Candidate.leaf, h.nextCandidate, h.settings, Chart.senseReadings,
    m.stop_token]
  simp only [Relocation.candidate, m.coverage_single, Relocation.token, Token.moved]
  rfl

theorem Relocates.instantiate
    (h : Relocates m c c')
    (u : ItemId)
    (symbol : Option SymbolId)
    (t : Token) :
    Agrees (Relocates m) (c.instantiate u symbol t)
      (c'.instantiate (m.item u) symbol (m.token t)) := by
  unfold Chart.instantiate
  dsimp only
  generalize symbol.filter (fun s => decide (s ≠ unrecognized)) = found
  have hfill : Relocates m
      (c.modifyItem u fun i =>
        { i with
          concept := found.getD unrecognized
          symbol := found
          position := t.position
          extent := t.extent
          token := some t
          pool := [] })
      (c'.modifyItem (m.item u) fun i =>
        { i with
          concept := found.getD unrecognized
          symbol := found
          position := (m.token t).position
          extent := (m.token t).extent
          token := some (m.token t)
          pool := [] }) := by
    refine h.modifyItem ?_
    simp [Relocation.moved, Item.located, Relocation.token, Token.moved]
  generalize c.modifyItem u _ = d at hfill ⊢
  generalize c'.modifyItem (m.item u) _ = d' at hfill ⊢
  cases found with
  | none => exact ⟨_, _, _, hfill⟩
  | some id =>
    rw [hfill.grammar]
    dsimp only
    cases d.grammar.symbol? id with
    | none => exact ⟨_, _, _, hfill⟩
    | some entry =>
      have hstore := hfill.store (d.leafOf u entry id t)
      dsimp only
      rw [hfill.leafOf]
      generalize d.store _ = result at hstore ⊢
      generalize d'.store _ = result' at hstore ⊢
      obtain ⟨outcome, c₁, c₁', hstored⟩ := hstore
      cases outcome with
      | error e => exact ⟨_, _, _, hstored⟩
      | ok x => exact ⟨_, _, _, hstored.setPool [x]⟩

/-- An item that has been filled has its token. -/
theorem located_instantiate
    (hu : u.index < c.items.size)
    (symbol : Option SymbolId)
    (t : Token) :
    ((c.instantiate u symbol t).2.item u).located = true := by
  have hlocated : ∀ i : Item, i.token = some t → i.located = true := fun i hi => by
    simp [Item.located, hi]
  apply hlocated
  unfold Chart.instantiate
  dsimp only
  generalize symbol.filter (fun s => decide (s ≠ unrecognized)) = found
  generalize hd : c.modifyItem u _ = d
  have htoken : (d.item u).token = some t := by
    rw [← hd, item_modifyItem_self _ hu]
  cases found with
  | none => exact htoken
  | some id =>
    dsimp only
    cases d.grammar.symbol? id with
    | none => exact htoken
    | some entry =>
      have hitems := items_store d (d.leafOf u entry id t)
      dsimp only
      generalize d.store _ = result at hitems ⊢
      obtain ⟨outcome, c₁⟩ := result
      have htoken₁ : (c₁.item u).token = some t := by
        rw [item_of_items_eq hitems]
        exact htoken
      cases outcome with
      | error e => exact htoken₁
      | ok x => exact (field_modifyItem Item.token rfl u).trans htoken₁

theorem Mirrors.makeItem
    (h : Mirrors m c c')
    (symbol : Option SymbolId)
    (t : Token)
    (hclean : m.Clean (c'.makeItem symbol (m.token t)).2) :
    Yields m (Mirrors m) (c.makeItem symbol t) (c'.makeItem symbol (m.token t)) := by
  have hsteps : Evolves False c (c.makeItem symbol t).2 := (makeItem_spec h.sound symbol t).1
  have hallocate : m.Clean c'.allocateItem.2 := by
    rcases allocateItem_cases c' with ⟨-, heq⟩ | heq
    · rw [heq]
      have hstart : m.Clean c' := hclean.before (makeItem_returns c' symbol (m.token t)).1
      exact hstart
    · unfold Chart.makeItem at hclean
      rwa [heq] at hclean ⊢
  suffices hall : Yields m (Relocates m) (c.makeItem symbol t) (c'.makeItem symbol (m.token t)) by
    generalize c.makeItem symbol t = result at hall hsteps ⊢
    generalize c'.makeItem symbol _ = result' at hall ⊢
    cases hall with
    | ok u d d' hd => exact .ok u d d' (h.evolve hsteps hd)
    | error e d d' hd => exact .error e d d' (h.evolve hsteps hd)
  unfold Chart.makeItem
  rcases h.allocateItem hallocate with ⟨-, heq, heq'⟩ | ⟨heq, heq'⟩
  · rw [heq, heq']
    have hlt : c.nextItem.index < (c.pushItem {}).items.size := by
      simp [Chart.pushItem, Chart.nextItem]
    have hlocated := located_instantiate hlt symbol t
    have hfill := (h.pushItem {}).instantiate c.nextItem symbol t
    dsimp only
    rw [show m.moved {} = {} from rfl] at hfill
    generalize (c.pushItem {}).instantiate _ symbol t = result at hfill hlocated ⊢
    generalize (c'.pushItem {}).instantiate _ symbol _ = result' at hfill ⊢
    obtain ⟨outcome, c₁, c₁', hfilled⟩ := hfill
    cases outcome with
    | error e => exact .error e c₁ c₁' hfilled
    | ok _ => exact .ok _ _ _ (hfilled.markPresent hlocated)
  · rw [heq, heq']
    exact .error _ _ _ h.refused

end Filling

section Towers

theorem Relocates.liftAll
    (h : Relocates m c c')
    (u : ItemId)
    (r : Relation)
    (pool : List CandidateId)
    (hpool : ∀ x ∈ pool, c.Has x) :
    Agrees (Relocates m) (liftAll u r c pool) (liftAll (m.item u) r c' pool) := by
  induction pool generalizing c c' with
  | nil => exact ⟨_, _, _, h⟩
  | cons x rest ih =>
    have hhas : ∀ y ∈ rest,
        (c.store ((Candidate.seed u).attach r ⟨x, 0⟩ (c.candidate x))).2.Has y :=
      fun y hy => has_store (hpool y (List.mem_cons_of_mem x hy)) _
    have hstore := h.store ((Candidate.seed u).attach r ⟨x, 0⟩ (c.candidate x))
    unfold Chart.liftAll
    rw [h.candidate x (hpool x List.mem_cons_self), ← m.candidate_seed, ← m.candidate_attach]
    generalize c.store _ = result at hstore hhas ⊢
    generalize c'.store _ = result' at hstore ⊢
    obtain ⟨outcome, c₁, c₁', hstored⟩ := hstore
    cases outcome with
    | error e => exact ⟨_, _, _, hstored⟩
    | ok id =>
      have htail := ih hstored hhas
      dsimp only
      generalize Chart.liftAll u r c₁ rest = result at htail ⊢
      generalize Chart.liftAll (m.item u) r c₁' rest = result' at htail ⊢
      obtain ⟨outcome, c₂, c₂', hlifted⟩ := htail
      cases outcome <;> exact ⟨_, _, _, hlifted⟩

/-- The item above has been made after the one below, so the tower rises. -/
theorem Mirrors.placeOver
    (h : Mirrors m c c')
    (hbelow : c.Loose below)
    (hu : c.Loose u)
    (hlt : below.index < u.index)
    (r : Relation) :
    Agrees (Mirrors m) (c.placeOver u below r)
      (c'.placeOver (m.item u) (m.item below) r) := by
  have hitem : u.index < c.items.size := lt_size_of_present hu.present
  have hfixed : Mirrors m (c.modifyItem below fun i => { i with fixedParent := some (u, r) })
      (c'.modifyItem (m.item below) fun i => { i with fixedParent := some (m.item u, r) }) :=
    ⟨h.modifyItem rfl, h.grounded.fix hbelow.fixedParent hlt hitem hu.plain⟩
  refine hfixed.evolves (placeOver_evolves h.sound hitem hbelow hu.plain).1 ?_
  unfold Chart.placeOver
  dsimp only
  generalize c.modifyItem below _ = d at hfixed ⊢
  generalize c'.modifyItem _ _ = d' at hfixed ⊢
  have hlift := hfixed.liftAll u r (d.item below).pool fun x hx => hfixed.closed.has_of_mem hx
  rw [hfixed.pool]
  generalize Chart.liftAll u r d _ = result at hlift ⊢
  generalize Chart.liftAll (m.item u) r d' _ = result' at hlift ⊢
  obtain ⟨outcome, c₁, c₁', hlifted⟩ := hlift
  cases outcome with
  | error e => exact ⟨_, _, _, hlifted⟩
  | ok pool => exact ⟨_, _, _, hlifted.setPool pool⟩

end Towers

section Taking

/-- The item of a token, connected and posted. -/
def takeIn (c : Chart) (symbol : Option SymbolId) (t : Token) :
    Except ChartError ItemId × Chart :=
  match c.makeItem symbol t with
  | (.error e, c) => (.error e, c)
  | (.ok u, c) => (.ok u, (c.connectInBudget u).register u)

/-- The item of a token above another one in a tower, connected and posted. -/
def takeOn (c : Chart) (s : SymbolId) (r : Relation) (t : Token) (below : ItemId) :
    Except ChartError ItemId × Chart :=
  match c.makeItem (some s) t with
  | (.error e, c) => (.error e, c)
  | (.ok u, c) =>
    match c.placeOver u below r with
    | (.error e, c) => (.error e, c)
    | (.ok _, c) => (.ok u, (c.connectInBudget u).register u)

theorem takeIn_returns (c : Chart) (symbol : Option SymbolId) (t : Token) :
    Returns (c.makeItem symbol t).2 (c.takeIn symbol t).2 := by
  have hlt := (makeItem_returns c symbol t).2
  unfold takeIn
  generalize c.makeItem symbol t = result at hlt ⊢
  obtain ⟨outcome, c₁⟩ := result
  cases outcome with
  | error e => exact .refl c₁
  | ok u => exact admit_returns (hlt u rfl)

theorem takeOn_returns
    (c : Chart)
    (s : SymbolId)
    (r : Relation)
    (t : Token)
    (below : ItemId) :
    Returns (c.makeItem (some s) t).2 (c.takeOn s r t below).2 := by
  have hlt := (makeItem_returns c (some s) t).2
  unfold takeOn
  generalize c.makeItem (some s) t = result at hlt ⊢
  obtain ⟨outcome, c₁⟩ := result
  cases outcome with
  | error e => exact .refl c₁
  | ok u =>
    have hplace := placeOver_returns c₁ u below r
    dsimp only
    generalize c₁.placeOver u below r = result at hplace ⊢
    obtain ⟨outcome, c₂⟩ := result
    cases outcome with
    | error e => exact hplace
    | ok _ => exact hplace.trans (admit_returns (Nat.lt_of_lt_of_le (hlt u rfl) hplace.items_le))

theorem Mirrors.connectRegister
    (h : Mirrors m c c')
    (u : ItemId)
    (hclean : m.Clean ((c'.connectInBudget (m.item u)).register (m.item u))) :
    Mirrors m ((c.connectInBudget u).register u)
      ((c'.connectInBudget (m.item u)).register (m.item u)) :=
  (h.connectInBudget u hclean.of_register).register u

theorem Mirrors.takeIn
    (h : Mirrors m c c')
    (symbol : Option SymbolId)
    (t : Token)
    (hclean : m.Clean (c'.takeIn symbol (m.token t)).2) :
    Yields m (Mirrors m) (c.takeIn symbol t) (c'.takeIn symbol (m.token t)) := by
  have hmake := h.makeItem symbol t (hclean.before (takeIn_returns c' symbol _))
  unfold Chart.takeIn at hclean ⊢
  generalize c.makeItem symbol t = result at hmake ⊢
  generalize c'.makeItem symbol _ = result' at hmake hclean ⊢
  cases hmake with
  | error e d d' hd => exact .error e d d' hd
  | ok u d d' hd => exact .ok u _ _ (hd.connectRegister u hclean)

theorem Mirrors.takeOn
    (h : Mirrors m c c')
    (hbelow : c.Loose below)
    (s : SymbolId)
    (r : Relation)
    (t : Token)
    (hclean : m.Clean (c'.takeOn s r (m.token t) (m.item below)).2) :
    Yields m (Mirrors m) (c.takeOn s r t below) (c'.takeOn s r (m.token t) (m.item below)) := by
  have hmake := h.makeItem (some s) t (hclean.before (takeOn_returns c' s r _ _))
  obtain ⟨hsteps, hmade⟩ := makeItem_spec h.sound (some s) t
  unfold Chart.takeOn at hclean ⊢
  generalize c.makeItem (some s) t = result at hmake hsteps hmade ⊢
  generalize c'.makeItem (some s) _ = result' at hmake hclean ⊢
  cases hmake with
  | error e d d' hd => exact .error e d d' hd
  | ok u d d' hd =>
    obtain ⟨hnext, hloose⟩ := hmade u rfl
    have hlt : below.index < u.index := by
      rw [hnext]
      exact lt_size_of_present hbelow.present
    have hplace := hd.placeOver (hbelow.extend hsteps) hloose hlt r
    dsimp only at hclean ⊢
    generalize d.placeOver u below r = result at hplace ⊢
    generalize d'.placeOver _ _ r = result' at hplace hclean ⊢
    obtain ⟨outcome, d₁, d₁', hplaced⟩ := hplace
    cases outcome with
    | error e => exact .error e _ _ hplaced
    | ok _ => exact .ok u _ _ (hplaced.connectRegister u hclean)

/-- A tower is made alike, from the inside out. -/
theorem Mirrors.feedComposition
    (h : Mirrors m c c')
    (t : Token)
    (tower : Composition SymbolId)
    (hclean : m.Clean (feedComposition (m.token t) tower c').2) :
    Yields m (Mirrors m) (feedComposition t tower c) (feedComposition (m.token t) tower c') := by
  induction tower with
  | single s => exact h.takeIn (some s) t hclean
  | holding s r inner ih =>
    have hspec := (feedComposition_spec t inner h.sound).2
    have hrest : Returns (Chart.feedComposition (m.token t) inner c').2
        (Chart.feedComposition (m.token t) (.holding s r inner) c').2 := by
      simp only [Chart.feedComposition]
      generalize Chart.feedComposition (m.token t) inner c' = result
      obtain ⟨outcome, c₁⟩ := result
      cases outcome with
      | error e => exact .refl c₁
      | ok v => exact (makeItem_returns c₁ (some s) _).1.trans (takeOn_returns c₁ s r _ v)
    have hinner := ih (hclean.before hrest)
    unfold Chart.feedComposition at hclean ⊢
    generalize Chart.feedComposition t inner c = result at hinner hspec ⊢
    generalize Chart.feedComposition (m.token t) inner c' = result' at hinner hclean ⊢
    cases hinner with
    | error e d d' hd => exact .error e d d' hd
    | ok v d d' hd => exact hd.takeOn (hspec v rfl) s r t hclean

/-- A token is taken alike at a place where it is not refused, or at the same place. -/
theorem Mirrors.feed
    (h : Mirrors m c c')
    (t : Token)
    (hwindow : m.distance = 0 ∨ (m.token t).stop ≤ c.settings.window)
    (hclean : m.Clean (c'.feed (m.token t)).2) :
    Yields m (Mirrors m) (c.feed t) (c'.feed (m.token t)) := by
  have hsymbol : c'.symbolOf? (m.token t) = c.symbolOf? t := by
    rw [symbolOf?, symbolOf?, h.grammar]
    rfl
  unfold Chart.feed at hclean ⊢
  rw [hsymbol] at hclean ⊢
  unfold Chart.feedAs at hclean ⊢
  rw [h.settings, h.grammar] at hclean ⊢
  by_cases hout : c.settings.window < t.stop
  · have hzero : m.distance = 0 := by
      refine hwindow.resolve_right fun hin => ?_
      rw [m.stop_token] at hin
      omega
    have hstay : (m.token t).stop = t.stop := by
      rw [m.stop_token, hzero, Nat.add_zero]
    rw [hstay, if_pos hout, if_pos hout]
    exact .error _ _ _ h
  · have hin : ¬ c.settings.window < (m.token t).stop := by
      rcases hwindow with hzero | hin
      · rw [m.stop_token, hzero, Nat.add_zero]
        exact hout
      · exact Nat.not_lt_of_le hin
    rw [if_neg hin] at hclean ⊢
    rw [if_neg hout]
    cases htower : ((c.symbolOf? t).bind c.grammar.symbol?).bind fun s => s.composition with
    | none =>
      rw [htower] at hclean
      exact h.takeIn _ t hclean
    | some tower =>
      rw [htower] at hclean
      exact h.feedComposition t tower hclean

end Taking

end Chart

end BeamChart
