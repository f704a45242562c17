import BeamChart.Proofs.Relocation.Attach

/-!
# Offers in relocated charts

An offer has the same outcome in a chart and in a relocation of it, if connecting
has (`Chart.Tracks`). The beam of what an offer leads to is the same; what is gained is
passed on to aggregates and up a tower, whose items lie at other places. The height of
a tower is not bounded by the number of items that lie elsewhere.
-/

namespace BeamChart

namespace Chart

variable {m : Relocation} {connect : Connector} {c c' : Chart} {u v : ItemId} {x : CandidateId}

/-- Connecting relocates a chart that it is told to relocate. -/
structure Tracks (m : Relocation) (connect : Connector) : Prop where
  stepwise : connect.Stepwise False
  returns : ConnectorReturns connect
  relocates : ∀ c c' u, Mirrors m c c' → m.Clean (connect c' (m.item u)) →
    Relocates m (connect c u) (connect c' (m.item u))

theorem Mirrors.connected
    (h : Mirrors m c c')
    (hconnect : Tracks m connect)
    (hclean : m.Clean (connect c' (m.item u))) :
    Mirrors m (connect c u) (connect c' (m.item u)) :=
  h.evolve (hconnect.stepwise c u h.sound) (hconnect.relocates c c' u h hclean)

theorem Mirrors.register
    (h : Mirrors m c c')
    (u : ItemId) :
    Mirrors m (c.register u) (c'.register (m.item u)) :=
  h.evolve (.single .register) (h.toRelocates.register u)

theorem Mirrors.admitWith
    (h : Mirrors m c c')
    (hconnect : Tracks m connect)
    (hclean : m.Clean (admitWith connect c' (m.item u))) :
    Mirrors m (admitWith connect c u) (admitWith connect c' (m.item u)) := by
  unfold Chart.admitWith at hclean ⊢
  rw [h.item, m.registered_moved] at hclean ⊢
  split
  · exact h
  · rename_i hnew
    rw [if_neg hnew] at hclean
    exact (h.connected hconnect hclean.of_register).register u

section Beams

/-- A beam is made alike of candidates that are stored. -/
theorem Relocates.beam
    (h : Relocates m c c')
    {ids : List CandidateId}
    (hids : ∀ k ∈ ids, c.Has k) :
    c'.beam ids = c.beam ids := by
  have hfilter : (ids.filter fun k => !(c'.candidate k).isEmpty) =
      ids.filter fun k => !(c.candidate k).isEmpty := by
    refine List.filter_congr fun k hk => ?_
    rw [h.candidate k (hids k hk), m.isEmpty_candidate]
  have hfold : ∀ entries kept : List CandidateId, (∀ k ∈ entries, c.Has k) →
      (∀ k ∈ kept, c.Has k) →
      entries.foldl (Pool.insert c'.candidate c.settings.beamWidth) kept =
        entries.foldl (Pool.insert c.candidate c.settings.beamWidth) kept := by
    intro entries
    induction entries with
    | nil => exact fun _ _ _ => rfl
    | cons y rest ih =>
      intro kept hentries hkept
      have hy : c.Has y := hentries y List.mem_cons_self
      rw [List.foldl_cons, List.foldl_cons,
        m.insert_pool _ (fun k hk => h.candidate k (hkept k hk)) (h.candidate y hy)]
      refine ih _ (fun k hk => hentries k (List.mem_cons_of_mem y hk)) fun k hk => ?_
      rcases Pool.mem_insert hk with hmem | rfl
      · exact hkept k hmem
      · exact hy
  rw [Chart.beam, Chart.beam, hfilter, h.settings]
  exact hfold _ [] (fun k hk => hids k (List.mem_filter.1 hk).1) fun k hk => by cases hk

end Beams

section Passing

/-- Two ways to pass on a candidate go together, in charts that a base has led to. -/
inductive Patches (m : Relocation) (base : Chart) (u : ItemId) :
    (patch patch' : Option (Chart → CandidateId → Chart)) → Prop
  | none : Patches m base u none none
  | some
      {f f' : Chart → CandidateId → Chart}
      (returns : ∀ c x, Returns c (f' c x))
      (steps : ∀ c x, Sound False c → Evolves False base c → c.Has x → (c.candidate x).root = u →
        Evolves False c (f c x))
      (relocates : ∀ c c' x, Mirrors m c c' → Evolves False base c → c.Has x →
        (c.candidate x).root = u → m.Clean (f' c' x) → Relocates m (f c x) (f' c' x)) :
      Patches m base u (some f) (some f')

/-- The same candidates are passed on, to the same aggregates. -/
theorem Mirrors.passOnWith
    (h : Mirrors m c c')
    (hconnect : Tracks m connect)
    {base : Chart}
    {patch patch' : Option (Chart → CandidateId → Chart)}
    (hpatch : Patches m base u patch patch')
    (pool : List CandidateId)
    (hclean : m.Clean (passOnWith connect patch' c' pool))
    (hbase : Evolves False base c)
    (hpool : c.RootedAt u pool) :
    Mirrors m (passOnWith connect patch c pool) (passOnWith connect patch' c' pool) := by
  induction pool generalizing c c' patch patch' with
  | nil => exact h
  | cons x rest ih =>
    obtain ⟨hx, hroot⟩ := hpool x List.mem_cons_self
    have hrest : c.RootedAt u rest := fun y hy => hpool y (List.mem_cons_of_mem x hy)
    have hsettle : Evolves False c (c.settle x) := .single .settle
    have hsettled : Mirrors m (c.settle x) (c'.settle x) :=
      h.evolve hsettle (h.toRelocates.settle x)
    unfold Chart.passOnWith at hclean ⊢
    rw [h.candidate x hx, m.pending_candidate, m.wrapper_candidate] at hclean ⊢
    by_cases hpending : (c.candidate x).pending = true
    · rw [if_pos hpending] at hclean ⊢
      rw [if_pos hpending]
      cases hwrapper : (c.candidate x).wrapper with
      | some a =>
        rw [hwrapper] at hclean
        have hreturns : Returns (Chart.admitWith connect (c'.settle x) (m.item a))
            (Chart.passOnWith connect patch'
              (Chart.admitWith connect (c'.settle x) (m.item a)) rest) :=
          passOnWith_returns hconnect.returns patch' rest fun f hf => by
            cases hpatch with
            | none => cases hf
            | some returns =>
              cases hf
              exact returns
        have hposted : Evolves False c (Chart.admitWith connect (c.settle x) a) :=
          hsettle.trans (admitWith_evolves hconnect.stepwise hsettled.sound a)
        exact ih (hsettled.admitWith hconnect (Relocation.Clean.before hclean hreturns)) hpatch
          hclean (hbase.trans hposted) (hposted.grows.rootedAt hrest)
      | none =>
        rw [hwrapper] at hclean
        cases hpatch with
        | none =>
          exact ih hsettled .none hclean (hbase.trans hsettle) (hsettle.grows.rootedAt hrest)
        | @some f f' returns steps relocates =>
          have hreturns : Returns (f' (c'.settle x) x)
              (Chart.passOnWith connect none (f' (c'.settle x) x) rest) :=
            passOnWith_returns hconnect.returns none rest fun f hf => by cases hf
          have hhas : (c.settle x).Has x := hsettle.grows.has hx
          have hroot' : ((c.settle x).candidate x).root = u := (hsettle.grows.root hx).trans hroot
          have hf : Evolves False (c.settle x) (f (c.settle x) x) :=
            steps _ x hsettled.sound (hbase.trans hsettle) hhas hroot'
          have hpassed : Mirrors m (f (c.settle x) x) (f' (c'.settle x) x) :=
            hsettled.evolve hf (relocates _ _ x hsettled (hbase.trans hsettle) hhas hroot'
              (Relocation.Clean.before hclean hreturns))
          exact ih hpassed .none hclean (hbase.trans (hsettle.trans hf))
            ((hsettle.trans hf).grows.rootedAt hrest)
    · rw [if_neg hpending] at hclean ⊢
      rw [if_neg hpending]
      exact ih h hpatch hclean hbase hrest

/-- The same tower is climbed at other places. -/
theorem Mirrors.climbWith
    (h : Mirrors m c c')
    (hconnect : Tracks m connect)
    (higher : List (ItemId × Relation))
    (hclean : m.Clean (climbWith connect (higher.map m.link) c' (m.item u)))
    (hrises : c.Rises u higher) :
    Mirrors m (climbWith connect higher c u)
      (climbWith connect (higher.map m.link) c' (m.item u)) := by
  induction higher generalizing c c' u with
  | nil =>
    simp only [List.map_nil, Chart.climbWith, h.pool] at hclean ⊢
    exact h.passOnWith hconnect .none _ hclean (.refl c) (h.closed.pool u)
  | cons e higher ih =>
    obtain ⟨above, r⟩ := e
    obtain ⟨hfixed, hhigher⟩ := hrises
    simp only [List.map_cons, Relocation.link, Chart.climbWith, h.pool] at hclean ⊢
    refine h.passOnWith hconnect (u := u) (.some ?_ ?_ ?_) _ hclean (.refl c) (h.closed.pool u)
    · intro c₁ x
      have hrefit := refit_returns c₁ (m.item above) r (m.item u) x
      generalize c₁.refit _ _ _ x = result at hrefit ⊢
      obtain ⟨changed, c₂⟩ := result
      cases changed with
      | false => exact hrefit
      | true => exact hrefit.trans (climbWith_returns hconnect.returns _ c₂ _)
    · intro c₁ x hc₁ hbase hx hroot
      have hrefit := refit_evolves (r := r) hc₁ False.elim False.elim hx hroot
        ((hbase.fixedParent u).trans hfixed)
      generalize c₁.refit above r u x = result at hrefit ⊢
      obtain ⟨changed, c₂⟩ := result
      cases changed with
      | false => exact hrefit
      | true =>
        exact hrefit.trans (climbWith_evolves hconnect.stepwise higher (hrefit.sound hc₁) False.elim False.elim
          (hhigher.extend (hbase.trans hrefit)))
    · intro c₁ c₁' x h₁ hbase hx hroot hclean₁
      have hfixed₁ : (c₁.item u).fixedParent = some (above, r) :=
        (hbase.fixedParent u).trans hfixed
      have hsteps := refit_evolves (r := r) h₁.sound False.elim False.elim hx hroot hfixed₁
      have hrefit := h₁.refit hx hroot hfixed₁
      generalize c₁.refit above r u x = result at hrefit hsteps ⊢
      generalize c₁'.refit _ r _ x = result' at hrefit hclean₁ ⊢
      obtain ⟨changed, c₂, c₂', hrefitted⟩ := hrefit
      cases changed with
      | false => exact hrefitted.toRelocates
      | true =>
        exact (ih hrefitted hclean₁ (hhigher.extend (hbase.trans hsteps))).toRelocates

end Passing

section Towers

theorem Relocates.tower
    (h : Relocates m c c')
    (room : Nat)
    (u : ItemId) :
    c'.tower room (m.item u) = (c.tower room u).map m.link := by
  induction room generalizing u with
  | zero => rfl
  | succ room ih =>
    unfold Chart.tower
    rw [h.item, m.fixedParent_moved]
    cases (c.item u).fixedParent with
    | none => rfl
    | some e => exact congrArg _ (ih e.1)

/-- A tower ends below the last item, since it rises. -/
theorem Grounded.tower_add
    (hc : Grounded c)
    (room more : Nat)
    (u : ItemId)
    (hroom : c.items.size ≤ room + u.index) :
    c.tower (room + more) u = c.tower room u := by
  induction room generalizing u with
  | zero =>
    have hblank : c.item u = {} := item_of_size_le (by omega)
    cases more with
    | zero => rfl
    | succ more => simp only [Chart.tower, hblank]
  | succ room ih =>
    rw [Nat.succ_add]
    unfold Chart.tower
    cases hfixed : (c.item u).fixedParent with
    | none => rfl
    | some e =>
      obtain ⟨above, r⟩ := e
      have hrises := (hc.fixedParent u above r hfixed).1
      exact congrArg _ (ih above (by omega))

theorem Mirrors.cascadeWith
    (h : Mirrors m c c')
    (hconnect : Tracks m connect)
    (hclean : m.Clean (cascadeWith connect c' (m.item u))) :
    Mirrors m (cascadeWith connect c u) (cascadeWith connect c' (m.item u)) := by
  have htower : c'.tower c'.items.size (m.item u) = (c.tower c.items.size u).map m.link := by
    obtain ⟨more, hmore⟩ := Nat.exists_eq_add_of_le h.size_le
    rw [h.tower, hmore, h.grounded.tower_add _ more u (Nat.le_add_right _ _)]
  unfold Chart.cascadeWith at hclean ⊢
  rw [htower] at hclean ⊢
  exact h.climbWith hconnect _ hclean (rises_tower c _ u)

end Towers

/-- A child is offered alike. -/
theorem Mirrors.offerWith
    (h : Mirrors m c c')
    (hconnect : Tracks m connect)
    (u v : ItemId)
    (rule : Rule SymbolId)
    (hclean : m.Clean (offerWith connect c' (m.item u) (m.item v) rule).2) :
    Agrees (Mirrors m) (offerWith connect c u v rule)
      (offerWith connect c' (m.item u) (m.item v) rule) := by
  have hdetach := h.detachAll v (c.item u).pool fun x hx => h.closed.has_of_mem hx
  unfold Chart.offerWith at hclean ⊢
  rw [h.pool] at hclean ⊢
  cases hdetached : c.detachAll v (c.item u).pool with
  | mk outcome c₁ =>
  rw [hdetached] at hdetach
  generalize c'.detachAll (m.item v) _ = result' at hdetach hclean ⊢
  obtain ⟨_, _, c₁', h₁⟩ := hdetach
  cases outcome with
  | error e => exact ⟨_, _, _, h₁⟩
  | ok pair =>
    obtain ⟨existing, changed⟩ := pair
    dsimp only at hclean ⊢
    rw [h₁.pool] at hclean ⊢
    cases hstaged : c₁.stage rule [] (existing.flatMap fun x => (c₁.item v).pool.map (x, ·)) with
    | mk staged c₂ =>
    have hoffered := offered h.sound False.elim hdetached hstaged
    have hstage := h₁.stage rule [] (existing.flatMap fun x => (c₁.item v).pool.map (x, ·)) (by
      intro e he
      obtain ⟨x, hx, hmap⟩ := List.mem_flatMap.1 he
      obtain ⟨y, hy, rfl⟩ := List.mem_map.1 hmap
      exact ⟨(hoffered.rooted x hx).1, h₁.closed.has_of_mem hy⟩)
    rw [hstaged] at hstage
    generalize c₁'.stage rule _ _ = result' at hstage hclean ⊢
    obtain ⟨_, _, c₂', h₂⟩ := hstage
    have hbeam : c₂'.beam (staged ++ existing) = c₂.beam (staged ++ existing) := by
      refine h₂.beam fun k hk => ?_
      rcases List.mem_append.1 hk with hnew | hold
      · obtain ⟨x, -, hgrown⟩ := hoffered.grown k hnew
        exact hgrown.has
      · exact hoffered.attached.grows.has (hoffered.rooted k hold).1
    have hpooled : Mirrors m (c₂.setPool u (c₂.beam (staged ++ existing)))
        (c₂'.setPool (m.item u) (c₂.beam (staged ++ existing))) :=
      h₂.evolve (hoffered.pooled False.elim) (h₂.setPool _)
    dsimp only at hclean ⊢
    rw [hbeam] at hclean ⊢
    split
    · refine ⟨_, _, _, ?_⟩
      split
      · exact hpooled
      · exact h₂
    · rename_i hnone
      rw [if_neg hnone] at hclean
      exact ⟨_, _, _, hpooled.cascadeWith hconnect hclean⟩

end Chart

end BeamChart
