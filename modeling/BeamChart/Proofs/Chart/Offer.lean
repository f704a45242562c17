import BeamChart.Proofs.Chart.Attach

/-!
# Offering in steps

If connecting evolves a chart, so does offering a child to a parent. The climb
along a rigid tower takes nothing for granted but that the list it follows
consists of fixed parents (`Rises`); steps do not change these, so the list
stays right while candidates are passed on.
-/

namespace BeamChart

/-- Connecting an item takes a number of steps. -/
def Connector.Stepwise (strict : Prop) (connect : Connector) : Prop :=
  ∀ c u, Chart.Sound strict c → Chart.Evolves strict c (connect c u)

namespace Chart

variable {strict : Prop} {connect : Connector} {c c' : Chart} {u v : ItemId}

/-- A fold takes a number of steps if each of its rounds does. -/
theorem evolves_foldl
    {σ α : Type}
    (chart : σ → Chart)
    (step : σ → α → σ)
    (entries : List α)
    (start : σ)
    (hstep : ∀ s, ∀ a ∈ entries, Evolves strict (chart start) (chart s) →
      Evolves strict (chart s) (chart (step s a))) :
    Evolves strict (chart start) (chart (entries.foldl step start)) :=
  List.foldlRecOn (motive := fun s => Evolves strict (chart start) (chart s)) entries step
    (.refl _) fun s hs a ha => hs.trans (hstep s a ha hs)

theorem ranks_of_isBeam
    {pool : List CandidateId}
    (hkind : c.grammar.kind ≠ .positional)
    (hb : Pool.IsBeam c.candidate c.settings.beamWidth pool) :
    c.Ranks pool where
  beam := hb.mono (Nat.le_max_right 1 _)
  single h := absurd h hkind

theorem admitWith_evolves
    (hconnect : connect.Stepwise strict)
    (hc : Sound strict c)
    (a : ItemId) :
    Evolves strict c (admitWith connect c a) := by
  unfold admitWith
  split
  · exact .refl c
  · exact (hconnect c a hc).trans (.single .register)

/-- Pending candidates are passed on one by one, the first unwrapped one through `patch`. -/
theorem passOnWith_evolves
    (hconnect : connect.Stepwise strict)
    (base : Chart)
    (patch : Option (Chart → CandidateId → Chart))
    (pool : List CandidateId)
    (hc : Sound strict c)
    (hbase : Evolves strict base c)
    (hpool : c.RootedAt u pool)
    (hpatch : ∀ f, patch = some f → ∀ c₁ x, Sound strict c₁ → Evolves strict base c₁ →
      c₁.Has x → (c₁.candidate x).root = u → Evolves strict c₁ (f c₁ x)) :
    Evolves strict c (passOnWith connect patch c pool) := by
  induction pool generalizing c patch with
  | nil => exact .refl c
  | cons x rest ih =>
    have hsettle : Evolves strict c (c.settle x) := .single .settle
    have hrest : c.RootedAt u rest := fun y hy => hpool y (List.mem_cons_of_mem x hy)
    obtain ⟨hx, hroot⟩ := hpool x List.mem_cons_self
    unfold passOnWith
    split
    · split
      · rename_i a _
        have hposted : Evolves strict c (admitWith connect (c.settle x) a) :=
          hsettle.trans (admitWith_evolves hconnect (hsettle.sound hc) a)
        exact hposted.trans (ih _ (hposted.sound hc) (hbase.trans hposted)
          (hposted.grows.rootedAt hrest) hpatch)
      · rename_i f _
        have hf : Evolves strict c (f (c.settle x) x) :=
          hsettle.trans (hpatch f rfl _ x (hsettle.sound hc) (hbase.trans hsettle)
            (hsettle.grows.has hx) ((hsettle.grows.root hx).trans hroot))
        exact hf.trans (ih none (hf.sound hc) (hbase.trans hf) (hf.grows.rootedAt hrest)
          (fun _ h => by cases h))
      · exact hsettle.trans (ih none (hsettle.sound hc) (hbase.trans hsettle)
          (hsettle.grows.rootedAt hrest) (fun _ h => by cases h))
    · exact ih patch hc hbase hrest hpatch

section Tower

variable {above : ItemId} {r : Relation} {newer : CandidateId}

@[simp] theorem items_refitPool
    (r : Relation)
    (child : ItemId)
    (newer : CandidateId)
    (c : Chart)
    (kept : List CandidateId)
    (changed : Bool)
    (pool : List CandidateId) :
    (refitPool r child newer c kept changed pool).2.items = c.items := by
  induction pool generalizing c kept changed with
  | nil => rfl
  | cons x rest ih =>
    have hfirst := items_repoint c x r newer
    unfold refitPool
    split
    · generalize c.repoint x r newer = result at hfirst ⊢
      obtain ⟨outcome, c₁⟩ := result
      cases outcome with
      | error e => exact hfirst
      | ok replaced => exact (ih _ _ _).trans hfirst
    · exact ih _ _ _

theorem refitPool_spec
    {old : List CandidateId}
    (kept : List CandidateId)
    (changed : Bool)
    (pool : List CandidateId)
    (hc : Sound strict c)
    (hold : c.RootedAt above old)
    (hkept : c.RootedAt above kept ∧ c.Stems above old kept)
    (hbeam : Pool.IsBeam c.candidate c.settings.beamWidth kept)
    (hpool : ∀ x ∈ pool, x ∈ old)
    (hnewer : c.Has newer)
    (hroot : (c.candidate newer).root = v)
    (hfixed : (c.item v).fixedParent = some (above, r)) :
    Evolves strict c (refitPool r v newer c kept changed pool).2 ∧
      ∀ all flag, (refitPool r v newer c kept changed pool).1 = .ok (all, flag) →
        ((refitPool r v newer c kept changed pool).2.RootedAt above all ∧
          (refitPool r v newer c kept changed pool).2.Stems above old all) ∧
          Pool.IsBeam (refitPool r v newer c kept changed pool).2.candidate
            (refitPool r v newer c kept changed pool).2.settings.beamWidth all := by
  have hinsert : ∀ (c : Chart) (kept : List CandidateId) (y : CandidateId),
      c.RootedAt above kept ∧ c.Stems above old kept →
      (c.Has y ∧ (c.candidate y).root = above) ∧ (∃ x ∈ old, c.Keeps above x y) →
      c.RootedAt above (Pool.insert c.candidate c.settings.beamWidth kept y) ∧
        c.Stems above old (Pool.insert c.candidate c.settings.beamWidth kept y) := by
    intro c kept y hkept hy
    constructor <;> intro z hz <;> rcases Pool.mem_insert hz with hmem | rfl
    · exact hkept.1 z hmem
    · exact hy.1
    · exact hkept.2 z hmem
    · exact hy.2
  induction pool generalizing c kept changed with
  | nil =>
    refine ⟨.refl c, fun all flag h => ?_⟩
    cases h
    exact ⟨hkept, hbeam⟩
  | cons x rest ih =>
    have hmem : x ∈ old := hpool x List.mem_cons_self
    obtain ⟨hx, hxroot⟩ := hold x hmem
    have hrest : ∀ y ∈ rest, y ∈ old := fun y hy => hpool y (List.mem_cons_of_mem x hy)
    unfold refitPool
    split
    · rename_i holder
      obtain ⟨hsteps, hnew⟩ := repoint_spec (u := above) strict (r := r) hc.closed hx hnewer
        (by rw [hroot]; exact holder) (by rw [hroot, hxroot]; exact hfixed)
      generalize c.repoint x r newer = result at hsteps hnew ⊢
      obtain ⟨outcome, c₁⟩ := result
      cases outcome with
      | error e => exact ⟨hsteps, fun all flag h => by cases h⟩
      | ok replaced =>
        have hext : Extends c c₁ := hsteps.grows
        have hreplaced : (c₁.Has (replaced.getD x) ∧
            (c₁.candidate (replaced.getD x)).root = above) ∧
              ∃ y ∈ old, c₁.Keeps above y (replaced.getD x) := by
          cases replaced with
          | none =>
            exact ⟨⟨hext.has hx, (hext.root hx).trans hxroot⟩, x, hmem, .refl c₁ above x⟩
          | some id =>
            obtain ⟨hid, hidroot, hkeeps⟩ := hnew id rfl
            exact ⟨⟨hid, hidroot.trans hxroot⟩, x, hmem, hkeeps⟩
        have hkept₁ : c₁.RootedAt above kept ∧ c₁.Stems above old kept :=
          ⟨hext.rootedAt hkept.1, hkept.2.extend hc.closed (fun y hy => (hold y hy).1)
            (fun y hy => (hkept.1 y hy).1) hext⟩
        have hbeam₁ : Pool.IsBeam c₁.candidate c₁.settings.beamWidth kept := by
          rw [hext.settings]
          exact hext.isBeam (fun y hy => (hkept.1 y hy).1) hbeam
        obtain ⟨htail, hall⟩ := ih _ (changed || replaced.isSome) (hsteps.sound hc)
          (hext.rootedAt hold) (hinsert c₁ kept _ hkept₁ hreplaced) (hbeam₁.insert _) hrest
          (hext.has hnewer) ((hext.root hnewer).trans hroot) ((hsteps.fixedParent v).trans hfixed)
        exact ⟨hsteps.trans htail, hall⟩
    · exact ih _ changed hc hold (hinsert c kept x hkept ⟨⟨hx, hxroot⟩, x, hmem, .refl c above x⟩)
        (hbeam.insert x) hrest hnewer hroot hfixed

/-- A pool that is refitted does not run empty. -/
theorem refitPool_ne_nil
    (hwidth : 1 ≤ c.settings.beamWidth)
    {kept all : List CandidateId}
    {changed flag : Bool}
    {pool : List CandidateId}
    (h : kept ≠ [] ∨ pool ≠ [])
    (hall : (refitPool r v newer c kept changed pool).1 = .ok (all, flag)) :
    all ≠ [] := by
  induction pool generalizing c kept changed with
  | nil =>
    cases hall
    exact h.resolve_right fun hnil => hnil rfl
  | cons x rest ih =>
    have hlater : ∀ (c : Chart) (y : CandidateId) (changed : Bool),
        1 ≤ c.settings.beamWidth →
        (refitPool r v newer c (Pool.insert c.candidate c.settings.beamWidth kept y) changed
          rest).1 = .ok (all, flag) → all ≠ [] := fun _ y _ hwidth hall =>
      ih hwidth (Or.inl (Pool.insert_ne_nil hwidth kept y)) hall
    unfold refitPool at hall
    split at hall
    · cases exchange c x r newer with
      | vacant _ heq | conflict _ _ heq | replaced _ _ _ heq =>
        rw [heq] at hall
        refine hlater _ _ _ ?_ hall
        exact hwidth
      | exhausted _ _ _ heq =>
        rw [heq] at hall
        cases hall
    · exact hlater c x changed hwidth hall

theorem refit_evolves
    (hc : Sound strict c)
    (hkind : strict → c.grammar.kind ≠ .positional)
    (hwidth : strict → 0 < c.settings.beamWidth)
    (hnewer : c.Has newer)
    (hroot : (c.candidate newer).root = v)
    (hfixed : (c.item v).fixedParent = some (above, r)) :
    Evolves strict c (c.refit above r v newer).2 := by
  obtain ⟨hsteps, hall⟩ := refitPool_spec [] false (c.item above).pool hc
    (hc.closed.pool above) ⟨fun x hx => (by cases hx), fun y hy => (by cases hy)⟩
    (Pool.IsBeam.nil _ _) (fun x hx => hx) hnewer hroot hfixed
  have hitems := items_refitPool r v newer c [] false (c.item above).pool
  rcases refit_cases c above r v newer with heq | ⟨kept, hkept, heq⟩ <;> rw [heq]
  · exact hsteps
  · obtain ⟨⟨hrooted, hstems⟩, hbeam⟩ := hall kept true hkept
    refine hsteps.trans (.single (.pool hrooted (fun hs => ranks_of_isBeam ?_ hbeam) ?_ ?_))
    · rw [hsteps.grows.grammar]
      exact hkind hs
    · rw [item_of_items_eq hitems]
      exact fun _ _ => Or.inl hstems
    · intro hs _ hnil
      refine .already ?_
      rw [item_of_items_eq hitems]
      exact Classical.byContradiction fun hne =>
        refitPool_ne_nil (hwidth hs) (Or.inr hne) hkept hnil

/-- The list consists of the fixed parents above an item. -/
def Rises (c : Chart) : ItemId → List (ItemId × Relation) → Prop
  | _, [] => True
  | u, (above, r) :: higher =>
    (c.item u).fixedParent = some (above, r) ∧ c.Rises above higher

theorem rises_tower (c : Chart) (room : Nat) (u : ItemId) :
    c.Rises u (c.tower room u) := by
  induction room generalizing u with
  | zero => trivial
  | succ room ih =>
    unfold tower
    split
    · trivial
    · rename_i above r hfixed
      exact ⟨hfixed, ih above⟩

theorem Rises.extend
    {higher : List (ItemId × Relation)}
    (h : c.Rises u higher)
    (hsteps : Evolves strict c c') :
    c'.Rises u higher := by
  induction higher generalizing u with
  | nil => trivial
  | cons e rest ih =>
    obtain ⟨hfixed, hrest⟩ := h
    exact ⟨(hsteps.fixedParent u).trans hfixed, ih hrest⟩

theorem climbWith_evolves
    (hconnect : connect.Stepwise strict)
    (higher : List (ItemId × Relation))
    (hc : Sound strict c)
    (hkind : strict → c.grammar.kind ≠ .positional)
    (hwidth : strict → 0 < c.settings.beamWidth)
    (hrises : c.Rises u higher) :
    Evolves strict c (climbWith connect higher c u) := by
  induction higher generalizing c u with
  | nil =>
    exact passOnWith_evolves hconnect c none _ hc (.refl c) (hc.closed.pool u)
      (fun _ h => by cases h)
  | cons e higher ih =>
    obtain ⟨above, r⟩ := e
    obtain ⟨hfixed, hhigher⟩ := hrises
    refine passOnWith_evolves hconnect c _ _ hc (.refl c) (hc.closed.pool u) ?_
    intro f hf c₁ x hc₁ hbase hx hroot
    cases hf
    have hkind₁ : strict → c₁.grammar.kind ≠ .positional := fun hs => by
      rw [hbase.grows.grammar]
      exact hkind hs
    have hwidth₁ : strict → 0 < c₁.settings.beamWidth := fun hs => by
      rw [hbase.grows.settings]
      exact hwidth hs
    have hrefit : Evolves strict c₁ (c₁.refit above r u x).2 :=
      refit_evolves hc₁ hkind₁ hwidth₁ hx hroot ((hbase.fixedParent u).trans hfixed)
    dsimp only
    generalize c₁.refit above r u x = result at hrefit ⊢
    obtain ⟨changed, c₂⟩ := result
    cases changed with
    | false => exact hrefit
    | true =>
      refine hrefit.trans (ih (hrefit.sound hc₁) (fun hs => ?_) (fun hs => ?_)
        (hhigher.extend (hbase.trans hrefit)))
      · rw [hrefit.grows.grammar]
        exact hkind₁ hs
      · rw [hrefit.grows.settings]
        exact hwidth₁ hs

/-- An item at the top of its tower passes on what it gained, and nothing else. -/
theorem cascadeWith_of_top
    (connect : Connector)
    (h : (c.item u).fixedParent = none) :
    cascadeWith connect c u = passOnWith connect none c (c.item u).pool := by
  have htower : ∀ room, c.tower room u = [] := by
    intro room
    cases room with
    | zero => rfl
    | succ room =>
      unfold tower
      rw [h]
  rw [cascadeWith, htower]
  rfl

end Tower

theorem mem_of_mem_beam
    {ids : List CandidateId}
    {x : CandidateId}
    (hx : x ∈ c.beam ids) :
    x ∈ ids :=
  (List.mem_filter.1 (Pool.mem_of_mem_ofList hx)).1

theorem beam_rootedAt
    {ids : List CandidateId}
    (h : c.RootedAt u ids) :
    c.RootedAt u (c.beam ids) :=
  fun x hx => h x (mem_of_mem_beam hx)

theorem exists_mem_beam
    {ids : List CandidateId}
    {x : CandidateId}
    (hwidth : 1 ≤ c.settings.beamWidth)
    (hx : x ∈ ids)
    (hfull : (c.candidate x).isEmpty = false) :
    ∃ y, y ∈ c.beam ids := by
  have hmem : x ∈ ids.filter fun x => !(c.candidate x).isEmpty :=
    List.mem_filter.2 ⟨hx, by rw [hfull]; rfl⟩
  obtain ⟨y, hy, -⟩ : ∃ y ∈ c.beam ids, (c.candidate x).weight ≤ (c.candidate y).weight :=
    Pool.exists_le_ofList hwidth hmem
  exact ⟨y, hy⟩

/-- An offer that leaves no candidate finds none, or takes a reason along. -/
theorem drained_of_beam_eq_nil
    {existing staged : List CandidateId}
    {changed : Bool}
    (hlicensed : c.Licensed u v r)
    (hrooted : c.RootedAt u existing)
    (hlength : existing.length = (c.item u).pool.length)
    (hheld : changed = true → ∃ x ∈ (c.item u).pool, ∃ q, c.Holds x q v)
    (hstaged : c.settings.beamWidth = 0 → staged = [])
    (hwritten : staged = [] → changed = true)
    (hnil : c.beam (staged ++ existing) = []) :
    c.Drained u := by
  rcases Nat.eq_zero_or_pos c.settings.beamWidth with hzero | hwidth
  · obtain ⟨x, hx, q, hholds⟩ := hheld (hwritten (hstaged hzero))
    exact .given hzero hx hholds hlicensed
  · cases existing with
    | nil => exact .already (List.length_eq_zero_iff.1 hlength.symm)
    | cons y rest =>
      obtain ⟨hy, hroot⟩ := hrooted y List.mem_cons_self
      refine .bare hy hroot ?_
      by_contra hfull
      obtain ⟨z, hz⟩ := exists_mem_beam hwidth
        (List.mem_append_right staged List.mem_cons_self) (by simpa using hfull)
      rw [hnil] at hz
      cases hz

/--
The charts that an offer goes through before anything is passed on. A pool is only written
if something has been staged or given up.
-/
structure Offered
    (strict : Prop)
    (c c₁ c₂ : Chart)
    (u v : ItemId)
    (r : Relation)
    (existing : List CandidateId)
    (changed : Bool)
    (staged : List CandidateId) : Prop where
  detached : Evolves strict c c₁
  attached : Evolves strict c₁ c₂
  rooted : c₁.RootedAt u existing
  grown : ∀ y ∈ staged, ∃ x ∈ existing, Grown c₁ c₂ u v r x y
  pooled : (strict → staged = [] → changed = true) →
    Evolves strict c₂ (c₂.setPool u (c₂.beam (staged ++ existing)))

theorem offered
    {rule : Rule SymbolId}
    {existing staged : List CandidateId}
    {changed : Bool}
    {c₁ c₂ : Chart}
    (hc : Sound strict c)
    (hstrict : strict → c.Licensed u v rule.relation)
    (hdetach : c.detachAll v (c.item u).pool = (.ok (existing, changed), c₁))
    (hstage : c₁.stage rule [] (existing.flatMap fun x => (c₁.item v).pool.map (x, ·)) =
      (staged, c₂)) :
    Offered strict c c₁ c₂ u v rule.relation existing changed staged := by
  obtain ⟨hdetached, hexisting⟩ := detachAll_spec (v := v) (c.item u).pool hc
    (hc.closed.pool u) fun hs => ⟨rule.relation, hstrict hs⟩
  have hitems := items_detachAll c v (c.item u).pool
  rw [hdetach] at hdetached hexisting hitems
  obtain ⟨hrooted, hstems⟩ := hexisting existing changed rfl
  have hc₁ : Sound strict c₁ := hdetached.sound hc
  have hlicensed : strict → c₁.Licensed u v rule.relation :=
    fun hs => (hstrict hs).extend hdetached.grows
  have hpairs : ∀ e ∈ existing.flatMap fun x => (c₁.item v).pool.map (x, ·),
      e.1 ∈ existing ∧ c₁.Has e.2 ∧ (c₁.candidate e.2).root = v := by
    intro e he
    obtain ⟨x, hx, hmap⟩ := List.mem_flatMap.1 he
    obtain ⟨y, hy, rfl⟩ := List.mem_map.1 hmap
    exact ⟨hx, hc₁.closed.pool v y hy⟩
  obtain ⟨hattached, hstaged⟩ := stage_spec [] _ hc₁
    (fun e he => ⟨hrooted _ (hpairs e he).1, (hpairs e he).2⟩) hlicensed
  have hitem := item_stage (c := c₁) (u := u) rule []
    (existing.flatMap fun x => (c₁.item v).pool.map (x, ·))
  rw [hstage] at hattached hstaged hitem
  have hgrown : ∀ y ∈ staged, ∃ x ∈ existing, Grown c₁ c₂ u v rule.relation x y := by
    intro y hy
    obtain ⟨e, he, hg⟩ := (hstaged y hy).resolve_left (fun h => by cases h)
    exact ⟨e.1, (hpairs e he).1, hg⟩
  refine ⟨hdetached, hattached, hrooted, hgrown, fun hwritten =>
    .single (.pool (beam_rootedAt ?_) ?_ ?_ ?_)⟩
  · intro x hx
    rcases List.mem_append.1 hx with hnew | hold
    · obtain ⟨y, -, hg⟩ := hgrown x hnew
      exact ⟨hg.has, hg.root⟩
    · exact hattached.grows.rootedAt hrooted x hold
  · exact fun hs => ranks_of_isBeam ((hlicensed hs).extend hattached.grows).kind
      (Pool.IsBeam.ofList _ _ _)
  · intro hs _
    have hlt : u.index < c₁.items.size := lt_size_of_present (hlicensed hs).parent
    have hexistingStems : c₂.Stems u (c.item u).pool existing :=
      (hstems hs).extend hc₁.closed
        (fun x hx => hdetached.grows.has (hc.closed.has_of_mem hx))
        (fun x hx => (hrooted x hx).1) hattached.grows
    have hstagedStems : c₂.Stems u (c.item u).pool staged := by
      intro y hy
      obtain ⟨x, hx, hg⟩ := hgrown y hy
      obtain ⟨z, hz, hkeeps⟩ := hexistingStems x hx
      exact ⟨z, hz, hkeeps.trans (hg.keeps hc₁.closed (hrooted x hx).1 hattached.grows)⟩
    rw [hitem hlt, item_of_items_eq hitems]
    exact Or.inl ((hstagedStems.append hexistingStems).mono fun y hy => mem_of_mem_beam hy)
  · intro hs _ hnil
    have hlt : u.index < c₁.items.size := lt_size_of_present (hlicensed hs).parent
    have hsteps : Extends c c₂ := (hdetached.trans hattached).grows
    have hsame : c₂.item u = c.item u := (hitem hlt).trans (item_of_items_eq hitems u)
    obtain ⟨hlength, hheld⟩ := detachAll_cases (v := v) (c.item u).pool hc.closed
      (fun x hx => hc.closed.has_of_mem hx) (congrArg Prod.fst hdetach)
    refine drained_of_beam_eq_nil ((hlicensed hs).extend hattached.grows)
      (hattached.grows.rootedAt hrooted) (by rw [hsame, hlength]) (fun hchanged => ?_)
      (fun hzero => ?_) (hwritten hs) hnil
    · obtain ⟨x, hx, q, hxq⟩ := hheld hchanged
      rw [hsame]
      exact ⟨x, hx, q, (holds_iff_of_extends hc.closed (hc.closed.has_of_mem hx) hsteps).2 hxq⟩
    · rw [hattached.grows.settings] at hzero
      rw [stage_of_no_width rule [] _ hzero] at hstage
      exact (congrArg Prod.fst hstage).symm

theorem offerWith_evolves
    {rule : Rule SymbolId}
    (hconnect : connect.Stepwise strict)
    (hc : Sound strict c)
    (hstrict : strict → c.Licensed u v rule.relation) :
    Evolves strict c (offerWith connect c u v rule).2 := by
  have hdetached := (detachAll_spec (v := v) (c.item u).pool hc (hc.closed.pool u)
    fun hs => ⟨rule.relation, hstrict hs⟩).1
  unfold offerWith
  rcases hdetach : c.detachAll v (c.item u).pool with ⟨e | ⟨existing, changed⟩, c₁⟩
  · rw [hdetach] at hdetached
    exact hdetached
  · dsimp only
    rcases hstage : c₁.stage rule [] (existing.flatMap fun x => (c₁.item v).pool.map (x, ·))
      with ⟨staged, c₂⟩
    have hoffered := offered hc hstrict hdetach hstage
    have hsteps : Evolves strict c c₂ := hoffered.detached.trans hoffered.attached
    have hall : (strict → staged = [] → changed = true) →
        Evolves strict c (c₂.setPool u (c₂.beam (staged ++ existing))) := fun hwritten =>
      hsteps.trans (hoffered.pooled hwritten)
    dsimp only
    split
    · dsimp only
      split
      · rename_i hchanged
        exact hall fun _ _ => hchanged
      · exact hsteps
    · rename_i hnew
      have hgained := hall fun _ hnone => absurd (List.isEmpty_iff.2 hnone) hnew
      refine hgained.trans (climbWith_evolves hconnect _ (hgained.sound hc) (fun hs => ?_)
        (fun _ => ?_) (rises_tower _ _ u))
      · exact ((hstrict hs).extend hgained.grows).kind
      · -- nothing is staged where beams have no width
        rw [hgained.grows.settings, ← hoffered.detached.grows.settings]
        refine Nat.pos_of_ne_zero fun hzero => hnew ?_
        rw [stage_of_no_width rule [] _ hzero] at hstage
        obtain ⟨rfl, -⟩ := Prod.mk.inj hstage
        rfl

end Chart

end BeamChart
