import BeamChart.Proofs.Chart.Contained
import BeamChart.Proofs.Chart.Wrapping

/-!
# What every operation comes back with

Two things are not told by the steps that an operation takes. Connections that
have been entered are left again, so the depth is what it was before; and an item
that is registered by an operation is stored, or carried a mark before. Both hold
whatever the chart was (`Resumes`), as does that no refusal is forgotten, so they are
proved along the definitions of the operations, with no invariant taken along. Unless
the operation is asked to select, what was selected before stands (`Returns`).
-/

namespace BeamChart

namespace Chart

/-- The item is posted by position, or is the aggregate of some candidate. -/
def Announced (c : Chart) (v : ItemId) : Prop :=
  v ∈ c.byPosition.items ∨ ∃ x, (c.candidate x).wrapper = some v

/--
As many connections are under way as before, no refusal is forgotten, and what has
been announced since is stored.
-/
structure Resumes (c c' : Chart) : Prop where
  items_le : c.items.size ≤ c'.items.size
  refusals_le : c.tally.refusals ≤ c'.tally.refusals
  depth : c'.depth = c.depth
  announced : ∀ v, c'.Announced v → c.Announced v ∨ v.index < c'.items.size

theorem Resumes.trans
    {c c' c'' : Chart}
    (h : Resumes c c')
    (k : Resumes c' c'') :
    Resumes c c'' where
  items_le := Nat.le_trans h.items_le k.items_le
  refusals_le := Nat.le_trans h.refusals_le k.refusals_le
  depth := k.depth.trans h.depth
  announced v hv := by
    rcases k.announced v hv with hmid | hlt
    · exact (h.announced v hmid).imp_right fun hlt => Nat.lt_of_lt_of_le hlt k.items_le
    · exact Or.inr hlt

/-- Besides, nothing has been selected in the meantime. -/
structure Returns (c c' : Chart) : Prop extends Resumes c c' where
  best : c'.best = c.best

/-- Connecting an item comes back. -/
def ConnectorReturns (connect : Connector) : Prop :=
  ∀ c u, Returns c (connect c u)

variable {connect : Connector} {c c' c'' : Chart} {u v : ItemId}

namespace Returns

theorem refl (c : Chart) :
    Returns c c :=
  ⟨⟨Nat.le_refl _, Nat.le_refl _, rfl, fun _ => Or.inl⟩, rfl⟩

theorem trans
    (h : Returns c c')
    (k : Returns c' c'') :
    Returns c c'' where
  toResumes := h.toResumes.trans k.toResumes
  best := k.best.trans h.best

/-- Nothing is announced where neither postings nor marks change. -/
theorem of_quiet
    (hitems : c.items.size ≤ c'.items.size)
    (hrefusals : c.tally.refusals ≤ c'.tally.refusals)
    (hdepth : c'.depth = c.depth)
    (hbest : c'.best = c.best)
    (hposition : c'.byPosition = c.byPosition)
    (hmarks : ∀ x v, (c'.candidate x).wrapper = some v → (c.candidate x).wrapper = some v) :
    Returns c c' where
  best := hbest
  items_le := hitems
  refusals_le := hrefusals
  depth := hdepth
  announced v hv := by
    left
    rw [Announced, hposition] at hv
    exact hv.imp_right fun ⟨x, hx⟩ => ⟨x, hmarks x v hx⟩

theorem count
    (c : Chart)
    {f : Tally → Tally}
    (hf : c.tally.refusals ≤ (f c.tally).refusals) :
    Returns c (c.count f) :=
  of_quiet (Nat.le_refl _) hf rfl rfl rfl fun _ _ h => h

theorem refused (c : Chart) :
    Returns c c.refused :=
  count c (Nat.le_succ _)

theorem modifyItem (c : Chart) (u : ItemId) (f : Item → Item) :
    Returns c (c.modifyItem u f) :=
  of_quiet (Nat.le_of_eq (size_items_modifyItem c u f).symm) (Nat.le_refl _) rfl rfl rfl
    fun _ _ h => h

theorem pushItem (c : Chart) (i : Item) :
    Returns c (c.pushItem i) :=
  of_quiet (by simp [Chart.pushItem]) (Nat.le_refl _) rfl rfl rfl fun _ _ h => h

theorem settle (c : Chart) (x : CandidateId) :
    Returns c (c.settle x) := by
  refine of_quiet (Nat.le_refl _) (Nat.le_refl _) rfl rfl rfl fun y v hv => ?_
  rw [Chart.settle, candidate_modifyCandidate] at hv
  split at hv
  · rename_i h
    rw [h.1]
    exact hv
  · exact hv

theorem pushCandidate
    (c : Chart)
    {x : Candidate}
    (hx : x.wrapper = none) :
    Returns c (c.pushCandidate x) := by
  refine of_quiet (Nat.le_refl _) (Nat.le_refl _) rfl rfl rfl fun y v hv => ?_
  rw [candidate_pushCandidate] at hv
  split at hv
  · rw [hx] at hv
    cases hv
  · exact hv

theorem store
    {x : Candidate}
    (hx : x.wrapper = none) :
    Returns c (c.store x).2 := by
  rcases store_cases c x with ⟨-, heq⟩ | heq
  · rw [heq]
    exact pushCandidate c hx
  · rw [heq]
    exact refused c

/-- What is registered has been announced before, or is stored by then. -/
theorem register
    (h : Returns c c')
    (hu : c.Announced u ∨ u.index < c'.items.size) :
    Returns c (c'.register u) := by
  have hframe : (c'.register u).items.size = c'.items.size ∧
      (c'.register u).tally = c'.tally ∧ (c'.register u).depth = c'.depth ∧
      (c'.register u).best = c'.best ∧ ∀ x, (c'.register u).candidate x = c'.candidate x := by
    rcases register_cases c' u with ⟨heq, -⟩ | ⟨b, p, d, m, f, t, -, heq⟩ <;> rw [heq]
    · exact ⟨rfl, rfl, rfl, rfl, fun _ => rfl⟩
    · exact ⟨size_items_modifyItem c' u _, rfl, rfl, rfl, fun _ => rfl⟩
  obtain ⟨hitems, htally, hdepth, hbest, hcandidate⟩ := hframe
  refine ⟨⟨?_, ?_, hdepth.trans h.depth, fun v hv => ?_⟩, hbest.trans h.best⟩
  · rw [hitems]
    exact h.items_le
  · rw [htally]
    exact h.refusals_le
  · rw [hitems]
    rcases hv with hposted | ⟨x, hx⟩
    · rcases (posts_register c' u).byPosition v hposted with hold | rfl
      · exact h.announced v (Or.inl hold)
      · exact hu
    · rw [hcandidate] at hx
      exact h.announced v (Or.inr ⟨x, hx⟩)

theorem foldl
    {σ α : Type}
    (chart : σ → Chart)
    (step : σ → α → σ)
    (entries : List α)
    (start : σ)
    (hstep : ∀ s a, Returns (chart s) (chart (step s a))) :
    Returns (chart start) (chart (entries.foldl step start)) :=
  List.foldlRecOn (motive := fun s => Returns (chart start) (chart s)) entries step
    (.refl _) fun s hs a _ => hs.trans (hstep s a)

end Returns

section Attaching

variable {p d x : CandidateId} {r : Relation}

theorem tryAttach_returns
    {make : Candidate → Candidate → Candidate}
    (hmake : (make (c.candidate p) (c.candidate d)).wrapper = none) :
    Returns c (c.tryAttach p d r make).2 := by
  cases trial c p d r make with
  | slotTaken _ heq | conflict _ _ heq =>
    simp only [heq]
    exact .count c (Nat.le_refl _)
  | exhausted _ _ _ heq =>
    simp only [heq]
    exact (Returns.count c (Nat.le_refl _)).trans (.refused _)
  | attached _ _ _ heq =>
    simp only [heq]
    exact (Returns.pushCandidate c hmake).trans (.count _ (Nat.le_refl _))

theorem allocateItem_returns (c : Chart) :
    Returns c c.allocateItem.2 := by
  rcases allocateItem_cases c with ⟨-, heq⟩ | heq <;> rw [heq]
  · exact .pushItem c {}
  · exact .refused c

/-- The only item that is marked is the new aggregate. -/
theorem wrap_returns (c : Chart) (x : CandidateId) :
    Returns c (c.wrap x) := by
  have hpush : Returns c c.pushAggregate := by
    refine .of_quiet ?_ (Nat.le_refl _) rfl rfl rfl fun _ _ h => h
    simp [pushAggregate, Chart.pushItem, count]
  have hlt : c.nextItem.index < c.pushAggregate.items.size := by
    simp [pushAggregate, Chart.pushItem, count, nextItem]
  cases enclosure c x with
  | refused _ heq =>
    rw [heq]
    exact .refused c
  | spanless _ _ heq =>
    rw [heq]
    exact hpush
  | exhausted _ _ _ heq =>
    rw [heq]
    exact hpush.trans (.refused _)
  | enclosed _ _ _ _ heq =>
    rw [heq]
    have hpushed : Returns c (c.pushAggregate.pushCandidate
        ((Candidate.seed c.nextItem).attach .aggregate ⟨x, 0⟩ (c.candidate x))) :=
      hpush.trans (.pushCandidate _ rfl)
    refine (hpushed.trans (.modifyItem _ _ _)).trans
      ⟨⟨Nat.le_refl _, Nat.le_refl _, rfl, fun v hv => ?_⟩, rfl⟩
    rcases hv with hposted | ⟨y, hy⟩
    · exact Or.inl (Or.inl hposted)
    · rw [candidate_modifyCandidate] at hy
      split at hy
      · cases hy
        right
        dsimp only [modifyCandidate]
        rw [size_items_modifyItem]
        exact hlt
      · exact Or.inl (Or.inr ⟨y, hy⟩)

theorem attach_returns
    (c : Chart)
    (p d : CandidateId)
    (rule : Rule SymbolId) :
    Returns c (c.attach p d rule).2 := by
  have htry : Returns c (c.tryAttach p d rule.relation (c.joined d rule.relation)).2 :=
    tryAttach_returns (wrapper_joined c d _ _ _)
  rcases attach_cases c p d rule with heq | ⟨-, c₁, hattached, heq⟩ <;> rw [heq]
  · exact htry
  · rw [hattached] at htry
    exact htry.trans (wrap_returns c₁ c.nextCandidate)

theorem stage_returns
    (rule : Rule SymbolId)
    (staged : List CandidateId)
    (pairs : List (CandidateId × CandidateId)) :
    Returns c (c.stage rule staged pairs).2 := by
  induction pairs generalizing c staged with
  | nil => exact .refl c
  | cons e rest ih =>
    have hattach : Returns c (c.attach e.1 e.2 rule).2 := attach_returns c e.1 e.2 rule
    unfold stage
    split
    · exact .refl c
    · split
      · exact ih staged
      · generalize c.attach e.1 e.2 rule = result at hattach ⊢
        obtain ⟨outcome, c₁⟩ := result
        cases outcome with
        | attached id => exact hattach.trans (ih _)
        | exhausted => exact hattach
        | slotTaken => exact hattach.trans (ih _)
        | conflict => exact hattach.trans (ih _)

theorem detach_returns
    (c : Chart)
    (x : CandidateId)
    (u : ItemId) :
    Returns c (c.detach x u).2 := by
  cases detachment c x u with
  | kept _ heq =>
    rw [heq]
    exact .refl c
  | exhausted _ _ heq =>
    rw [heq]
    exact .refused c
  | replaced hholds _ heq =>
    obtain ⟨s, hslot, hroot⟩ := hholds
    rw [heq]
    exact .pushCandidate c (wrapper_withoutItem hslot hroot)

theorem detachAll_returns
    (u : ItemId)
    (pool : List CandidateId) :
    Returns c (c.detachAll u pool).2 := by
  induction pool generalizing c with
  | nil => exact .refl c
  | cons x rest ih =>
    have hfirst : Returns c (c.detach x u).2 := detach_returns c x u
    unfold detachAll
    generalize c.detach x u = result at hfirst ⊢
    obtain ⟨outcome, c₁⟩ := result
    cases outcome with
    | error e => exact hfirst
    | ok replaced =>
      have hrest : Returns c₁ (c₁.detachAll u rest).2 := ih
      dsimp only
      generalize c₁.detachAll u rest = result at hrest ⊢
      obtain ⟨outcome, c₂⟩ := result
      cases outcome <;> exact hfirst.trans hrest

theorem repoint_returns
    (c : Chart)
    (x : CandidateId)
    (r : Relation)
    (newer : CandidateId) :
    Returns c (c.repoint x r newer).2 := by
  cases exchange c x r newer with
  | vacant _ heq =>
    simp only [heq]
    exact .refl c
  | conflict _ _ heq =>
    simp only [heq]
    exact .count c (Nat.le_refl _)
  | exhausted _ _ _ heq =>
    simp only [heq]
    exact .refused c
  | replaced _ _ _ heq =>
    simp only [heq]
    exact .pushCandidate c rfl

theorem refitPool_returns
    (r : Relation)
    (child : ItemId)
    (newer : CandidateId)
    (kept : List CandidateId)
    (changed : Bool)
    (pool : List CandidateId) :
    Returns c (refitPool r child newer c kept changed pool).2 := by
  induction pool generalizing c kept changed with
  | nil => exact .refl c
  | cons x rest ih =>
    have hfirst : Returns c (c.repoint x r newer).2 := repoint_returns c x r newer
    unfold refitPool
    split
    · generalize c.repoint x r newer = result at hfirst ⊢
      obtain ⟨outcome, c₁⟩ := result
      cases outcome with
      | error e => exact hfirst
      | ok replaced => exact hfirst.trans (ih _ _)
    · exact ih _ _

theorem refit_returns
    (c : Chart)
    (above : ItemId)
    (r : Relation)
    (child : ItemId)
    (newer : CandidateId) :
    Returns c (c.refit above r child newer).2 := by
  have hpool := refitPool_returns (c := c) r child newer [] false (c.item above).pool
  rcases refit_cases c above r child newer with heq | ⟨kept, -, heq⟩ <;> rw [heq]
  · exact hpool
  · exact hpool.trans (.modifyItem _ _ _)

end Attaching

section Offering

theorem admitWith_returns
    (hconnect : ConnectorReturns connect)
    (hannounced : c.Announced u) :
    Returns c (admitWith connect c u) := by
  unfold admitWith
  split
  · exact .refl c
  · exact (hconnect c u).register (Or.inl hannounced)

theorem passOnWith_returns
    (hconnect : ConnectorReturns connect)
    (patch : Option (Chart → CandidateId → Chart))
    (pool : List CandidateId)
    (hpatch : ∀ f, patch = some f → ∀ c x, Returns c (f c x)) :
    Returns c (passOnWith connect patch c pool) := by
  induction pool generalizing c patch with
  | nil => exact .refl c
  | cons x rest ih =>
    have hsettle : Returns c (c.settle x) := .settle c x
    unfold passOnWith
    split
    · split
      · rename_i a hmark
        have hannounced : (c.settle x).Announced a := by
          refine Or.inr ⟨x, ?_⟩
          rw [← hmark, settle, candidate_modifyCandidate]
          split <;> rfl
        exact (hsettle.trans (admitWith_returns hconnect hannounced)).trans (ih _ hpatch)
      · rename_i f _
        exact (hsettle.trans (hpatch f rfl _ x)).trans (ih none fun _ h => by cases h)
      · exact hsettle.trans (ih none fun _ h => by cases h)
    · exact ih patch hpatch

theorem climbWith_returns
    (hconnect : ConnectorReturns connect)
    (higher : List (ItemId × Relation))
    (c : Chart)
    (u : ItemId) :
    Returns c (climbWith connect higher c u) := by
  induction higher generalizing c u with
  | nil => exact passOnWith_returns hconnect none _ fun _ h => by cases h
  | cons e higher ih =>
    obtain ⟨above, r⟩ := e
    refine passOnWith_returns hconnect _ _ ?_
    intro f hf c₁ x
    cases hf
    have hrefit : Returns c₁ (c₁.refit above r u x).2 := refit_returns c₁ above r u x
    dsimp only
    generalize c₁.refit above r u x = result at hrefit ⊢
    obtain ⟨changed, c₂⟩ := result
    cases changed with
    | false => exact hrefit
    | true => exact hrefit.trans (ih c₂ above)

theorem offerWith_returns
    (hconnect : ConnectorReturns connect)
    (c : Chart)
    (parent child : ItemId)
    (rule : Rule SymbolId) :
    Returns c (offerWith connect c parent child rule).2 := by
  have hdetach : Returns c (c.detachAll child (c.item parent).pool).2 :=
    detachAll_returns child _
  unfold offerWith
  generalize c.detachAll child _ = result at hdetach ⊢
  obtain ⟨outcome, c₁⟩ := result
  cases outcome with
  | error e => exact hdetach
  | ok pair =>
    obtain ⟨existing, changed⟩ := pair
    have hstage := stage_returns (c := c₁) rule []
      (existing.flatMap fun x => (c₁.item child).pool.map (x, ·))
    dsimp only
    generalize c₁.stage rule [] _ = result at hstage ⊢
    obtain ⟨staged, c₂⟩ := result
    have hboth : Returns c c₂ := hdetach.trans hstage
    dsimp only
    split
    · dsimp only
      split
      · exact hboth.trans (.modifyItem _ _ _)
      · exact hboth
    · exact (hboth.trans (.modifyItem _ _ _)).trans (climbWith_returns hconnect _ _ parent)

end Offering

section Connecting

theorem chain_returns (c : Chart) (u : ItemId) :
    Returns c (c.chain u) := by
  cases chaining c u with
  | idle heq =>
    rw [heq]
    exact .refl c
  | refused _ _ _ heq =>
    rw [heq]
    exact tryAttach_returns rfl
  | @chained v former own more rest c₁ _ _ _ htry heq =>
    have hreturns : Returns c (c.tryAttach own former .next
        (·.attach .next ⟨former, 0⟩ ·)).2 := tryAttach_returns rfl
    rw [htry] at hreturns
    rw [heq]
    exact hreturns.trans (.modifyItem _ _ _)

theorem takeOverWith_returns
    (hconnect : ConnectorReturns connect)
    (c : Chart)
    (u placeholder : ItemId)
    (s : SymbolId) :
    Returns c (takeOverWith connect c u placeholder s) := by
  unfold takeOverWith
  split
  · exact .refl c
  · refine Returns.foldl (fun c => c) _ _ c fun c₁ e => ?_
    dsimp only
    split
    · exact .refl c₁
    · split
      · exact .refl c₁
      · split
        · exact .refl c₁
        · split
          · exact offerWith_returns hconnect c₁ u _ _
          · exact .refl c₁

theorem fulfilWith_returns
    (hconnect : ConnectorReturns connect)
    (c : Chart)
    (u : ItemId)
    (s : SymbolId) :
    Returns c (fulfilWith connect c u s) := by
  refine Returns.foldl (fun c => c) _ _ c fun c₁ level => ?_
  refine Returns.foldl (fun c => c) _ _ c₁ fun c₂ p => ?_
  split
  · exact takeOverWith_returns hconnect c₂ u p level
  · exact .refl c₂

theorem liftPool_returns
    (u : ItemId)
    (r : Relation)
    (pool : List CandidateId) :
    Returns c (liftPool u r c pool).2 := by
  induction pool generalizing c with
  | nil => exact .refl c
  | cons x rest ih =>
    have hstore : Returns c (c.store ((Candidate.seed u).attach r ⟨x, 0⟩ (c.candidate x))).2 :=
      .store rfl
    unfold liftPool
    dsimp only
    split
    · exact ih
    · generalize c.store _ = result at hstore ⊢
      obtain ⟨outcome, c₁⟩ := result
      cases outcome with
      | error e => exact hstore
      | ok id => exact hstore.trans ih

theorem implyWith_returns
    (hconnect : ConnectorReturns connect)
    (c : Chart)
    {parent : ItemId}
    (hparent : parent.index < c.items.size)
    (child : ItemId)
    (rule : Rule SymbolId) :
    Returns c (implyWith connect c parent child rule) := by
  have hstore : Returns c (c.store (Candidate.seed parent)).2 := .store rfl
  unfold implyWith
  generalize c.store (Candidate.seed parent) = result at hstore ⊢
  obtain ⟨outcome, c₁⟩ := result
  cases outcome with
  | error e => exact hstore
  | ok x =>
    have hready := hstore.trans (.modifyItem c₁ parent fun i =>
      { i with pool := i.pool ++ [x], present := true })
    have hoffer := hready.trans (offerWith_returns hconnect _ parent child rule)
    have hall := hoffer.trans (hconnect _ parent)
    exact hall.register (Or.inr (Nat.lt_of_lt_of_le hparent hall.items_le))

theorem predictWith_returns
    (hconnect : ConnectorReturns connect)
    (c : Chart)
    (child : ItemId)
    (s : SymbolId)
    (rule : Rule SymbolId) :
    Returns c (predictWith connect c child s rule) := by
  rcases allocateItem_cases c with ⟨-, heq⟩ | heq
  · have hready : Returns c (c.predicted child s) :=
      ((Returns.pushItem c {}).trans (.count _ (Nat.le_refl _))).trans (.modifyItem _ _ _)
    have hlt : c.nextItem.index < (c.predicted child s).items.size := by
      simp [predicted, count, Chart.pushItem, nextItem]
    rw [predictWith_eq connect heq]
    generalize c.predicted child s = c₁ at hready hlt ⊢
    split
    · exact hready.trans (implyWith_returns hconnect c₁ hlt child rule)
    · have hlift := liftPool_returns (c := c₁) c.nextItem rule.relation
        ((c₁.item child).pool.take c₁.settings.beamWidth)
      generalize liftPool c.nextItem rule.relation c₁ _ = result at hlift ⊢
      obtain ⟨pool, c₂⟩ := result
      have hall : Returns c (c₂.setPool c.nextItem pool) :=
        (hready.trans hlift).trans (.modifyItem _ _ _)
      refine hall.register (Or.inr ?_)
      rw [setPool, size_items_modifyItem]
      exact Nat.lt_of_lt_of_le hlt hlift.items_le
  · unfold predictWith
    rw [heq]
    exact .refused c

theorem tryParentWith_returns
    (hconnect : ConnectorReturns connect)
    (c : Chart)
    (child parent : ItemId)
    (s : SymbolId)
    (r : Relation) :
    Returns c (tryParentWith connect c child parent s r).2 := by
  unfold tryParentWith
  dsimp only
  split
  · exact .refl c
  · split
    · exact .refl c
    · split
      · exact .refl c
      · split
        · exact offerWith_returns hconnect c parent child _
        · exact .refl c

theorem seekParentWith_returns
    (hconnect : ConnectorReturns connect)
    (c : Chart)
    (child : ItemId)
    (level : SymbolId)
    (parentRule : Rule SymbolId) :
    Returns c (seekParentWith connect c child level parentRule) := by
  unfold seekParentWith
  split
  · rename_i s rule _ _
    dsimp only
    have htry : Returns c ((c.itemsOf parentRule.target).foldl
        (fun (acc : Bool × Chart) parent =>
          ((acc.1 || (tryParentWith connect acc.2 child parent s parentRule.relation).1),
            (tryParentWith connect acc.2 child parent s parentRule.relation).2)) (false, c)).2 :=
      Returns.foldl (fun acc : Bool × Chart => acc.2) _ _ (false, c) fun acc parent =>
        tryParentWith_returns hconnect acc.2 child parent s parentRule.relation
    generalize (c.itemsOf parentRule.target).foldl _ (false, c) = result at htry ⊢
    obtain ⟨taken, c₁⟩ := result
    cases taken with
    | true => exact htry
    | false => exact htry.trans (predictWith_returns hconnect c₁ child _ rule)
  · exact .refl c

theorem seekParentsWith_returns
    (hconnect : ConnectorReturns connect)
    (c : Chart)
    (u : ItemId)
    (s : SymbolId) :
    Returns c (seekParentsWith connect c u s) := by
  refine Returns.foldl (fun c => c) _ _ c fun c₁ level => ?_
  exact Returns.foldl (fun c => c) _ _ c₁ fun c₂ rule =>
    seekParentWith_returns hconnect c₂ u level rule

theorem connectBody_returns
    (hconnect : ConnectorReturns connect)
    (c : Chart)
    (u : ItemId)
    (s : Symbol) :
    Returns c (connectBody connect c u s) := by
  unfold connectBody
  split
  · exact chain_returns c u
  · have hfulfil : Returns c (if s.hasRules then fulfilWith connect c u s.id else c) := by
      split
      · exact fulfilWith_returns hconnect c u s.id
      · exact .refl c
    exact hfulfil.trans (seekParentsWith_returns hconnect _ u s.id)

/-- The level that a connection goes down is gone up again. -/
theorem connectWithin_returns (room : Nat) :
    ConnectorReturns (connectWithin room) := by
  induction room with
  | zero =>
    intro c u
    unfold connectWithin
    split
    · exact .refl c
    · split <;> exact .count c (Nat.le_refl _)
  | succ room ih =>
    intro c u
    unfold connectWithin
    split
    · exact .refl c
    · rename_i s _
      split
      · exact .count c (Nat.le_refl _)
      · have hbody := connectBody_returns ih c.enter u s
        refine ⟨⟨hbody.items_le, hbody.refusals_le, ?_, hbody.announced⟩, hbody.best⟩
        calc (connectBody (connectWithin room) c.enter u s).depth - 1
          _ = c.enter.depth - 1 := by rw [hbody.depth]
          _ = c.depth := Nat.add_sub_cancel c.depth 1

theorem connect_returns :
    ConnectorReturns Chart.connect :=
  fun c u => connectWithin_returns c.settings.maxDepth c u

end Connecting

end Chart

end BeamChart
