import BeamChart.Proofs.Chart.InputReturns
import BeamChart.Proofs.Chart.Run
import BeamChart.Proofs.Chart.Sight

/-!
# When absorbing a chart stops

A chart that absorbs another one stops when an item or its leaf can no longer be made, and does
not report an error then. It has not selected anew in that case. Where the input is
taken to its end, what is selected is up to date, whatever was refused on the way
(`absorb_refreshes_best`, `stopped_absorb_keeps_best`).

That something ran out is told by the chart. The refusal has been counted, and since
it was the last thing that was done there is still no room for what was refused
(`Exhausts`).
-/

namespace BeamChart

namespace Chart

variable {c c' c'' : Chart} {u v : ItemId} {t : Token} {e : ChartError}

/-- There is no room for another item, or for another candidate. -/
def Spent (c : Chart) : Prop :=
  c.settings.itemCapacity ≤ c.plainItems ∨ c.candidatesFull = true

/-- An operation has ended with a refusal. -/
structure Exhausts (c c' : Chart) : Prop where
  refusals_lt : c.tally.refusals < c'.tally.refusals
  spent : c'.Spent

theorem Returns.exhausts
    (h : Returns c c')
    (k : Exhausts c' c'') :
    Exhausts c c'' where
  refusals_lt := Nat.lt_of_le_of_lt h.refusals_le k.refusals_lt
  spent := k.spent

section Feeding

theorem Cut.exhausts (h : c.Cut c') :
    Exhausts c c' := by
  cases h with
  | item hfull => exact ⟨Nat.lt_succ_self _, Or.inl hfull⟩
  | leaf i _ hfull => exact ⟨Nat.lt_succ_self _, Or.inr hfull⟩

theorem makeItem_exhausts
    (symbol : Option SymbolId)
    (he : (c.makeItem symbol t).1 = .error e) :
    Exhausts c (c.makeItem symbol t).2 := by
  rcases c.makeItem_outcome symbol t with heq | ⟨reserve, c', heq, hcut⟩ <;> rw [heq] at he ⊢
  · cases he
  · exact hcut.exhausts

theorem liftAll_exhausts
    {r : Relation}
    (pool : List CandidateId)
    (he : (liftAll u r c pool).1 = .error e) :
    Exhausts c (liftAll u r c pool).2 := by
  induction pool generalizing c e with
  | nil => cases he
  | cons x rest ih =>
    rcases liftAll_cons c u r x rest with ⟨hfull, heq⟩ | ⟨c₁, -, hpush, heq⟩ <;> rw [heq] at he ⊢
    · exact ⟨Nat.lt_succ_self _, Or.inr hfull⟩
    · have hstore : Returns c c₁ := hpush ▸ .pushCandidate c rfl
      refine hstore.exhausts ?_
      cases hrest : (liftAll u r c₁ rest).1 with
      | error e' => exact ih hrest
      | ok ids =>
        rw [hrest] at he
        cases he

theorem placeOver_exhausts
    {r : Relation}
    (he : (c.placeOver u v r).1 = .error e) :
    Exhausts c (c.placeOver u v r).2 := by
  have hfix : Returns c (c.modifyItem v fun i => { i with fixedParent := some (u, r) }) :=
    .modifyItem _ _ _
  cases placing c u v r with
  | @refused _ c₁ _ hfixed hlift heq =>
    have hexhausts := liftAll_exhausts (c₁.item v).pool (congrArg Prod.fst hlift)
    rw [hlift] at hexhausts
    rw [heq]
    exact (hfixed ▸ hfix).exhausts hexhausts
  | placed _ _ heq =>
    rw [heq] at he
    cases he

theorem Admission.exhausts
    {symbol : Option SymbolId}
    {outcome : Except ChartError ItemId × Chart}
    (h : Admission c symbol t outcome)
    (he : outcome.1 = .error e) :
    Exhausts c outcome.2 := by
  cases h with
  | refused hmake heq =>
    have hexhausts := makeItem_exhausts symbol (congrArg Prod.fst hmake)
    rw [hmake] at hexhausts
    rw [heq]
    exact hexhausts
  | admitted _ heq =>
    rw [heq] at he
    cases he

theorem feedComposition_exhausts
    (tower : Composition SymbolId)
    (he : (feedComposition t tower c).1 = .error e) :
    Exhausts c (feedComposition t tower c).2 := by
  induction tower generalizing e with
  | single s => exact (admission_single t s c).exhausts he
  | holding s r inner ih =>
    have hinner := feedComposition_returns t inner c
    cases stacking t s r inner c with
    | incomplete hfed heq =>
      have hexhausts := ih (congrArg Prod.fst hfed)
      rw [hfed] at hexhausts
      rw [heq]
      exact hexhausts
    | unmade hfed hmade heq =>
      have hexhausts := makeItem_exhausts (some s) (congrArg Prod.fst hmade)
      rw [hfed] at hinner
      rw [hmade] at hexhausts
      rw [heq]
      exact hinner.exhausts hexhausts
    | @unplaced _ _ _ c₁ _ _ hfed hmade hplaced heq =>
      have hmake := (makeItem_returns c₁ (some s) t).1
      have hexhausts := placeOver_exhausts (congrArg Prod.fst hplaced)
      rw [hfed] at hinner
      rw [hmade] at hmake
      rw [hplaced] at hexhausts
      rw [heq]
      exact (hinner.trans hmake).exhausts hexhausts
    | stacked _ _ _ heq =>
      rw [heq] at he
      cases he

/-- A token is refused because something ran out, or because it lies outside the window. -/
theorem feedAs_exhausts
    (symbol : Option SymbolId)
    (he : (c.feedAs symbol t).1 = .error e) :
    Exhausts c (c.feedAs symbol t).2 ∨
      c.settings.window < t.stop ∧ e = .outsideWindow t.stop c.settings.window := by
  cases taking c symbol t with
  | beyond hwindow heq =>
    rw [heq] at he
    cases he
    exact Or.inr ⟨hwindow, rfl⟩
  | @tower levels _ _ heq =>
    rw [heq] at he ⊢
    exact Or.inl (feedComposition_exhausts levels he)
  | single _ _ hadmission => exact Or.inl (hadmission.exhausts he)

end Feeding

section Absorbing

theorem feedEach_exhausts
    {α β : Type}
    {step : Chart → α → Except ChartError β × Chart}
    (hreturns : ∀ c a, Returns c (step c a).2)
    (hexhausts : ∀ c a reserve, (step c a).1 = .error (.exhausted reserve) →
      Exhausts c (step c a).2)
    (entries : List α)
    (hstopped : (feedEach step c entries).1 = .ok .stopped) :
    Exhausts c (feedEach step c entries).2 := by
  induction entries generalizing c with
  | nil => cases hstopped
  | cons a rest ih =>
    have hfirst := hreturns c a
    have hlast := hexhausts c a
    unfold feedEach at hstopped ⊢
    generalize step c a = result at hfirst hlast hstopped ⊢
    obtain ⟨outcome, c₁⟩ := result
    cases outcome with
    | ok b => exact hfirst.exhausts (ih hstopped)
    | error e =>
      cases e with
      | exhausted reserve => exact hlast reserve rfl
      | outsideWindow stop window => cases hstopped

theorem rename_exhausts
    (i : Item)
    (hstopped : (c.rename i).1 = .ok .stopped) :
    Exhausts c (c.rename i).2 := by
  unfold rename at hstopped ⊢
  by_cases hfull : c.settings.itemCapacity ≤ c.plainItems
  · rw [allocateItem_of_full hfull]
    exact (Cut.item hfull).exhausts
  · -- A leaf that is refused is an error of the whole, and does not end it quietly.
    have hroom : c.allocateItem = (.ok c.nextItem, c.pushItem {}) := by
      simp [allocateItem, hfull]
    rw [hroom] at hstopped
    dsimp only at hstopped
    split at hstopped <;> cases hstopped

theorem absorbItem_exhausts
    (i : Item)
    (hstopped : (c.absorbItem i).1 = .ok .stopped) :
    Exhausts c (c.absorbItem i).2 := by
  have hfeed : ((if i.concept = unrecognized then (.ok .done, c)
      else feedEach (fun c s => c.feedAs (some s) i.toToken) c
        (c.grammar.meaningsOf i.concept) : Except ChartError Progress × Chart).1 =
          .ok .stopped) →
      Exhausts c (if i.concept = unrecognized then (.ok .done, c)
        else feedEach (fun c s => c.feedAs (some s) i.toToken) c
          (c.grammar.meaningsOf i.concept) : Except ChartError Progress × Chart).2 := by
    intro h
    split at h
    · cases h
    · rename_i hconcept
      rw [if_neg hconcept]
      refine feedEach_exhausts (fun c s => feedAs_returns c (some s) i.toToken)
        (fun c s reserve he => ?_) _ h
      exact (feedAs_exhausts (some s) he).resolve_right fun hwindow => by cases hwindow.2
  unfold absorbItem at hstopped ⊢
  split at hstopped
  · exact rename_exhausts i hstopped
  · exact hfeed hstopped
  · exact hfeed hstopped

theorem absorbItems_exhausts
    (items : List Item)
    (hstopped : (c.absorbItems items).1 = .ok .stopped) :
    Exhausts c (c.absorbItems items).2 := by
  induction items generalizing c with
  | nil => cases hstopped
  | cons i rest ih =>
    have hfirst := absorbItem_returns c i
    have hlast := absorbItem_exhausts (c := c) i
    unfold absorbItems at hstopped ⊢
    generalize c.absorbItem i = result at hfirst hlast hstopped ⊢
    obtain ⟨outcome, c₁⟩ := result
    cases outcome with
    | error e => cases hstopped
    | ok progress =>
      cases progress with
      | done => exact hfirst.exhausts (ih hstopped)
      | stopped => exact hlast rfl

end Absorbing

/--
Absorbing a chart is reported as done in two cases. Where the items have been taken to the end,
what is selected is what selecting gives, also if something was refused on the way. Where taking
them has stopped before, the former selection stands; the refusal that ended it has been
counted, and there is no room for another item, or for another candidate.
-/
theorem absorb_refreshes_best
    {sub : Chart}
    (hok : (c.absorb sub).1 = .ok ()) :
    (c.absorbItems sub.outward).1 = .ok .done ∧
        (c.absorb sub).2.best = (c.absorb sub).2.select.1 ∨
      (c.absorbItems sub.outward).1 = .ok .stopped ∧
        (c.absorb sub).2.best = c.best ∧
        c.tally.refusals < (c.absorb sub).2.tally.refusals ∧ (c.absorb sub).2.Spent := by
  have hreturns := absorbItems_returns (c := c) sub.outward
  have hstopped := absorbItems_exhausts (c := c) sub.outward
  unfold absorb at hok ⊢
  generalize c.absorbItems sub.outward = result at hreturns hstopped hok ⊢
  obtain ⟨outcome, c₁⟩ := result
  cases outcome with
  | error e => cases hok
  | ok progress =>
    cases progress with
    | done => exact Or.inl ⟨rfl, rfl⟩
    | stopped =>
      have hexhausts := hstopped rfl
      exact Or.inr ⟨rfl, hreturns.best, hexhausts.refusals_lt, hexhausts.spent⟩

/-- Heads that take marks, each time as an item of its own, and what names both of them. -/
def pairDeclaration : Declaration :=
  { symbols :=
      [{ name := "head", rules := [{ relation := .property, target := "mark", stackable := true }] },
        { name := "mark" }]
    meanings := [(1, "head"), (2, "mark")] }

/-- A head and its mark are taken over, and there is no room for an aggregate. -/
def absorbedPair : Except ChartError Unit × Chart :=
  (new pairDeclaration.built { aggregateCapacity := 0 }).absorb sampleChart

/-- The aggregate is refused on the way, and the head with its mark is selected. -/
theorem absorb_refreshes_best_sample :
    absorbedPair.1 = .ok () ∧ absorbedPair.2.tally.refusals = 1 ∧
      absorbedPair.2.best = some ⟨2⟩ ∧ absorbedPair.2.best = absorbedPair.2.select.1 := by
  have hok : ((new pairDeclaration.built { aggregateCapacity := 0 }).absorb sampleChart).1 =
      .ok () := by decide +kernel
  have hdone : ((new pairDeclaration.built { aggregateCapacity := 0 }).absorbItems
      sampleChart.outward).1 = .ok .done := by decide +kernel
  refine ⟨hok, by decide +kernel, by decide +kernel, ?_⟩
  rw [absorbedPair]
  rcases absorb_refreshes_best hok with ⟨-, hbest⟩ | ⟨hstopped, -⟩
  · exact hbest
  · rw [hdone] at hstopped
    cases hstopped

/-- One symbol, which the first concept of a subordinate chart stands for. -/
def namingDeclaration : Declaration :=
  { symbols := [{ name := "name" }], meanings := [(1, "name")] }

/-- Two heads, one after the other. -/
def headsChart : Chart :=
  (new sampleGrammar {}).feeds
    [{ concept := 1, position := 0, extent := 1 }, { concept := 1, position := 1, extent := 1 }]

/-- Names for both heads are taken over. -/
def absorbedHeads (s : Settings) : Except ChartError Unit × Chart :=
  (new namingDeclaration.built s).absorb headsChart

/-- Where there is room for the first head only, it is not selected. -/
theorem stopped_absorb_keeps_best :
    (absorbedHeads { itemCapacity := 1 }).1 = .ok () ∧
      (absorbedHeads { itemCapacity := 1 }).2.best = none ∧
      (absorbedHeads { itemCapacity := 1 }).2.select.1 = some ⟨0⟩ := by
  decide +kernel

end Chart

end BeamChart
