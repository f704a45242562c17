import BeamChart.Proofs.Chart.Intake
import BeamChart.Proofs.Chart.Returns

/-!
# What every input comes back with

Tokens, subordinate charts and phrase tables reach a chart item by item. Each of
these items has just been stored when it is registered, so the chart comes back
as from a connection (`Returns`), up to what is selected in the end.
-/

namespace BeamChart

namespace Chart

variable {c : Chart} {u : ItemId}

section Feeding

theorem connectInBudget_returns (c : Chart) (u : ItemId) :
    Returns c (c.connectInBudget u) := by
  unfold connectInBudget
  split
  · exact connect_returns c u
  · exact .count c (Nat.le_refl _)

theorem instantiate_returns
    (c : Chart)
    (u : ItemId)
    (symbol : Option SymbolId)
    (t : Token) :
    Returns c (c.instantiate u symbol t).2 := by
  have hfill : Returns c (c.fillItem u symbol t) := .modifyItem c u _
  cases filling c u symbol t with
  | placed _ heq =>
    rw [heq]
    exact hfill
  | exhausted _ _ _ heq =>
    rw [heq]
    exact hfill.trans (.refused _)
  | filled _ _ _ heq =>
    rw [heq]
    exact (hfill.trans (.pushCandidate _ rfl)).trans (.modifyItem _ _ _)

theorem makeItem_returns
    (c : Chart)
    (symbol : Option SymbolId)
    (t : Token) :
    Returns c (c.makeItem symbol t).2 ∧
      ∀ u, (c.makeItem symbol t).1 = .ok u → u.index < (c.makeItem symbol t).2.items.size := by
  have hlt : c.nextItem.index < (c.pushItem {}).items.size := by
    simp [Chart.pushItem, nextItem]
  have hfill := instantiate_returns (c.pushItem {}) c.nextItem symbol t
  cases making c symbol t with
  | refused _ heq =>
    rw [heq]
    exact ⟨.refused c, fun u hu => by cases hu⟩
  | unfilled _ hfilled heq =>
    rw [hfilled] at hfill
    rw [heq]
    exact ⟨(Returns.pushItem c {}).trans hfill, fun u hu => by cases hu⟩
  | made _ hfilled heq =>
    rw [hfilled] at hfill
    rw [heq]
    refine ⟨((Returns.pushItem c {}).trans hfill).trans (.modifyItem _ _ _), fun u hu => ?_⟩
    cases hu
    dsimp only
    rw [markPresent, size_items_modifyItem]
    exact Nat.lt_of_lt_of_le hlt hfill.items_le

theorem admit_returns
    (hu : u.index < c.items.size) :
    Returns c ((c.connectInBudget u).register u) :=
  (connectInBudget_returns c u).register
    (Or.inr (Nat.lt_of_lt_of_le hu (connectInBudget_returns c u).items_le))

theorem liftAll_returns
    (u : ItemId)
    (r : Relation)
    (pool : List CandidateId) :
    Returns c (liftAll u r c pool).2 := by
  induction pool generalizing c with
  | nil => exact .refl c
  | cons x rest ih =>
    rcases liftAll_cons c u r x rest with ⟨-, heq⟩ | ⟨c₁, -, rfl, heq⟩ <;> rw [heq]
    · exact .refused c
    · exact (Returns.pushCandidate c rfl).trans ih

theorem placeOver_returns
    (c : Chart)
    (u below : ItemId)
    (r : Relation) :
    Returns c (c.placeOver u below r).2 := by
  have hfix : Returns c (c.modifyItem below fun i => { i with fixedParent := some (u, r) }) :=
    .modifyItem _ _ _
  have hlifted := fun c₁ : Chart => liftAll_returns (c := c₁) u r (c₁.item below).pool
  cases placing c u below r with
  | @refused _ c₁ _ hfixed hlift heq =>
    specialize hlifted c₁
    rw [hlift] at hlifted
    rw [heq]
    exact (hfixed ▸ hfix).trans hlifted
  | @placed _ c₁ _ hfixed hlift heq =>
    specialize hlifted c₁
    rw [hlift] at hlifted
    rw [heq]
    exact ((hfixed ▸ hfix).trans hlifted).trans (.modifyItem _ _ _)

theorem Admission.returns
    {symbol : Option SymbolId}
    {t : Token}
    {outcome : Except ChartError ItemId × Chart}
    (h : Admission c symbol t outcome) :
    Returns c outcome.2 := by
  obtain ⟨hmake, hlt⟩ := makeItem_returns c symbol t
  cases h with
  | refused hmade heq =>
    rw [hmade] at hmake
    rw [heq]
    exact hmake
  | admitted hmade heq =>
    rw [hmade] at hmake hlt
    rw [heq]
    exact hmake.trans (admit_returns (hlt _ rfl))

theorem feedComposition_returns
    (t : Token)
    (tower : Composition SymbolId)
    (c : Chart) :
    Returns c (feedComposition t tower c).2 := by
  induction tower generalizing c with
  | single s => exact (admission_single t s c).returns
  | holding s r inner ih =>
    have hinner : Returns c (feedComposition t inner c).2 := ih c
    have hmake := fun c₁ => makeItem_returns c₁ (some s) t
    cases stacking t s r inner c with
    | incomplete hfed heq =>
      rw [hfed] at hinner
      rw [heq]
      exact hinner
    | @unmade _ _ c₁ _ hfed hmade heq =>
      specialize hmake c₁
      rw [hfed] at hinner
      rw [hmade] at hmake
      rw [heq]
      exact hinner.trans hmake.1
    | @unplaced below u _ c₁ c₂ _ hfed hmade hplaced heq =>
      specialize hmake c₁
      have hplace := placeOver_returns c₂ u below r
      rw [hfed] at hinner
      rw [hmade] at hmake
      rw [hplaced] at hplace
      rw [heq]
      exact (hinner.trans hmake.1).trans hplace
    | @stacked below u c₁ c₂ _ hfed hmade hplaced heq =>
      specialize hmake c₁
      have hplace := placeOver_returns c₂ u below r
      rw [hfed] at hinner
      rw [hmade] at hmake
      rw [hplaced] at hplace
      rw [heq]
      have hlt := Nat.lt_of_lt_of_le (hmake.2 u rfl) hplace.items_le
      exact ((hinner.trans hmake.1).trans hplace).trans (admit_returns hlt)

theorem feedAs_returns
    (c : Chart)
    (symbol : Option SymbolId)
    (t : Token) :
    Returns c (c.feedAs symbol t).2 := by
  cases taking c symbol t with
  | beyond _ heq =>
    rw [heq]
    exact .refl c
  | tower _ _ heq =>
    rw [heq]
    exact feedComposition_returns t _ c
  | single _ _ hadmission => exact hadmission.returns

theorem feed_returns (c : Chart) (t : Token) :
    Returns c (c.feed t).2 :=
  feedAs_returns c (c.symbolOf? t) t

end Feeding

section Absorbing

theorem feedEach_returns
    {α β : Type}
    (step : Chart → α → Except ChartError β × Chart)
    (hstep : ∀ c a, Returns c (step c a).2)
    (entries : List α) :
    Returns c (feedEach step c entries).2 :=
  feedEach_keeps entries (fun a _ c₁ h => h.trans (hstep c₁ a)) (.refl c)

theorem rename_returns (c : Chart) (u : Item) :
    Returns c (c.rename u).2 := by
  obtain ⟨hmake, hlt⟩ := makeItem_returns c (c.grammar.meaningsOf u.concept).head? u.toToken
  rcases c.rename_cases u with ⟨-, heq⟩ | ⟨c₁, hmade, heq⟩
  · rw [heq]
    exact hmake
  · rw [hmade] at hmake hlt
    rw [heq]
    exact hmake.register (Or.inr (hlt _ rfl))

theorem absorbItem_returns (c : Chart) (u : Item) :
    Returns c (c.absorbItem u).2 :=
  absorbItem_keeps u (rename_returns c u)
    (fun s _ c₁ h => h.trans (feedAs_returns c₁ (some s) u.toToken)) (.refl c)

theorem absorbItems_returns (items : List Item) :
    Returns c (c.absorbItems items).2 :=
  absorbItems_keeps items (fun u c₁ h => h.trans (absorbItem_returns c₁ u)) (.refl c)

theorem select_resumes (c : Chart) :
    Resumes c c.select.2 :=
  ⟨Nat.le_refl _, Nat.le_refl _, rfl, fun _ => Or.inl⟩

theorem absorb_resumes (c : Chart) (sub : Chart) :
    Resumes c (c.absorb sub).2 :=
  absorb_keeps sub (fun c₁ h => h.trans (select_resumes c₁)) (absorbItems_returns _).toResumes

end Absorbing

section LookingUp

theorem keeps_returns (c : Chart) :
    Scan.Keeps (Returns c) where
  make h symbol t := h.trans (makeItem_returns _ symbol t).1
  post {c₁ _ _} h symbol t hmade := by
    obtain ⟨hmake, hlt⟩ := makeItem_returns c₁ symbol t
    rw [hmade] at hmake hlt
    exact h.trans (hmake.register (Or.inr (hlt _ rfl)))
  hit h := h.trans (.count _ (Nat.le_refl _))
  miss h := h.trans (.count _ (Nat.le_refl _))

theorem lookup_returns
    (t : PhraseTable)
    (atoms : List Token)
    (c : Chart) :
    Returns c (t.lookup atoms c).2 :=
  (keeps_returns c).lookup (.refl c) t atoms

end LookingUp

end Chart

end BeamChart
