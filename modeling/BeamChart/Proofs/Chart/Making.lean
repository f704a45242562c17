import BeamChart.Chart.Absorb
import BeamChart.Proofs.Chart.Act
import BeamChart.Proofs.Grammar.Built

/-!
# Making items in acts

Before an item is connected it is made: allocated, filled from a token or placed
over a child, given candidates, and seen. These are acts, as long as the symbol
that the item gets is one of the grammar (`Grammar.Total`). The item is stored by
then, and not registered.
-/

namespace BeamChart

namespace Chart

variable {strict : Prop} {c : Chart} {u : ItemId}

/-- Lifted candidates have nothing to pass on. -/
theorem liftPool_acts
    (strict : Prop)
    (u : ItemId)
    (r : Relation)
    (pool : List CandidateId) :
    Acts strict False c (liftPool u r c pool).2 ∧
      ∀ y ∈ (liftPool u r c pool).1, (liftPool u r c pool).2.Idle y := by
  induction pool generalizing c with
  | nil => exact ⟨.refl c, fun y hy => by cases hy⟩
  | cons x rest ih =>
    obtain ⟨hstore, hidle⟩ := Acts.store strict c
      (z := (Candidate.seed u).attach r ⟨x, 0⟩ (c.candidate x)) rfl
    replace hidle := hidle rfl
    unfold liftPool
    dsimp only
    split
    · exact ih
    · generalize c.store _ = result at hstore hidle ⊢
      obtain ⟨outcome, c₁⟩ := result
      cases outcome with
      | error e => exact ⟨hstore, fun y hy => by cases hy⟩
      | ok id =>
        obtain ⟨hrest, hall⟩ := ih (c := c₁)
        refine ⟨hstore.trans hrest, fun y hy => ?_⟩
        rcases List.mem_cons.1 hy with rfl | hmem
        · exact hrest.idle (hidle y rfl)
        · exact hall y hmem

theorem liftAll_acts
    (strict : Prop)
    (u : ItemId)
    (r : Relation)
    (pool : List CandidateId) :
    Acts strict False c (liftAll u r c pool).2 ∧
      ∀ ids, (liftAll u r c pool).1 = .ok ids → ∀ y ∈ ids, (liftAll u r c pool).2.Idle y := by
  induction pool generalizing c with
  | nil =>
    refine ⟨.refl c, fun ids h y hy => ?_⟩
    cases h
    cases hy
  | cons x rest ih =>
    rcases liftAll_cons c u r x rest with ⟨hfull, heq⟩ | ⟨c₁, hroom, hpush, heq⟩ <;> rw [heq]
    · exact ⟨.refused (.of_full hfull), fun ids h => by cases h⟩
    · obtain ⟨hstore, hidle⟩ := Acts.store strict c
        (z := (Candidate.seed u).attach r ⟨x, 0⟩ (c.candidate x)) rfl
      rw [store_of_room hroom, ← hpush] at hstore hidle
      obtain ⟨hrest, hall⟩ := ih (c := c₁)
      generalize liftAll u r c₁ rest = result at hrest hall ⊢
      obtain ⟨outcome, c₂⟩ := result
      refine ⟨hstore.trans hrest, fun all h y hy => ?_⟩
      cases outcome with
      | error e => cases h
      | ok ids =>
        cases h
        rcases List.mem_cons.1 hy with rfl | hmem
        · exact hrest.idle (hidle rfl _ rfl)
        · exact hall ids rfl y hmem

/-- Chaining puts one new candidate in the place of the first one. -/
theorem chain_acts
    (strict : Prop)
    (c : Chart)
    (u : ItemId) :
    Acts strict False c (c.chain u) := by
  cases chaining c u with
  | idle heq =>
    rw [heq]
    exact .refl c
  | refused _ _ _ heq =>
    rw [heq]
    exact tryAttach_acts rfl
  | @chained v former own more rest c₁ _ _ hown htry heq =>
    have hacts : Acts strict False c (c.tryAttach own former .next
        (·.attach .next ⟨former, 0⟩ ·)).2 := tryAttach_acts rfl
    have hitems := items_tryAttach c own former .next (·.attach .next ⟨former, 0⟩ ·)
    obtain ⟨-, hhas, hmade⟩ := tryAttach_attached (congrArg Prod.fst htry)
    rw [htry] at hacts hitems hhas hmade
    rw [heq]
    refine hacts.trans (.single (.pool (Or.inr fun y hy => ?_)))
    rcases List.mem_cons.1 hy with rfl | hmem
    · exact Or.inr ⟨hhas, by rw [hmade]; rfl, by rw [hmade]; rfl⟩
    · rw [item_of_items_eq hitems, hown]
      exact Or.inl (List.mem_cons_of_mem own hmem)

/-- Filling an item from a token does not register it. -/
theorem registered_instantiate
    (c : Chart)
    (u : ItemId)
    (symbol : Option SymbolId)
    (t : Token)
    (v : ItemId) :
    ((c.instantiate u symbol t).2.item v).registered = (c.item v).registered := by
  have hfill : ((c.fillItem u symbol t).item v).registered = (c.item v).registered :=
    field_modifyItem Item.registered rfl v
  cases filling c u symbol t with
  | placed _ heq | exhausted _ _ _ heq =>
    rw [heq]
    exact hfill
  | filled _ _ _ heq =>
    rw [heq]
    exact (field_modifyItem Item.registered rfl v).trans hfill

theorem instantiate_acts
    {symbol : Option SymbolId}
    (hitem : u.index < c.items.size)
    (hstrict : strict → (c.item u).registered = false ∧ ∀ s ∈ symbol, s < c.grammar.size)
    (t : Token) :
    Acts strict False c (c.instantiate u symbol t).2 := by
  have hsymbols : ∀ s ∈ symbol.filter (fun s => s ≠ unrecognized), s ∈ symbol :=
    fun s hs => (Option.filter_eq_some_iff.1 hs).1
  have hfill : Acts strict False c (c.fillItem u symbol t) := by
    refine .single (.fill _ hitem rfl rfl rfl (fun y hy => by cases hy) fun hs => ?_)
    exact ⟨(hstrict hs).1, fun s h => Or.inr ((hstrict hs).2 s (hsymbols s h))⟩
  cases filling c u symbol t with
  | placed _ heq =>
    rw [heq]
    exact hfill
  | exhausted _ _ hfull heq =>
    rw [heq]
    exact hfill.trans (.refused (.of_full hfull))
  | @filled id s _ _ hroom heq =>
    rw [heq]
    have hstore : Act strict False (c.fillItem u symbol t)
        ((c.fillItem u symbol t).pushCandidate ((c.fillItem u symbol t).leafOf u s id t)) :=
      .store hroom rfl
    refine (hfill.trans (.single hstore)).trans (.single (.pool (Or.inr fun y hy => Or.inr ?_)))
    rw [List.mem_singleton.1 hy]
    exact ⟨has_nextCandidate _ _, congrArg Candidate.pending (candidate_nextCandidate _ _),
      congrArg Candidate.wrapper (candidate_nextCandidate _ _)⟩

/-- An item is seen before it is registered. -/
theorem markPresent_act
    (hitem : u.index < c.items.size)
    (hregistered : (c.item u).registered = false) :
    Act strict False c (c.markPresent u) :=
  .fill _ hitem rfl rfl rfl (fun _ h => Or.inl h) fun _ => ⟨hregistered, fun _ h => Or.inl h⟩

theorem makeItem_acts
    {symbol : Option SymbolId}
    (hstrict : strict → ∀ s ∈ symbol, s < c.grammar.size)
    (t : Token) :
    Acts strict False c (c.makeItem symbol t).2 ∧
      ∀ u, (c.makeItem symbol t).1 = .ok u →
        c.items.size ≤ u.index ∧ u.index < (c.makeItem symbol t).2.items.size := by
  have hlt : c.nextItem.index < (c.pushItem {}).items.size := by simp [pushItem, nextItem]
  have hfresh : ((c.pushItem {}).item c.nextItem).registered = false := by
    rw [item_pushItem_nextItem]
  have hfill := instantiate_acts hlt (fun hs => ⟨hfresh, hstrict hs⟩) t
  have hregistered := registered_instantiate (c.pushItem {}) c.nextItem symbol t c.nextItem
  cases making c symbol t with
  | refused hfull heq =>
    rw [heq]
    exact ⟨.refused (.item hfull), fun u hu => by cases hu⟩
  | unfilled hroom hfilled heq =>
    rw [hfilled] at hfill
    rw [heq]
    exact ⟨(Acts.single (.allocateItem hroom)).trans hfill, fun u hu => by cases hu⟩
  | @made c₁ hroom hfilled heq =>
    rw [hfilled] at hfill hregistered
    rw [heq]
    have hlt₁ : c.nextItem.index < c₁.items.size := Nat.lt_of_lt_of_le hlt hfill.items_le
    have hseen : Act strict False c₁ (c₁.markPresent c.nextItem) :=
      markPresent_act hlt₁ (hregistered.trans hfresh)
    refine ⟨((Acts.single (.allocateItem hroom)).trans hfill).trans (.single hseen), fun u hu => ?_⟩
    cases hu
    exact ⟨Nat.le_refl _, Nat.lt_of_lt_of_le hlt₁ hseen.items_le⟩

theorem rename_acts
    (hstrict : strict → c.grammar.Total)
    (i : Item) :
    Acts strict False c (c.rename i).2 := by
  obtain ⟨hmake, hlt⟩ := makeItem_acts (c := c)
    (fun hs s h => (hstrict hs).meanings i.concept s (List.mem_of_mem_head? h)) i.toToken
  rcases c.rename_cases i with ⟨-, heq⟩ | ⟨c₁, hmade, heq⟩
  · rw [heq]
    exact hmake
  · rw [hmade] at hmake hlt
    rw [heq]
    exact hmake.trans (.single (.register fun _ => Or.inl (hlt _ rfl).2))

theorem predicted_acts
    (strict : Prop)
    {s : SymbolId}
    (hroom : c.plainItems < c.settings.itemCapacity)
    (hs : strict → s < c.grammar.size)
    (v : ItemId) :
    Acts strict False c (c.predicted v s) ∧
      c.nextItem.index < (c.predicted v s).items.size ∧
      ((c.predicted v s).item c.nextItem).registered = false := by
  have hlt : c.nextItem.index < c.pushPredicted.items.size := by
    simp [pushPredicted, pushItem, count, nextItem]
  have hblank : c.pushPredicted.item c.nextItem = {} := item_pushItem_nextItem c {}
  refine ⟨(Acts.single (.predict hroom)).trans
    (.single (.fill _ hlt rfl rfl rfl ?_ fun h => ?_)), ?_, ?_⟩
  · exact fun _ h => Or.inl h
  · refine ⟨by rw [hblank], fun k hk => Or.inr ?_⟩
    cases hk
    exact hs h
  · simp [predicted, pushItem, count, nextItem]
  · exact (field_modifyItem (c := c.pushPredicted) Item.registered rfl _).trans (by rw [hblank])

end Chart

end BeamChart
