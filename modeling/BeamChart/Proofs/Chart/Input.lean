import BeamChart.Proofs.Chart.Feed
import BeamChart.Proofs.Chart.Intake

/-!
# All input moves a chart

Tokens, the items of a subordinate chart and the phrases of a table reach a
chart item by item. Each item is made, perhaps connected, and posted, so each of
these inputs is a sequence of moves, whether it succeeds or stops on the way.
-/

namespace BeamChart

namespace Chart

variable {strict : Prop} {c : Chart}

theorem feedAs_advances
    (hc : Sound strict c)
    (symbol : Option SymbolId)
    (t : Token) :
    Advances strict c (c.feedAs symbol t).2 := by
  cases taking c symbol t with
  | beyond _ heq =>
    rw [heq]
    exact .refl c
  | tower _ _ heq =>
    rw [heq]
    exact (feedComposition_spec t _ hc).1
  | single _ _ hadmission => exact (hadmission.advances hc).1

theorem feed_advances
    (hc : Sound strict c)
    (t : Token) :
    Advances strict c (c.feed t).2 :=
  feedAs_advances hc (c.symbolOf? t) t

section Absorbing

/-- A renamed item is filled and posted. -/
theorem rename_advances
    (hc : Sound strict c)
    (u : Item) :
    Advances strict c (c.rename u).2 := by
  obtain ⟨hmake, -⟩ := makeItem_spec hc (c.grammar.meaningsOf u.concept).head? u.toToken
  rcases c.rename_cases u with ⟨-, heq⟩ | ⟨c₁, hmade, heq⟩
  · rw [heq]
    exact hmake.advances
  · rw [hmade] at hmake
    rw [heq]
    exact (hmake.trans (.single .register)).advances

theorem absorb_advances
    (hc : Sound strict c)
    (sub : Chart) :
    Advances strict c (c.absorb sub).2 := by
  refine absorb_keeps sub (fun c₁ h => h.trans (.single (.step .select))) ?_
  refine absorbItems_keeps _ (fun i c₁ h => ?_) (.refl c)
  refine absorbItem_keeps i (h.trans (rename_advances (h.sound hc) i)) (fun s _ c₂ k => ?_) h
  exact k.trans (feedAs_advances (k.sound hc) (some s) i.toToken)

end Absorbing

section LookingUp

theorem keeps_advances (hc : Sound strict c) :
    Scan.Keeps (Advances strict c) where
  make h symbol t := h.trans (makeItem_spec (h.sound hc) symbol t).1.advances
  post h symbol t hmade := by
    have hmake := (makeItem_spec (h.sound hc) symbol t).1
    rw [hmade] at hmake
    exact h.trans (hmake.trans (.single .register)).advances
  hit h := h.trans (evolves_count _ _ rfl rfl rfl (Nat.le_refl _)).advances
  miss h := h.trans (evolves_count _ _ rfl rfl rfl (Nat.le_refl _)).advances

theorem lookup_advances
    (t : PhraseTable)
    (atoms : List Token)
    (hc : Sound strict c) :
    Advances strict c (t.lookup atoms c).2 :=
  (keeps_advances hc).lookup (.refl c) t atoms

end LookingUp

end Chart

end BeamChart
