import BeamChart.Proofs.Decoder.Translation
import BeamChart.Proofs.Grammar.Built
import BeamChart.Proofs.Relocation.Skip

/-!
# Gaps in the input

A token that names no symbol of the grammar is registered and has no further
consequences. The items of the other tokens lie at later places than without it, but
the same candidates are stored for them, under the same numbers. So inputs that
differ in such tokens have the same solution (`decode_congr_gaps`), unless one of them
leaves no room for what the other one makes.
-/

namespace BeamChart

/-- The token has the number of the unrecognized symbol, or one beyond all symbols. -/
def Grammar.isGap (g : Grammar) (t : Token) : Bool :=
  t.concept == unrecognized || decide (g.size ≤ t.concept)

/-- A gap names no symbol. -/
theorem Chart.symbolOf?_of_isGap
    {c : Chart}
    {t : Token}
    (hg : c.grammar.Coherent)
    (h : c.grammar.isGap t = true) :
    c.symbolOf? t = none := by
  unfold symbolOf?
  cases hentry : c.grammar.symbol? t.concept with
  | none => rfl
  | some entry =>
    have hlt : t.concept < c.grammar.size := (Array.getElem?_eq_some_iff.1 hentry).1
    have hzero : t.concept = unrecognized := by
      simpa [Grammar.isGap, Nat.not_le_of_lt hlt] using h
    have hid : entry.id = unrecognized := (hg.numbered _ _ hentry).trans hzero
    simp [hid]

namespace Decoder

open Chart

variable {m : Relocation} {d : Decoder} {g : Grammar} {s : Settings} {c c' : Chart}
  {declaration : Declaration} {tokens tokens' : List Token}

/-- An input with gaps leads to a chart with more items, and nothing else. -/
theorem feedAll_gaps
    (hg : g.Coherent)
    (h : Mirrors m c c')
    (hrun : Managed g s c)
    (hzero : m.distance = 0)
    (tokens : List Token)
    (hroom : (feedAll c' tokens).tally.refusals = 0) :
    ∃ m' : Relocation,
      Mirrors m' (feedAll c (tokens.filter fun t => !g.isGap t)) (feedAll c' tokens) ∧
        m'.distance = 0 := by
  induction tokens generalizing m c c' with
  | nil => exact ⟨m, h, hzero⟩
  | cons t rest ih =>
    have hgrammar : c'.grammar = g := h.grammar.trans hrun.operated.same.1
    have hclean : (c'.feed t).2.tally.refusals = 0 :=
      Nat.eq_zero_of_le_zero ((feedAll_cons_returns c' t rest).refusals_le.trans_eq hroom)
    by_cases hgap : g.isGap t = true
    · rw [List.filter_cons_of_neg (by simp [hgap])]
      have hsymbol : c'.symbolOf? t = none := by
        rw [← hgrammar] at hg hgap
        exact symbolOf?_of_isGap hg hgap
      have hfirst := h.feed_gap hrun.withinArenas hsymbol hclean
      simp only [feedAll] at hroom ⊢
      generalize c'.feed t = result at hfirst hroom ⊢
      obtain ⟨outcome, d'⟩ := result
      rcases hfirst with ⟨stop, window, rfl, rfl⟩ | ⟨u, rfl, hd⟩
      · exact ih h hrun hzero hroom
      · exact ih ⟨hd, h.grounded⟩ hrun hzero hroom
    · rw [List.filter_cons_of_pos (by simpa using hgap)]
      have htoken : m.token t = t := by
        rw [Relocation.token, hzero]
        rfl
      have hfirst := h.feed t (Or.inl hzero) (by rw [htoken]; exact Or.inr hclean)
      rw [htoken] at hfirst
      have hnext : Managed g s (c.feed t).2 := .operation hrun (.input (.feed t)) trivial
      unfold feedAll at hroom ⊢
      generalize c.feed t = result at hfirst hnext ⊢
      generalize c'.feed t = result' at hfirst hroom ⊢
      cases hfirst with
      | ok u d d' hd => exact ih hd hnext hzero hroom
      | error e d d' hd =>
        cases e with
        | exhausted reserve => exact ⟨m, hd, hzero⟩
        | outsideWindow stop window => exact ih hd hnext hzero hroom

/-- The solution is the one of the input without its gaps. -/
theorem solution_without_gaps
    (hg : d.grammar.Coherent)
    (hroom : (d.decode tokens).tally.refusals = 0) :
    (d.decode tokens).solution =
      (d.decode (tokens.filter fun t => !d.grammar.isGap t)).solution.map (Parse.moved 0) := by
  obtain ⟨m, hmirrors, hzero⟩ := feedAll_gaps (m := shift 0) hg
    (.new (shift_exact 0) d.grammar d.settings) .new rfl tokens hroom
  have hsolution := hmirrors.selected (sound_feedAll_new d.grammar d.settings _)
  rw [hzero] at hsolution
  exact hsolution

/--
In a built grammar, inputs that are equal once their gaps are dropped have the same
solution, if there is room for both of them.
-/
theorem decode_congr_gaps
    (hbuilt : declaration.resolve = .ok d.grammar)
    (hsame : (tokens.filter fun t => !d.grammar.isGap t) =
      tokens'.filter fun t => !d.grammar.isGap t)
    (hroom : (d.decode tokens).tally.refusals = 0)
    (hroom' : (d.decode tokens').tally.refusals = 0) :
    (d.decode tokens).solution = (d.decode tokens').solution := by
  have hg := Declaration.coherent_of_resolve hbuilt
  rw [solution_without_gaps hg hroom, solution_without_gaps hg hroom', hsame]

/-- The pair of tokens with a gap in front of it, and one of a number that is not in use. -/
def pairWithGaps : List Token :=
  [{ concept := 0, position := 7, extent := 2 }, { concept := 1, position := 0, extent := 1 },
    { concept := 9, position := 1, extent := 1 }, { concept := 2, position := 1, extent := 1 }]

theorem decode_congr_gaps_sample :
    ((sampleDecoder.decode pair).solution.map Parse.size = some 2) ∧
      (sampleDecoder.decode pair).solution = (sampleDecoder.decode pairWithGaps).solution :=
  ⟨by decide +kernel, decode_congr_gaps resolve_sampleDeclaration (by decide +kernel)
    (by decide +kernel) (by decide +kernel)⟩

end Decoder

end BeamChart
