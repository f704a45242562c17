import BeamChart.PhraseTable.Lookup
import BeamChart.Chart.Absorb

/-!
# What taking in many items keeps

A subordinate chart and a phrase table reach a chart item by item, and the walk along the
items may end before the last of them. A property of charts that each single item keeps is
kept by the whole walk, wherever it ends: `absorbItems_keeps` for the items of a chart,
`Scan.Keeps.lookup` for the phrases in a list of atoms.
-/

namespace BeamChart

variable {P : Chart → Prop} {c : Chart}

namespace Chart

theorem feedEach_keeps
    {α β : Type}
    {step : Chart → α → Except ChartError β × Chart}
    (entries : List α)
    (hstep : ∀ a ∈ entries, ∀ c, P c → P (step c a).2)
    (hc : P c) :
    P (feedEach step c entries).2 := by
  induction entries generalizing c with
  | nil => exact hc
  | cons a rest ih =>
    have hfirst := hstep a List.mem_cons_self c hc
    have hrest := fun {c} (hc : P c) =>
      ih (c := c) (fun a' ha' => hstep a' (List.mem_cons_of_mem a ha')) hc
    unfold feedEach
    generalize step c a = result at hfirst ⊢
    obtain ⟨outcome, c₁⟩ := result
    cases outcome with
    | ok b => exact hrest hfirst
    | error e => cases e <;> exact hfirst

/-- An item is renamed, or fed once for each of its meanings. -/
theorem absorbItem_keeps
    (i : Item)
    (hrename : P (c.rename i).2)
    (hfeed : ∀ s ∈ c.grammar.meaningsOf i.concept, ∀ c, P c →
      P (c.feedAs (some s) i.toToken).2)
    (hc : P c) :
    P (c.absorbItem i).2 := by
  have hfed : P (if i.concept = unrecognized then (.ok .done, c)
      else feedEach (fun c s => c.feedAs (some s) i.toToken) c
        (c.grammar.meaningsOf i.concept) : Except ChartError Progress × Chart).2 := by
    split
    · exact hc
    · exact feedEach_keeps _ hfeed hc
  unfold absorbItem
  split
  · exact hrename
  · exact hfed
  · exact hfed

theorem absorbItems_keeps
    (items : List Item)
    (hitem : ∀ i c, P c → P (c.absorbItem i).2)
    (hc : P c) :
    P (c.absorbItems items).2 := by
  induction items generalizing c with
  | nil => exact hc
  | cons i rest ih =>
    have hfirst := hitem i c hc
    unfold absorbItems
    generalize c.absorbItem i = result at hfirst ⊢
    obtain ⟨outcome, c₁⟩ := result
    split
    · rename_i c₂ heq
      cases heq
      exact ih hfirst
    · exact hfirst

/-- What has been taken in is selected from, unless something ran out. -/
theorem absorb_keeps
    (sub : Chart)
    (hselect : ∀ c, P c → P c.select.2)
    (hitems : P (c.absorbItems sub.outward).2) :
    P (c.absorb sub).2 := by
  unfold absorb
  generalize c.absorbItems sub.outward = result at hitems ⊢
  obtain ⟨outcome, c₁⟩ := result
  cases outcome with
  | error e => exact hitems
  | ok progress =>
    cases progress with
    | done => exact hselect c₁ hitems
    | stopped => exact hitems

end Chart

namespace Scan

/--
What a lookup does to a chart keeps a property: items are made and posted without being
connected, and hits and misses are counted.
-/
structure Keeps (P : Chart → Prop) : Prop where
  make : ∀ {c}, P c → ∀ symbol t, P (c.makeItem symbol t).2
  post : ∀ {c c' u}, P c → ∀ symbol t, c.makeItem symbol t = (.ok u, c') → P (c'.register u)
  hit : ∀ {c}, P c → P (c.count fun t => { t with tableHits := t.tableHits + 1 })
  miss : ∀ {c}, P c → P (c.count fun t => { t with tableMisses := t.tableMisses + 1 })

namespace Keeps

variable {s : Scan}

theorem place
    (h : Keeps P)
    (hs : P s.chart)
    (symbol : Option SymbolId)
    (t : Token) :
    P (s.place symbol t).2.chart := by
  have hmake := h.make hs symbol t
  unfold Scan.place
  cases hmade : s.chart.makeItem symbol t with
  | mk outcome c₁ =>
    cases outcome with
    | error e =>
      rw [hmade] at hmake
      exact hmake
    | ok u => exact h.post hs symbol t hmade

theorem countHit
    (h : Keeps P)
    (hs : P s.chart) :
    P s.countHit.chart := by
  unfold Scan.countHit
  split
  · exact hs
  · exact h.hit hs

theorem placeAll
    (h : Keeps P)
    (hs : P s.chart)
    (position extent : Nat)
    (meanings : List Meaning) :
    P (Scan.placeAll position extent meanings s).2.chart := by
  induction meanings generalizing s with
  | nil => exact hs
  | cons m rest ih =>
    have hfirst := h.place hs (some m.symbol)
      { concept := m.symbol, position, extent, context := m.context }
    unfold Scan.placeAll
    dsimp only
    generalize s.place (some m.symbol) _ = result at hfirst ⊢
    obtain ⟨outcome, s₁⟩ := result
    cases outcome with
    | error e => exact hfirst
    | ok _ => exact ih (h.countHit hfirst)

theorem scan
    (h : Keeps P)
    (hs : P s.chart)
    (table : PhraseTable)
    (position : Nat)
    (k : Cursor)
    (atoms : List Token) :
    P (table.scan position k atoms s).2.chart := by
  induction atoms generalizing k s with
  | nil => exact hs
  | cons atom rest ih =>
    unfold PhraseTable.scan
    dsimp only
    split
    · split
      · split
        · exact hs
        · exact ih hs _
      · split
        · exact hs
        · split
          · exact ih hs _
          · rename_i entry _
            have hplaced := h.placeAll hs position (atom.stop - position) entry.meanings
            generalize Scan.placeAll position _ entry.meanings s = result at hplaced ⊢
            obtain ⟨outcome, s₁⟩ := result
            cases outcome with
            | error e => exact hplaced
            | ok _ => exact ih hplaced _
    · exact hs

theorem scanAll
    (h : Keeps P)
    (hs : P s.chart)
    (table : PhraseTable)
    (atoms : List Token) :
    P (table.scanAll atoms s).2.chart := by
  induction atoms generalizing s with
  | nil => exact hs
  | cons first rest ih =>
    have hscan := h.scan (s := { s with hit := false }) hs table first.position {} (first :: rest)
    unfold PhraseTable.scanAll
    generalize table.scan first.position {} (first :: rest) _ = result at hscan ⊢
    obtain ⟨outcome, s₁⟩ := result
    cases outcome with
    | error e => exact hscan
    | ok _ =>
      dsimp only
      split
      · exact ih hscan
      · have hgap := h.place (s := s₁.countMiss) (h.miss hscan) none
          { concept := unrecognized, position := first.position, extent := first.extent }
        generalize s₁.countMiss.place none _ = result at hgap ⊢
        obtain ⟨outcome, s₂⟩ := result
        cases outcome with
        | error e => exact hgap
        | ok _ => exact ih hgap

theorem lookup
    (h : Keeps P)
    (hc : P c)
    (table : PhraseTable)
    (atoms : List Token) :
    P (table.lookup atoms c).2 := by
  have hscan := h.scanAll (s := { chart := c }) hc table atoms
  unfold PhraseTable.lookup
  split
  · exact hc
  · generalize table.scanAll atoms _ = result at hscan ⊢
    obtain ⟨outcome, s₁⟩ := result
    cases outcome with
    | ok _ => exact hscan
    | error e => cases e <;> exact hscan

end Keeps

end Scan

end BeamChart
