import BeamChart.Proofs.Chart.Selected
import BeamChart.Proofs.Sequence.Strung

/-!
# Peers are chained

In a positional chart, tokens that stand in order leave the chain of all peers as the
one candidate of the last peer's item. Of a chain that covers something, with positive
weights and no saturation, every shorter one is lighter, so the longest is selected
(`peers_are_chained`). A chain over nothing is never selected, whatever it weighs
(`empty_peer_is_passed_over`).
-/

namespace BeamChart

namespace Weight

theorem le_add_of_pos
    {w : Weight}
    (hw : 0 < w)
    (b : Weight) :
    b ≤ b + w := by
  have hpos : 0 < w.toInt := hw
  have hb := b.le_highest
  have hb' := b.lowest_le
  rw [le_iff, toInt_add]
  unfold clamp
  omega

theorem le_foldl_add
    {ws : List Weight}
    (hpos : ∀ w ∈ ws, 0 < w)
    (b : Weight) :
    b ≤ ws.foldl (· + ·) b := by
  induction ws generalizing b with
  | nil => exact le_refl b
  | cons w rest ih =>
    have hfirst := le_add_of_pos (hpos w List.mem_cons_self) b
    exact le_trans hfirst (ih (fun v hv => hpos v (List.mem_cons_of_mem w hv)) (b + w))

/-- A sum that has not been cut off is above what it began with. -/
theorem lt_foldl_add
    {ws : List Weight}
    {b : Weight}
    (hne : ws ≠ [])
    (hpos : ∀ w ∈ ws, 0 < w)
    (hbelow : (ws.foldl (· + ·) b).toInt < highest) :
    b < ws.foldl (· + ·) b := by
  cases ws with
  | nil => exact absurd rfl hne
  | cons w rest =>
    have hrest := le_foldl_add (fun v hv => hpos v (List.mem_cons_of_mem w hv)) (b + w)
    have hw : 0 < w.toInt := hpos w List.mem_cons_self
    have hb := b.lowest_le
    rw [List.foldl_cons] at hbelow ⊢
    rw [le_iff] at hrest
    rw [lt_iff]
    have hsum : (b + w).toInt < highest := Int.lt_of_le_of_lt hrest hbelow
    rw [toInt_add] at hrest hsum
    unfold clamp at hrest hsum
    omega

end Weight

namespace Chart

variable {g : Grammar} {s : Settings} {c : Chart} {heard tokens : List Token}
variable {t : Token} {u : ItemId} {x : CandidateId} {row : List (ItemId × Token)}

section Selecting

/-- Peers that weigh something make a chain heavier, unless it is saturated. -/
theorem total_lt_total
    {scoring : Scoring}
    {front : List (ItemId × Token)}
    (hfront : front <+: row)
    (hne : front ≠ row)
    (hpositive : ∀ e ∈ row, 0 < g.weigh scoring e.2)
    (hbelow : (g.total scoring row).toInt < Weight.highest) :
    g.total scoring front < g.total scoring row := by
  obtain ⟨back, rfl⟩ := hfront
  have hback : back ≠ [] := by
    rintro rfl
    exact hne (List.append_nil front).symm
  have htotal : g.total scoring (front ++ back) =
      (back.map fun e => g.weigh scoring e.2).foldl (· + ·) (g.total scoring front) := by
    rw [Grammar.total, List.map_append, List.foldl_append]
    rfl
  rw [htotal] at hbelow ⊢
  refine Weight.lt_foldl_add (by simpa using hback) (fun w hw => ?_) hbelow
  obtain ⟨e, he, rfl⟩ := List.mem_map.1 hw
  exact hpositive e (List.mem_append_right front he)

/-- Without separators and markers, what may be selected is a chain of the first peers. -/
theorem Strung.contender
    (h : Strung g s heard c)
    (hordinary : ∀ t ∈ heard, ∀ entry, g.named? t = some entry → entry.kind = .ordinary)
    {q : SymbolId}
    (hx : (q, x) ∈ c.contenders) :
    ∃ row u t, row ++ [(u, t)] <+: g.peers heard ∧ (c.item u).pool = [x] ∧
      c.Knot x (row ++ [(u, t)]) := by
  obtain ⟨u, hpresent, hsymbol, hpool, -⟩ := mem_contenders.1 hx
  have hlt : u.index < heard.length := h.size ▸ lt_size_of_present hpresent
  have hfound : heard[u.index]? = some heard[u.index] := List.getElem?_eq_getElem hlt
  have hvoices := (h.voices u _ hfound).symbol
  rw [h.grammar, hsymbol] at hvoices
  obtain ⟨entry, hentry, -⟩ := Option.map_eq_some_iff.1 hvoices.symm
  have hpeer : g.isPeer heard[u.index] = true := by
    rw [Grammar.isPeer, hentry, Option.any_some, decide_eq_true_eq]
    exact hordinary _ (List.getElem_mem hlt) entry hentry
  obtain ⟨row, back, hsplit⟩ := List.append_of_mem (Grammar.mem_peers.2 ⟨hfound, hpeer⟩)
  have hprefix : row ++ [(u, heard[u.index])] <+: g.peers heard := by
    rw [hsplit]
    exact ⟨back, by simp⟩
  obtain ⟨z, hz, hknot⟩ := h.knot row u _ hprefix
  have hxz : x = z := by
    rw [hz] at hpool
    exact List.mem_singleton.1 hpool
  exact ⟨row, u, _, hprefix, hxz ▸ hz, hxz ▸ hknot⟩

/--
The chain of all peers is selected, if each of them makes it heavier and one
covers something.
-/
theorem Strung.selected
    (h : Strung g s heard c)
    (hordinary : ∀ t ∈ heard, ∀ entry, g.named? t = some entry → entry.kind = .ordinary)
    (hpositive : ∀ e ∈ g.peers heard, 0 < g.weigh s.scoring e.2)
    (hbelow : (g.total s.scoring (g.peers heard)).toInt < Weight.highest)
    (hcovers : ∃ e ∈ g.peers heard, 0 < e.2.extent)
    (hpeers : g.peers heard = row ++ [(u, t)])
    (hpool : (c.item u).pool = [x])
    (hknot : c.Knot x (g.peers heard)) :
    c.select.1 = some x := by
  have hmem : (u, t) ∈ g.peers heard := by
    rw [hpeers]
    exact List.mem_append_right row (List.mem_singleton.2 rfl)
  obtain ⟨hfound, hpeer⟩ := Grammar.mem_peers.1 hmem
  obtain ⟨entry, hentry, -⟩ := (Option.any_eq_true _ _).1 hpeer
  have hsymbol : (c.item u).symbol = some entry.id := by
    rw [(h.voices u t hfound).symbol, h.grammar, hentry]
    rfl
  have hover : c.Over x u t := (hpeers ▸ hknot).covers_last
  have hcontender : (entry.id, x) ∈ c.contenders :=
    mem_contenders.2 ⟨u, hover.present, hsymbol, by rw [hpool]; exact List.mem_singleton.2 rfl,
      hknot.not_isEmpty hcovers⟩
  obtain ⟨⟨q, z⟩, hz, hselected, hheaviest⟩ := exists_selected hcontender
  have hle : (c.candidate x).weight ≤ (c.candidate z).weight := hheaviest _ hcontender
  obtain ⟨row', v, t', hprefix, hpool', hknot'⟩ := h.contender hordinary hz
  rw [hselected]
  by_cases hall : row' ++ [(v, t')] = g.peers heard
  · rw [hpeers] at hall
    obtain ⟨-, hlast⟩ := List.append_inj' hall rfl
    cases hlast
    rw [hpool] at hpool'
    cases hpool'
    rfl
  · have hlt := total_lt_total hprefix hall hpositive hbelow
    rw [hknot.weight, hknot'.weight, h.grammar, h.settings] at hle
    exact absurd hle (Int.not_le.2 hlt)

end Selecting

/--
In a positional chart of unlimited attempts and just enough room, tokens that stand
in order leave one candidate to the item of the last peer: the chain of all peers,
which covers their nonempty spans and weighs their saturated sum. With positive
weights, no saturation, no separators or markers, and at least one peer that covers
something, it is selected.
-/
theorem peers_are_chained
    {declaration : Declaration}
    {front : List (ItemId × Token)}
    (hbuilt : declaration.resolve = .ok g)
    (hkind : g.kind = .positional)
    (hs : Tireless s)
    (horder : tokens.Pairwise fun a b => a.stop ≤ b.position)
    (hplain : ∀ t ∈ tokens, ∀ entry, g.named? t = some entry → entry.composition = none)
    (hitems : (s.heard tokens).length ≤ s.itemCapacity)
    (hcandidates : g.stored (s.heard tokens) ≤ s.candidateCapacity)
    (hpeers : g.peers (s.heard tokens) = front ++ [(u, t)]) :
    ∃ x, (((new g s).feeds tokens).item u).pool = [x] ∧
      ((new g s).feeds tokens).Strand x ((u, t) :: front.reverse) ∧
      (((new g s).feeds tokens).candidate x).coverage.runs.map (fun a => (a.start, a.stop)) =
        spansOf (front ++ [(u, t)]) ∧
      (((new g s).feeds tokens).candidate x).weight = g.total s.scoring (front ++ [(u, t)]) ∧
      ((∀ e ∈ front ++ [(u, t)], 0 < g.weigh s.scoring e.2) →
        (g.total s.scoring (front ++ [(u, t)])).toInt < Weight.highest →
        (∀ t ∈ s.heard tokens, ∀ entry, g.named? t = some entry → entry.kind = .ordinary) →
        (∃ e ∈ front ++ [(u, t)], 0 < e.2.extent) →
        ((new g s).feeds tokens).select.1 = some x) := by
  have hfits : Affords g s ([] ++ s.heard tokens) :=
    { ordered := horder.sublist List.filter_sublist
      plain := fun t ht => hplain t (List.mem_filter.1 ht).1
      items := hitems
      candidates := hcandidates }
  have hstrung : Strung g s (s.heard tokens) ((new g s).feeds tokens) :=
    (strung_new g s).feeds hs hkind (Declaration.coherent_of_resolve hbuilt) hfits
  obtain ⟨x, hpool, hknot⟩ := hstrung.knot front u t (hpeers ▸ List.prefix_refl _)
  refine ⟨x, hpool, ?_, hknot.spans, ?_, fun hpositive hbelow hordinary hcovers => ?_⟩
  · have hstrand := hknot.strand
    rwa [List.reverse_append] at hstrand
  · rw [hknot.weight, hstrung.grammar, hstrung.settings]
  · rw [← hpeers] at hpositive hbelow hcovers hknot
    exact hstrung.selected hordinary hpositive hbelow hcovers hpeers hpool hknot

/-- A positional grammar of words and commas. -/
def wordDeclaration : Declaration :=
  { kind := .positional
    symbols := [{ name := "word" }, { name := "comma", kind := .separator }] }

theorem resolve_wordDeclaration :
    wordDeclaration.resolve = .ok wordDeclaration.built :=
  Declaration.resolve_eq_built (by decide +kernel)

/-- Two words with something unrecognized in between. -/
def twoWords : List Token :=
  [{ concept := 1, position := 0, extent := 1 },
    { concept := 0, position := 1, extent := 1 },
    { concept := 1, position := 3, extent := 2 }]

theorem peers_are_chained_sample :
    ∃ x, (((new wordDeclaration.built {}).feeds twoWords).item ⟨2⟩).pool = [x] ∧
      (((new wordDeclaration.built {}).feeds twoWords).candidate x).weight = .ofInt 9 ∧
      ((new wordDeclaration.built {}).feeds twoWords).select.1 = some x := by
  have hwords : ∀ t ∈ twoWords, ∀ entry, wordDeclaration.built.named? t = some entry →
      entry.composition = none ∧ entry.kind = .ordinary := by
    have hall : twoWords.all (fun t => (wordDeclaration.built.named? t).all fun entry =>
        entry.composition.isNone && decide (entry.kind = .ordinary)) = true := by
      decide +kernel
    intro t ht entry hentry
    have hboth := List.all_eq_true.1 hall t ht
    rw [hentry, Option.all_some, Bool.and_eq_true, Option.isNone_iff_eq_none,
      decide_eq_true_eq] at hboth
    exact hboth
  have hheard : Settings.heard {} twoWords = twoWords := by decide +kernel
  have horder : twoWords.Pairwise fun a b => a.stop ≤ b.position := by decide +kernel
  have hpeers : wordDeclaration.built.peers (Settings.heard {} twoWords) =
      [(⟨0⟩, { concept := 1, position := 0, extent := 1 })] ++
        [(⟨2⟩, { concept := 1, position := 3, extent := 2 })] := by decide +kernel
  obtain ⟨x, hpool, -, -, hweight, hselected⟩ := peers_are_chained resolve_wordDeclaration rfl
    ⟨rfl, by decide⟩ horder (fun t ht entry hentry => (hwords t ht entry hentry).1)
    (by decide +kernel) (by decide +kernel) hpeers
  refine ⟨x, hpool, hweight.trans (by decide +kernel), hselected (by decide +kernel)
    (by decide +kernel) (fun t ht entry hentry => ?_) (by decide +kernel)⟩
  rw [hheard] at ht
  exact (hwords t ht entry hentry).2

/-- Words of all extents weigh one. -/
def flatSettings : Settings :=
  { scoring := { exponent := 0 } }

/-- A word over nothing. -/
def emptyWord : Token :=
  { concept := 1, position := 0, extent := 0 }

/-- The only peer weighs one and is chained, but covers nothing, so it is not selected. -/
theorem empty_peer_is_passed_over :
    wordDeclaration.built.kind = .positional ∧ Tireless flatSettings ∧
      wordDeclaration.built.peers (flatSettings.heard [emptyWord]) = [(⟨0⟩, emptyWord)] ∧
      (wordDeclaration.built.named? emptyWord).all (fun entry => entry.composition.isNone) = true ∧
      0 < wordDeclaration.built.weigh flatSettings.scoring emptyWord ∧
      (wordDeclaration.built.total flatSettings.scoring [(⟨0⟩, emptyWord)]).toInt <
        Weight.highest ∧
      (((new wordDeclaration.built flatSettings).feeds [emptyWord]).item ⟨0⟩).pool = [⟨0⟩] ∧
      ((new wordDeclaration.built flatSettings).feeds [emptyWord]).select.1 = none := by
  refine ⟨rfl, ⟨rfl, by decide⟩, ?_, ?_, ?_, ?_, ?_, ?_⟩ <;> decide +kernel

end Chart

end BeamChart
