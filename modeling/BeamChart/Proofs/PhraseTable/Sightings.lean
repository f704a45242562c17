import BeamChart.Proofs.PhraseTable.Lookup
import BeamChart.Proofs.PhraseTable.Map

/-!
# A lookup sights what has been recorded

A lookup in a table that has been made and edited in any way brings the
sightings of its atoms into a chart, one after another, until the chart runs
out of room (`lookup_sights`). Nothing that the chart held before is changed
by it, and nothing is connected.
-/

namespace BeamChart

namespace Scan

variable {s s₁ : Scan} {atoms tokens : List Token}

/-- A reading goes from start to start and counts each of them, or it stops. -/
def FindsAll
    (s : Scan)
    (atoms tokens : List Token) : Except ChartError Unit × Scan → Prop
  | (.ok _, s₁) =>
    s.chart.Sights tokens s₁.chart ∧
      s₁.counts.items = s.counts.items + tokens.length ∧
      s₁.counts.hits + s₁.counts.misses =
        s.counts.hits + s.counts.misses + atoms.length
  | (.error e, s₁) => (∃ reserve, e = .exhausted reserve) ∧ s.chart.Stops tokens s₁.chart

/-- What is sighted from one start goes before what is sighted from the others. -/
theorem FindsAll.cons
    {more : List Token}
    {result : Except ChartError Unit × Scan}
    (hsights : s.chart.Sights tokens s₁.chart)
    (hitems : s₁.counts.items = s.counts.items + tokens.length)
    (hstart : s₁.counts.hits + s₁.counts.misses = s.counts.hits + s.counts.misses + 1)
    (h : s₁.FindsAll atoms more result)
    (first : Token) :
    s.FindsAll (first :: atoms) (tokens ++ more) result := by
  obtain ⟨outcome, s₂⟩ := result
  cases outcome with
  | ok _ =>
    obtain ⟨hrest, hcount, hstarts⟩ := h
    refine ⟨hsights.trans hrest, ?_, ?_⟩
    · rw [List.length_append]
      omega
    · rw [List.length_cons]
      omega
  | error e => exact ⟨h.1, hsights.stops h.2⟩

/-- What is sighted from a state with the same counts may be said of this one. -/
theorem FindsAll.of_sights_nil
    {result : Except ChartError Unit × Scan}
    (hsights : s.chart.Sights [] s₁.chart)
    (hitems : s₁.counts.items = s.counts.items)
    (hstarts : s₁.counts.hits + s₁.counts.misses = s.counts.hits + s.counts.misses)
    (h : s₁.FindsAll atoms tokens result) :
    s.FindsAll atoms tokens result := by
  obtain ⟨outcome, s₂⟩ := result
  cases outcome with
  | ok _ =>
    obtain ⟨hrest, hitems', hstarts'⟩ := h
    exact ⟨hsights.trans hrest, hitems ▸ hitems', hstarts ▸ hstarts'⟩
  | error e => exact ⟨h.1, hsights.stops h.2⟩

/-- A start that no phrase begins with is counted as a miss and sighted as a gap. -/
theorem placeGap_finds
    {more : List Token}
    {next : Scan → Except ChartError Unit × Scan}
    (hnext : ∀ s : Scan, s.FindsAll atoms more (next s))
    (s : Scan)
    (first : Token) :
    s.FindsAll (first :: atoms) ([gapOver first] ++ more)
      (match s.countMiss.place none (gapOver first) with
      | (.error e, s) => (.error e, s)
      | (.ok _, s) => next s) := by
  have hsymbol : (none : Option SymbolId).filter (fun s => s ≠ unrecognized) =
      (gapOver first).symbol? := rfl
  rcases s.countMiss.place_cases hsymbol with heq | ⟨reserve, c, heq, hcut⟩
  · rw [heq]
    have hgap : s.chart.Sights [gapOver first] (s.countMiss.chart.sight (gapOver first)) :=
      (sights_countMiss .none).sight (gapOver first)
    exact .cons hgap rfl rfl (hnext _) first
  · rw [heq]
    exact ⟨⟨reserve, rfl⟩, (sights_countMiss .none).stops (hcut.stops (gapOver first) _)⟩

end Scan

namespace PhraseTable

variable
  {g q : Grammar}
  {settings : TableSettings}
  {t : PhraseTable}
  {offers : List Phrase}

/-- Reading from each atom on sights what the atoms are sighted as. -/
theorem Holds.scanAll_finds
    (h : Holds g q settings offers t)
    (atoms : List Token)
    (s : Scan) :
    s.FindsAll atoms (sightings q.size offers atoms) (t.scanAll atoms s) := by
  induction atoms generalizing s with
  | nil => exact ⟨.none, by simp [sightings], by simp⟩
  | cons first rest ih =>
    have hscan := h.scan_finds first.position [] (first :: rest) (by simp)
      { s with hit := false }
    rw [← phrasesAt_cons] at hscan
    change Scan.Finds { s with hit := false } _
      (t.scan first.position {} (first :: rest) { s with hit := false }) at hscan
    unfold scanAll sightings
    generalize phrasesAt q.size offers (first :: rest) = phrases at hscan ⊢
    generalize t.scan first.position {} (first :: rest) _ = result at hscan ⊢
    obtain ⟨outcome, s₁⟩ := result
    cases outcome with
    | error e =>
      refine ⟨hscan.1, ?_⟩
      split
      · rename_i hnone
        subst hnone
        exact hscan.2.append _
      · exact hscan.2.append _
    | ok _ =>
      obtain ⟨hsights, hcounts⟩ := hscan
      have hhit := hcounts.hit
      have hhits := hcounts.hits
      dsimp only at hsights hhit hhits ⊢
      by_cases hnone : phrases = []
      · subst hnone
        have hmissed : s₁.hit = false := by simpa using hhit
        have hstarts : s₁.counts.hits + s₁.counts.misses = s.counts.hits + s.counts.misses := by
          rw [hmissed] at hhits
          rw [Nat.add_right_cancel hhits, hcounts.misses]
        rw [if_pos rfl, hmissed]
        exact .of_sights_nil hsights hcounts.items hstarts (Scan.placeGap_finds ih s₁ first)
      · have hfound : s₁.hit = true := by simp [hhit, hnone]
        rw [if_pos hfound, if_neg hnone]
        refine .cons hsights hcounts.items ?_ (ih s₁) first
        have hmisses := hcounts.misses
        simp only [hfound, Bool.toNat_true, Bool.toNat_false] at hhits
        dsimp only at hmisses
        omega

/-- A lookup in a chart of the grammar is never an error; it ends or stops. -/
theorem Holds.lookup_finds
    (h : Holds g q settings offers t)
    {c : Chart}
    (hserial : c.grammar.serial = g.serial)
    (atoms : List Token) :
    ∃ counts c', t.lookup atoms c = (.ok counts, c') ∧
      (c.Sights (sightings q.size offers atoms) c' ∧
          counts.hits + counts.misses = atoms.length ∧
          counts.items = (sightings q.size offers atoms).length ∨
        c.Stops (sightings q.size offers atoms) c') := by
  have hscan := h.scanAll_finds atoms { chart := c }
  have hsame : ¬ c.grammar.serial ≠ t.grammar.serial := by
    rw [h.grammar, hserial]
    simp
  rw [lookup, if_neg hsame]
  generalize t.scanAll atoms { chart := c } = result at hscan ⊢
  obtain ⟨outcome, s⟩ := result
  cases outcome with
  | ok _ =>
    obtain ⟨hsights, hitems, hstarts⟩ := hscan
    exact ⟨s.counts, s.chart, rfl, Or.inl ⟨hsights, by simpa using hstarts, by simpa using hitems⟩⟩
  | error e =>
    obtain ⟨⟨reserve, rfl⟩, hstops⟩ := hscan
    exact ⟨s.counts, s.chart, rfl, Or.inr hstops⟩

/-- What the lookup of some atoms, sighted as some tokens, leaves in a chart. -/
structure LooksUp
    (c : Chart)
    (atoms tokens : List Token)
    (counts : LookupCount)
    (c' : Chart) : Prop where
  /-- Behind the earlier items, the posted ones show the tokens in order, as far as they go. -/
  items : ∃ added done, c'.items.toList = c.items.toList ++ added ∧ done <+: tokens ∧
    List.Forall₂ Item.Shows (added.filter fun i => i.present && i.registered) done
  /-- If nothing has been refused, all tokens are shown and all starts counted. -/
  whole : c'.tally.refusals = c.tally.refusals →
    (∃ added, c'.items.toList = c.items.toList ++ added ∧ List.Forall₂ Item.Shows added tokens) ∧
      counts.hits + counts.misses = atoms.length ∧ counts.items = tokens.length
  connections : c'.tally.connections = c.tally.connections
  attempts : c'.tally.attempts = c.tally.attempts

/-- What is shown is posted. -/
theorem filter_of_shows
    {shown : List Item}
    {tokens : List Token}
    (h : List.Forall₂ Item.Shows shown tokens) :
    (shown.filter fun i => i.present && i.registered) = shown := by
  induction h with
  | nil => rfl
  | @cons i t shown tokens hshows _ ih =>
    have hposted : (i.present && i.registered) = true := by
      rw [hshows]
      rfl
    rw [List.filter_cons, if_pos hposted, ih]

theorem looksUp_of_sights
    {c c' : Chart}
    {atoms tokens : List Token}
    {counts : LookupCount}
    (h : c.Sights tokens c')
    (hstarts : counts.hits + counts.misses = atoms.length)
    (hitems : counts.items = tokens.length) :
    LooksUp c atoms tokens counts c' := by
  obtain ⟨shown, hadded, hshows⟩ := h.items
  obtain ⟨n, m, hits, misses, htally⟩ := h.tally
  exact
    { items := ⟨shown, tokens, hadded, List.prefix_rfl, by rwa [filter_of_shows hshows]⟩
      whole := fun _ => ⟨⟨shown, hadded, hshows⟩, hstarts, hitems⟩
      connections := by rw [htally]
      attempts := by rw [htally] }

theorem looksUp_of_stops
    {c c' : Chart}
    {tokens : List Token}
    (h : c.Stops tokens c')
    (atoms : List Token)
    (counts : LookupCount) :
    LooksUp c atoms tokens counts c' := by
  obtain ⟨done, t, rest, d, rfl, hsights, hcut⟩ := h
  obtain ⟨shown, hadded, hshows⟩ := hsights.items
  obtain ⟨hidden, hbehind, hhidden⟩ := hcut.items
  obtain ⟨n, m, hits, misses, htally⟩ := hsights.tally
  obtain ⟨hrefusals, hconnections, hattempts⟩ := hcut.tally
  have hnone : (hidden.filter fun i => i.present && i.registered) = [] := by
    rw [List.filter_eq_nil_iff]
    intro i hi
    simp [hhidden i hi]
  exact
    { items := by
        refine ⟨shown ++ hidden, done, by rw [hbehind, hadded, List.append_assoc],
          List.prefix_append _ _, ?_⟩
        rwa [List.filter_append, hnone, List.append_nil, filter_of_shows hshows]
      whole := by
        intro hsame
        rw [hrefusals, htally] at hsame
        simp at hsame
      connections := by rw [hconnections, htally]
      attempts := by rw [hattempts, htally] }

/--
A lookup brings the sightings of its atoms into a chart of the grammar, whatever
the chart holds and however the table has been filled.
-/
theorem lookup_sights
    (hnew : PhraseTable.new g q settings = .ok t)
    (edits : List Edit)
    {c : Chart}
    (hserial : c.grammar.serial = g.serial)
    (atoms : List Token) :
    ∃ counts c', (t.edited edits).lookup atoms c = (.ok counts, c') ∧
      LooksUp c atoms (sightings q.size (edits.flatMap (Edit.offers g)) atoms) counts c' := by
  obtain ⟨counts, c', heq, hwhole | hstops⟩ := (holds_edited hnew edits).lookup_finds hserial atoms
  · exact ⟨counts, c', heq, looksUp_of_sights hwhole.1 hwhole.2.1 hwhole.2.2⟩
  · exact ⟨counts, c', heq, looksUp_of_stops hstops atoms counts⟩

theorem lookup_sights_sample :
    PhraseTable.new words letters {} = .ok wordTable ∧
      (Chart.new words {}).grammar.serial = words.serial ∧
      ∃ counts c', (wordTable.edited [.recordPhrases spell]).lookup (spell "abab") (.new words {}) =
          (.ok counts, c') ∧
        LooksUp (.new words {}) (spell "abab")
          (sightings letters.size ([.recordPhrases spell].flatMap (Edit.offers words))
            (spell "abab")) counts c' :=
  ⟨new_wordTable, rfl, lookup_sights new_wordTable [.recordPhrases spell] rfl (spell "abab")⟩

/-- A gap stands where no phrase begins, and a longer phrase behind the shorter one. -/
example :
    sightings 3 [([1, 2], ⟨1, none⟩), ([1, 2, 1], ⟨2, some ⟨4⟩⟩)]
        [⟨1, 0, 1, false, none⟩, ⟨2, 1, 1, false, none⟩, ⟨1, 2, 2, false, none⟩] =
      [⟨1, 0, 2, false, none⟩, ⟨2, 0, 4, false, some ⟨4⟩⟩, ⟨0, 1, 1, false, none⟩,
        ⟨0, 2, 2, false, none⟩] := by
  decide

end PhraseTable

end BeamChart
