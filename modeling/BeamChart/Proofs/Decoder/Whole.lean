import BeamChart.Proofs.Decoder.Covering
import BeamChart.Proofs.PhraseTable.Sightings
import BeamChart.Proofs.PhraseTable.Whole

/-!
# Answers from a phrase table

A phrase that covers a whole input is looked for under the first position of a
chart in which the phrases of the input have been sighted. Only ordinary
symbols are posted there, so a phrase that stands for a separator or a marker
is not found, and the input is decoded as if this phrase did not cover it.

`decodeByTable_whole` says what is answered: the heaviest ordinary symbol that
the whole input is recorded for, the lowest one of equal weight; if there is
none, the parse of the phrases that were found.
-/

namespace BeamChart

namespace Decoder

section Answers

variable
  {c : Chart}
  {d : Decoder}
  {g q : Grammar}
  {settings : TableSettings}
  {table : PhraseTable}
  {radix : Nat}
  {offers : List Phrase}
  {first last : Token}
  {rest tokens : List Token}
  {t : Token}
  {id : SymbolId}
  {s : Symbol}

/-- A symbol that a phrase is answered with: it is meant by the phrase, and ordinary. -/
structure Eligible (g : Grammar) (meanings : List Meaning) (id : SymbolId) (s : Symbol) : Prop where
  meant : ∃ m ∈ meanings, m.symbol = id
  recognized : id ≠ unrecognized
  defined : g.symbol? id = some s
  ordinary : s.kind = .ordinary

/-- The meanings recorded for some atoms. -/
abbrev meaningsOver (radix : Nat) (offers : List Phrase) (atoms : List Token) : List Meaning :=
  recordedFor radix offers (atoms.map Token.concept)

/-- An ordinary token that is sighted over all atoms shows an eligible symbol. -/
theorem eligible_of_ordinary
    (hfollow : Follow (first :: rest))
    (hlast : (first :: rest).getLast? = some last)
    (ht : t ∈ sightings radix offers (first :: rest))
    (hposition : t.position = first.position)
    (hstop : t.stop = last.stop)
    (hordinary : Ordinary g t id s) :
    Eligible g (meaningsOver radix offers (first :: rest)) id s ∧
      t.sparse = false := by
  have hover := (mem_sightings_whole hfollow hlast (by simp [hordinary.recognized])).1
    ⟨ht, hposition, hstop⟩
  obtain ⟨m, hm, rfl⟩ := (mem_phrasesOver hlast).1 hover
  have hid := Token.eq_concept hordinary.recognized
  have hknown := Token.ne_unrecognized hordinary.recognized
  exact ⟨⟨⟨m, hm, hid.symm⟩, hknown, hordinary.defined, hordinary.ordinary⟩, rfl⟩

/-- An eligible symbol is shown by an ordinary token that is sighted over all atoms. -/
theorem exists_ordinary
    (hfollow : Follow (first :: rest))
    (hlast : (first :: rest).getLast? = some last)
    (h : Eligible g (meaningsOver radix offers (first :: rest)) id s) :
    ∃ t ∈ sightings radix offers (first :: rest),
      t.position = first.position ∧ t.stop = last.stop ∧ Ordinary g t id s := by
  obtain ⟨m, hm, rfl⟩ := h.meant
  let t : Token :=
    { concept := m.symbol
      position := first.position
      extent := last.stop - first.position
      context := m.context }
  have hsymbol : t.symbol? = some m.symbol := by
    simp [t, Token.symbol?, Option.filter, h.recognized]
  obtain ⟨hmem, hposition, hstop⟩ := (mem_sightings_whole hfollow hlast (t := t) (by simp [hsymbol])).2
    ((mem_phrasesOver hlast).2 ⟨m, hm, rfl⟩)
  exact ⟨t, hmem, hposition, hstop, hsymbol, h.defined, h.ordinary⟩

/-- What is found to cover all atoms is the leaf of an eligible symbol. -/
theorem eligible_of_mem_covering
    (h : Chart.Standing (sightings radix offers (first :: rest)) c)
    (hfollow : Follow (first :: rest))
    (hlast : (first :: rest).getLast? = some last)
    (hextent : ∀ a ∈ first :: rest, 0 < a.extent)
    {e : SymbolId × CandidateId}
    (he : e ∈ covering c first.position last.stop) :
    ∃ s, Eligible c.grammar (meaningsOver radix offers (first :: rest)) e.1 s ∧
      c.weightOf e.2 = (leafNode c.settings e.1 s first.position last.stop).weight ∧
      c.parse e.2 = .node (leafNode c.settings e.1 s first.position last.stop) [] := by
  obtain ⟨t, ht, s, u, hposition, hstop, hordinary, hdisplays, hleaf⟩ := of_mem_covering h he
  obtain ⟨heligible, hdense⟩ := eligible_of_ordinary hfollow hlast ht hposition hstop hordinary
  have hfirst := hextent first (by simp)
  have hle := hfollow.le_stop (List.mem_of_getLast? hlast)
  rw [← hposition, ← hstop]
  have hsize : t.stop - t.position = t.extent := by
    unfold Token.stop
    omega
  have hpositive : 0 < t.extent := by
    rw [← hsize, hposition, hstop]
    unfold Token.stop at hle ⊢
    omega
  refine ⟨s, heligible, ?_, parse_leaf hleaf hdisplays hordinary hdense hpositive⟩
  rw [weightOf_leaf hleaf hdense, leafNode, hsize]

/-- An eligible symbol is found to cover all atoms. -/
theorem exists_mem_covering_of_eligible
    (h : Chart.Standing (sightings radix offers (first :: rest)) c)
    (hfollow : Follow (first :: rest))
    (hlast : (first :: rest).getLast? = some last)
    (heligible : Eligible c.grammar (meaningsOver radix offers (first :: rest)) id s) :
    ∃ x, (id, x) ∈ covering c first.position last.stop := by
  obtain ⟨t, ht, hposition, hstop, hordinary⟩ := exists_ordinary hfollow hlast heligible
  obtain ⟨x, hx⟩ := exists_mem_covering h ht hordinary
  exact ⟨x, hposition ▸ hstop ▸ hx⟩

/-- Of two nodes the second is heavier, or as heavy and of no higher symbol. -/
def NodeYieldsTo (a b : Node) : Prop :=
  a.weight < b.weight ∨ (a.weight = b.weight ∧ b.symbol ≤ a.symbol)

/-- An eligible symbol whose leaf over an extent no other one's leaf is preferred to. -/
structure Wins
    (g : Grammar)
    (s : Settings)
    (meanings : List Meaning)
    (start stop : Nat)
    (id : SymbolId)
    (x : Symbol) : Prop where
  eligible : Eligible g meanings id x
  best : ∀ id' x', Eligible g meanings id' x' →
    NodeYieldsTo (leafNode s id' x' start stop) (leafNode s id x start stop)

/-- In a chart of the sightings a phrase over all atoms is found, if any symbol is eligible. -/
theorem wholePhrase?_cases
    (h : Chart.Standing (sightings radix offers (first :: rest)) c)
    (hfollow : Follow (first :: rest))
    (hlast : (first :: rest).getLast? = some last)
    (hextent : ∀ a ∈ first :: rest, 0 < a.extent) :
    ((∀ id s, ¬ Eligible c.grammar (meaningsOver radix offers (first :: rest)) id s) ∧
        wholePhrase? c (first :: rest) = none) ∨
      ∃ id s x,
        Wins c.grammar c.settings (meaningsOver radix offers (first :: rest))
          first.position last.stop id s ∧
        wholePhrase? c (first :: rest) = some x ∧
        c.parse x = .node (leafNode c.settings id s first.position last.stop) [] := by
  have hwhole : wholePhrase? c (first :: rest) =
      ((covering c first.position last.stop).foldl (preferLater c) none).map Prod.snd := by
    simp only [wholePhrase?, List.head?_cons, hlast]
  rcases preferred_cases c (covering c first.position last.stop) with
    ⟨hnone, hfold⟩ | ⟨r, hr, hfold, hyield⟩
  · left
    refine ⟨?_, by rw [hwhole, hfold, Option.map_none]⟩
    intro id s heligible
    obtain ⟨x, hx⟩ := exists_mem_covering_of_eligible h hfollow hlast heligible
    simp [hnone] at hx
  · right
    obtain ⟨s, heligible, hweight, hparse⟩ :=
      eligible_of_mem_covering h hfollow hlast hextent hr
    refine ⟨r.1, s, r.2, ⟨heligible, ?_⟩, by rw [hwhole, hfold, Option.map_some], hparse⟩
    intro id' s' heligible'
    obtain ⟨x', hx'⟩ := exists_mem_covering_of_eligible h hfollow hlast heligible'
    obtain ⟨s'', hsame, hweight', -⟩ := eligible_of_mem_covering h hfollow hlast hextent hx'
    obtain rfl : s'' = s' := Option.some.inj (hsame.defined.symm.trans heligible'.defined)
    have hyields := hyield _ hx'
    rw [YieldsTo, hweight, hweight'] at hyields
    exact hyields

/-- The phrases that a lookup found are the sighted tokens that have a symbol. -/
theorem phraseTokens_of_sights
    (h : d.emptyChart.Sights tokens c) :
    phraseTokens c = tokens.filter fun t => t.concept ≠ unrecognized := by
  obtain ⟨shown, hitems, hshows⟩ := h.items
  have hempty : d.emptyChart.items.toList = [] := rfl
  rw [phraseTokens, hitems, hempty, List.nil_append]
  clear hitems h
  induction hshows with
  | nil => rfl
  | @cons i t shown tokens hshow _ ih =>
    have hkept : (i.present && i.isRecognized) = decide (t.concept ≠ unrecognized) := by
      rw [hshow]
      by_cases hconcept : t.concept = unrecognized <;>
        simp [Item.shown, Item.isRecognized, Token.symbol?, Option.filter, hconcept]
    have htoken : i.toToken = t := by
      rw [hshow]
      rfl
    simp only [List.filter_cons, hkept]
    split
    · rw [List.map_cons, htoken, ih]
    · exact ih

/-- With room for all sightings, a lookup in an empty chart does not stop before the last one. -/
theorem lookup_of_room
    (h : PhraseTable.Holds d.grammar q settings offers table)
    (atoms : List Token)
    (hitems : (sightings q.size offers atoms).length ≤ d.settings.itemCapacity)
    (hcandidates : (sightings q.size offers atoms).length ≤ d.settings.candidateCapacity) :
    ∃ counts c, table.lookup atoms d.emptyChart = (.ok counts, c) ∧
      d.emptyChart.Sights (sightings q.size offers atoms) c := by
  obtain ⟨counts, c, hlookup, hfound⟩ := h.lookup_finds (c := d.emptyChart) rfl atoms
  refine ⟨counts, c, hlookup, ?_⟩
  rcases hfound with hsights | hstops
  · exact hsights.1
  · refine absurd hstops (Chart.not_stops_of_room ?_ ?_)
    · simpa [emptyChart, Chart.new, Chart.plainItems] using hitems
    · simpa [emptyChart, Chart.new] using hcandidates

/-- How a decoder answers some atoms whose whole has some meanings. -/
structure Answers
    (d : Decoder)
    (meanings : List Meaning)
    (start stop : Nat)
    (found : List Token)
    (answer : Decoded) : Prop where
  /-- The answer is a recorded phrase if some symbol is eligible. -/
  fromTable : answer.fromTable = true ↔ ∃ id s, Eligible d.grammar meanings id s
  /-- Then it is the one node of the symbol that wins, and nothing has been connected. -/
  whole : answer.fromTable = true →
    (∃ id s, Wins d.grammar d.settings meanings start stop id s ∧
      answer.solution = some (.node (leafNode d.settings id s start stop) [])) ∧
    answer.tally.connections = 0 ∧ answer.tally.attempts = 0
  /-- Else it is what the found phrases are decoded to. -/
  parts : answer.fromTable = false → answer.solution = (d.decode found).solution

/--
Atoms that follow one another are answered by the winner among the ordinary
symbols that they are recorded for as a whole, and else by the parse of the
phrases in them, if the charts have room for what is sighted.
-/
theorem decodeByTable_whole
    (hnew : PhraseTable.new d.grammar q settings = .ok table)
    (edits : List Edit)
    (htable : d.table = some (table.edited edits))
    (hoffers : edits.flatMap (Edit.offers d.grammar) = offers)
    (hfollow : Follow (first :: rest))
    (hextent : ∀ a ∈ first :: rest, 0 < a.extent)
    (hlast : (first :: rest).getLast? = some last)
    (hitems : (sightings q.size offers (first :: rest)).length ≤ d.settings.itemCapacity)
    (hcandidates :
      (sightings q.size offers (first :: rest)).length ≤ d.settings.candidateCapacity) :
    ∃ answer, d.decodeByTable (first :: rest) = .ok answer ∧
      Answers d (meaningsOver q.size offers (first :: rest)) first.position last.stop
        ((sightings q.size offers (first :: rest)).filter fun t => t.concept ≠ unrecognized)
        answer := by
  have hholds := PhraseTable.holds_edited hnew edits
  rw [hoffers] at hholds
  obtain ⟨counts, c, hlookup, hsights⟩ :=
    lookup_of_room hholds (first :: rest) hitems hcandidates
  have hgrammar : c.grammar = d.grammar := hsights.grammar
  have hsettings : c.settings = d.settings := hsights.settings
  have hcases := wholePhrase?_cases hsights.standing hfollow hlast hextent
  rw [hgrammar, hsettings] at hcases
  simp only [decodeByTable, htable, hlookup, List.isEmpty_cons, Bool.false_eq_true, if_false]
  rcases hcases with ⟨hnone, hwhole⟩ | ⟨id, s, x, hwins, hwhole, hparse⟩
  · rw [hwhole]
    refine ⟨_, rfl, ?_, ?_, ?_⟩
    · constructor
      · intro h
        cases h
      · rintro ⟨id, s, heligible⟩
        exact absurd heligible (hnone id s)
    · intro h
      cases h
    · intro _
      rw [decodePhrases, phraseTokens_of_sights hsights]
  · rw [hwhole]
    obtain ⟨n, m, hits, misses, htally⟩ := hsights.tally
    refine ⟨_, rfl, ?_, ?_, ?_⟩
    · exact ⟨fun _ => ⟨id, s, hwins.eligible⟩, fun _ => rfl⟩
    · exact fun _ => ⟨⟨id, s, hwins, by rw [hparse]⟩, by rw [htally]; rfl, by rw [htally]; rfl⟩
    · intro h
      cases h

end Answers

section Sample

open PhraseTable

/-- The letters "a" and "b", one behind the other. -/
def twoLetters : List Token :=
  [{ concept := 1, position := 0, extent := 1 }, { concept := 2, position := 1, extent := 1 }]

/-- A decoder of the words, with both of them recorded for the two letters. -/
def wordDecoder : Decoder :=
  { grammar := words
    table := some (wordTable.edited [.insert [1, 2] ⟨2, none⟩, .insert [1, 2] ⟨1, none⟩]) }

theorem decodeByTable_whole_sample :
    Follow twoLetters ∧ (∀ a ∈ twoLetters, 0 < a.extent) ∧
      twoLetters.getLast? = some { concept := 2, position := 1, extent := 1 } ∧
      ∃ answer, wordDecoder.decodeByTable twoLetters = .ok answer ∧
        Answers wordDecoder
          (meaningsOver letters.size [([1, 2], ⟨2, none⟩), ([1, 2], ⟨1, none⟩)] twoLetters) 0 2
          ((sightings letters.size [([1, 2], ⟨2, none⟩), ([1, 2], ⟨1, none⟩)] twoLetters).filter
            fun t => t.concept ≠ unrecognized)
          answer := by
  have hfollow : Follow twoLetters := ⟨by decide, by decide⟩
  have hextent : ∀ a ∈ twoLetters, 0 < a.extent := by decide
  have hcount : (sightings letters.size [([1, 2], ⟨2, none⟩), ([1, 2], ⟨1, none⟩)]
      twoLetters).length ≤ 3 := by
    rw [size_letters]
    decide
  refine ⟨hfollow, hextent, rfl, ?_⟩
  exact decodeByTable_whole new_wordTable [.insert [1, 2] ⟨2, none⟩, .insert [1, 2] ⟨1, none⟩]
    rfl rfl hfollow hextent rfl (Nat.le_trans hcount (by decide)) (Nat.le_trans hcount (by decide))

/-- A grammar of one separator. -/
def breaks : Grammar :=
  Declaration.built
    { serial := 2, name := "breaks", symbols := [{ name := "break", kind := .separator }] }

/-- A decoder with the separator recorded for the two letters. -/
def breakDecoder : Decoder :=
  { grammar := breaks
    table :=
      some (edited { grammar := breaks, provider := letters, settings := {} }
        [.insert [1, 2] ⟨1, none⟩]) }

/-- A separator is not answered with, although it is recorded for the whole input. -/
theorem decodeByTable_passes_separator :
    meaningsOver letters.size [([1, 2], ⟨1, none⟩)] twoLetters = [⟨1, none⟩] ∧
      (breaks.symbol? 1).isSome = true ∧
      (breakDecoder.decodeByTable twoLetters).toOption.map Decoded.fromTable = some false := by
  decide +kernel

end Sample

end Decoder

end BeamChart
