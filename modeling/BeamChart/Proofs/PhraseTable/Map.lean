import BeamChart.Proofs.Chart.Run
import BeamChart.Proofs.PhraseTable.Record

/-!
# A phrase table is a finite map

However a table has been filled, what it answers depends on the offers alone:
it is the finite map from spelled sequences to the lists of distinct meanings
offered for them (`IsMap`). Sequences that are shorter than an address share
the matrix with longer ones, but never an entry.
-/

namespace BeamChart

namespace PhraseTable

variable
  {g q : Grammar}
  {s : TableSettings}
  {t : PhraseTable}
  {offers : List Phrase}

/-- A table of a grammar and a provider is the finite map that some offers describe. -/
structure IsMap
    (g q : Grammar)
    (offers : List Phrase)
    (t : PhraseTable) : Prop where
  /-- The distinct meanings offered for a sequence are found, the first offer first. -/
  get : ∀ ids, Spelled q.size ids → t.get ids = meaningsFor offers ids
  /-- A phrase is taken if its sequence is spelled and it has not been offered before. -/
  insert : ∀ ids m, (t.insert? ids m).isSome ↔ Spelled q.size ids ∧ (ids, m) ∉ offers
  /--
  The meanings of other sequences stay as they are. This speaks of sequences without the
  unrecognized symbol only: at the end of a sequence it reads like a symbol that is missing.
  -/
  get_insert : ∀ ids m other, other ≠ ids → unrecognized ∉ other →
    ((Edit.insert ids m).apply t).get other = t.get other
  phraseCount : t.phraseCount = (spelledOffers q.size offers).eraseDups.length
  sequenceCount :
    t.sequenceCount = ((spelledOffers q.size offers).map Prod.fst).eraseDups.length
  /-- Declared phrases are counted as far as they are new. -/
  recordPhrases : ∀ recognize,
    (t.recordPhrases recognize).1 + (spelledOffers q.size offers).eraseDups.length =
      (spelledOffers q.size
        (offers ++ recognizedPhrases g recognize)).eraseDups.length
  /-- Recording declared phrases once more finds nothing new. -/
  recordPhrases_again : ∀ recognize,
    (t.recordPhrases recognize).2.recordPhrases recognize =
      (0, (t.recordPhrases recognize).2)

theorem Holds.get_eq
    (h : Holds g q s offers t)
    {ids : List SymbolId}
    (hids : Spelled q.size ids) :
    t.get ids = meaningsFor offers ids := by
  have hnonempty : ids.isEmpty = false := by simp [hids.1]
  have hbelow : (ids.any fun id => t.radix ≤ id) = false := by
    simpa [h.radix] using fun id hid => (hids.2 id hid).2
  rw [get, hnonempty, hbelow, ← h.meanings ids hids]
  rfl

/-- A sequence without zeros that is not spelled has no meanings. -/
theorem Holds.get_of_not_spelled
    (h : Holds g q s offers t)
    {ids : List SymbolId}
    (hzero : unrecognized ∉ ids)
    (hids : ¬ Spelled q.size ids) :
    t.get ids = [] := by
  have hout : (ids.isEmpty || ids.any fun id => t.radix ≤ id) = true := by
    rw [Spelled, ← h.radix] at hids
    by_contra hin
    simp only [Bool.or_eq_true, List.isEmpty_iff, List.any_eq_true, decide_eq_true_eq,
      not_or, not_exists, not_and] at hin
    refine hids ⟨hin.1, fun id hid => ⟨Nat.pos_of_ne_zero ?_, Nat.lt_of_not_le (hin.2 id hid)⟩⟩
    rintro rfl
    exact hzero hid
  rw [get, if_pos hout]

theorem Holds.isMap
    (h : Holds g q s offers t) :
    IsMap g q offers t :=
  { get := fun ids hids => h.get_eq hids
    insert := by
      intro ids m
      rw [h.insert?_eq]
      split <;> simp_all
    get_insert := by
      intro ids m other hne hzero
      have hafter := h.apply (.insert ids m)
      by_cases hother : Spelled q.size other
      · rw [hafter.get_eq hother, h.get_eq hother, Edit.offers,
          meaningsFor_append_of_old (Or.inr (Ne.symm hne))]
      · rw [hafter.get_of_not_spelled hzero hother, h.get_of_not_spelled hzero hother]
    phraseCount := h.phraseCount
    sequenceCount := h.sequenceCount
    recordPhrases := by
      intro recognize
      obtain ⟨hafter, hcount⟩ := h.foldl_offer 0 (recognizedPhrases g recognize)
      rw [recordPhrases_eq, h.grammar, ← hafter.phraseCount, ← h.phraseCount]
      omega
    recordPhrases_again := by
      intro recognize
      have hafter : Holds g q s (offers ++ recognizedPhrases g recognize)
          (t.recordPhrases recognize).2 :=
        h.apply (.recordPhrases recognize)
      have hagain := hafter.foldl_offer_of_old 0
        fun p (hp : p ∈ recognizedPhrases g recognize) => by simp [hp]
      rw [recordPhrases_eq (t.recordPhrases recognize).2, hafter.grammar]
      exact hagain }

/-- A table that has just been made and then edited is the finite map of the offers. -/
theorem edited_isMap
    (hnew : PhraseTable.new g q s = .ok t)
    (edits : List Edit) :
    IsMap g q (edits.flatMap (Edit.offers g)) (t.edited edits) :=
  (holds_edited hnew edits).isMap

section Sample

/-- The provider of two letters. -/
def letters : Grammar :=
  Declaration.built { name := "letters", symbols := [{ name := "a" }, { name := "b" }] }

/-- Two symbols with one phrase each. -/
def words : Grammar :=
  Declaration.built
    { serial := 1
      name := "words"
      symbols :=
        [{ name := "X", phrases := [("ab", none)] },
          { name := "Y", phrases := [("abab", some ⟨4⟩)] }] }

/-- A table for the words before anything is recorded. -/
def wordTable : PhraseTable :=
  { grammar := words, provider := letters, settings := {} }

theorem size_letters : letters.size = 3 := by decide +kernel

theorem new_wordTable : PhraseTable.new words letters {} = .ok wordTable := by
  unfold PhraseTable.new
  rw [size_letters]
  rfl

/-- Reads letters one by one. -/
def spell (text : String) : List Token :=
  text.toList.zipIdx.map fun e =>
    { concept := (letters.lookup? (String.singleton e.1)).getD unrecognized
      position := e.2
      extent := 1 }

theorem edited_isMap_sample :
    PhraseTable.new words letters {} = .ok wordTable ∧
      IsMap words letters
        ([.recordPhrases spell, .insert [1, 2] ⟨2, none⟩].flatMap (Edit.offers words))
        (wordTable.edited [.recordPhrases spell, .insert [1, 2] ⟨2, none⟩]) :=
  ⟨new_wordTable, edited_isMap new_wordTable _⟩

end Sample

end PhraseTable

end BeamChart
