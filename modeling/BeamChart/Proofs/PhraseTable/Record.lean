import BeamChart.PhraseTable.Basic
import BeamChart.Proofs.PhraseTable.Address

/-!
# What a phrase table has recorded

A table is edited by single phrases and by whole lists of declared phrases.
Either way it is offered phrases one by one, in an order that does not depend
on the table (`Edit.offers`). The offers alone tell what can be read from it:
under a spelled sequence stand the distinct meanings offered for it, in the
order of their first offer (`meaningsFor`).

`Holds` relates a table to the offers made to it, `Holds.offer` is the step
over one offer, and `holds_edited` the run over all edits.
-/

namespace BeamChart

section Distinct

variable {α : Type} [BEq α] [LawfulBEq α] {l : List α} {a : α}

/-- An element that is there already does not change the distinct ones. -/
theorem eraseDups_append_of_mem
    (h : a ∈ l) :
    (l ++ [a]).eraseDups = l.eraseDups := by
  simp [List.eraseDups_append, List.removeAll, h]

/-- A new element stands behind the distinct ones. -/
theorem eraseDups_append_of_not_mem
    (h : a ∉ l) :
    (l ++ [a]).eraseDups = l.eraseDups ++ [a] := by
  simp [List.eraseDups_append, List.removeAll, h, List.eraseDups_cons]

end Distinct

/-- A sequence of ids with a meaning that it has. -/
abbrev Phrase := List SymbolId × Meaning

/-- The distinct meanings offered for a sequence, the first offer first. -/
def meaningsFor (offers : List Phrase) (ids : List SymbolId) : List Meaning :=
  ((offers.filter fun p => p.1 = ids).map Prod.snd).eraseDups

/-- The offers that can be recorded. -/
def spelledOffers (radix : Nat) (offers : List Phrase) : List Phrase :=
  offers.filter fun p => Spelled radix p.1

/-- The meanings recorded for a sequence: those offered for it, if it can be recorded. -/
def recordedFor (radix : Nat) (offers : List Phrase) (ids : List SymbolId) : List Meaning :=
  if Spelled radix ids then meaningsFor offers ids else []

section Offers

variable {offers : List Phrase} {ids : List SymbolId} {m : Meaning} {radix : Nat} {p : Phrase}

@[simp] theorem mem_meaningsFor :
    m ∈ meaningsFor offers ids ↔ (ids, m) ∈ offers := by
  simp [meaningsFor]

theorem meaningsFor_eq_nil_iff :
    meaningsFor offers ids = [] ↔ ∀ m, (ids, m) ∉ offers := by
  simp [List.eq_nil_iff_forall_not_mem]

/-- A new phrase adds its meaning behind the others of its sequence. -/
theorem meaningsFor_append_self
    (h : p ∉ offers) :
    meaningsFor (offers ++ [p]) p.1 = meaningsFor offers p.1 ++ [p.2] := by
  have hnew : p.2 ∉ (offers.filter fun q => q.1 = p.1).map Prod.snd := by
    rintro hmem
    obtain ⟨q, hq, hsnd⟩ := List.mem_map.1 hmem
    obtain ⟨hq, hfst⟩ := List.mem_filter.1 hq
    exact h (Prod.ext (of_decide_eq_true hfst) hsnd ▸ hq)
  simp [meaningsFor, eraseDups_append_of_not_mem hnew]

/-- A phrase offered again, or offered for another sequence, adds nothing. -/
theorem meaningsFor_append_of_old
    (h : p ∈ offers ∨ p.1 ≠ ids) :
    meaningsFor (offers ++ [p]) ids = meaningsFor offers ids := by
  by_cases hids : p.1 = ids
  · subst hids
    have hold : p.2 ∈ (offers.filter fun q => q.1 = p.1).map Prod.snd := by
      simp_all
    simp [meaningsFor, eraseDups_append_of_mem hold]
  · simp [meaningsFor, hids]

@[simp] theorem mem_spelledOffers :
    p ∈ spelledOffers radix offers ↔ p ∈ offers ∧ Spelled radix p.1 := by
  simp [spelledOffers]

theorem spelledOffers_append_of_spelled
    (h : Spelled radix p.1) :
    spelledOffers radix (offers ++ [p]) = spelledOffers radix offers ++ [p] := by
  simp [spelledOffers, h]

theorem spelledOffers_append_of_not_spelled
    (h : ¬ Spelled radix p.1) :
    spelledOffers radix (offers ++ [p]) = spelledOffers radix offers := by
  simp [spelledOffers, h]

/-- A sequence has meanings if it is among those that have been recorded. -/
theorem mem_map_spelledOffers
    (h : Spelled radix ids) :
    ids ∈ (spelledOffers radix offers).map Prod.fst ↔ meaningsFor offers ids ≠ [] := by
  rw [Ne, meaningsFor_eq_nil_iff]
  simp [h]

end Offers

@[simp] theorem Tail.ids_extend (ids : List SymbolId) (m : Meaning) (e : Tail) :
    (e.extend ids m).ids = e.ids := by
  unfold extend
  split <;> rfl

namespace Cell

variable {c : Cell} {ids other : List SymbolId} {m : Meaning}

/-- An entry of a tail is changed in its place. -/
theorem find?_add_of_some
    {e : Tail}
    (h : c.find? ids = some e)
    (other : List SymbolId) :
    (c.add ids m).find? other = (c.find? other).map (Tail.extend ids m) := by
  simp only [add, h]
  simp only [find?, List.find?_map, Function.comp_def, Tail.ids_extend]

/-- The entry of a new tail stands behind all others. -/
theorem find?_add_of_none
    (h : c.find? ids = none)
    (other : List SymbolId) :
    (c.add ids m).find? other =
      (c.find? other).or (if ids = other then some ⟨ids, [m]⟩ else none) := by
  simp only [add, h]
  by_cases heq : ids = other <;> simp [find?, List.find?_append, heq]

/-- No tail is longer than the reach, and none is without meanings. -/
structure Formed (c : Cell) : Prop where
  within : ∀ e ∈ c.tails, e.ids.length ≤ c.reach
  meant : ∀ e ∈ c.tails, e.meanings ≠ []

theorem formed_empty : Formed {} :=
  ⟨by simp, by simp⟩

/-- A tail beyond the reach has no meanings. -/
theorem Formed.meanings_of_reach_lt
    (h : c.Formed)
    (hlt : c.reach < ids.length) :
    c.meanings ids = [] := by
  unfold meanings find?
  split
  · rename_i e heq
    have hids : e.ids = ids := by simpa using List.find?_some heq
    have := h.within e (List.mem_of_find?_eq_some heq)
    simp [hids] at this
    omega
  · rfl

/-- An entry has meanings. -/
theorem Formed.isSome_find?
    (h : c.Formed)
    (ids : List SymbolId) :
    (c.find? ids).isSome ↔ c.meanings ids ≠ [] := by
  unfold meanings
  cases heq : c.find? ids with
  | none => simp
  | some e => simpa using h.meant e (List.mem_of_find?_eq_some heq)

theorem Formed.add
    (h : c.Formed)
    (ids : List SymbolId)
    (m : Meaning) :
    (c.add ids m).Formed := by
  unfold Cell.add
  split
  · constructor
    · intro e he
      obtain ⟨e, hmem, rfl⟩ := List.mem_map.1 he
      simpa using h.within e hmem
    · intro e he
      obtain ⟨e, hmem, rfl⟩ := List.mem_map.1 he
      unfold Tail.extend
      split
      · simp
      · exact h.meant e hmem
  · constructor
    · intro e he
      rcases List.mem_append.1 he with hold | hnew
      · exact Nat.le_trans (h.within e hold) (Nat.le_max_left ..)
      · obtain rfl := List.mem_singleton.1 hnew
        exact Nat.le_max_right ..
    · intro e he
      rcases List.mem_append.1 he with hold | hnew
      · exact h.meant e hold
      · obtain rfl := List.mem_singleton.1 hnew
        simp

/-- A meaning goes to its tail, behind the others there, and to no other tail. -/
theorem meanings_add
    (c : Cell)
    (ids : List SymbolId)
    (m : Meaning)
    (other : List SymbolId) :
    (c.add ids m).meanings other =
      if other = ids then c.meanings ids ++ [m] else c.meanings other := by
  cases hfind : c.find? ids with
  | some e =>
    cases hentry : c.find? other with
    | none =>
      have hne : other ≠ ids := by
        rintro rfl
        simp [hfind] at hentry
      simp [meanings, find?_add_of_some hfind, hentry, hne]
    | some d =>
      have hd : d.ids = other := by simpa using List.find?_some hentry
      by_cases heq : other = ids
      · subst heq
        simp [meanings, find?_add_of_some hfind, hentry, Tail.extend, hd]
      · simp [meanings, find?_add_of_some hfind, hentry, Tail.extend, hd, heq]
  | none =>
    by_cases heq : other = ids
    · subst heq
      simp [meanings, find?_add_of_none hfind, hfind]
    · cases hentry : c.find? other <;>
        simp [meanings, find?_add_of_none hfind, hentry, heq, Ne.symm heq]

end Cell

/-- What a table can be asked to record. -/
inductive Edit where
  | insert (ids : List SymbolId) (m : Meaning)
  | recordPhrases (recognize : String → List Token)

/-- The phrase that a declared text stands for, if every part of it is recognized. -/
def recognized?
    (recognize : String → List Token)
    (phrase : SymbolId × String × Option ContextId) : Option Phrase :=
  let tokens := recognize phrase.2.1
  if tokens.isEmpty || tokens.any fun t => t.concept = unrecognized then none
  else some (tokens.map Token.concept, ⟨phrase.1, phrase.2.2⟩)

/-- The phrases that a grammar declares, as they are recognized. -/
def recognizedPhrases (g : Grammar) (recognize : String → List Token) : List Phrase :=
  g.phrases.filterMap (recognized? recognize)

namespace Edit

/-- The table after an edit, done or refused. -/
def apply (t : PhraseTable) : Edit → PhraseTable
  | insert ids m => (t.insert? ids m).getD t
  | recordPhrases recognize => (t.recordPhrases recognize).2

/-- The phrases that an edit offers to a table of the grammar. -/
def offers (g : Grammar) : Edit → List Phrase
  | insert ids m => [(ids, m)]
  | recordPhrases recognize => recognizedPhrases g recognize

end Edit

namespace PhraseTable

/-- The table after some edits. -/
def edited (t : PhraseTable) (edits : List Edit) : PhraseTable :=
  edits.foldl Edit.apply t

/-- Records one phrase, if it is new, and counts it. -/
def offer (acc : Nat × PhraseTable) (p : Phrase) : Nat × PhraseTable :=
  match acc.2.insert? p.1 p.2 with
  | some t => (acc.1 + 1, t)
  | none => acc

/-- What a table of a grammar and a provider knows of the phrases offered to it. -/
structure Holds
    (g q : Grammar)
    (s : TableSettings)
    (offers : List Phrase)
    (t : PhraseTable) : Prop where
  grammar : t.grammar = g
  provider : t.provider = q
  settings : t.settings = s
  meanings : ∀ ids, Spelled q.size ids →
    (t.cell (t.addressOf ids)).meanings (ids.drop t.depth) = meaningsFor offers ids
  formed : ∀ a, (t.cell a).Formed
  phraseCount : t.phraseCount = (spelledOffers q.size offers).eraseDups.length
  sequenceCount :
    t.sequenceCount = ((spelledOffers q.size offers).map Prod.fst).eraseDups.length

variable
  {g q : Grammar}
  {s : TableSettings}
  {t t' : PhraseTable}
  {offers : List Phrase}
  {ids : List SymbolId}
  {m : Meaning}
  {p : Phrase}

@[simp] theorem Holds.radix
    (h : Holds g q s offers t) :
    t.radix = q.size :=
  congrArg Grammar.size h.provider

@[simp] theorem depth_record (t : PhraseTable) (ids : List SymbolId) (m : Meaning) :
    (t.record ids m).depth = t.depth := rfl

@[simp] theorem addressOf_record
    (t : PhraseTable)
    (ids : List SymbolId)
    (m : Meaning)
    (other : List SymbolId) :
    (t.record ids m).addressOf other = t.addressOf other := rfl

theorem cell_record (t : PhraseTable) (ids : List SymbolId) (m : Meaning) (a : Nat) :
    (t.record ids m).cell a =
      if a = t.addressOf ids then (t.cell a).add (ids.drop t.depth) m else t.cell a := by
  unfold record cell setCell
  dsimp only
  split <;> simp_all

theorem accepts_iff {id : Nat} :
    t.accepts id = true ↔ 0 < id ∧ id < t.radix := by
  rw [accepts, Bool.and_eq_true, decide_eq_true_eq, decide_eq_true_eq, unrecognized,
    Nat.pos_iff_ne_zero]

theorem insert?_eq (t : PhraseTable) (ids : List SymbolId) (m : Meaning) :
    t.insert? ids m =
      if Spelled t.radix ids ∧ m ∉ (t.cell (t.addressOf ids)).meanings (ids.drop t.depth) then
        some (t.record ids m)
      else none := by
  have hspelled : (ids.isEmpty || !ids.all t.accepts) = true ↔ ¬ Spelled t.radix ids := by
    have hall : ids.all t.accepts = true ↔ ∀ id : Nat, id ∈ ids → 0 < id ∧ id < t.radix := by
      simp [accepts_iff]
    rw [Spelled, ← hall]
    cases ids.all t.accepts <;> simp
  unfold insert?
  by_cases h : Spelled t.radix ids <;> simp_all

/-- A table that has just been made is empty. -/
theorem eq_of_new
    (h : PhraseTable.new g q s = .ok t) :
    t = { grammar := g, provider := q, settings := s } := by
  unfold PhraseTable.new at h
  split at h
  · cases h
  · split at h
    · cases h
    · split at h
      · cases h
      · split at h
        · cases h
        · exact (Except.ok.inj h).symm

theorem holds_new
    (h : PhraseTable.new g q s = .ok t) :
    Holds g q s [] t := by
  rw [eq_of_new h]
  exact
    { grammar := rfl
      provider := rfl
      settings := rfl
      meanings := by intro ids _; rfl
      formed := fun a => Cell.formed_empty
      phraseCount := rfl
      sequenceCount := rfl }

/-- A phrase is recorded if it is spelled and has not been offered before. -/
theorem Holds.insert?_eq
    (h : Holds g q s offers t)
    (ids : List SymbolId)
    (m : Meaning) :
    t.insert? ids m =
      if Spelled q.size ids ∧ (ids, m) ∉ offers then some (t.record ids m) else none := by
  rw [PhraseTable.insert?_eq, h.radix]
  by_cases hspelled : Spelled q.size ids <;> simp [hspelled, h.meanings ids]

/-- A phrase that cannot be recorded, or is known, adds nothing that is distinct. -/
theorem eraseDups_map_spelledOffers
    {α : Type}
    [BEq α]
    [LawfulBEq α]
    {radix : Nat}
    (h : ¬ (Spelled radix p.1 ∧ p ∉ offers))
    (f : Phrase → α) :
    ((spelledOffers radix (offers ++ [p])).map f).eraseDups =
      ((spelledOffers radix offers).map f).eraseDups := by
  by_cases hspelled : Spelled radix p.1
  · have hmem : f p ∈ (spelledOffers radix offers).map f :=
      List.mem_map_of_mem (by simp_all)
    simp [spelledOffers_append_of_spelled hspelled, eraseDups_append_of_mem hmem]
  · rw [spelledOffers_append_of_not_spelled hspelled]

/-- An offer that is refused leaves what the table holds. -/
theorem Holds.refuse
    (h : Holds g q s offers t)
    (hold : ¬ (Spelled q.size p.1 ∧ p ∉ offers)) :
    Holds g q s (offers ++ [p]) t :=
  { h with
    meanings := by
      intro ids hids
      rw [h.meanings ids hids, meaningsFor_append_of_old]
      by_cases heq : p.1 = ids
      · left
        simp_all
      · exact Or.inr heq
    phraseCount := by
      have hsame := eraseDups_map_spelledOffers hold id
      simp only [List.map_id] at hsame
      rw [h.phraseCount, hsame]
    sequenceCount := by rw [h.sequenceCount, eraseDups_map_spelledOffers hold] }

/-- The entries of two spelled sequences stand apart. -/
theorem Holds.meanings_record
    (h : Holds g q s offers t)
    (hids : Spelled q.size ids)
    {other : List SymbolId}
    (hother : Spelled q.size other)
    (m : Meaning) :
    ((t.record ids m).cell (t.addressOf other)).meanings (other.drop t.depth) =
      if other = ids then meaningsFor offers ids ++ [m] else meaningsFor offers other := by
  rw [← h.meanings ids hids, ← h.meanings other hother, cell_record]
  by_cases haddress : t.addressOf other = t.addressOf ids
  · rw [if_pos haddress, Cell.meanings_add]
    by_cases htail : other.drop t.depth = ids.drop t.depth
    · have heq : other = ids := by
        rw [← h.radix] at hids hother
        exact eq_of_address_eq hother hids haddress htail
      simp [heq]
    · have hne : other ≠ ids := by
        rintro rfl
        exact htail rfl
      simp [htail, hne]
  · have hne : other ≠ ids := by
      rintro rfl
      exact haddress rfl
    simp [haddress, hne]

/-- An offer that is taken is what the table holds in addition. -/
theorem Holds.record
    (h : Holds g q s offers t)
    (hspelled : Spelled q.size p.1)
    (hnew : p ∉ offers) :
    Holds g q s (offers ++ [p]) (t.record p.1 p.2) :=
  { grammar := h.grammar
    provider := h.provider
    settings := h.settings
    meanings := by
      intro ids hids
      rw [addressOf_record, depth_record, h.meanings_record hspelled hids]
      by_cases heq : ids = p.1
      · subst heq
        simp [meaningsFor_append_self hnew]
      · simp [heq, meaningsFor_append_of_old (Or.inr (Ne.symm heq))]
    formed := by
      intro a
      rw [cell_record]
      split
      · exact (h.formed a).add ..
      · exact h.formed a
    phraseCount := by
      have hnew : p ∉ spelledOffers q.size offers := by simp [hnew]
      rw [spelledOffers_append_of_spelled hspelled, eraseDups_append_of_not_mem hnew]
      simp [PhraseTable.record, h.phraseCount]
    sequenceCount := by
      have hknown : p.1 ∈ (spelledOffers q.size offers).map Prod.fst ↔
          ((t.cell (t.addressOf p.1)).find? (p.1.drop t.depth)).isSome := by
        rw [mem_map_spelledOffers hspelled, (h.formed _).isSome_find?, h.meanings _ hspelled]
      rw [spelledOffers_append_of_spelled hspelled, List.map_append, List.map_singleton]
      by_cases hmem : p.1 ∈ (spelledOffers q.size offers).map Prod.fst
      · rw [eraseDups_append_of_mem hmem]
        simp [PhraseTable.record, h.sequenceCount, hknown.1 hmem]
      · rw [eraseDups_append_of_not_mem hmem]
        simp [PhraseTable.record, h.sequenceCount, mt hknown.2 hmem] }

section Runs

/-- The step over one offer: it is recorded and counted, or the table stays as it is. -/
theorem Holds.offer
    (h : Holds g q s offers t)
    (n : Nat)
    (p : Phrase) :
    Holds g q s (offers ++ [p]) (PhraseTable.offer (n, t) p).2 ∧
      (PhraseTable.offer (n, t) p).1 + t.phraseCount =
        n + (PhraseTable.offer (n, t) p).2.phraseCount := by
  unfold PhraseTable.offer
  rw [h.insert?_eq]
  by_cases hnew : Spelled q.size p.1 ∧ p ∉ offers
  · rw [if_pos hnew]
    refine ⟨h.record hnew.1 hnew.2, ?_⟩
    simp only [PhraseTable.record]
    omega
  · rw [if_neg hnew]
    exact ⟨h.refuse hnew, rfl⟩

/-- The run over several offers. -/
theorem Holds.foldl_offer
    (h : Holds g q s offers t)
    (n : Nat)
    (phrases : List Phrase) :
    Holds g q s (offers ++ phrases) (phrases.foldl PhraseTable.offer (n, t)).2 ∧
      (phrases.foldl PhraseTable.offer (n, t)).1 + t.phraseCount =
        n + (phrases.foldl PhraseTable.offer (n, t)).2.phraseCount := by
  induction phrases generalizing offers n t with
  | nil => simpa using h
  | cons p rest ih =>
    obtain ⟨hfirst, hcount⟩ := h.offer n p
    obtain ⟨hrest, htotal⟩ := ih hfirst (PhraseTable.offer (n, t) p).1
    constructor
    · simpa using hrest
    · simp only [List.foldl_cons, Prod.eta] at htotal ⊢
      omega

/-- What has been offered before is not recorded again. -/
theorem Holds.foldl_offer_of_old
    (h : Holds g q s offers t)
    (n : Nat)
    {phrases : List Phrase}
    (hold : ∀ p ∈ phrases, p ∈ offers) :
    phrases.foldl PhraseTable.offer (n, t) = (n, t) := by
  induction phrases with
  | nil => rfl
  | cons p rest ih =>
    have hfirst : PhraseTable.offer (n, t) p = (n, t) := by
      simp [PhraseTable.offer, h.insert?_eq, hold p (by simp)]
    rw [List.foldl_cons, hfirst]
    exact ih fun p hp => hold p (by simp [hp])

/-- Declared phrases are offered as they are recognized. -/
theorem recordPhrases_eq (t : PhraseTable) (recognize : String → List Token) :
    t.recordPhrases recognize =
      (recognizedPhrases t.grammar recognize).foldl offer (0, t) := by
  suffices h : ∀ (phrases : List (SymbolId × String × Option ContextId)) (acc : Nat × PhraseTable),
      phrases.foldl (recordPhrase recognize) acc =
        (phrases.filterMap (recognized? recognize)).foldl offer acc from
    h t.grammar.phrases (0, t)
  intro phrases
  induction phrases with
  | nil => simp
  | cons phrase rest ih =>
    intro acc
    rw [List.foldl_cons, ih]
    by_cases hnone : ((recognize phrase.2.1).isEmpty ||
        (recognize phrase.2.1).any fun t => t.concept = unrecognized) = true
    · simp [recordPhrase, recognized?, hnone]
    · have hone : recordPhrase recognize acc phrase =
          offer acc ((recognize phrase.2.1).map Token.concept, ⟨phrase.1, phrase.2.2⟩) := by
        simp only [recordPhrase, hnone, offer]
        cases acc.2.insert? _ _ <;> rfl
      simp [hone, recognized?, hnone]

theorem Holds.apply
    (h : Holds g q s offers t)
    (e : Edit) :
    Holds g q s (offers ++ e.offers g) (e.apply t) := by
  cases e with
  | insert ids m =>
    have hoffer := (h.offer 0 (ids, m)).1
    simp only [PhraseTable.offer] at hoffer
    simp only [Edit.apply, Edit.offers]
    cases hinsert : t.insert? ids m <;> simpa [hinsert] using hoffer
  | recordPhrases recognize =>
    simp only [Edit.apply, Edit.offers, recordPhrases_eq, h.grammar]
    exact (h.foldl_offer 0 _).1

/-- What a table holds after some edits is what they have offered. -/
theorem holds_edited
    (hnew : PhraseTable.new g q s = .ok t)
    (edits : List Edit) :
    Holds g q s (edits.flatMap (Edit.offers g)) (t.edited edits) := by
  suffices h : ∀ offers t, Holds g q s offers t →
      Holds g q s (offers ++ edits.flatMap (Edit.offers g)) (t.edited edits) by
    simpa using h [] t (holds_new hnew)
  induction edits with
  | nil => simp [edited]
  | cons e rest ih =>
    intro offers t h
    simpa [edited] using ih _ _ (h.apply e)

end Runs

end PhraseTable

end BeamChart
