import BeamChart.Proofs.PhraseTable.Map
import Mathlib.Data.List.DropRight

/-!
# Sequences with the unrecognized id

Only spelled sequences are recorded, but any sequence can be looked up. Ids that
are out of range are refused, the unrecognized one is not, although it is the
digit that a missing id reads as. So a sequence that fits into an address is
looked up as if the unrecognized ids at its end were not there (`unpadded`), and
has the meanings of the shorter sequence (`get_edited`). Behind the address, and
in front of another id, an unrecognized id is never found.

`Lettered` says that a cell holds entries of spelled sequences only; with it,
`atPlace_iff` tells which of them a lookup finds.
-/

namespace BeamChart

section Places

variable {radix depth : Nat} {ids : List SymbolId}

/-- A sequence as its address reads it: unrecognized ids at the end of the digits are missing. -/
def unpadded (depth : Nat) (ids : List SymbolId) : List SymbolId :=
  if ids.length ≤ depth then ids.rdropWhile fun id => id = unrecognized else ids

/-- Trailing unrecognized ids are all that is left out. -/
theorem exists_eq_unpadded_append (depth : Nat) (ids : List SymbolId) :
    ∃ n, ids = unpadded depth ids ++ List.replicate n unrecognized ∧
      (0 < n → ids.length ≤ depth) := by
  unfold unpadded
  split
  · rename_i hle
    refine ⟨(ids.rtakeWhile fun id => id = unrecognized).length, ?_, fun _ => hle⟩
    have hzeros : ids.rtakeWhile (fun id => id = unrecognized) =
        List.replicate (ids.rtakeWhile fun id => id = unrecognized).length unrecognized := by
      rw [List.eq_replicate_iff]
      refine ⟨rfl, fun id hid => ?_⟩
      simpa using List.mem_rtakeWhile_imp hid
    rw [← hzeros, List.rdropWhile_append_rtakeWhile]
  · exact ⟨0, by simp, fun h => absurd h (Nat.lt_irrefl 0)⟩

/-- What is left out behind a spelled sequence, if it fits into an address. -/
theorem unpadded_append_replicate
    (hids : Spelled radix ids)
    {n : Nat}
    (hle : (ids ++ List.replicate n unrecognized).length ≤ depth) :
    unpadded depth (ids ++ List.replicate n unrecognized) = ids := by
  rw [unpadded, if_pos hle]
  clear hle
  induction n with
  | zero =>
    rw [List.replicate_zero, List.append_nil, List.rdropWhile_eq_self_iff]
    intro hne hzero
    have hpos := (hids.2 _ (List.getLast_mem hne)).1
    rw [of_decide_eq_true hzero] at hpos
    exact Nat.lt_irrefl 0 hpos
  | succ n ih =>
    rw [List.replicate_succ', ← List.append_assoc, List.rdropWhile_concat_pos _ _ _ (by simp), ih]

/-- Digits that are zero do not change an address. -/
theorem address_append_replicate (radix depth : Nat) (ids : List SymbolId) (n : Nat) :
    address radix depth (ids ++ List.replicate n unrecognized) = address radix depth ids := by
  induction n with
  | zero => simp
  | succ n ih =>
    rw [List.replicate_succ', ← List.append_assoc, address_append, ih]
    simp [unrecognized]

/-- The digits of a sequence without zeros are followed by zeros only, in any other of its address. -/
theorem exists_take_eq_append_replicate
    {as : List SymbolId}
    (ha : ∀ id : Nat, id ∈ as → 0 < id ∧ id < radix)
    (hids : ∀ id : Nat, id ∈ ids → id < radix)
    (h : address radix depth ids = address radix depth as) :
    ∃ n, ids.take depth = as.take depth ++ List.replicate n unrecognized := by
  induction depth generalizing as ids with
  | zero => exact ⟨0, by simp⟩
  | succ depth ih =>
    cases ids with
    | nil =>
      cases as with
      | nil => exact ⟨0, by simp⟩
      | cons a as =>
        obtain ⟨hpos, hlt⟩ := ha a (by simp)
        have := address_cons_pos depth as (by omega : 0 < radix) hpos
        simp only [address_nil] at h
        omega
    | cons id ids =>
      have hradix : 0 < radix := Nat.zero_lt_of_lt (hids id (by simp))
      have hrest : ∀ id : Nat, id ∈ ids → id < radix := fun d hd => hids d (by simp [hd])
      cases as with
      | nil =>
        -- nothing is left of the address, so all digits are zero
        have hsum : (id : Nat) * Nat.pow radix depth + address radix depth ids =
            0 * Nat.pow radix depth + address radix depth [] := by
          simpa [address] using h
        obtain ⟨hid, hdigits⟩ := eq_of_digits_eq (address_lt depth hradix hrest)
          (address_lt depth hradix (by simp)) hsum
        obtain ⟨n, hn⟩ := ih (by simp) hrest hdigits
        refine ⟨n + 1, ?_⟩
        rw [List.take_succ_cons, hn, hid]
        simp [List.replicate_succ, unrecognized]
      | cons a as =>
        have has : ∀ id : Nat, id ∈ as → 0 < id ∧ id < radix := fun d hd => ha d (by simp [hd])
        obtain ⟨hid, hdigits⟩ := eq_of_digits_eq (address_lt depth hradix hrest)
          (address_lt depth hradix fun d hd => (has d hd).2) h
        obtain ⟨n, hn⟩ := ih has hrest hdigits
        refine ⟨n, ?_⟩
        rw [List.take_succ_cons, List.take_succ_cons, hn, hid, List.cons_append]

/-- The spelled sequence that stands where a sequence is looked up is the unpadded one. -/
theorem atPlace_iff
    {as : List SymbolId}
    (ha : Spelled radix as)
    (hids : ∀ id : Nat, id ∈ ids → id < radix) :
    address radix depth as = address radix depth ids ∧ as.drop depth = ids.drop depth ↔
      as = unpadded depth ids := by
  constructor
  · rintro ⟨haddress, htail⟩
    obtain ⟨n, hn⟩ := exists_take_eq_append_replicate ha.2 hids haddress.symm
    by_cases hle : ids.length ≤ depth
    · have hshort : as.length ≤ depth := by
        rwa [← List.drop_eq_nil_iff, htail, List.drop_eq_nil_iff]
      rw [List.take_of_length_le hle, List.take_of_length_le hshort] at hn
      rw [hn, unpadded_append_replicate ha (by rwa [← hn])]
    · -- both fill their digits, so none is missing
      have hlong : depth < as.length := by
        rwa [← not_le, ← List.drop_eq_nil_iff, htail, List.drop_eq_nil_iff]
      have hnone : n = 0 := by
        have hlength := congrArg List.length hn
        rw [List.length_append, List.length_take, List.length_take, List.length_replicate] at hlength
        omega
      rw [unpadded, if_neg hle, ← List.take_append_drop depth as, htail]
      rw [hnone, List.replicate_zero, List.append_nil] at hn
      rw [← hn, List.take_append_drop]
  · rintro rfl
    obtain ⟨n, hn, hn'⟩ := exists_eq_unpadded_append depth ids
    rcases Nat.eq_zero_or_pos n with rfl | hpos
    · have hsame : ids = unpadded depth ids := by simpa using hn
      rw [← hsame]
      exact ⟨rfl, rfl⟩
    · have hle := hn' hpos
      constructor
      · conv_rhs => rw [hn]
        rw [address_append_replicate]
      · have hshort : (unpadded depth ids).length ≤ depth := by
          have hlength := congrArg List.length hn
          simp only [List.length_append, List.length_replicate] at hlength
          omega
        rw [List.drop_eq_nil_of_le hshort, List.drop_eq_nil_of_le hle]

/-- A sequence whose unpadded form is spelled has ids, and no id of it is out of range. -/
theorem lt_of_spelled_unpadded
    (h : Spelled radix (unpadded depth ids)) :
    ids ≠ [] ∧ ∀ id : Nat, id ∈ ids → id < radix := by
  obtain ⟨n, hn, -⟩ := exists_eq_unpadded_append depth ids
  constructor
  · rintro rfl
    exact h.1 (List.append_eq_nil_iff.1 hn.symm).1
  · intro id hid
    rw [hn] at hid
    rcases List.mem_append.1 hid with hfront | hback
    · exact (h.2 id hfront).2
    · obtain ⟨first, hfirst⟩ := List.exists_mem_of_ne_nil _ h.1
      have hlt := (h.2 first hfirst).2
      rw [List.eq_of_mem_replicate hback]
      exact Nat.zero_lt_of_lt hlt

end Places

namespace PhraseTable

variable
  {g q : Grammar}
  {s : TableSettings}
  {t : PhraseTable}
  {offers : List Phrase}
  {ids : List SymbolId}

/-- The table after some phrases have been offered to it, one by one. -/
def offered (t : PhraseTable) (offers : List Phrase) : PhraseTable :=
  (offers.foldl offer (0, t)).2

/-- The sequence has been accepted when it was offered. -/
def Accepted (t : PhraseTable) (offers : List Phrase) (ids : List SymbolId) : Prop :=
  ∃ before m after, offers = before ++ (ids, m) :: after ∧
    ((t.offered before).insert? ids m).isSome

/-- What has been counted makes no difference to an offer. -/
theorem foldl_offer_snd (t : PhraseTable) (offers : List Phrase) (n : Nat) :
    (offers.foldl offer (n, t)).2 = t.offered offers := by
  unfold offered
  generalize 0 = k
  induction offers generalizing n k t with
  | nil => rfl
  | cons p rest ih =>
    rw [List.foldl_cons, List.foldl_cons]
    unfold offer
    cases t.insert? p.1 p.2 with
    | none => exact ih t n k
    | some t' => exact ih t' (n + 1) (k + 1)

theorem offered_append (t : PhraseTable) (offers more : List Phrase) :
    t.offered (offers ++ more) = (t.offered offers).offered more := by
  unfold offered
  rw [List.foldl_append]
  exact foldl_offer_snd _ more _

theorem offered_singleton (t : PhraseTable) (p : Phrase) :
    t.offered [p] = (t.insert? p.1 p.2).getD t := by
  simp only [offered, List.foldl_cons, List.foldl_nil, offer]
  cases t.insert? p.1 p.2 <;> rfl

/-- The step over one edit is the run over its offers. -/
theorem apply_eq_offered (t : PhraseTable) (e : Edit) :
    e.apply t = t.offered (e.offers t.grammar) := by
  cases e with
  | insert ids m => exact (offered_singleton t (ids, m)).symm
  | recordPhrases recognize =>
    rw [Edit.apply, recordPhrases_eq]
    rfl

/-- Edits are made by offering their phrases one by one. -/
theorem edited_eq_offered
    (hnew : PhraseTable.new g q s = .ok t)
    (edits : List Edit) :
    t.edited edits = t.offered (edits.flatMap (Edit.offers g)) := by
  suffices h : ∀ offers t, Holds g q s offers t →
      t.edited edits = t.offered (edits.flatMap (Edit.offers g)) from
    h [] t (holds_new hnew)
  intro offers t ht
  induction edits generalizing offers t with
  | nil => rfl
  | cons e rest ih =>
    rw [List.flatMap_cons, offered_append, ← ht.grammar, ← apply_eq_offered, ht.grammar,
      ← ih _ _ (ht.apply e)]
    rfl

/-- Every entry is that of a spelled sequence. -/
def Lettered (t : PhraseTable) : Prop :=
  ∀ a tail, (t.cell a).meanings tail ≠ [] →
    ∃ as, Spelled t.radix as ∧ t.addressOf as = a ∧ as.drop t.depth = tail

theorem lettered_new
    (h : PhraseTable.new g q s = .ok t) :
    t.Lettered := by
  have hempty : ∀ a, t.cell a = {} := fun a => by rw [eq_of_new h]; rfl
  intro a tail hmeanings
  rw [hempty] at hmeanings
  exact absurd rfl hmeanings

theorem Lettered.record
    (h : t.Lettered)
    (hids : Spelled t.radix ids)
    (m : Meaning) :
    (t.record ids m).Lettered := by
  intro a tail hmeanings
  rw [cell_record] at hmeanings
  split at hmeanings
  · rename_i ha
    rw [Cell.meanings_add] at hmeanings
    split at hmeanings
    · rename_i htail
      exact ⟨ids, hids, ha.symm, htail.symm⟩
    · exact h a tail hmeanings
  · exact h a tail hmeanings

theorem Lettered.offered
    (h : t.Lettered)
    (offers : List Phrase) :
    (t.offered offers).Lettered := by
  induction offers using List.reverseRecOn with
  | nil => exact h
  | append_singleton front p ih =>
    rw [offered_append, offered_singleton, PhraseTable.insert?_eq]
    split
    · rename_i hspelled
      exact ih.record hspelled.1 p.2
    · exact ih

/-- A sequence has been accepted if it can be recorded and has been offered. -/
theorem accepted_iff
    (hnew : PhraseTable.new g q s = .ok t) :
    t.Accepted offers ids ↔ recordedFor q.size offers ids ≠ [] := by
  have hinsert : ∀ before m, ((t.offered before).insert? ids m).isSome ↔
      Spelled q.size ids ∧ (ids, m) ∉ before := by
    intro before m
    have hholds : Holds g q s before (t.offered before) :=
      ((holds_new hnew).foldl_offer 0 before).1
    rw [hholds.insert?_eq]
    split <;> simp_all
  constructor
  · rintro ⟨before, m, after, rfl, hsome⟩
    rw [recordedFor, if_pos ((hinsert before m).1 hsome).1, Ne, meaningsFor_eq_nil_iff]
    intro h
    exact h m (by simp)
  · intro h
    unfold recordedFor at h
    split at h
    · rename_i hspelled
      obtain ⟨m, hm⟩ := List.exists_mem_of_ne_nil _ h
      obtain ⟨before, after, heq, hfirst⟩ :=
        List.eq_append_cons_of_mem (mem_meaningsFor.1 hm)
      exact ⟨before, m, after, heq, (hinsert before m).2 ⟨hspelled, hfirst⟩⟩
    · exact absurd rfl h

/-- A lookup finds what is recorded for the unpadded sequence. -/
theorem Holds.get_eq_recordedFor
    (h : Holds g q s offers t)
    (hlettered : t.Lettered)
    (ids : List SymbolId) :
    t.get ids = recordedFor q.size offers (unpadded s.depth ids) := by
  have hdepth : t.depth = s.depth := congrArg TableSettings.depth h.settings
  have hmeanings := h.meanings (unpadded s.depth ids)
  unfold Lettered addressOf at hlettered
  unfold addressOf at hmeanings
  rw [h.radix, hdepth] at hlettered hmeanings
  unfold get recordedFor addressOf
  rw [h.radix, hdepth]
  split
  · rename_i hrefused
    rw [if_neg]
    intro hspelled
    obtain ⟨hne, hlt⟩ := lt_of_spelled_unpadded hspelled
    simp only [Bool.or_eq_true, List.isEmpty_iff, List.any_eq_true, decide_eq_true_eq] at hrefused
    obtain hempty | ⟨id, hid, hle⟩ := hrefused
    · exact hne hempty
    · exact absurd (hlt id hid) (Nat.not_lt.2 hle)
  · rename_i htaken
    have hlt : ∀ id : Nat, id ∈ ids → id < q.size := by
      simp only [Bool.or_eq_true, List.any_eq_true, decide_eq_true_eq, not_or, not_exists,
        not_and] at htaken
      exact fun id hid => Nat.lt_of_not_le (htaken.2 id hid)
    split
    · rename_i hspelled
      obtain ⟨haddress, htail⟩ := (atPlace_iff hspelled hlt).2 rfl
      rw [← haddress, ← htail, hmeanings hspelled]
    · rename_i hspelled
      by_contra hne
      obtain ⟨as, has, haddress, htail⟩ := hlettered _ _ hne
      exact hspelled ((atPlace_iff has hlt).1 ⟨haddress, htail⟩ ▸ has)

/--
A lookup finds exactly what has been recorded for the sequence without the
unrecognized ids at the end of its digits. So meanings are found for a sequence
that has never been accepted only where it fits into an address, ends in
unrecognized ids, and what stands before some of them has been accepted.
-/
theorem get_edited
    (hnew : PhraseTable.new g q s = .ok t)
    (edits : List Edit)
    (ids : List SymbolId) :
    (t.edited edits).get ids =
        recordedFor q.size (edits.flatMap (Edit.offers g)) (unpadded s.depth ids) ∧
      (¬ t.Accepted (edits.flatMap (Edit.offers g)) ids →
        ((t.edited edits).get ids ≠ [] ↔
          ∃ short n, ids = short ++ List.replicate (n + 1) unrecognized ∧
            ids.length ≤ s.depth ∧ t.Accepted (edits.flatMap (Edit.offers g)) short)) := by
  have hget : (t.edited edits).get ids =
      recordedFor q.size (edits.flatMap (Edit.offers g)) (unpadded s.depth ids) := by
    refine (holds_edited hnew edits).get_eq_recordedFor ?_ ids
    rw [edited_eq_offered hnew]
    exact (lettered_new hnew).offered _
  refine ⟨hget, fun hrefused => ?_⟩
  rw [hget]
  constructor
  · intro hfound
    obtain ⟨n, hn, hle⟩ := exists_eq_unpadded_append s.depth ids
    cases n with
    | zero =>
      rw [List.replicate_zero, List.append_nil] at hn
      rw [← hn] at hfound
      exact absurd ((accepted_iff hnew).2 hfound) hrefused
    | succ n => exact ⟨_, n, hn, hle (Nat.succ_pos n), (accepted_iff hnew).2 hfound⟩
  · rintro ⟨short, n, rfl, hle, haccepted⟩
    rw [accepted_iff hnew] at haccepted
    have hspelled : Spelled q.size short := by
      unfold recordedFor at haccepted
      split at haccepted
      · assumption
      · exact absurd rfl haccepted
    rwa [unpadded_append_replicate hspelled hle]

theorem get_edited_sample :
    PhraseTable.new words letters {} = .ok wordTable ∧
      ((wordTable.edited [.insert [1, 2] ⟨1, none⟩]).get [1, 2, 0] =
          recordedFor letters.size [([1, 2], ⟨1, none⟩)] (unpadded 3 [1, 2, 0]) ∧
        (¬ wordTable.Accepted [([1, 2], ⟨1, none⟩)] [1, 2, 0] →
          ((wordTable.edited [.insert [1, 2] ⟨1, none⟩]).get [1, 2, 0] ≠ [] ↔
            ∃ short n, [1, 2, 0] = short ++ List.replicate (n + 1) unrecognized ∧
              [1, 2, 0].length ≤ 3 ∧
              wordTable.Accepted [([1, 2], ⟨1, none⟩)] short))) :=
  ⟨new_wordTable, get_edited new_wordTable [.insert [1, 2] ⟨1, none⟩] [1, 2, 0]⟩

/-- One letter is recorded, and the letter with an unrecognized id behind it is found. -/
theorem get_finds_padded :
    PhraseTable.new words letters {} = .ok wordTable ∧
      ¬ wordTable.Accepted [([1], ⟨1, none⟩)] [1, 0] ∧
      (wordTable.edited [.insert [1] ⟨1, none⟩]).get [1, 0] = [⟨1, none⟩] := by
  refine ⟨new_wordTable, ?_, by decide +kernel⟩
  rw [accepted_iff new_wordTable, size_letters]
  decide +kernel

end PhraseTable

end BeamChart
