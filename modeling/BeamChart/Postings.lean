import BeamChart.Ident

/-!
# Postings

A list of items under numeric keys: positions of the input, or buckets of
symbols. Entries stand in the order of their keys and, under one key, in the
order of arrival.

`under_add` describes posting by what is found under a key; it needs the
order (`Postings.Ordered`), which posting keeps (`ordered_add`).
-/

namespace BeamChart

/-- Items under numeric keys. -/
structure Postings where
  entries : List (Nat × ItemId) := []
deriving DecidableEq

namespace Postings

/-- Nothing is posted. -/
def empty : Postings := {}

/-- Posts an item behind everything that stands under the same key. -/
def add (p : Postings) (key : Nat) (id : ItemId) : Postings :=
  ⟨(p.entries.takeWhile fun e => e.1 ≤ key) ++
    (key, id) :: p.entries.dropWhile fun e => e.1 ≤ key⟩

/-- The items under a key, in the order of arrival. -/
def under (p : Postings) (key : Nat) : List ItemId :=
  (p.entries.filter fun e => e.1 = key).map Prod.snd

/-- All items, in the order of their keys. -/
def items (p : Postings) : List ItemId :=
  p.entries.map Prod.snd

/-- The first accepted item under the least key between two bounds. -/
def firstBetween?
    (p : Postings)
    (lower upper : Nat)
    (accept : ItemId → Bool) : Option ItemId :=
  (p.entries.find? fun e => lower ≤ e.1 && e.1 < upper && accept e.2).map Prod.snd

/-- The keys do not decrease. -/
def Ordered (p : Postings) : Prop :=
  p.entries.Pairwise fun a b => a.1 ≤ b.1

theorem ordered_empty : empty.Ordered :=
  List.Pairwise.nil

@[simp] theorem under_empty (key : Nat) :
    empty.under key = [] := rfl

/-- In an ordered list, what is left behind the keys up to a bound is above it. -/
theorem lt_of_mem_dropWhile
    {entries : List (Nat × ItemId)}
    {key : Nat}
    (h : entries.Pairwise fun a b => a.1 ≤ b.1)
    {e : Nat × ItemId}
    (he : e ∈ entries.dropWhile fun e => e.1 ≤ key) :
    key < e.1 := by
  induction entries with
  | nil => simp at he
  | cons a rest ih =>
    rw [List.pairwise_cons] at h
    rw [List.dropWhile_cons] at he
    split at he
    · exact ih h.2 he
    · rename_i hkey
      simp only [decide_eq_true_eq] at hkey
      rcases List.mem_cons.1 he with rfl | hmem
      · omega
      · have := h.1 e hmem
        omega

/-- What is taken up to a bound has keys up to it. -/
theorem le_of_mem_takeWhile
    {entries : List (Nat × ItemId)}
    {key : Nat}
    {e : Nat × ItemId}
    (he : e ∈ entries.takeWhile fun e => e.1 ≤ key) :
    e.1 ≤ key :=
  of_decide_eq_true (List.all_eq_true.1 List.all_takeWhile e he)

/-- Posting keeps the order of the keys. -/
theorem ordered_add
    {p : Postings}
    (h : p.Ordered)
    (key : Nat)
    (id : ItemId) :
    (p.add key id).Ordered := by
  have hsplit :
      (p.entries.takeWhile (fun e => e.1 ≤ key) ++
        p.entries.dropWhile fun e => e.1 ≤ key).Pairwise fun a b => a.1 ≤ b.1 := by
    rw [List.takeWhile_append_dropWhile]
    exact h
  rw [List.pairwise_append] at hsplit
  obtain ⟨hfront, hback, hcross⟩ := hsplit
  unfold Ordered add
  rw [List.pairwise_append, List.pairwise_cons]
  refine ⟨hfront, ⟨?_, hback⟩, ?_⟩
  · intro e he
    exact Nat.le_of_lt (lt_of_mem_dropWhile h he)
  · intro a ha e he
    rcases List.mem_cons.1 he with rfl | hmem
    · exact le_of_mem_takeWhile ha
    · exact hcross a ha e hmem

/-- A posted item stands last under its key, and other keys do not change. -/
theorem under_add
    {p : Postings}
    (h : p.Ordered)
    (key : Nat)
    (id : ItemId)
    (k : Nat) :
    (p.add key id).under k =
      if k = key then p.under k ++ [id] else p.under k := by
  have hsplit :
      p.under k =
        ((p.entries.takeWhile fun e => e.1 ≤ key).filter fun e => e.1 = k).map Prod.snd ++
        ((p.entries.dropWhile fun e => e.1 ≤ key).filter fun e => e.1 = k).map Prod.snd := by
    unfold under
    rw [← List.map_append, ← List.filter_append, List.takeWhile_append_dropWhile]
  have hadd :
      (p.add key id).under k =
        ((p.entries.takeWhile fun e => e.1 ≤ key).filter fun e => e.1 = k).map Prod.snd ++
        ((((key, id) :: p.entries.dropWhile fun e => e.1 ≤ key).filter fun e =>
          e.1 = k).map Prod.snd) := by
    unfold under add
    rw [List.filter_append, List.map_append]
  rw [hadd, hsplit]
  by_cases hk : k = key
  · have hnone :
        (p.entries.dropWhile fun e => e.1 ≤ key).filter (fun e => e.1 = k) = [] := by
      rw [List.filter_eq_nil_iff]
      intro e he
      have := lt_of_mem_dropWhile h he
      simp only [decide_eq_true_eq]
      omega
    rw [if_pos hk, List.filter_cons_of_pos (by simp [hk]), hnone]
    simp
  · rw [if_neg hk, List.filter_cons_of_neg (by simpa using Ne.symm hk)]

end Postings

end BeamChart
