import BeamChart.Proofs.Chart.Beam
import Mathlib.Data.List.Induction
import Mathlib.Data.List.TakeWhile

/-!
# A beam is the head of a ranking

A list of candidates is ranked by leaving out all but the first candidate of each
structure, and by sorting what is left from the heaviest on, so that candidates of one
weight stay in their order. A beam that is filled one candidate after the other is the
head of that ranking (`ofList_eq_take`), although it compares structures with the
kept candidates only: a candidate that has left the beam has left it for others that are
as heavy, and so has every later candidate of its structure (`insert_take_ranking`).

Sorted lists in which equal weights keep their order are unique (`IsRanking.unique`), so
it is enough to see that an inserted candidate finds the last place for its weight.
-/

namespace BeamChart

namespace Pool

variable {stored : CandidateId → Candidate} {width : Nat} {ids pool : List CandidateId}
  {id x y : CandidateId}

/-- The first candidate of each structure. -/
def distinct (stored : CandidateId → Candidate) (ids : List CandidateId) : List CandidateId :=
  ids.eraseDupsBy fun x y => (stored x).Congruent (stored y)

/-- All structures from the heaviest on; those of one weight stay in their order. -/
def ranking (stored : CandidateId → Candidate) (ids : List CandidateId) : List CandidateId :=
  (distinct stored ids).mergeSort fun x y => (stored y).weight ≤ (stored x).weight

section Distinct

theorem eraseDupsBy_loop_append
    {α : Type}
    (same : α → α → Bool)
    (xs seen : List α)
    (x : α) :
    List.eraseDupsBy.loop same (xs ++ [x]) seen =
      if (List.eraseDupsBy.loop same xs seen).any (same x)
      then List.eraseDupsBy.loop same xs seen
      else List.eraseDupsBy.loop same xs seen ++ [x] := by
  induction xs generalizing seen with
  | nil =>
    cases hany : seen.any (same x) <;> simp [List.eraseDupsBy.loop, hany]
  | cons y rest ih =>
    rw [List.cons_append, List.eraseDupsBy.loop, List.eraseDupsBy.loop]
    split <;> exact ih _

/-- One more candidate is a new structure, or it is left out. -/
theorem distinct_append
    (stored : CandidateId → Candidate)
    (ids : List CandidateId)
    (id : CandidateId) :
    distinct stored (ids ++ [id]) =
      if (distinct stored ids).any fun k => (stored id).Congruent (stored k)
      then distinct stored ids
      else distinct stored ids ++ [id] :=
  eraseDupsBy_loop_append _ ids [] id

theorem apart_distinct (stored : CandidateId → Candidate) (ids : List CandidateId) :
    Apart stored (distinct stored ids) := by
  induction ids using List.reverseRecOn with
  | nil => exact List.Pairwise.nil
  | append_singleton front id ih =>
    rw [distinct_append]
    split
    · exact ih
    · rename_i hnew
      refine List.pairwise_append.2 ⟨ih, List.pairwise_singleton _ _, fun k hk j hj => ?_⟩
      rw [List.mem_singleton.1 hj]
      intro hcongruent
      exact hnew (List.any_eq_true.2 ⟨k, hk, decide_eq_true hcongruent.symm⟩)

/-- Every candidate has the structure of one that is not left out. -/
theorem exists_mem_distinct
    (h : id ∈ ids) :
    ∃ k ∈ distinct stored ids, (stored id).Congruent (stored k) := by
  induction ids using List.reverseRecOn with
  | nil => cases h
  | append_singleton front other ih =>
    rw [distinct_append]
    rcases List.mem_append.1 h with hfront | hother
    · obtain ⟨k, hk, hcongruent⟩ := ih hfront
      split
      · exact ⟨k, hk, hcongruent⟩
      · exact ⟨k, List.mem_append_left _ hk, hcongruent⟩
    · rw [List.mem_singleton.1 hother]
      split
      · rename_i hany
        obtain ⟨k, hk, hcongruent⟩ := List.any_eq_true.1 hany
        exact ⟨k, hk, of_decide_eq_true hcongruent⟩
      · exact ⟨other, List.mem_append_right _ (List.mem_singleton_self _), .refl _⟩

end Distinct

section Stable

/-- The heavier one goes first, and of two that weigh the same the one that came first. -/
def Precedes
    (stored : CandidateId → Candidate)
    (ids : List CandidateId)
    (x y : CandidateId) : Prop :=
  (stored y).weight ≤ (stored x).weight ∧
    ((stored x).weight ≤ (stored y).weight → [x, y].Sublist ids)

/-- The candidates of a list, each before those that it precedes. -/
structure IsRanking
    (stored : CandidateId → Candidate)
    (ids pool : List CandidateId) : Prop where
  perm : pool.Perm ids
  ordered : pool.Pairwise (Precedes stored ids)

/-- In a list without repetitions one of two comes first. -/
theorem not_sublist_swap
    {α : Type}
    {xs : List α}
    (h : xs.Nodup)
    {x y : α}
    (hxy : [x, y].Sublist xs) :
    ¬ [y, x].Sublist xs := by
  induction xs with
  | nil => cases hxy
  | cons z rest ih =>
    obtain ⟨hz, hrest⟩ := List.nodup_cons.1 h
    intro hyx
    cases hxy with
    | cons _ hxy =>
      cases hyx with
      | cons _ hyx => exact ih hrest hxy hyx
      | cons_cons _ hx => exact hz (hxy.mem (by simp))
    | cons_cons _ hy =>
      cases hyx with
      | cons _ hyx => exact hz (hyx.mem (by simp))
      | cons_cons _ hx => exact hz (hy.mem (by simp))

/-- Of two members of a list one comes first. -/
theorem pair_sublist_or
    {α : Type}
    {xs : List α}
    {x y : α}
    (hne : x ≠ y)
    (hx : x ∈ xs)
    (hy : y ∈ xs) :
    [x, y].Sublist xs ∨ [y, x].Sublist xs := by
  obtain ⟨front, back, rfl⟩ := List.append_of_mem hy
  rcases List.mem_append.1 hx with hfront | hback
  · exact Or.inl ((List.singleton_sublist.2 hfront).append
      (List.cons_sublist_cons.2 (List.nil_sublist back)))
  · have hrest := (List.mem_cons.1 hback).resolve_left hne
    exact Or.inr ((List.cons_sublist_cons.2 (List.singleton_sublist.2 hrest)).trans
      (List.sublist_append_right _ _))

/-- There is one ranking of a list without repetitions. -/
theorem IsRanking.unique
    {other : List CandidateId}
    (hids : ids.Nodup)
    (h : IsRanking stored ids pool)
    (h' : IsRanking stored ids other) :
    pool = other := by
  refine (h.perm.trans h'.perm.symm).eq_of_pairwise (fun x y _ _ hxy hyx => ?_) h.ordered h'.ordered
  exact absurd (hyx.2 hxy.1) (not_sublist_swap hids (hxy.2 hyx.1))

theorem isRanking_ranking
    (stored : CandidateId → Candidate)
    (ids : List CandidateId) :
    IsRanking stored (distinct stored ids) (ranking stored ids) := by
  have htrans : ∀ a b c : CandidateId,
      decide ((stored b).weight ≤ (stored a).weight) = true →
      decide ((stored c).weight ≤ (stored b).weight) = true →
      decide ((stored c).weight ≤ (stored a).weight) = true := by
    intro a b c hab hbc
    exact decide_eq_true (Weight.le_trans (of_decide_eq_true hbc) (of_decide_eq_true hab))
  have htotal : ∀ a b : CandidateId,
      (decide ((stored b).weight ≤ (stored a).weight) ||
        decide ((stored a).weight ≤ (stored b).weight)) = true := by
    intro a b
    rw [Bool.or_eq_true, decide_eq_true_eq, decide_eq_true_eq]
    by_cases h : (stored b).weight ≤ (stored a).weight
    · exact Or.inl h
    · exact Or.inr (Weight.le_of_not_le h)
  have hperm : (ranking stored ids).Perm (distinct stored ids) := List.mergeSort_perm _ _
  have hnodup := (apart_distinct stored ids).nodup
  refine ⟨hperm, List.pairwise_iff_forall_sublist.2 fun {x y} hxy => ⟨?_, fun hle => ?_⟩⟩
  · exact of_decide_eq_true (List.pairwise_iff_forall_sublist.1
      (List.pairwise_mergeSort htrans htotal (distinct stored ids)) hxy)
  · -- sorting would have kept the two in the other order as well
    have hpool := hperm.nodup_iff.2 hnodup
    have hne : x ≠ y := List.pairwise_iff_forall_sublist.1 hpool hxy
    have hx : x ∈ distinct stored ids := hperm.mem_iff.1 (hxy.mem (by simp))
    have hy : y ∈ distinct stored ids := hperm.mem_iff.1 (hxy.mem (by simp))
    refine (pair_sublist_or hne hx hy).resolve_right fun hyx => ?_
    exact not_sublist_swap hpool hxy
      (List.pair_sublist_mergeSort htrans htotal (decide_eq_true hle) hyx)

/-- The list with a candidate behind everything that is at least as heavy. -/
def splice
    (stored : CandidateId → Candidate)
    (pool : List CandidateId)
    (id : CandidateId) : List CandidateId :=
  (pool.takeWhile fun k => (stored id).weight ≤ (stored k).weight) ++
    id :: pool.dropWhile fun k => (stored id).weight ≤ (stored k).weight

/-- Behind the place of a candidate everything is lighter than it. -/
theorem not_le_of_mem_dropWhile
    (h : pool.Pairwise fun x y => (stored y).weight ≤ (stored x).weight)
    (hy : y ∈ pool.dropWhile fun k => (stored id).weight ≤ (stored k).weight) :
    ¬ (stored id).weight ≤ (stored y).weight := by
  have hsorted := h.sublist
    (List.dropWhile_sublist fun k => decide ((stored id).weight ≤ (stored k).weight))
  have hhead := List.head?_dropWhile_not
    (fun k => decide ((stored id).weight ≤ (stored k).weight)) pool
  cases hback : pool.dropWhile fun k => (stored id).weight ≤ (stored k).weight with
  | nil =>
    rw [hback] at hy
    cases hy
  | cons first rest =>
    rw [hback] at hy hsorted hhead
    have hfirst : ¬ (stored id).weight ≤ (stored first).weight := by simpa using hhead
    rcases List.mem_cons.1 hy with rfl | hrest
    · exact hfirst
    · intro hle
      exact hfirst (Weight.le_trans hle ((List.pairwise_cons.1 hsorted).1 y hrest))

/-- One more candidate goes behind everything that is at least as heavy. -/
theorem IsRanking.splice
    (h : IsRanking stored ids pool)
    (id : CandidateId) :
    IsRanking stored (ids ++ [id]) (splice stored pool id) := by
  have hfalling : pool.Pairwise fun x y => (stored y).weight ≤ (stored x).weight :=
    h.ordered.imp fun hxy => hxy.1
  have hwider : ∀ {x y}, Precedes stored ids x y → Precedes stored (ids ++ [id]) x y :=
    fun hxy => ⟨hxy.1, fun hle => (hxy.2 hle).trans (List.sublist_append_left _ _)⟩
  have hsplit := List.takeWhile_append_dropWhile
    (p := fun k => decide ((stored id).weight ≤ (stored k).weight)) (l := pool)
  constructor
  · have hmiddle : (Pool.splice stored pool id).Perm
        (id :: ((pool.takeWhile fun k => (stored id).weight ≤ (stored k).weight) ++
          pool.dropWhile fun k => (stored id).weight ≤ (stored k).weight)) := List.perm_middle
    rw [hsplit] at hmiddle
    exact hmiddle.trans ((h.perm.cons id).trans (List.perm_append_singleton id ids).symm)
  · have hordered := h.ordered
    rw [← hsplit, List.pairwise_append] at hordered
    obtain ⟨hfront, hback, hcross⟩ := hordered
    refine List.pairwise_append.2 ⟨hfront.imp hwider, List.pairwise_cons.2
      ⟨fun y hy => ?_, hback.imp hwider⟩, fun x hx y hy => ?_⟩
    · have hlighter := not_le_of_mem_dropWhile hfalling hy
      exact ⟨Weight.le_of_not_le hlighter, fun hle => absurd hle hlighter⟩
    · rcases List.mem_cons.1 hy with rfl | hrest
      · refine ⟨of_decide_eq_true (List.all_eq_true.1 List.all_takeWhile x hx), fun _ => ?_⟩
        have hmem : x ∈ ids := h.perm.mem_iff.1 (List.takeWhile_subset _ hx)
        exact (List.singleton_sublist.2 hmem).append (List.Sublist.refl [y])
      · exact hwider (hcross x hx y hrest)

/-- A candidate of a new structure finds its place in the ranking. -/
theorem ranking_append
    (stored : CandidateId → Candidate)
    (ids : List CandidateId)
    (id : CandidateId) :
    ranking stored (ids ++ [id]) =
      if (distinct stored ids).any fun k => (stored id).Congruent (stored k)
      then ranking stored ids
      else splice stored (ranking stored ids) id := by
  by_cases hany : ((distinct stored ids).any fun k => (stored id).Congruent (stored k)) = true
  · rw [if_pos hany, ranking, distinct_append, if_pos hany]
    rfl
  · have hranking := isRanking_ranking stored (ids ++ [id])
    have hsplice := (isRanking_ranking stored ids).splice id
    have hdistinct := distinct_append stored ids id
    rw [if_neg hany] at hdistinct ⊢
    rw [← hdistinct] at hsplice
    exact hranking.unique (apart_distinct stored _).nodup hsplice

end Stable

section Head

/-- What is kept of a ranking with one more candidate is known from what is kept of it. -/
theorem take_splice
    (stored : CandidateId → Candidate)
    (width : Nat)
    (pool : List CandidateId)
    (id : CandidateId) :
    (if width ≤ ((pool.take width).takeWhile fun k =>
        (stored id).weight ≤ (stored k).weight).length then pool.take width
      else (splice stored (pool.take width) id).take width) =
      (splice stored pool id).take width := by
  have hsplit := List.takeWhile_append_dropWhile
    (p := fun k => decide ((stored id).weight ≤ (stored k).weight)) (l := pool)
  have hkept := List.takeWhile_append_dropWhile
    (p := fun k => decide ((stored id).weight ≤ (stored k).weight)) (l := pool.take width)
  unfold splice
  rw [← List.take_takeWhile] at hkept ⊢
  generalize (pool.takeWhile fun k => (stored id).weight ≤ (stored k).weight) = front
    at hsplit hkept ⊢
  generalize (pool.dropWhile fun k => (stored id).weight ≤ (stored k).weight) = back
    at hsplit ⊢
  generalize ((pool.take width).dropWhile fun k => (stored id).weight ≤ (stored k).weight) = rest
    at hkept ⊢
  subst hsplit
  by_cases hfull : width ≤ front.length
  · rw [if_pos (by rw [List.length_take]; omega), List.take_append_of_le_length hfull,
      List.take_append_of_le_length hfull]
  · rw [if_neg (by rw [List.length_take]; omega)]
    rw [List.take_of_length_le (by omega), List.take_append,
      List.take_of_length_le (by omega)] at hkept
    rw [List.take_of_length_le (by omega : front.length ≤ width),
      List.append_cancel_left hkept]
    obtain ⟨room, hroom⟩ : ∃ room, width - front.length = room + 1 :=
      ⟨width - front.length - 1, by omega⟩
    simp only [List.take_append, hroom, List.take_succ_cons, List.take_take]
    rw [Nat.min_eq_left (by omega)]

/-- What is not in the head of a ranking has left it for candidates that are as heavy. -/
theorem outdone_of_not_mem
    (hid : id ∈ distinct stored ids)
    (hdropped : id ∉ (ranking stored ids).take width) :
    Outdone stored width ((ranking stored ids).take width) id := by
  have hranking := isRanking_ranking stored ids
  have hrest : id ∈ (ranking stored ids).drop width := by
    have hmem := hranking.perm.mem_iff.2 hid
    rw [← List.take_append_drop width (ranking stored ids), List.mem_append] at hmem
    exact hmem.resolve_left hdropped
  have hordered := hranking.ordered
  rw [← List.take_append_drop width (ranking stored ids), List.pairwise_append] at hordered
  have hpos := List.length_pos_of_mem hrest
  rw [List.length_drop] at hpos
  exact ⟨by rw [List.length_take]; omega, fun y hy => (hordered.2.2 y hy id hrest).1⟩

/-- A structure that is outdone does not come back. -/
theorem Outdone.insert_of_congruent
    (h : Outdone stored width pool x)
    (hid : (stored id).Congruent (stored x)) :
    Pool.insert stored width pool id = pool := by
  have hfront : pool.takeWhile (fun k => (stored id).weight ≤ (stored k).weight) = pool := by
    rw [List.takeWhile_eq_self_iff]
    intro y hy
    rw [hid.2.1]
    exact decide_eq_true (h.heavier y hy)
  unfold Pool.insert
  split
  · rfl
  · dsimp only
    rw [hfront, if_pos (Nat.le_of_eq h.full.symm)]

/-- Whatever is inserted, a structure that has been outdone stays away. -/
theorem Outdone.not_congruent_foldl
    (h : Outdone stored width pool x)
    (haway : ∀ k ∈ pool, ¬ (stored k).Congruent (stored x))
    (ids : List CandidateId) :
    ∀ k ∈ ids.foldl (Pool.insert stored width) pool, ¬ (stored k).Congruent (stored x) := by
  induction ids generalizing pool with
  | nil => exact haway
  | cons id rest ih =>
    refine ih (h.insert id) fun k hk hcongruent => ?_
    rcases mem_insert hk with hold | rfl
    · exact haway k hold hcongruent
    · rw [h.insert_of_congruent hcongruent] at hk
      exact haway k hk hcongruent

/-- A structure that is kept is not inserted again. -/
theorem insert_of_congruent
    (hx : x ∈ pool)
    (h : (stored x).Congruent (stored id)) :
    insert stored width pool id = pool := by
  rw [insert, if_pos (List.any_eq_true.2 ⟨x, hx, decide_eq_true h⟩)]

/-- Inserting leads from the head of one ranking to the head of the next one. -/
theorem insert_take_ranking
    (stored : CandidateId → Candidate)
    (width : Nat)
    (ids : List CandidateId)
    (id : CandidateId) :
    insert stored width ((ranking stored ids).take width) id =
      (ranking stored (ids ++ [id])).take width := by
  have hmem : ∀ {k}, k ∈ (ranking stored ids).take width → k ∈ distinct stored ids := fun hk =>
    (isRanking_ranking stored ids).perm.mem_iff.1 (List.mem_of_mem_take hk)
  rw [ranking_append]
  by_cases hany : ((distinct stored ids).any fun k => (stored id).Congruent (stored k)) = true
  · obtain ⟨k, hk, hcongruent⟩ := List.any_eq_true.1 hany
    have hsame := of_decide_eq_true hcongruent
    rw [if_pos hany]
    by_cases hkept : k ∈ (ranking stored ids).take width
    · exact insert_of_congruent hkept hsame.symm
    · exact (outdone_of_not_mem hk hkept).insert_of_congruent hsame
  · rw [if_neg hany, ← take_splice, insert, if_neg]
    · rfl
    · intro hkept
      obtain ⟨k, hk, hcongruent⟩ := List.any_eq_true.1 hkept
      exact hany (List.any_eq_true.2 ⟨k, hmem hk,
        decide_eq_true (of_decide_eq_true hcongruent).symm⟩)

/-- A beam is the head of the ranking of all that has been inserted. -/
theorem ofList_eq_take
    (stored : CandidateId → Candidate)
    (width : Nat)
    (ids : List CandidateId) :
    ofList stored width ids = (ranking stored ids).take width := by
  induction ids using List.reverseRecOn with
  | nil => simp [ofList, ranking, distinct, List.eraseDupsBy, List.eraseDupsBy.loop]
  | append_singleton front id ih =>
    have hstep : ofList stored width (front ++ [id]) =
        insert stored width (ofList stored width front) id := by
      rw [ofList, ofList, List.foldl_append]
      rfl
    rw [hstep, ih, insert_take_ranking]

/--
A beam is the head of the ranking of all that has been inserted. So nothing that is kept is
lighter than a structure that is dropped, of kept candidates that weigh the same the
one that was inserted first stands first, and a structure that has left the beam does not
come back.
-/
theorem ofList_heads_ranking
    (stored : CandidateId → Candidate)
    (width : Nat)
    (ids : List CandidateId) :
    ofList stored width ids = (ranking stored ids).take width ∧
      (∀ x ∈ ofList stored width ids, ∀ y ∈ distinct stored ids, y ∉ ofList stored width ids →
        (stored y).weight ≤ (stored x).weight) ∧
      ((ofList stored width ids).Pairwise fun x y => (stored y).weight ≤ (stored x).weight ∧
        ((stored x).weight = (stored y).weight → [x, y].Sublist (distinct stored ids))) ∧
      ∀ front back, ids = front ++ back → ∀ z ∈ front,
        (∀ k ∈ ofList stored width front, ¬ (stored k).Congruent (stored z)) →
        ∀ k ∈ ofList stored width ids, ¬ (stored k).Congruent (stored z) := by
  have hhead := ofList_eq_take stored width ids
  refine ⟨hhead, ?_, ?_, ?_⟩
  · intro x hx y hy hdropped
    rw [hhead] at hx hdropped
    exact (outdone_of_not_mem hy hdropped).heavier x hx
  · rw [hhead]
    refine (List.Pairwise.sublist (List.take_sublist _ _)
      (isRanking_ranking stored ids).ordered).imp fun {x y} hxy => ⟨hxy.1, fun heq => hxy.2 ?_⟩
    rw [heq]
    exact Weight.le_refl _
  · rintro front back rfl z hz haway
    obtain ⟨k, hk, hcongruent⟩ : ∃ k ∈ distinct stored front,
        (stored z).Congruent (stored k) := exists_mem_distinct hz
    have haway' : ∀ j ∈ ofList stored width front, ¬ (stored j).Congruent (stored k) :=
      fun j hj hsame => haway j hj (hsame.trans hcongruent.symm)
    have houtdone : Outdone stored width (ofList stored width front) k := by
      rw [ofList_eq_take] at haway' ⊢
      exact outdone_of_not_mem hk fun hkept => haway' k hkept (.refl _)
    intro j hj hsame
    rw [ofList, List.foldl_append] at hj
    exact houtdone.not_congruent_foldl haway' back j hj (hsame.trans hcongruent)

/-- Candidates that differ in their weights, or in their items. -/
def weighted : CandidateId → Candidate
  | ⟨0⟩ => { root := ⟨0⟩, weight := .ofInt 3 }
  | ⟨1⟩ => { root := ⟨1⟩, weight := .ofInt 7 }
  | ⟨2⟩ => { root := ⟨2⟩, weight := .ofInt 7 }
  | ⟨3⟩ => { root := ⟨0⟩, weight := .ofInt 3 }
  | ⟨k⟩ => { root := ⟨k⟩, weight := .ofInt 5 }

/-- The first candidate is evicted from a beam of two, and its duplicate does not come back. -/
theorem ofList_heads_ranking_sample :
    ofList weighted 2 [⟨0⟩, ⟨1⟩, ⟨2⟩, ⟨3⟩] = [⟨1⟩, ⟨2⟩] ∧
      [(⟨1⟩ : CandidateId), ⟨2⟩].Sublist (distinct weighted [⟨0⟩, ⟨1⟩, ⟨2⟩, ⟨3⟩]) ∧
      (weighted ⟨3⟩).Congruent (weighted ⟨0⟩) ∧
      ∀ k ∈ ofList weighted 2 [⟨0⟩, ⟨1⟩, ⟨2⟩, ⟨3⟩], ¬ (weighted k).Congruent (weighted ⟨0⟩) := by
  obtain ⟨-, -, hordered, haway⟩ := ofList_heads_ranking weighted 2 [⟨0⟩, ⟨1⟩, ⟨2⟩, ⟨3⟩]
  have hbeam : ofList weighted 2 [⟨0⟩, ⟨1⟩, ⟨2⟩, ⟨3⟩] = [⟨1⟩, ⟨2⟩] := by decide
  refine ⟨hbeam, ?_, by decide, ?_⟩
  · rw [hbeam, List.pairwise_cons] at hordered
    exact (hordered.1 ⟨2⟩ (by simp)).2 rfl
  · exact haway [⟨0⟩, ⟨1⟩, ⟨2⟩] [⟨3⟩] rfl ⟨0⟩ (by simp) (by decide)

end Head

end Pool

end BeamChart
