import BeamChart.Proofs.Chart.Sound
import Mathlib.Data.List.Forall2
import Mathlib.Data.List.Perm.Subperm

/-!
# Pools are beams

`Pool.insert` keeps a beam a beam: what is dropped is lighter, and what is
inserted finds its place by weight (`IsBeam.insert`). Candidates that are lifted
from the members of a beam, each as the child of a new one, form a beam again
(`isBeam_of_lifts`), since each has the weight of its child and differs from the
others in it.
-/

namespace BeamChart

namespace Weight

theorem le_refl (a : Weight) :
    a ≤ a :=
  Int.le_refl a.toInt

theorem le_trans
    {a b c : Weight}
    (h : a ≤ b)
    (k : b ≤ c) :
    a ≤ c :=
  Int.le_trans h k

theorem le_of_not_le
    {a b : Weight}
    (h : ¬ a ≤ b) :
    b ≤ a := by
  rw [le_iff] at h ⊢
  omega

end Weight

namespace Pool

variable {stored : CandidateId → Candidate} {width : Nat}

theorem mem_insert
    {pool : List CandidateId}
    {id x : CandidateId}
    (h : x ∈ insert stored width pool id) :
    x ∈ pool ∨ x = id := by
  unfold insert at h
  split at h
  · exact Or.inl h
  · dsimp only at h
    split at h
    · exact Or.inl h
    · have hmem := List.mem_of_mem_take h
      rcases List.mem_append.1 hmem with hfront | hback
      · exact Or.inl (List.takeWhile_subset _ hfront)
      · rcases List.mem_cons.1 hback with rfl | hrest
        · exact Or.inr rfl
        · exact Or.inl ((List.dropWhile_sublist _).mem hrest)

/-- A beam that has a width keeps something. -/
theorem insert_ne_nil
    (hwidth : 1 ≤ width)
    (pool : List CandidateId)
    (id : CandidateId) :
    insert stored width pool id ≠ [] := by
  unfold insert
  split
  · rename_i hany
    rintro rfl
    cases hany
  · dsimp only
    split
    · rename_i hfront
      rintro rfl
      exact Nat.not_le_of_lt hwidth hfront
    · intro h
      rcases List.take_eq_nil_iff.1 h with hzero | hnil
      · omega
      · exact List.cons_ne_nil _ _ (List.append_eq_nil_iff.1 hnil).2

theorem mem_foldl_insert
    (ids pool : List CandidateId)
    {x : CandidateId}
    (h : x ∈ ids.foldl (insert stored width) pool) :
    x ∈ pool ∨ x ∈ ids := by
  induction ids generalizing pool with
  | nil => exact Or.inl h
  | cons id rest ih =>
    rcases ih (insert stored width pool id) h with hpool | hrest
    · rcases mem_insert hpool with hold | rfl
      · exact Or.inl hold
      · exact Or.inr List.mem_cons_self
    · exact Or.inr (List.mem_cons_of_mem id hrest)

theorem mem_of_mem_ofList
    {ids : List CandidateId}
    {x : CandidateId}
    (h : x ∈ ofList stored width ids) :
    x ∈ ids :=
  (mem_foldl_insert ids [] h).resolve_left (fun h => by cases h)

/-- Behind the front of a list that falls in weight everything is lighter. -/
theorem lighter_of_mem_dropWhile
    {pool : List CandidateId}
    {w : Weight}
    (h : pool.Pairwise fun x y => (stored y).weight ≤ (stored x).weight)
    {y : CandidateId}
    (hy : y ∈ pool.dropWhile fun k => w ≤ (stored k).weight) :
    (stored y).weight ≤ w := by
  induction pool with
  | nil => cases hy
  | cons x rest ih =>
    rw [List.pairwise_cons] at h
    rw [List.dropWhile_cons] at hy
    split at hy
    · exact ih h.2 hy
    · rename_i hx
      have hxw : (stored x).weight ≤ w := Weight.le_of_not_le (by simpa using hx)
      rcases List.mem_cons.1 hy with rfl | hrest
      · exact hxw
      · exact Weight.le_trans (h.1 y hrest) hxw

namespace IsBeam

theorem nil (stored : CandidateId → Candidate) (width : Nat) :
    IsBeam stored width [] :=
  ⟨Nat.zero_le width, List.Pairwise.nil⟩

theorem mono
    {pool : List CandidateId}
    (h : IsBeam stored width pool)
    {wider : Nat}
    (hle : width ≤ wider) :
    IsBeam stored wider pool :=
  ⟨Nat.le_trans h.length_le hle, h.ranked⟩

theorem falling
    {pool : List CandidateId}
    (h : IsBeam stored width pool) :
    pool.Pairwise fun x y => (stored y).weight ≤ (stored x).weight :=
  h.ranked.imp fun hr => hr.1

theorem sublist
    {pool part : List CandidateId}
    (h : IsBeam stored width pool)
    (hpart : part.Sublist pool) :
    IsBeam stored width part :=
  ⟨Nat.le_trans hpart.length_le h.length_le, h.ranked.sublist hpart⟩

/-- A candidate of a new structure has its place in a beam. -/
theorem ranked_splice
    {pool : List CandidateId}
    {id : CandidateId}
    (h : IsBeam stored width pool)
    (hapart : ∀ k ∈ pool, ¬ (stored k).Congruent (stored id)) :
    ((pool.takeWhile fun k => (stored id).weight ≤ (stored k).weight) ++
      id :: pool.dropWhile fun k => (stored id).weight ≤ (stored k).weight).Pairwise
        (Ranked stored) := by
  have hsplit := h.ranked
  rw [← List.takeWhile_append_dropWhile
    (p := fun k => decide ((stored id).weight ≤ (stored k).weight)) (l := pool),
    List.pairwise_append] at hsplit
  obtain ⟨hfront, hback, hcross⟩ := hsplit
  rw [List.pairwise_append, List.pairwise_cons]
  refine ⟨hfront, ⟨?_, hback⟩, ?_⟩
  · intro y hy
    refine ⟨lighter_of_mem_dropWhile h.falling hy, fun hcongruent => ?_⟩
    exact hapart y ((List.dropWhile_sublist _).mem hy) hcongruent.symm
  · intro x hx y hy
    rcases List.mem_cons.1 hy with rfl | hrest
    · have hheavy := List.all_eq_true.1 List.all_takeWhile x hx
      exact ⟨of_decide_eq_true hheavy, hapart x (List.takeWhile_subset _ hx)⟩
    · exact hcross x hx y hrest

theorem insert
    {pool : List CandidateId}
    (h : IsBeam stored width pool)
    (id : CandidateId) :
    IsBeam stored width (Pool.insert stored width pool id) := by
  refine ⟨length_insert_le stored id h.length_le, ?_⟩
  unfold Pool.insert
  split
  · exact h.ranked
  · rename_i hnew
    dsimp only
    split
    · exact h.ranked
    · refine (h.ranked_splice fun k hk hcongruent => hnew ?_).sublist (List.take_sublist _ _)
      rw [List.any_eq_true]
      exact ⟨k, hk, decide_eq_true hcongruent⟩

theorem ofList
    (stored : CandidateId → Candidate)
    (width : Nat)
    (ids : List CandidateId) :
    IsBeam stored width (Pool.ofList stored width ids) := by
  have hfold : ∀ pool, IsBeam stored width pool →
      IsBeam stored width (ids.foldl (Pool.insert stored width) pool) := by
    induction ids with
    | nil => exact fun _ h => h
    | cons id rest ih => exact fun pool h => ih _ (h.insert id)
  exact hfold [] (nil stored width)

end IsBeam

/-- Inserting loses nothing that is heavier than all the rest. -/
theorem exists_le_insert
    {pool : List CandidateId}
    (hwidth : 1 ≤ width)
    (h : pool.Pairwise fun x y => (stored y).weight ≤ (stored x).weight)
    (id : CandidateId)
    {x : CandidateId}
    (hx : x ∈ pool ∨ x = id) :
    ∃ y ∈ insert stored width pool id, (stored x).weight ≤ (stored y).weight := by
  unfold insert
  split
  · rename_i hany
    rcases hx with hmem | rfl
    · exact ⟨x, hmem, Weight.le_refl _⟩
    · obtain ⟨k, hk, hcongruent⟩ := List.any_eq_true.1 hany
      have hweight := (of_decide_eq_true hcongruent).2.1
      exact ⟨k, hk, by rw [hweight]; exact Weight.le_refl _⟩
  · cases pool with
    | nil =>
      have hx' : x = id := hx.resolve_left (fun h => by cases h)
      rw [hx']
      refine ⟨id, ?_, Weight.le_refl _⟩
      simp [Nat.not_le_of_lt hwidth, List.take_of_length_le, hwidth]
    | cons first rest =>
      have hfirst : ∀ y ∈ first :: rest, (stored y).weight ≤ (stored first).weight := by
        intro y hy
        rcases List.mem_cons.1 hy with rfl | hmem
        · exact Weight.le_refl _
        · exact (List.pairwise_cons.1 h).1 y hmem
      dsimp only
      by_cases hheavy : (stored id).weight ≤ (stored first).weight
      · have hmem : ∀ y, y ∈ first :: rest ∨ y = id →
            (stored y).weight ≤ (stored first).weight := by
          rintro y (hy | rfl)
          · exact hfirst y hy
          · exact hheavy
        refine ⟨first, ?_, hmem x hx⟩
        split
        · exact List.mem_cons_self
        · obtain ⟨room, rfl⟩ : ∃ room, width = room + 1 := ⟨width - 1, by omega⟩
          simp [hheavy]
      · have hmem : ∀ y, y ∈ first :: rest ∨ y = id →
            (stored y).weight ≤ (stored id).weight := by
          rintro y (hy | rfl)
          · exact Weight.le_trans (hfirst y hy) (Weight.le_of_not_le hheavy)
          · exact Weight.le_refl _
        refine ⟨id, ?_, hmem x hx⟩
        obtain ⟨room, rfl⟩ : ∃ room, width = room + 1 := ⟨width - 1, by omega⟩
        simp [hheavy]

theorem exists_le_ofList
    (hwidth : 1 ≤ width)
    {ids : List CandidateId}
    {x : CandidateId}
    (hx : x ∈ ids) :
    ∃ y ∈ ofList stored width ids, (stored x).weight ≤ (stored y).weight := by
  have hfold : ∀ (ids pool : List CandidateId), IsBeam stored width pool →
      ∀ x, x ∈ pool ∨ x ∈ ids →
      ∃ y ∈ ids.foldl (insert stored width) pool, (stored x).weight ≤ (stored y).weight := by
    intro ids
    induction ids with
    | nil => exact fun pool _ x hx => ⟨x, hx.resolve_right (fun h => by cases h), Weight.le_refl _⟩
    | cons id rest ih =>
      intro pool hbeam x hx
      have hkept : ∀ z, z ∈ pool ∨ z = id → ∃ y ∈ (id :: rest).foldl (insert stored width) pool,
          (stored z).weight ≤ (stored y).weight := by
        intro z hz
        obtain ⟨y, hy, hzy⟩ := exists_le_insert hwidth hbeam.falling id hz
        obtain ⟨w, hw, hyw⟩ := ih _ (hbeam.insert id) y (Or.inl hy)
        exact ⟨w, hw, Weight.le_trans hzy hyw⟩
      rcases hx with hmem | hmem
      · exact hkept x (Or.inl hmem)
      · rcases List.mem_cons.1 hmem with rfl | hrest
        · exact hkept x (Or.inr rfl)
        · exact ih _ (hbeam.insert id) x (Or.inr hrest)
  exact hfold ids [] (.nil stored width) x (Or.inr hx)

section Apart

/-- Structures are different in pairs. -/
def Apart (stored : CandidateId → Candidate) (ids : List CandidateId) : Prop :=
  ids.Pairwise fun x y => ¬ (stored x).Congruent (stored y)

theorem Apart.nodup
    {ids : List CandidateId}
    (h : Apart stored ids) :
    ids.Nodup := by
  refine List.Pairwise.imp (fun hxy heq => hxy ?_) h
  rw [heq]

theorem IsBeam.apart
    {pool : List CandidateId}
    (h : IsBeam stored width pool) :
    Apart stored pool :=
  h.ranked.imp fun hr => hr.2

/-- All places of a beam are taken by candidates that are as heavy. -/
structure Outdone
    (stored : CandidateId → Candidate)
    (width : Nat)
    (pool : List CandidateId)
    (z : CandidateId) : Prop where
  full : pool.length = width
  heavier : ∀ y ∈ pool, (stored z).weight ≤ (stored y).weight

/-- What takes a place in a full beam is heavier than the last one there. -/
theorem Outdone.insert
    {pool : List CandidateId}
    {z : CandidateId}
    (h : Outdone stored width pool z)
    (id : CandidateId) :
    Outdone stored width (insert stored width pool id) z := by
  unfold Pool.insert
  split
  · exact h
  · dsimp only
    split
    · exact h
    · rename_i hroom
      have hsplit := List.takeWhile_append_dropWhile
        (p := fun k => decide ((stored id).weight ≤ (stored k).weight)) (l := pool)
      have hlength := congrArg List.length hsplit
      rw [List.length_append, h.full] at hlength
      refine ⟨?_, fun y hy => ?_⟩
      · rw [List.length_take, List.length_append, List.length_cons]
        omega
      · rcases List.mem_append.1 (List.mem_of_mem_take hy) with hfront | hback
        · exact h.heavier y (List.takeWhile_subset _ hfront)
        · rcases List.mem_cons.1 hback with rfl | hrest
          · cases hlast : pool.dropWhile fun k => (stored y).weight ≤ (stored k).weight with
            | nil =>
              rw [hlast, List.length_nil] at hlength
              omega
            | cons k rest =>
              have hk : k ∈ (pool.takeWhile fun k => (stored y).weight ≤ (stored k).weight) ++
                  pool.dropWhile fun k => (stored y).weight ≤ (stored k).weight := by
                rw [hlast]
                exact List.mem_append_right _ List.mem_cons_self
              rw [hsplit] at hk
              have hlight : ¬ (stored y).weight ≤ (stored k).weight := by
                have hhead := List.head?_dropWhile_not
                  (fun k => decide ((stored y).weight ≤ (stored k).weight)) pool
                rw [hlast] at hhead
                simpa using hhead
              exact Weight.le_trans (h.heavier k hk) (Weight.le_of_not_le hlight)
          · exact h.heavier y ((List.dropWhile_sublist _).mem hrest)

/-- A candidate of a new structure is dropped only for others that are as heavy. -/
theorem insert_of_apart
    {pool : List CandidateId}
    {id : CandidateId}
    (h : IsBeam stored width pool)
    (hapart : ∀ k ∈ pool, ¬ (stored k).Congruent (stored id)) :
    (insert stored width pool id).length = min width (pool.length + 1) ∧
      ∀ z, z ∈ pool ∨ z = id → z ∈ insert stored width pool id ∨
        Outdone stored width (insert stored width pool id) z := by
  have hranked := h.ranked_splice hapart
  have hsplit := List.takeWhile_append_dropWhile
    (p := fun k => decide ((stored id).weight ≤ (stored k).weight)) (l := pool)
  have hlength := congrArg List.length hsplit
  have hwidth := h.length_le
  rw [List.length_append] at hlength
  unfold insert
  rw [if_neg]
  · dsimp only
    split
    · rename_i hfull
      have hfront : (pool.takeWhile fun k => (stored id).weight ≤ (stored k).weight) = pool :=
        (List.takeWhile_sublist _).eq_of_length_le (by omega)
      refine ⟨by omega, fun z hz => hz.imp_right fun hid => ⟨by omega, fun y hy => ?_⟩⟩
      rw [← hfront] at hy
      rw [hid]
      exact of_decide_eq_true (List.all_eq_true.1 List.all_takeWhile y hy)
    · have htaken : ((pool.takeWhile fun k => (stored id).weight ≤ (stored k).weight) ++
          id :: pool.dropWhile fun k => (stored id).weight ≤ (stored k).weight).length =
            pool.length + 1 := by
        rw [List.length_append, List.length_cons]
        omega
      refine ⟨by rw [List.length_take, htaken], fun z hz => ?_⟩
      have hmem : z ∈ (pool.takeWhile fun k => (stored id).weight ≤ (stored k).weight) ++
          id :: pool.dropWhile fun k => (stored id).weight ≤ (stored k).weight := by
        rcases hz with hold | rfl
        · rw [← hsplit] at hold
          rcases List.mem_append.1 hold with hfront | hback
          · exact List.mem_append_left _ hfront
          · exact List.mem_append_right _ (List.mem_cons_of_mem id hback)
        · exact List.mem_append_right _ List.mem_cons_self
      rw [← List.take_append_drop width (_ ++ _), List.pairwise_append] at hranked
      rw [← List.take_append_drop width (_ ++ _), List.mem_append] at hmem
      refine hmem.imp_right fun hdropped => ⟨?_, fun y hy => (hranked.2.2 y hy z hdropped).1⟩
      have hpos := List.length_pos_of_mem hdropped
      rw [List.length_drop, htaken] at hpos
      rw [List.length_take, htaken]
      omega
  · rw [List.any_eq_true]
    rintro ⟨k, hk, hcongruent⟩
    exact hapart k hk (of_decide_eq_true hcongruent)

/-- As many of a list as there is room for, of which none is lighter than what is left out. -/
structure Heaviest
    (stored : CandidateId → Candidate)
    (width : Nat)
    (ids pool : List CandidateId) : Prop where
  length : pool.length = min width ids.length
  subset : pool ⊆ ids
  nodup : pool.Nodup
  kept : ∀ z ∈ ids, z ∈ pool ∨ Outdone stored width pool z

theorem Outdone.foldl
    {pool : List CandidateId}
    {z : CandidateId}
    (h : Outdone stored width pool z)
    (ids : List CandidateId) :
    Outdone stored width (ids.foldl (Pool.insert stored width) pool) z := by
  induction ids generalizing pool with
  | nil => exact h
  | cons id rest ih => exact ih (h.insert id)

theorem foldl_of_apart
    {ids pool : List CandidateId}
    (hbeam : IsBeam stored width pool)
    (hids : Apart stored ids)
    (hcross : ∀ k ∈ pool, ∀ x ∈ ids, ¬ (stored k).Congruent (stored x)) :
    (ids.foldl (insert stored width) pool).length = min width (pool.length + ids.length) ∧
      ∀ z, z ∈ pool ∨ z ∈ ids → z ∈ ids.foldl (insert stored width) pool ∨
        Outdone stored width (ids.foldl (insert stored width) pool) z := by
  induction ids generalizing pool with
  | nil =>
    refine ⟨?_, fun z hz => Or.inl (hz.resolve_right fun h => by cases h)⟩
    exact (Nat.min_eq_right hbeam.length_le).symm
  | cons id rest ih =>
    obtain ⟨hid, hrest⟩ := List.pairwise_cons.1 hids
    obtain ⟨hlength, hkept⟩ := insert_of_apart hbeam fun k hk => hcross k hk id List.mem_cons_self
    have hnew : ∀ k ∈ insert stored width pool id, ∀ x ∈ rest,
        ¬ (stored k).Congruent (stored x) := by
      intro k hk x hx
      rcases mem_insert hk with hold | rfl
      · exact hcross k hold x (List.mem_cons_of_mem id hx)
      · exact hid x hx
    obtain ⟨htotal, hall⟩ := ih (hbeam.insert id) hrest hnew
    have hfirst : ∀ w, w ∈ pool ∨ w = id →
        w ∈ rest.foldl (insert stored width) (insert stored width pool id) ∨
          Outdone stored width (rest.foldl (insert stored width) (insert stored width pool id)) w :=
      fun w hw => (hkept w hw).elim (fun hmem => hall w (Or.inl hmem)) fun hlight =>
        Or.inr (hlight.foldl rest)
    refine ⟨?_, fun z hz => ?_⟩
    · rw [List.foldl_cons, htotal, hlength, List.length_cons]
      omega
    · rcases hz with hold | hmem
      · exact hfirst z (Or.inl hold)
      · rcases List.mem_cons.1 hmem with rfl | hlater
        · exact hfirst z (Or.inr rfl)
        · exact hall z (Or.inr hlater)

/-- Of candidates that are apart, a beam keeps as many as it can, and the heaviest. -/
theorem heaviest_ofList
    {ids : List CandidateId}
    (h : Apart stored ids) :
    Heaviest stored width ids (ofList stored width ids) := by
  obtain ⟨hlength, hkept⟩ := foldl_of_apart (.nil stored width) h fun k hk => by cases hk
  rw [List.length_nil, Nat.zero_add] at hlength
  exact ⟨hlength, fun x hx => mem_of_mem_ofList hx, (IsBeam.ofList stored width ids).apart.nodup,
    fun z hz => hkept z (Or.inr hz)⟩

namespace Heaviest

variable {ids pool : List CandidateId}

/-- Where there is room for all, all are kept. -/
theorem mem_of_length_le
    (h : Heaviest stored width ids pool)
    (hroom : ids.length ≤ width)
    {z : CandidateId}
    (hz : z ∈ ids) :
    z ∈ pool := by
  have hperm : pool.Perm ids := by
    refine (List.subperm_of_subset h.nodup h.subset).perm_of_length_le ?_
    rw [h.length]
    exact Nat.le_min.2 ⟨hroom, Nat.le_refl _⟩
  exact hperm.mem_iff.2 hz

/-- Where there is no room for all, one that is not heavier than the kept ones is left out. -/
theorem exists_not_mem
    (h : Heaviest stored width ids pool)
    (hids : ids.Nodup)
    (hfull : width < ids.length) :
    ∃ z ∈ ids, z ∉ pool ∧ ∀ y ∈ pool, (stored z).weight ≤ (stored y).weight := by
  by_contra hnone
  have hall : ids ⊆ pool := fun z hz => by
    by_contra hdropped
    exact hnone ⟨z, hz, hdropped, ((h.kept z hz).resolve_left hdropped).heavier⟩
  have hle := (List.subperm_of_subset hids hall).length_le
  rw [h.length] at hle
  omega

/-- Where there is no room for all, the one that all others are heavier than is left out. -/
theorem not_mem_of_lightest
    (h : Heaviest stored width ids pool)
    (hids : ids.Nodup)
    (hfull : width < ids.length)
    {x : CandidateId}
    (hlightest : ∀ z ∈ ids, z ≠ x → ¬ (stored z).weight ≤ (stored x).weight) :
    x ∉ pool := by
  intro hx
  obtain ⟨z, hz, hdropped, hlight⟩ := h.exists_not_mem hids hfull
  refine hlightest z hz (fun heq => hdropped ?_) (hlight x hx)
  rw [heq]
  exact hx

end Heaviest

end Apart

end Pool

namespace Chart

variable {strict : Prop} {c c' : Chart} {u : ItemId} {r : Relation}

/-- What stands in one of two lists in step is related to something in the other. -/
theorem exists_of_mem_forall₂
    {α β : Type}
    {related : α → β → Prop}
    {xs : List α}
    {ys : List β}
    (h : List.Forall₂ related xs ys)
    {x : α}
    (hx : x ∈ xs) :
    ∃ y ∈ ys, related x y := by
  induction h with
  | nil => cases hx
  | @cons other y _ _ hrelated _ ih =>
    rcases List.mem_cons.1 hx with rfl | hrest
    · exact ⟨y, List.mem_cons_self, hrelated⟩
    · obtain ⟨z, hz, hlater⟩ := ih hrest
      exact ⟨z, List.mem_cons_of_mem y hz, hlater⟩

/-- A stored candidate of an item that has nothing but one child. -/
structure Lifts (c : Chart) (u : ItemId) (r : Relation) (id x : CandidateId) : Prop where
  has : c.Has id
  child : c.Has x
  root : (c.candidate id).root = u
  weight : (c.candidate id).weight = (c.candidate x).weight
  slots : (c.candidate id).slots = Slots.empty.set r (some ⟨x, 0⟩)

theorem Lifts.slot
    {id x : CandidateId}
    (h : c.Lifts u r id x) :
    (c.candidate id).slot r = some ⟨x, 0⟩ := by
  rw [Candidate.slot, h.slots, Slots.get_set_self]

theorem Lifts.extend
    {id x : CandidateId}
    (hl : c.Lifts u r id x)
    (h : Extends c c') :
    c'.Lifts u r id x where
  has := h.has hl.has
  child := h.has hl.child
  root := (h.root hl.has).trans hl.root
  weight := by
    rw [(h.congruent hl.has).2.1, (h.congruent hl.child).2.1]
    exact hl.weight
  slots := (h.congruent hl.has).2.2.2.1.trans hl.slots

theorem lifts_pushCandidate
    {x : CandidateId}
    (hx : c.Has x) :
    (c.pushCandidate ((Candidate.seed u).attach r ⟨x, 0⟩ (c.candidate x))).Lifts u r
      c.nextCandidate x := by
  refine ⟨has_nextCandidate c _, (Extends.pushCandidate c _).has hx, ?_, ?_, ?_⟩
  · rw [candidate_nextCandidate]
    rfl
  · rw [candidate_nextCandidate, candidate_pushCandidate, if_neg (ne_nextCandidate hx)]
    simp [Candidate.attach, Candidate.seed, Weight.zero_add]
  · rw [candidate_nextCandidate]
    rfl

theorem rootedAt_of_lifts
    {ids xs : List CandidateId}
    (h : List.Forall₂ (c.Lifts u r) ids xs) :
    c.RootedAt u ids := by
  intro id hid
  obtain ⟨x, -, hl⟩ := exists_of_mem_forall₂ h hid
  exact ⟨hl.has, hl.root⟩

/-- Of two ranked candidates the lifted ones are ranked alike. -/
theorem Lifts.ranked
    {id x other y : CandidateId}
    (hx : c.Lifts u r id x)
    (hy : c.Lifts u r other y)
    (h : Pool.Ranked c.candidate x y) :
    Pool.Ranked c.candidate id other := by
  refine ⟨?_, fun hcongruent => ?_⟩
  · rw [hx.weight, hy.weight]
    exact h.1
  · have hslots : (c.candidate id).slot r = (c.candidate other).slot r :=
      congrArg (fun s => Slots.get s r) hcongruent.2.2.2.1
    rw [hx.slot, hy.slot] at hslots
    cases hslots
    exact h.2 (Candidate.Congruent.refl _)

theorem isBeam_of_lifts
    {width : Nat}
    {ids xs : List CandidateId}
    (h : List.Forall₂ (c.Lifts u r) ids xs)
    (hbeam : Pool.IsBeam c.candidate width xs) :
    Pool.IsBeam c.candidate width ids := by
  refine ⟨?_, ?_⟩
  · rw [h.length_eq]
    exact hbeam.length_le
  · have hranked := hbeam.ranked
    clear hbeam
    induction h with
    | nil => exact List.Pairwise.nil
    | @cons id x ids xs hl hrest ih =>
      rw [List.pairwise_cons] at hranked ⊢
      refine ⟨fun other hother => ?_, ih hranked.2⟩
      obtain ⟨y, hy, hlifts⟩ := exists_of_mem_forall₂ hrest hother
      exact hl.ranked hlifts (hranked.1 y hy)

end Chart

end BeamChart
