import BeamChart.Candidate.Basic

/-!
# Pools

The pool of an item is a beam: at most `width` candidates in the order of
falling weight, no two of the same structure. `Pool.insert` keeps it so.
-/

namespace BeamChart

namespace Pool

/--
Inserts a candidate behind everything that is at least as heavy. A candidate
with the structure of a kept one, or with no room before the end of the beam,
is dropped.
-/
def insert
    (stored : CandidateId → Candidate)
    (width : Nat)
    (pool : List CandidateId)
    (id : CandidateId) : List CandidateId :=
  if pool.any fun k => (stored k).Congruent (stored id) then pool
  else
    let heavier (k : CandidateId) : Bool := (stored id).weight ≤ (stored k).weight
    let front := pool.takeWhile heavier
    if width ≤ front.length then pool
    else (front ++ id :: pool.dropWhile heavier).take width

/-- The beam of a list of candidates. -/
def ofList
    (stored : CandidateId → Candidate)
    (width : Nat)
    (ids : List CandidateId) : List CandidateId :=
  ids.foldl (insert stored width) []

/-- A beam never outgrows its width. -/
theorem length_insert_le
    (stored : CandidateId → Candidate)
    {width : Nat}
    {pool : List CandidateId}
    (id : CandidateId)
    (h : pool.length ≤ width) :
    (insert stored width pool id).length ≤ width := by
  unfold insert
  split
  · exact h
  · dsimp only
    split
    · exact h
    · simp only [List.length_take]
      omega

theorem length_foldl_insert_le
    (stored : CandidateId → Candidate)
    {width : Nat}
    (ids pool : List CandidateId)
    (h : pool.length ≤ width) :
    (ids.foldl (insert stored width) pool).length ≤ width := by
  induction ids generalizing pool with
  | nil => exact h
  | cons id rest ih => exact ih _ (length_insert_le stored id h)

/-- The beam of a list has at most `width` candidates. -/
theorem length_ofList_le
    (stored : CandidateId → Candidate)
    (width : Nat)
    (ids : List CandidateId) :
    (ofList stored width ids).length ≤ width :=
  length_foldl_insert_le stored ids [] (Nat.zero_le width)

end Pool

end BeamChart
