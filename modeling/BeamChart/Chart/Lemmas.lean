import BeamChart.Chart.Basic

/-!
# Reading a chart after a change

What `Chart.item` and `Chart.candidate` give after each of the operations
that change the arenas. Taking a place leaves the earlier places as they are,
and a change at one place leaves the others as they are.
-/

namespace BeamChart

namespace Chart

section Items

/-- A new item does not change the earlier ones. -/
theorem item_pushItem_of_lt
    {c : Chart}
    {u : ItemId}
    (i : Item)
    (h : u.index < c.items.size) :
    (c.pushItem i).item u = c.item u := by
  simp only [item, pushItem, Array.getElem?_push]
  rw [if_neg (Nat.ne_of_lt h)]

/-- A new item is found at the place it was given. -/
@[simp] theorem item_pushItem_nextItem (c : Chart) (i : Item) :
    (c.pushItem i).item c.nextItem = i := by
  simp [item, pushItem, nextItem]

/-- A change reaches the item at its place. -/
theorem item_modifyItem_self
    {c : Chart}
    {u : ItemId}
    (f : Item → Item)
    (h : u.index < c.items.size) :
    (c.modifyItem u f).item u = f (c.item u) := by
  simp [item, modifyItem, Array.getElem?_modify, Array.getElem?_eq_getElem h]

/-- A change reaches no other item. -/
theorem item_modifyItem_of_ne
    {c : Chart}
    {u v : ItemId}
    (f : Item → Item)
    (h : u ≠ v) :
    (c.modifyItem u f).item v = c.item v := by
  have hindex : u.index ≠ v.index := by
    intro he
    apply h
    cases u
    cases v
    simpa using he
  simp only [item, modifyItem, Array.getElem?_modify, if_neg hindex]

/-- What is read at a place after a new item has been appended. -/
theorem item_pushItem (c : Chart) (i : Item) (u : ItemId) :
    (c.pushItem i).item u = if u = c.nextItem then i else c.item u := by
  split
  · rename_i h
    rw [h, item_pushItem_nextItem]
  · rename_i h
    have hne : u.index ≠ c.items.size := by
      intro he
      apply h
      cases u
      simp only at he
      rw [he, nextItem]
    simp only [item, pushItem, Array.getElem?_push, if_neg hne]

/-- What is read at a place after an item has been changed. -/
theorem item_modifyItem (c : Chart) (u : ItemId) (f : Item → Item) (v : ItemId) :
    (c.modifyItem u f).item v =
      if v = u ∧ u.index < c.items.size then f (c.item u) else c.item v := by
  by_cases hv : v = u
  · subst hv
    by_cases hlt : v.index < c.items.size
    · rw [if_pos ⟨rfl, hlt⟩, item_modifyItem_self f hlt]
    · rw [if_neg (fun h => hlt h.2)]
      have hle : c.items.size ≤ v.index := Nat.le_of_not_lt hlt
      simp [item, modifyItem, Array.getElem?_modify, Array.getElem?_eq_none hle]
  · rw [if_neg (fun h => hv h.1), item_modifyItem_of_ne f (fun h => hv h.symm)]

/-- A place that is not taken reads as a blank item. -/
theorem item_of_size_le
    {c : Chart}
    {u : ItemId}
    (h : c.items.size ≤ u.index) :
    c.item u = {} := by
  simp [item, Array.getElem?_eq_none h]

/-- An item that was seen has been stored. -/
theorem lt_size_of_present
    {c : Chart}
    {u : ItemId}
    (h : (c.item u).present = true) :
    u.index < c.items.size := by
  by_cases hlt : u.index < c.items.size
  · exact hlt
  · rw [item_of_size_le (Nat.le_of_not_lt hlt)] at h
    cases h

/-- Two changes of an item make one. -/
theorem modifyItem_modifyItem (c : Chart) (u : ItemId) (f g : Item → Item) :
    (c.modifyItem u g).modifyItem u f = c.modifyItem u fun i => f (g i) := by
  have harray : (c.items.modify u.index g).modify u.index f =
      c.items.modify u.index fun i => f (g i) := by
    apply Array.ext
    · simp
    · intro k hk hk'
      simp only [Array.getElem_modify]
      split <;> rfl
  simp only [modifyItem, harray]

/-- Changes that agree on an item agree on the chart. -/
theorem modifyItem_congr
    {c : Chart}
    {u : ItemId}
    {f g : Item → Item}
    (h : f (c.item u) = g (c.item u)) :
    c.modifyItem u f = c.modifyItem u g := by
  have harray : c.items.modify u.index f = c.items.modify u.index g := by
    apply Array.ext
    · simp
    · intro k hk hk'
      have hlt : k < c.items.size := by simpa using hk
      simp only [Array.getElem_modify]
      split
      · rename_i he
        have hitem : c.item u = c.items[k] := by
          simp [item, he, Array.getElem?_eq_getElem hlt]
        rw [← hitem]
        exact h
      · rfl
  simp only [modifyItem, harray]

/-- Items are not read off the tally. -/
@[simp] theorem item_count (c : Chart) (f : Tally → Tally) (u : ItemId) :
    (c.count f).item u = c.item u := rfl

/-- Items are not read off the candidates. -/
@[simp] theorem item_modifyCandidate
    (c : Chart)
    (x : CandidateId)
    (f : Candidate → Candidate)
    (u : ItemId) :
    (c.modifyCandidate x f).item u = c.item u := rfl

/-- The number of items does not change with an item. -/
@[simp] theorem size_items_modifyItem
    (c : Chart)
    (u : ItemId)
    (f : Item → Item) :
    (c.modifyItem u f).items.size = c.items.size := by
  simp [modifyItem]

end Items

section Candidates

/-- Appends a candidate. -/
def pushCandidate (c : Chart) (x : Candidate) : Chart :=
  { c with
    candidates := c.candidates.push x
    tally := { c.tally with candidates := c.tally.candidates + 1 } }

/-- What is read at a place after a candidate has been appended. -/
theorem candidate_pushCandidate (c : Chart) (x : Candidate) (y : CandidateId) :
    (c.pushCandidate x).candidate y = if y = c.nextCandidate then x else c.candidate y := by
  split
  · rename_i h
    simp [h, candidate, pushCandidate, nextCandidate]
  · rename_i h
    have hne : y.index ≠ c.candidates.size := by
      intro he
      apply h
      cases y
      simp only at he
      rw [he, nextCandidate]
    simp only [candidate, pushCandidate, Array.getElem?_push, if_neg hne]

/-- Items are not read off a new candidate. -/
@[simp] theorem item_pushCandidate (c : Chart) (x : Candidate) (u : ItemId) :
    (c.pushCandidate x).item u = c.item u := rfl

/-- The number of candidates grows by one. -/
@[simp] theorem size_candidates_pushCandidate (c : Chart) (x : Candidate) :
    (c.pushCandidate x).candidates.size = c.candidates.size + 1 := by
  simp [pushCandidate]

/-- A place that is not taken reads as a seed. -/
theorem candidate_of_size_le
    {c : Chart}
    {x : CandidateId}
    (h : c.candidates.size ≤ x.index) :
    c.candidate x = .seed ⟨0⟩ := by
  simp [candidate, Array.getElem?_eq_none h]

/-- A change reaches the candidate at its place. -/
theorem candidate_modifyCandidate_self
    {c : Chart}
    {x : CandidateId}
    (f : Candidate → Candidate)
    (h : x.index < c.candidates.size) :
    (c.modifyCandidate x f).candidate x = f (c.candidate x) := by
  simp [candidate, modifyCandidate, Array.getElem?_modify, Array.getElem?_eq_getElem h]

/-- A change reaches no other candidate. -/
theorem candidate_modifyCandidate_of_ne
    {c : Chart}
    {x y : CandidateId}
    (f : Candidate → Candidate)
    (h : x ≠ y) :
    (c.modifyCandidate x f).candidate y = c.candidate y := by
  have hindex : x.index ≠ y.index := by
    intro he
    apply h
    cases x
    cases y
    simpa using he
  simp only [candidate, modifyCandidate, Array.getElem?_modify, if_neg hindex]

/-- What is read at a place after a candidate has been changed. -/
theorem candidate_modifyCandidate
    (c : Chart)
    (x : CandidateId)
    (f : Candidate → Candidate)
    (y : CandidateId) :
    (c.modifyCandidate x f).candidate y =
      if y = x ∧ x.index < c.candidates.size then f (c.candidate x) else c.candidate y := by
  by_cases hy : y = x
  · subst hy
    by_cases hlt : y.index < c.candidates.size
    · rw [if_pos ⟨rfl, hlt⟩, candidate_modifyCandidate_self f hlt]
    · rw [if_neg (fun h => hlt h.2)]
      have hle : c.candidates.size ≤ y.index := Nat.le_of_not_lt hlt
      simp [candidate, modifyCandidate, Array.getElem?_modify, Array.getElem?_eq_none hle]
  · rw [if_neg (fun h => hy h.1), candidate_modifyCandidate_of_ne f (fun h => hy h.symm)]

/-- Candidates are not read off the tally. -/
@[simp] theorem candidate_count (c : Chart) (f : Tally → Tally) (x : CandidateId) :
    (c.count f).candidate x = c.candidate x := rfl

/-- Candidates are not read off the items. -/
@[simp] theorem candidate_modifyItem
    (c : Chart)
    (u : ItemId)
    (f : Item → Item)
    (x : CandidateId) :
    (c.modifyItem u f).candidate x = c.candidate x := rfl

/-- The number of candidates does not change with a candidate. -/
@[simp] theorem size_candidates_modifyCandidate
    (c : Chart)
    (x : CandidateId)
    (f : Candidate → Candidate) :
    (c.modifyCandidate x f).candidates.size = c.candidates.size := by
  simp [modifyCandidate]

end Candidates

section Allocation

/-- Appends a blank aggregate. -/
def pushAggregate (c : Chart) : Chart :=
  ({ c with aggregateCount := c.aggregateCount + 1 }.pushItem { isAggregate := true }).count
    fun t => { t with aggregates := t.aggregates + 1 }

/-- What is read at a place after an aggregate has been appended. -/
theorem item_pushAggregate (c : Chart) (u : ItemId) :
    c.pushAggregate.item u = if u = c.nextItem then { isAggregate := true } else c.item u :=
  item_pushItem c _ u

/-- Candidates are not read off a new aggregate. -/
@[simp] theorem candidate_pushAggregate (c : Chart) (x : CandidateId) :
    c.pushAggregate.candidate x = c.candidate x := rfl

/-- An item is appended, or the refusal is counted. -/
theorem allocateItem_cases (c : Chart) :
    (c.plainItems < c.settings.itemCapacity ∧
      c.allocateItem = (.ok c.nextItem, c.pushItem {})) ∨
    c.allocateItem = (.error (.exhausted .items), c.refused) := by
  unfold allocateItem
  split
  · exact Or.inr rfl
  · rename_i h
    exact Or.inl ⟨Nat.lt_of_not_le h, rfl⟩

/-- An aggregate is appended, or the refusal is counted. -/
theorem allocateAggregate_cases (c : Chart) :
    (c.aggregateCount < c.settings.aggregateCapacity ∧
      c.allocateAggregate = (.ok c.nextItem, c.pushAggregate)) ∨
    c.allocateAggregate = (.error (.exhausted .aggregates), c.refused) := by
  unfold allocateAggregate
  split
  · exact Or.inr rfl
  · rename_i h
    exact Or.inl ⟨Nat.lt_of_not_le h, rfl⟩

/-- Where there is room, a candidate is appended. -/
theorem store_of_room
    {c : Chart}
    (h : c.candidatesFull = false)
    (x : Candidate) :
    c.store x = (.ok c.nextCandidate, c.pushCandidate x) := by
  simp [store, h, pushCandidate]

/-- A candidate is appended, or the refusal is counted. -/
theorem store_cases (c : Chart) (x : Candidate) :
    (c.candidatesFull = false ∧ c.store x = (.ok c.nextCandidate, c.pushCandidate x)) ∨
    c.store x = (.error (.exhausted .candidates), c.refused) := by
  unfold store
  split
  · exact Or.inr rfl
  · rename_i h
    exact Or.inl ⟨eq_false_of_ne_true h, rfl⟩

end Allocation

end Chart

end BeamChart
