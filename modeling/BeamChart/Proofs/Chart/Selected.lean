import BeamChart.Proofs.Chart.Beam

/-!
# What is selected

The selected candidate is one of the contenders, and none of them is heavier
(`exists_selected`). It is told by the list of the contenders and by their weights
(`select_congr`), so it changes only in favour of one of the items that have been
appended (`select_appended`).
-/

namespace BeamChart

namespace Chart

variable {c : Chart} {x : CandidateId}

section Reading

/-- The contenders of one item. -/
def contendersAt (c : Chart) (u : ItemId) : List (SymbolId × CandidateId) :=
  match (c.item u).present, (c.item u).symbol with
  | true, some s => ((c.item u).pool.filter fun x => !(c.candidate x).isEmpty).map (s, ·)
  | _, _ => []

theorem contenders_eq (c : Chart) :
    c.contenders = (List.range c.items.size).flatMap fun n => c.contendersAt ⟨n⟩ := by
  have hitems : c.items.toList = (List.range c.items.size).map fun n => c.item ⟨n⟩ := by
    apply List.ext_getElem
    · simp
    · intro n hn _
      have hlt : n < c.items.size := by simpa using hn
      simp [item, Array.getElem?_eq_getElem hlt]
  rw [contenders, hitems, List.flatMap_map]
  rfl

theorem mem_contendersAt
    {u : ItemId}
    {e : SymbolId × CandidateId}
    (h : e ∈ c.contendersAt u) :
    (c.item u).present = true ∧ e.2 ∈ (c.item u).pool := by
  unfold contendersAt at h
  split at h
  · rename_i hpresent _
    obtain ⟨x, hx, rfl⟩ := List.mem_map.1 h
    exact ⟨hpresent, (List.mem_filter.1 hx).1⟩
  · cases h

theorem contendersAt_congr
    {c' : Chart}
    {u : ItemId}
    (hpresent : (c'.item u).present = (c.item u).present)
    (hsymbol : (c'.item u).symbol = (c.item u).symbol)
    (hpool : (c'.item u).pool = (c.item u).pool)
    (hcandidate : ∀ x ∈ (c.item u).pool, c'.candidate x = c.candidate x) :
    c'.contendersAt u = c.contendersAt u := by
  have hfull : ((c.item u).pool.filter fun x => !(c'.candidate x).isEmpty) =
      (c.item u).pool.filter fun x => !(c.candidate x).isEmpty :=
    List.filter_congr fun x hx => by rw [hcandidate x hx]
  simp only [contendersAt, hpresent, hsymbol, hpool, hfull]

/-- What is preferred is told by the weights of the entries. -/
theorem foldl_prefer_congr
    {c' : Chart}
    (entries : List (SymbolId × CandidateId))
    (best : Option (SymbolId × CandidateId))
    (hentries : ∀ e ∈ entries, c'.weightOf e.2 = c.weightOf e.2)
    (hbest : ∀ b, best = some b → c'.weightOf b.2 = c.weightOf b.2) :
    entries.foldl c'.prefer best = entries.foldl c.prefer best := by
  induction entries generalizing best with
  | nil => rfl
  | cons e rest ih =>
    have he := hentries e List.mem_cons_self
    have hone : c'.prefer best e = c.prefer best e := by
      cases best with
      | none => rfl
      | some b => simp only [prefer, he, hbest b rfl]
    rw [List.foldl_cons, List.foldl_cons, hone]
    refine ih _ (fun a ha => hentries a (List.mem_cons_of_mem e ha)) fun b hb => ?_
    rcases foldl_prefer_mem [e] best hb with hmem | hold
    · rw [List.mem_singleton.1 hmem]
      exact he
    · exact hbest b hold

/-- The same is selected among the same contenders, if they weigh the same. -/
theorem select_congr
    {c' : Chart}
    (hcontenders : c'.contenders = c.contenders)
    (hweight : ∀ e ∈ c.contenders, c'.weightOf e.2 = c.weightOf e.2) :
    c'.select.1 = c.select.1 := by
  have hbest := foldl_prefer_congr c.contenders none hweight fun b hb => by cases hb
  rw [select, select, hcontenders, hbest]

/-- What is preferred in the end is the best so far, or one of the entries. -/
theorem foldl_prefer_cases
    (c : Chart)
    (entries : List (SymbolId × CandidateId))
    (best : Option (SymbolId × CandidateId)) :
    entries.foldl c.prefer best = best ∨ ∃ e ∈ entries, entries.foldl c.prefer best = some e := by
  induction entries generalizing best with
  | nil => exact Or.inl rfl
  | cons a rest ih =>
    have hone : c.prefer best a = best ∨ c.prefer best a = some a := by
      unfold prefer
      split
      · exact Or.inr rfl
      · split
        · exact Or.inr rfl
        · exact Or.inl rfl
    rw [List.foldl_cons]
    rcases ih (c.prefer best a) with heq | ⟨e, he, heq⟩ <;> rw [heq]
    · exact hone.imp_right fun h => ⟨a, List.mem_cons_self, h⟩
    · exact Or.inr ⟨e, List.mem_cons_of_mem a he, rfl⟩

/-- The same is selected as before, unless one of the items that have been appended is. -/
theorem select_appended
    {c' : Chart}
    (hitems : c.items.size ≤ c'.items.size)
    (hold : ∀ u, u.index < c.items.size → c'.contendersAt u = c.contendersAt u)
    (hweight : ∀ e ∈ c.contenders, c'.weightOf e.2 = c.weightOf e.2) :
    c'.select.1 = c.select.1 ∨
      ∃ u e, c.items.size ≤ u.index ∧ e ∈ c'.contendersAt u ∧ c'.select.1 = some e.2 := by
  obtain ⟨more, hmore⟩ := Nat.exists_eq_add_of_le hitems
  have hfirst : (List.range c.items.size).flatMap (fun n => c'.contendersAt ⟨n⟩) =
      (List.range c.items.size).flatMap fun n => c.contendersAt ⟨n⟩ :=
    List.flatMap_congr fun n hn => hold ⟨n⟩ (List.mem_range.1 hn)
  have hcontenders : c'.contenders = c.contenders ++
      ((List.range more).map (c.items.size + ·)).flatMap fun n => c'.contendersAt ⟨n⟩ := by
    rw [contenders_eq, contenders_eq, hmore, List.range_add, List.flatMap_append, hfirst]
  have hbest := foldl_prefer_congr c.contenders none hweight fun b hb => by cases hb
  rw [select, select, hcontenders, List.foldl_append, hbest]
  rcases foldl_prefer_cases c' _ (c.contenders.foldl c.prefer none) with heq | ⟨e, he, heq⟩
  · exact Or.inl (by rw [heq])
  · obtain ⟨n, hn, hmem⟩ := List.mem_flatMap.1 he
    obtain ⟨k, -, rfl⟩ := List.mem_map.1 hn
    exact Or.inr ⟨⟨c.items.size + k⟩, e, Nat.le_add_right _ _, hmem, by rw [heq]; rfl⟩

end Reading

/-- What is preferred is as heavy as both. -/
theorem le_of_prefer
    (c : Chart)
    (best : Option (SymbolId × CandidateId))
    (e : SymbolId × CandidateId) :
    ∃ b, c.prefer best e = some b ∧ c.weightOf e.2 ≤ c.weightOf b.2 ∧
      ∀ a, best = some a → c.weightOf a.2 ≤ c.weightOf b.2 := by
  unfold prefer
  split
  · exact ⟨e, rfl, Weight.le_refl _, fun a h => by cases h⟩
  · rename_i b
    split
    · rename_i hheavy
      refine ⟨e, rfl, Weight.le_refl _, fun a h => ?_⟩
      cases h
      rcases hheavy with hlt | ⟨heq, -⟩
      · exact Int.le_of_lt hlt
      · rw [heq]
        exact Weight.le_refl _
    · rename_i hlight
      refine ⟨b, rfl, Int.not_lt.1 fun hlt => hlight (Or.inl hlt), fun a h => ?_⟩
      cases h
      exact Weight.le_refl _

theorem le_of_foldl_prefer
    (entries : List (SymbolId × CandidateId))
    (best : Option (SymbolId × CandidateId))
    {a : SymbolId × CandidateId}
    (ha : a ∈ entries ∨ best = some a) :
    ∃ b, entries.foldl c.prefer best = some b ∧ c.weightOf a.2 ≤ c.weightOf b.2 := by
  induction entries generalizing best a with
  | nil => exact ⟨a, ha.resolve_left (fun h => by cases h), Weight.le_refl _⟩
  | cons e rest ih =>
    obtain ⟨b, hb, heb, hbest⟩ := le_of_prefer c best e
    rw [List.foldl_cons, hb]
    rcases ha with hmem | hold
    · rcases List.mem_cons.1 hmem with rfl | hrest
      · obtain ⟨d, hd, hbd⟩ := ih (some b) (Or.inr rfl)
        exact ⟨d, hd, Weight.le_trans heb hbd⟩
      · exact ih (some b) (Or.inl hrest)
    · obtain ⟨d, hd, hbd⟩ := ih (some b) (Or.inr rfl)
      exact ⟨d, hd, Weight.le_trans (hbest a hold) hbd⟩

/-- Where there are contenders, one that no other is heavier than is selected. -/
theorem exists_selected
    {a : SymbolId × CandidateId}
    (ha : a ∈ c.contenders) :
    ∃ e ∈ c.contenders, c.select.1 = some e.2 ∧
      ∀ b ∈ c.contenders, c.weightOf b.2 ≤ c.weightOf e.2 := by
  obtain ⟨e, he, -⟩ := le_of_foldl_prefer c.contenders none (Or.inl ha)
  refine ⟨e, (foldl_prefer_mem c.contenders none he).resolve_right (fun h => by cases h), ?_,
    fun b hb => ?_⟩
  · rw [select, he]
    rfl
  · obtain ⟨d, hd, hle⟩ := le_of_foldl_prefer c.contenders none (Or.inl hb)
    rw [he] at hd
    cases hd
    exact hle

/-- Weight of the candidate that would be selected. -/
def bestWeight? (c : Chart) : Option Weight :=
  c.select.1.map c.weightOf

theorem bestWeight?_eq_some
    {w : Weight}
    (h : c.bestWeight? = some w) :
    ∃ s x, (s, x) ∈ c.contenders ∧ c.weightOf x = w := by
  rw [bestWeight?, Option.map_eq_some_iff] at h
  obtain ⟨x, hx, hw⟩ := h
  rw [select, Option.map_eq_some_iff] at hx
  obtain ⟨⟨s, y⟩, he, rfl⟩ := hx
  rcases foldl_prefer_mem c.contenders none he with hmem | hnone
  · exact ⟨s, y, hmem, hw⟩
  · cases hnone

/-- What is selected is as heavy as all that may be selected. -/
theorem le_bestWeight?
    {s : SymbolId}
    (h : (s, x) ∈ c.contenders) :
    ∃ w, c.bestWeight? = some w ∧ c.weightOf x ≤ w := by
  obtain ⟨e, -, he, hle⟩ := exists_selected h
  exact ⟨c.weightOf e.2, by rw [bestWeight?, he]; rfl, hle _ h⟩

end Chart

end BeamChart
