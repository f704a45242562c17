import BeamChart.Proofs.Chart.Sight

/-!
# Where sightings stand

After some tokens have been sighted in an empty chart, the items under a
position are those of the tokens there, as far as these are posted by position
(`Standing`): a separator or a marker stands elsewhere and is not found under
its position.
-/

namespace BeamChart

namespace Chart

variable {c c' : Chart} {u : ItemId} {t : Token} {tokens : List Token}

/-- A candidate is the leaf of a symbol over a token. -/
structure LeafOver (c : Chart) (x : CandidateId) (u : ItemId) (s : Symbol) (t : Token) : Prop where
  lt : x.index < c.candidates.size
  leaf : c.candidate x =
    { Candidate.leaf u x (c.settings.scoring.tokenWeight t.extent t.sparse s.verification)
        t.position t.stop with
      readings := c.senseReadings s t.concept }

/-- An item shows a token, and holds the leaf of its symbol if this is defined. -/
structure Displays (c : Chart) (u : ItemId) (t : Token) : Prop where
  lt : u.index < c.items.size
  shows : (c.item u).Shows t
  bare : t.symbol?.bind c.grammar.symbol? = none → (c.item u).pool = []
  held : ∀ s, t.symbol?.bind c.grammar.symbol? = some s →
    ∃ x, (c.item u).pool = [x] ∧ c.LeafOver x u s t

theorem Displays.symbol
    (h : c.Displays u t) :
    (c.item u).symbol = t.symbol? := by
  rw [h.shows]
  rfl

theorem Displays.stop
    (h : c.Displays u t) :
    (c.item u).stop = t.stop := by
  rw [h.shows]
  rfl

/-- What an item displays is not touched by a further sighting. -/
theorem Displays.sighted
    (h : c.Displays u t)
    {t' : Token}
    (hstep : c.Sighted t' c') :
    c'.Displays u t := by
  have hitem : c'.item u = c.item u := by
    rw [item, item, hstep.items, Array.getElem?_push, if_neg (Nat.ne_of_lt h.lt)]
  refine ⟨?_, ?_, ?_, ?_⟩
  · rw [hstep.items, Array.size_push]
    exact Nat.lt_succ_of_lt h.lt
  · rw [hitem]
    exact h.shows
  · rw [hitem, hstep.grammar]
    exact h.bare
  · intro s hs
    rw [hstep.grammar] at hs
    obtain ⟨x, hpool, hlt, hleaf⟩ := h.held s hs
    refine ⟨x, by rw [hitem, hpool], ?_, ?_⟩
    · rw [hstep.candidates, Array.size_append]
      omega
    · have hold : c'.candidate x = c.candidate x := by
        rw [candidate, candidate, hstep.candidates, Array.getElem?_append_left hlt]
      rw [hold, hleaf, hstep.settings]
      simp only [senseReadings, hstep.settings]

theorem Displays.count
    (h : c.Displays u t)
    (f : Tally → Tally) :
    (c.count f).Displays u t := by
  refine ⟨h.lt, h.shows, h.bare, ?_⟩
  intro s hs
  obtain ⟨x, hpool, hleaf⟩ := h.held s hs
  exact ⟨x, hpool, ⟨hleaf.lt, hleaf.leaf⟩⟩

/-- A token that has just been sighted is displayed by the new item. -/
theorem Sighted.displays
    (h : c.Sighted t c') :
    c'.Displays c.nextItem t := by
  have hitem : c'.item c.nextItem = { Item.shown t (c.poolOf t) with registered := true } := by
    simp [item, h.items, nextItem]
  refine ⟨?_, ?_, ?_, ?_⟩
  · rw [h.items, Array.size_push]
    exact Nat.lt_succ_self _
  · rw [hitem]
    rfl
  · intro hnone
    rw [hitem]
    simp only [Item.shown, poolOf, leaf?, ← h.grammar, hnone, Option.map_none]
  · intro s hs
    rw [h.grammar] at hs
    have hleaf : c.leaf? t = some (c.leafOf c.nextItem s t.concept t) := by
      rw [leaf?, hs, Option.map_some]
    refine ⟨c.nextCandidate, ?_, ?_, ?_⟩
    · rw [hitem]
      simp only [Item.shown, poolOf, hleaf]
    · rw [h.candidates, hleaf]
      simp [nextCandidate]
    · have hnew : c'.candidate c.nextCandidate = c.leafOf c.nextItem s t.concept t := by
        simp [candidate, h.candidates, hleaf, nextCandidate]
      rw [hnew, leafOf, h.settings]
      simp only [senseReadings, h.settings]

/-- Under a position stands what stood there, and the new item if it is posted there. -/
theorem Sighted.mem_under
    (h : c.Sighted t c')
    (hordered : c.byPosition.Ordered)
    (p : Nat)
    (u : ItemId) :
    u ∈ c'.byPosition.under p ↔
      u ∈ c.byPosition.under p ∨
        (u = c.nextItem ∧ p = t.position ∧ c.standsByPosition t = true) := by
  rw [h.byPosition]
  by_cases hstand : c.standsByPosition t = true
  · rw [if_pos hstand, Postings.under_add hordered]
    by_cases hp : p = t.position <;> simp [hp, hstand]
  · simp [hstand]

/-- The items under a position are those of the sighted tokens that are posted there. -/
structure Standing (tokens : List Token) (c : Chart) : Prop where
  ordered : c.byPosition.Ordered
  token : ∀ p u, u ∈ c.byPosition.under p →
    ∃ t ∈ tokens, t.position = p ∧ c.standsByPosition t = true ∧ c.Displays u t
  item : ∀ t ∈ tokens, c.standsByPosition t = true →
    ∃ u ∈ c.byPosition.under t.position, c.Displays u t

theorem standsByPosition_congr
    (h : c'.grammar = c.grammar)
    (t : Token) :
    c'.standsByPosition t = c.standsByPosition t := by
  simp only [standsByPosition, kindOf_congr h]

theorem Standing.sighted
    (h : Standing tokens c)
    (hstep : c.Sighted t c') :
    Standing (tokens ++ [t]) c' := by
  have hstands := standsByPosition_congr hstep.grammar
  refine ⟨?_, ?_, ?_⟩
  · rw [hstep.byPosition]
    split
    · exact Postings.ordered_add h.ordered ..
    · exact h.ordered
  · intro p u hu
    rcases (hstep.mem_under h.ordered p u).1 hu with hold | ⟨rfl, rfl, hstand⟩
    · obtain ⟨t', ht', hp, hstand, hdisplays⟩ := h.token p u hold
      exact ⟨t', List.mem_append_left _ ht', hp, by rw [hstands, hstand], hdisplays.sighted hstep⟩
    · exact ⟨t, by simp, rfl, by rw [hstands, hstand], hstep.displays⟩
  · intro t' ht' hstand
    rw [hstands] at hstand
    rcases List.mem_append.1 ht' with hold | hnew
    · obtain ⟨u, hu, hdisplays⟩ := h.item t' hold hstand
      exact ⟨u, (hstep.mem_under h.ordered _ u).2 (Or.inl hu), hdisplays.sighted hstep⟩
    · obtain rfl := List.mem_singleton.1 hnew
      exact ⟨c.nextItem, (hstep.mem_under h.ordered _ _).2 (Or.inr ⟨rfl, rfl, hstand⟩),
        hstep.displays⟩

/-- What has been sighted in an empty chart stands under its positions. -/
theorem Sights.standing
    {g : Grammar}
    {s : Settings}
    (h : (new g s).Sights tokens c) :
    Standing tokens c := by
  induction h with
  | none => exact ⟨Postings.ordered_empty, by simp [new], by simp⟩
  | @sight _ d _ t ih => exact ih.sighted (sighted_sight d t)
  | count _ hits misses ih =>
    refine ⟨ih.ordered, ?_, ?_⟩
    · intro p u hu
      obtain ⟨t, ht, hp, hstand, hdisplays⟩ := ih.token p u hu
      exact ⟨t, ht, hp, hstand, hdisplays.count _⟩
    · intro t ht hstand
      obtain ⟨u, hu, hdisplays⟩ := ih.item t ht hstand
      exact ⟨u, hu, hdisplays.count _⟩

end Chart

end BeamChart
