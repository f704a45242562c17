import BeamChart.Proofs.Chart.Feed

/-!
# References to items

Besides what makes a chart closed, a chart refers to items as markers, in towers
and in the postings. These are stored as well (`Contained`). The postings by
position are left out: which items are posted there is not told by a step alone.
-/

namespace BeamChart

namespace Postings

theorem mem_items_add
    {p : Postings}
    {key : Nat}
    {u v : ItemId} :
    v ∈ (p.add key u).items ↔ v = u ∨ v ∈ p.items := by
  have hsplit : p.items =
      (p.entries.takeWhile fun e => e.1 ≤ key).map Prod.snd ++
        (p.entries.dropWhile fun e => e.1 ≤ key).map Prod.snd := by
    rw [items, ← List.map_append, List.takeWhile_append_dropWhile]
  rw [hsplit, items, add]
  simp only [List.map_append, List.map_cons, List.mem_append, List.mem_cons]
  exact or_left_comm

theorem mem_of_firstBetween?
    {p : Postings}
    {lower upper : Nat}
    {accept : ItemId → Bool}
    {u : ItemId}
    (h : p.firstBetween? lower upper accept = some u) :
    u ∈ p.items := by
  rw [firstBetween?, Option.map_eq_some_iff] at h
  obtain ⟨e, he, rfl⟩ := h
  exact List.mem_map_of_mem (List.mem_of_find?_eq_some he)

end Postings

namespace Chart

variable {strict : Prop} {c c' : Chart} {u v : ItemId}

/-- An item with a symbol has been stored. -/
theorem lt_size_of_symbol
    (h : (c.item u).symbol.isSome = true) :
    u.index < c.items.size := by
  refine Nat.lt_of_not_le fun hle => ?_
  rw [item_of_size_le hle] at h
  cases h

theorem symbol_of_recognized
    (h : (c.recognized? u).isSome = true) :
    (c.item u).symbol.isSome = true := by
  obtain ⟨s, hs⟩ := Option.isSome_iff_exists.1 h
  rw [(Option.filter_eq_some_iff.1 hs).1]
  rfl

section Posting

/-- What postings list after an item has been registered. -/
structure Posts (c c' : Chart) (u : ItemId) : Prop where
  bySymbol : ∀ v ∈ c'.bySymbol.items, v ∈ c.bySymbol.items ∨ v = u ∧ (c.recognized? u).isSome
  byPosition : ∀ v ∈ c'.byPosition.items, v ∈ c.byPosition.items ∨ v = u
  delimiters : ∀ v ∈ c'.delimiters.items,
    v ∈ c.delimiters.items ∨ v = u ∧ (c.recognized? u).isSome
  markers : ∀ v ∈ c'.markers.items, v ∈ c.markers.items ∨ v = u ∧ (c.recognized? u).isSome

/-- Only recognized items are posted otherwise than by position. -/
theorem posts_register (c : Chart) (u : ItemId) :
    Posts c (c.register u) u := by
  have hold : ∀ {R : ItemId → Prop} (p : Postings), ∀ v ∈ p.items, v ∈ p.items ∨ R v :=
    fun _ _ hv => Or.inl hv
  have hadd : ∀ (p : Postings) (key : Nat), ∀ v ∈ (p.add key u).items, v ∈ p.items ∨ v = u :=
    fun _ _ _ hv => (Postings.mem_items_add.1 hv).symm
  have hsome : ∀ {s}, c.recognized? u = some s → ∀ (p : Postings) (key : Nat),
      ∀ v ∈ (p.add key u).items, v ∈ p.items ∨ v = u ∧ (c.recognized? u).isSome :=
    fun hs p key v hv => (hadd p key v hv).imp_right fun hv => ⟨hv, by rw [hs]; rfl⟩
  cases posting c u with
  | repeated _ heq =>
    rw [heq]
    exact ⟨hold _, hold _, hold _, hold _⟩
  | unrecognized _ _ heq =>
    rw [heq]
    exact ⟨hold _, hadd _ _, hold _, hold _⟩
  | separator _ hsymbol _ heq =>
    rw [heq]
    exact ⟨hold _, hold _, hsome hsymbol _ _, hold _⟩
  | marker _ hsymbol _ heq =>
    rw [heq]
    exact ⟨hold _, hold _, hold _, hsome hsymbol _ _⟩
  | ordinary _ hsymbol _ heq =>
    rw [heq]
    refine ⟨?_, ?_, hold _, hold _⟩
    · dsimp only
      split
      · exact hsome hsymbol _ _
      · exact hold _
    · dsimp only
      split
      · exact hadd _ _
      · exact hold _

end Posting

section Markers

theorem mem_markers_of_markerBetween?
    {a b : Nat × Nat}
    {m : ItemId}
    (h : c.markerBetween? a b = some m) :
    m ∈ c.markers.items := by
  unfold markerBetween? at h
  split at h
  exact Postings.mem_of_firstBetween? h

/-- A marker is taken over from the parent, or found between the peers. -/
theorem marker_joined
    {id : CandidateId}
    {r : Relation}
    {p d : Candidate}
    {m : ItemId}
    (h : (c.joined id r p d).marker = some m) :
    p.marker = some m ∨ m ∈ c.markers.items := by
  by_cases hr : r.isSequencing = true
  · simp only [joined, if_pos hr] at h
    split at h
    · split at h
      · rename_i found hfound
        cases h
        exact Or.inr (mem_markers_of_markerBetween? hfound)
      · exact Or.inl h
    · exact Or.inl h
  · simp only [joined, if_neg hr] at h
    exact Or.inl h

theorem marker_of_marker_detach
    {x child : Candidate}
    {r : Relation}
    {m : ItemId}
    (h : (x.detach r child).marker = some m) :
    x.marker = some m := by
  unfold Candidate.detach at h
  split at h
  · exact h
  · dsimp only at h
    split at h
    · cases h
    · exact h

/-- The marker of a new candidate is that of an older one, or a posted one. -/
theorem Made.marker
    {x : Candidate}
    {m : ItemId}
    (h : Made strict c x)
    (hm : x.marker = some m) :
    (∃ y, c.Has y ∧ (c.candidate y).marker = some m) ∨ m ∈ c.markers.items := by
  cases h with
  | leaf => cases hm
  | seed => cases hm
  | joined hfits => exact (marker_joined hm).imp_left fun hold => ⟨_, hfits.parent, hold⟩
  | chained hfits => exact Or.inl ⟨_, hfits.parent, hm⟩
  | lifted => cases hm
  | @reduced y u hy =>
    refine Or.inl ⟨y, hy, ?_⟩
    refine withoutItem_induction
      (P := fun z => z.marker = some m → (c.candidate y).marker = some m) u id ?_ hm
    intro z r s hz _ hmarker
    exact hz (marker_of_marker_detach hmarker)
  | repointed hx => exact Or.inl ⟨_, hx, hm⟩

end Markers

/-- The items that markers, towers and postings refer to are stored. -/
structure Contained (c : Chart) : Prop where
  marker : ∀ x m, c.Has x → (c.candidate x).marker = some m → m.index < c.items.size
  fixedParent : ∀ u p r, (c.item u).fixedParent = some (p, r) → p.index < c.items.size
  bySymbol : ∀ u ∈ c.bySymbol.items, u.index < c.items.size
  delimiters : ∀ u ∈ c.delimiters.items, u.index < c.items.size
  markers : ∀ u ∈ c.markers.items, u.index < c.items.size

theorem contained_new (g : Grammar) (s : Settings) :
    Contained (new g s) where
  marker x m hx := absurd hx (Nat.not_lt_zero _)
  fixedParent := by
    intro u p r h
    rw [item_of_size_le (Nat.zero_le _)] at h
    cases h
  bySymbol u hu := by cases hu
  delimiters u hu := by cases hu
  markers u hu := by cases hu

theorem Extends.marker
    (h : Extends c c')
    {x : CandidateId}
    (hx : c.Has x) :
    (c'.candidate x).marker = (c.candidate x).marker :=
  (congrArg Candidate.marker (h.body x hx) :)

/-- A step posts no item that is not recognized, unless by position. -/
theorem Step.posts
    (h : Step strict c c') :
    ∃ u, Posts c c' u := by
  have hsame : ∀ (p : Postings), ∀ v ∈ p.items,
      v ∈ p.items ∨ v = ⟨0⟩ ∧ (c.recognized? ⟨0⟩).isSome :=
    fun _ _ hv => Or.inl hv
  cases h with
  | @register u => exact ⟨u, posts_register c u⟩
  | _ => exact ⟨⟨0⟩, ⟨hsame _, fun _ hv => Or.inl hv, hsame _, hsame _⟩⟩

theorem Step.contained
    (h : Step strict c c')
    (hin : Contained c) :
    Contained c' := by
  obtain ⟨u, hposts⟩ := h.posts
  have hposted : ∀ p : Postings, (∀ v ∈ p.items, v.index < c.items.size) →
      ∀ v, v ∈ p.items ∨ v = u ∧ (c.recognized? u).isSome → v.index < c'.items.size := by
    rintro p hold v (hv | ⟨rfl, hsome⟩)
    · exact Nat.lt_of_lt_of_le (hold v hv) h.grows.items_le
    · exact Nat.lt_of_lt_of_le (lt_size_of_symbol (symbol_of_recognized hsome)) h.grows.items_le
  refine ⟨fun x m hx hm => ?_, fun v p r hp => ?_,
    fun v hv => hposted _ hin.bySymbol v (hposts.bySymbol v hv),
    fun v hv => hposted _ hin.delimiters v (hposts.delimiters v hv),
    fun v hv => hposted _ hin.markers v (hposts.markers v hv)⟩
  · refine Nat.lt_of_lt_of_le ?_ h.grows.items_le
    rcases h.candidate_cases hx with hold | ⟨-, hmade, -⟩
    · rw [h.grows.marker hold] at hm
      exact hin.marker x m hold hm
    · rcases hmade.marker hm with ⟨y, hy, hym⟩ | hposted
      · exact hin.marker y m hy hym
      · exact hin.markers m hposted
  · rw [h.fixedParent v] at hp
    exact Nat.lt_of_lt_of_le (hin.fixedParent v p r hp) h.grows.items_le

theorem Move.contained
    (h : Move strict c c')
    (hin : Contained c) :
    Contained c' := by
  cases h with
  | step h => exact h.contained hin
  | @fix v w r hnone hitem =>
    refine ⟨?_, fun u p q hp => ?_, ?_, ?_, ?_⟩ <;> rw [size_items_modifyItem]
    · exact hin.marker
    · rw [item_modifyItem] at hp
      split at hp
      · cases hp
        exact hitem
      · exact hin.fixedParent u p q hp
    · exact hin.bySymbol
    · exact hin.delimiters
    · exact hin.markers
  | refill f hfree hpool hpresent hfixed =>
    refine ⟨?_, fun u p q hp => ?_, ?_, ?_, ?_⟩ <;> rw [size_items_modifyItem]
    · exact hin.marker
    · rw [field_modifyItem Item.fixedParent hfixed] at hp
      exact hin.fixedParent u p q hp
    · exact hin.bySymbol
    · exact hin.delimiters
    · exact hin.markers

end Chart

end BeamChart
