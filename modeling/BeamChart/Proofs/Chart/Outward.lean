import BeamChart.Proofs.Chart.Listing
import BeamChart.Proofs.Chart.Sight
import Mathlib.Data.List.Nodup

/-!
# What a chart passes on

A chart passes on the items that it finds by position, those that were seen and are
no aggregates. Each of them is passed on once, in the order of the positions, since
the index of the positions is ordered (`Driven.arranged`) and exact. Items of
separators and markers do not stand in it, and are not passed on
(`Outward.of_streamed`).
-/

namespace BeamChart

namespace Postings

variable {p : Postings} {u : ItemId}

theorem mem_items :
    u ∈ p.items ↔ p.keysOf u ≠ [] := by
  simp [items, keysOf]

theorem count_items (p : Postings) (u : ItemId) :
    p.items.count u = (p.keysOf u).length := by
  rw [items, keysOf, List.count_eq_length_filter, List.filter_map, List.length_map,
    List.length_map]
  exact congrArg List.length (List.filter_congr fun e _ => Bool.eq_iff_iff.2 (by simp))

end Postings

namespace Chart

variable {strict : Prop} {g : Grammar} {s : Settings} {c c' : Chart} {u v : ItemId}

section Arranging

/-- Positions stand in order, and every item is called after its symbol. -/
structure Arranged (c : Chart) : Prop where
  ordered : c.byPosition.Ordered
  named : ∀ u, (c.item u).Named

theorem arranged_new (g : Grammar) (s : Settings) :
    Arranged (new g s) where
  ordered := Postings.ordered_empty
  named u := by
    rw [item_of_size_le (Nat.zero_le _)]
    rfl

/-- Registering posts an item by position once, or not. -/
theorem byPosition_register_cases (c : Chart) (u : ItemId) :
    (c.register u).byPosition = c.byPosition ∨
      ∃ key, (c.register u).byPosition = c.byPosition.add key u := by
  cases posting c u with
  | repeated _ heq =>
    rw [heq]
    exact Or.inl rfl
  | unrecognized _ _ heq =>
    rw [heq]
    exact Or.inr ⟨_, rfl⟩
  | separator _ _ _ heq | marker _ _ _ heq =>
    rw [heq]
    exact Or.inl rfl
  | ordinary _ _ _ heq =>
    rw [heq]
    dsimp only
    split
    · exact Or.inr ⟨_, rfl⟩
    · exact Or.inl rfl

theorem Arranged.modifyItem
    (hc : Arranged c)
    {f : Item → Item}
    (h : (f (c.item u)).Named) :
    Arranged (c.modifyItem u f) where
  ordered := hc.ordered
  named v := by
    rw [item_modifyItem]
    split
    · exact h
    · exact hc.named v

theorem Arranged.pushItem
    (hc : Arranged c)
    {i : Item}
    (h : i.Named) :
    Arranged (c.pushItem i) where
  ordered := hc.ordered
  named v := by
    rw [item_pushItem]
    split
    · exact h
    · exact hc.named v

theorem Step.arranged
    (h : Step strict c c')
    (hc : Arranged c) :
    Arranged c' := by
  cases h with
  | allocateItem => exact hc.pushItem rfl
  | allocateAggregate =>
    exact ⟨hc.ordered, (hc.pushItem (i := { isAggregate := true }) rfl).named⟩
  | @fill u f hitem hblank hfresh hnamed =>
    refine hc.modifyItem ?_
    rw [hblank]
    exact hnamed
  | pool => exact hc.modifyItem (hc.named _)
  | appear => exact hc.modifyItem (hc.named _)
  | wrap =>
    refine ⟨hc.ordered, fun v => ?_⟩
    rw [enclose, item_modifyCandidate]
    exact (hc.modifyItem (by rfl)).named v
  | @register u =>
    have hitem : ∀ v, ((c.register u).item v).Named := by
      intro v
      rcases register_cases c u with ⟨heq, -⟩ | ⟨b, p, d, m, f, l, -, heq⟩ <;> rw [heq]
      · exact hc.named v
      · exact (hc.modifyItem (f := fun i => { i with registered := true }) (hc.named u)).named v
    refine ⟨?_, hitem⟩
    rcases byPosition_register_cases c u with heq | ⟨key, heq⟩ <;> rw [heq]
    · exact hc.ordered
    · exact Postings.ordered_add hc.ordered key u
  | note | store | settle | select => exact ⟨hc.ordered, hc.named⟩

theorem Move.arranged
    (h : Move True c c')
    (hc : Arranged c) :
    Arranged c' := by
  cases h with
  | step h => exact h.arranged hc
  | fix => exact hc.modifyItem (hc.named _)
  | refill f hfree => exact absurd trivial hfree

theorem Driven.arranged
    (h : Driven g s c) :
    Arranged c :=
  (h.invariant (arranged_new g s) fun _ _ _ _ _ hold hmove => hmove.arranged hold).holds

theorem Streamed.driven
    (h : Streamed g s c) :
    Driven g s c := by
  induction h with
  | new => exact .new
  | input _ i _ ih => exact .input ih i

end Arranging

section Source

/-- The item has no symbol, or one that neither separates nor marks. -/
def StandsByPosition (c : Chart) (u : ItemId) : Prop :=
  ∀ s, c.recognized? u = some s → c.kindOf s = .ordinary

/--
The items that stand by position, were seen and are no aggregates: each of them once,
in the order of their positions.
-/
structure Outward (c : Chart) (ids : List ItemId) : Prop where
  nodup : ids.Nodup
  mem : ∀ u, u ∈ ids ↔ (c.item u).registered = true ∧ (c.item u).present = true ∧
    (c.item u).isAggregate = false ∧ c.StandsByPosition u
  sorted : ids.Pairwise fun u v => (c.item u).position ≤ (c.item v).position

/-- Where the items are that a chart passes on. -/
def outwardIds (c : Chart) : List ItemId :=
  c.byPosition.items.filter fun u => (c.item u).present && !(c.item u).isAggregate

theorem outward_eq (c : Chart) :
    c.outward = c.outwardIds.map c.item := by
  rw [outward, List.filter_map]
  rfl

theorem keysFor_positions (c : Chart) (u : ItemId) :
    c.keysFor u .positions = [] ∨ c.keysFor u .positions = [(c.item u).position] := by
  unfold keysFor
  split
  · exact Or.inr rfl
  · split <;> simp_all

/-- An item that was seen is looked for by position just if it stands there. -/
theorem keysFor_positions_ne_nil
    (hpresent : (c.item u).present = true) :
    c.keysFor u .positions ≠ [] ↔ c.StandsByPosition u := by
  unfold keysFor StandsByPosition
  cases c.recognized? u with
  | none => simp
  | some s => cases h : c.kindOf s <;> simp [h, hpresent]

/-- What is walked through are just the items that are passed on. -/
theorem Outward.of_streamed
    {d : Declaration}
    (hresolve : d.resolve = .ok g)
    (hrun : Streamed g s c) :
    Outward c c.outwardIds := by
  have hkeys : ∀ u, c.byPosition.keysOf u =
      if (c.item u).registered then c.keysFor u .positions else [] :=
    fun u => (hrun.listed (Declaration.total_of_resolve hresolve)).2.keys u .positions
  have hcases : ∀ u, c.byPosition.keysOf u = [] ∨
      c.byPosition.keysOf u = [(c.item u).position] := by
    intro u
    rw [hkeys]
    split
    · exact c.keysFor_positions u
    · exact Or.inl rfl
  -- An item stands under its own position or nowhere, so its entries count at most one.
  refine ⟨?_, fun u => ?_, ?_⟩
  · refine List.Pairwise.filter _ (List.nodup_iff_count_le_one.2 fun u => ?_)
    rw [Postings.count_items]
    rcases hcases u with h | h <;> simp [h]
  · rw [outwardIds, List.mem_filter, Postings.mem_items, hkeys]
    by_cases hpresent : (c.item u).present = true
    · rw [← keysFor_positions_ne_nil hpresent]
      cases (c.item u).registered <;> simp [hpresent, and_comm]
    · simp [hpresent]
  · refine List.Pairwise.filter _ (List.pairwise_map.2 ?_)
    have hkey : ∀ e ∈ c.byPosition.entries, e.1 = (c.item e.2).position := by
      intro e he
      have hmem : e.1 ∈ c.byPosition.keysOf e.2 :=
        List.mem_map.2 ⟨e, List.mem_filter.2 ⟨he, by simp⟩, rfl⟩
      rcases hcases e.2 with h | h <;> rw [h] at hmem
      · cases hmem
      · exact List.mem_singleton.1 hmem
    refine hrun.driven.arranged.ordered.imp_of_mem fun ha hb hle => ?_
    rwa [← hkey _ ha, ← hkey _ hb]

end Source

end Chart

end BeamChart
