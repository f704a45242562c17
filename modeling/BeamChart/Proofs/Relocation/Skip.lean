import BeamChart.Proofs.Chart.Arena
import BeamChart.Proofs.Relocation.Feed

/-!
# Items that nothing refers to

A chart may be a relocation of another one and have an item more. What the smaller
chart refers to has been stored there, so only the items that are still to come move
on by a place (`Relocation.skip`, `Relocates.skip`). The additional item may be filled
and posted as long as it has no symbol; a token of no symbol does just that
(`Relocates.feed_gap`).
-/

namespace BeamChart

namespace Relocation

/-- The items from a place on move on by one more place. -/
def skip (m : Relocation) (size : Nat) : Relocation where
  place n := if n < size then m.place n else m.place n + 1
  distance := m.distance
  increasing := by
    intro a b hab
    have hlt := m.increasing hab
    dsimp only
    split <;> split <;> omega

variable (m : Relocation) {size : Nat}

theorem item_skip_of_lt
    {u : ItemId}
    (h : u.index < size) :
    (m.skip size).item u = m.item u :=
  congrArg ItemId.mk (if_pos h)

theorem index_skip_of_le
    {u : ItemId}
    (h : size ≤ u.index) :
    ((m.skip size).item u).index = m.place u.index + 1 :=
  if_neg (Nat.not_lt_of_le h)

/-- From a place on, items do move. -/
theorem not_exact_skip (size : Nat) :
    ¬ (m.skip size).Exact := by
  intro hexact
  have hplace : m.place size + 1 = size :=
    (if_neg (Nat.lt_irrefl size)).symm.trans (hexact size)
  have hle := m.le_place size
  omega

theorem postings_skip
    (distance : Nat)
    {p : Postings}
    (h : ∀ u ∈ p.items, u.index < size) :
    (m.skip size).postings distance p = m.postings distance p := by
  refine congrArg Postings.mk (List.map_congr_left fun e he => ?_)
  rw [m.item_skip_of_lt (h e.2 (List.mem_map_of_mem he))]

theorem map_item_skip
    {a : Option ItemId}
    (h : ∀ u, a = some u → u.index < size) :
    a.map (m.skip size).item = a.map m.item :=
  Option.map_congr fun u hu => m.item_skip_of_lt (h u hu)

end Relocation

namespace Chart

variable {m : Relocation} {c c' : Chart} {u : ItemId}

/-- One more item, of no symbol, behind all others. -/
theorem Relocates.skip
    (h : Relocates m c c')
    (hc : WithinArenas c)
    {i : Item}
    (hi : i.symbol = none) :
    Relocates (m.skip c.items.size) c (c'.pushItem i) :=
  { h with
    behind := fun n => by
      have hbehind := h.behind n
      simp only [Relocation.skip, Chart.pushItem, Array.size_push]
      rw [if_neg (by omega), hbehind]
      omega
    item := fun u => by
      have hsize : c'.items.size = m.place c.items.size := (h.behind 0).symm
      by_cases hu : u.index < c.items.size
      · have hlt : (m.item u).index < c'.items.size := h.lt_size_iff.2 hu
        rw [m.item_skip_of_lt hu, item_pushItem_of_lt _ hlt, h.item]
        have hlink : (c.item u).fixedParent.map m.link =
            (c.item u).fixedParent.map (m.skip c.items.size).link := by
          refine Option.map_congr fun e he => ?_
          rw [Relocation.link, Relocation.link,
            m.item_skip_of_lt (hc.fixedParent u e.1 e.2 he)]
        rw [Relocation.moved, Relocation.moved, hlink]
        rfl
      · have hle : c.items.size ≤ u.index := Nat.le_of_not_lt hu
        have hplace : m.place c.items.size ≤ m.place u.index := m.increasing.monotone hle
        have hbeyond : (c'.pushItem i).items.size ≤ ((m.skip c.items.size).item u).index := by
          rw [m.index_skip_of_le hle]
          simp only [Chart.pushItem, Array.size_push]
          omega
        rw [item_of_size_le hle, item_of_size_le hbeyond]
        rfl
    spare := fun u hu => by
      rw [item_pushItem]
      split
      · exact hi
      · by_cases himage : ∃ v, m.item v = u
        · obtain ⟨v, rfl⟩ := himage
          have hle : c.items.size ≤ v.index :=
            Nat.le_of_not_lt fun hlt => hu v (m.item_skip_of_lt hlt)
          rw [h.item, item_of_size_le hle]
          rfl
        · exact h.spare u fun v hv => himage ⟨v, hv⟩
    candidate := fun x hx => by
      rw [show (c'.pushItem i).candidate x = c'.candidate x from rfl, h.candidate x hx]
      simp only [Relocation.candidate, m.item_skip_of_lt (hc.root x hx),
        m.map_item_skip (hc.wrapper x), m.map_item_skip fun k => hc.marker x k hx]
      rfl
    bySymbol := h.bySymbol.trans (m.postings_skip 0 hc.bySymbol).symm
    markers := h.markers.trans (m.postings_skip m.distance hc.markers).symm
    tail := h.tail.trans (m.map_item_skip hc.tail).symm
    tally := fun hexact => absurd hexact (m.not_exact_skip _) }

/-- An item of no symbol that nothing refers to may change. -/
theorem Relocates.modifySpare
    (h : Relocates m c c')
    (hu : ∀ v, m.item v ≠ u)
    {f : Item → Item}
    (hf : (f (c'.item u)).symbol = none) :
    Relocates m c (c'.modifyItem u f) :=
  { h with
    behind := fun n => by
      rw [size_items_modifyItem]
      exact h.behind n
    item := fun v => by
      rw [item_modifyItem_of_ne f (hu v).symm]
      exact h.item v
    spare := fun v hv => by
      rw [item_modifyItem]
      split
      · exact hf
      · exact h.spare v hv }

/-- An item of no symbol is posted by position only. -/
theorem Relocates.registerSpare
    (h : Relocates m c c')
    (hu : ∀ v, m.item v ≠ u) :
    Relocates m c (c'.register u) := by
  have hflag : Relocates m c (c'.modifyItem u fun i => { i with registered := true }) :=
    h.modifySpare hu (h.spare u hu)
  have hunknown :
      (c'.modifyItem u fun i => { i with registered := true }).recognized? u = none := by
    rw [Chart.recognized?, hflag.spare u hu]
    rfl
  unfold Chart.register
  dsimp only
  split
  · exact h
  · generalize hd : (if (c'.item u).present = true then _ else _ : Chart) = d
    have hready : Relocates m c d ∧ d.recognized? u = none := by
      rw [← hd]
      split
      · exact ⟨{ hflag with }, hunknown⟩
      · exact ⟨hflag, hunknown⟩
    rw [hready.2]
    exact { hready.1 with }

/-- An item of no symbol is not connected, whether or not there are attempts left for it. -/
theorem Relocates.connectSpare
    (h : Relocates m c c')
    (hm : ¬ m.Exact)
    (hu : ∀ v, m.item v ≠ u) :
    Relocates m c (c'.connectInBudget u) := by
  unfold Chart.connectInBudget
  split
  · have hnone : c'.connectable? u = none := by
      unfold Chart.connectable?
      rw [Chart.recognized?, h.spare _ hu]
      split <;> rfl
    unfold Chart.connect Chart.connectWithin
    split
    · exact h
    · rename_i hsome
      rw [hnone] at hsome
      cases hsome
  · exact { h with tally := fun hexact => absurd hexact hm }

/-- No item is moved to the place that is skipped. -/
theorem Relocates.item_skip_ne
    (h : Relocates m c c')
    (v : ItemId) :
    (m.skip c.items.size).item v ≠ c'.nextItem := by
  intro hv
  have hindex : ((m.skip c.items.size).item v).index = m.place c.items.size :=
    (congrArg ItemId.index hv).trans (h.behind 0).symm
  rcases Nat.lt_or_ge v.index c.items.size with hlt | hle
  · rw [m.item_skip_of_lt hlt] at hindex
    exact Nat.ne_of_lt (m.increasing hlt) hindex
  · rw [m.index_skip_of_le hle] at hindex
    have hplace : m.place c.items.size ≤ m.place v.index := m.increasing.monotone hle
    omega

/-- A token of no symbol makes an item that nothing refers to. -/
theorem Relocates.feed_gap
    (h : Relocates m c c')
    (hc : WithinArenas c)
    {t : Token}
    (hgap : c'.symbolOf? t = none)
    (hclean : (c'.feed t).2.tally.refusals = 0) :
    (∃ stop window, (c'.feed t).1 = .error (.outsideWindow stop window) ∧ (c'.feed t).2 = c') ∨
      ∃ u, (c'.feed t).1 = .ok u ∧ Relocates (m.skip c.items.size) c (c'.feed t).2 := by
  unfold Chart.feed at hclean ⊢
  rw [hgap] at hclean ⊢
  unfold Chart.feedAs at hclean ⊢
  split
  · exact Or.inl ⟨_, _, rfl, rfl⟩
  · rename_i hin
    rw [if_neg hin] at hclean
    right
    simp only [Option.bind_none, Chart.makeItem] at hclean ⊢
    rcases allocateItem_cases c' with ⟨-, heq⟩ | heq
    · rw [heq]
      have hnext := h.item_skip_ne
      have hpush : Relocates (m.skip c.items.size) c (c'.pushItem {}) := h.skip hc rfl
      have hfill : Relocates (m.skip c.items.size) c
          (((c'.pushItem {}).instantiate c'.nextItem none t).2.markPresent c'.nextItem) := by
        unfold Chart.instantiate
        exact (hpush.modifySpare hnext rfl).modifySpare hnext
          ((hpush.modifySpare hnext rfl).spare _ hnext)
      have hdone : ((c'.pushItem {}).instantiate c'.nextItem none t).1 = .ok () := rfl
      dsimp only
      generalize (c'.pushItem {}).instantiate c'.nextItem none t = result at hfill hdone ⊢
      obtain ⟨outcome, d⟩ := result
      cases hdone
      exact ⟨_, rfl, (hfill.connectSpare (m.not_exact_skip _) hnext).registerSpare hnext⟩
    · rw [heq] at hclean
      exact absurd hclean (Nat.succ_ne_zero _)

end Chart

end BeamChart
