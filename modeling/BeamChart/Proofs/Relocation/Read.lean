import BeamChart.Proofs.Chart.Selected
import BeamChart.Proofs.Relocation.Feed

/-!
# What is read off relocated charts

The contenders of a chart are found in the order of its items. In a relocation of the
chart they are the same ones, since items that were left out before have no symbol
(`Mirrors.contenders`). So the same candidate is selected, and its tree has the same
nodes, with the extents moved (`Mirrors.parse`).
-/

namespace BeamChart

/-- The node at a distance. -/
def Node.moved (distance : Nat) (n : Node) : Node :=
  { n with start := n.start + distance, stop := n.stop + distance }

namespace Parse

mutual

/-- The tree at a distance. -/
def moved (distance : Nat) : Parse → Parse
  | node t cs => node (t.moved distance) (movedAll distance cs)

/-- Several trees at a distance. -/
def movedAll (distance : Nat) : List Parse → List Parse
  | [] => []
  | t :: rest => t.moved distance :: movedAll distance rest

end

theorem movedAll_eq_map (distance : Nat) (ts : List Parse) :
    movedAll distance ts = ts.map (moved distance) := by
  induction ts with
  | nil => rfl
  | cons t rest ih => rw [movedAll, List.map_cons, ih]

end Parse

/-- What is listed for the places up to one is listed for those that they are moved to. -/
theorem Relocation.flatMap_range
    (m : Relocation)
    {β : Type}
    {f f' : Nat → List β}
    (hplace : ∀ n, f' (m.place n) = f n)
    (hspare : ∀ k, (∀ n, m.place n ≠ k) → f' k = [])
    (size : Nat) :
    (List.range (m.place size)).flatMap f' = (List.range size).flatMap f := by
  have hnone : ∀ start count, (∀ k, start ≤ k → k < start + count → ∀ n, m.place n ≠ k) →
      ((List.range count).map (start + ·)).flatMap f' = [] := by
    intro start count hgap
    rw [List.flatMap_eq_nil_iff]
    intro k hk
    obtain ⟨i, hi, rfl⟩ := List.mem_map.1 hk
    have hlt := List.mem_range.1 hi
    exact hspare _ (hgap (start + i) (Nat.le_add_right _ _) (by omega))
  induction size with
  | zero =>
    have hgap := hnone 0 (m.place 0) fun k _ hk n he => by
      have hle : m.place 0 ≤ m.place n := m.increasing.monotone (Nat.zero_le n)
      omega
    simpa using hgap
  | succ size ih =>
    obtain ⟨more, hmore⟩ := Nat.exists_eq_add_of_lt (m.increasing (Nat.lt_add_one size))
    have hgap := hnone (m.place size + 1) more fun k hlow hhigh n he => by
      rcases Nat.lt_or_ge size n with hn | hn
      · have hle : m.place (size + 1) ≤ m.place n := m.increasing.monotone hn
        omega
      · have hle : m.place n ≤ m.place size := m.increasing.monotone hn
        omega
    rw [show m.place (size + 1) = m.place size + 1 + more by omega, List.range_add,
      List.range_succ, List.range_succ, List.flatMap_append, List.flatMap_append,
      List.flatMap_append, ih, hgap, List.append_nil]
    simp [hplace]

namespace Chart

variable {m : Relocation} {c c' : Chart} {x : CandidateId}

section Selecting

theorem Mirrors.contenders (h : Mirrors m c c') :
    c'.contenders = c.contenders := by
  have hsize : c'.items.size = m.place c.items.size := (h.behind 0).symm
  rw [contenders_eq, contenders_eq, hsize]
  refine m.flatMap_range (fun n => ?_) (fun k hk => ?_) c.items.size
  · have hitem := h.item ⟨n⟩
    have hfull : ((c.item ⟨n⟩).pool.filter fun x => !(c'.candidate x).isEmpty) =
        (c.item ⟨n⟩).pool.filter fun x => !(c.candidate x).isEmpty := by
      refine List.filter_congr fun x hx => ?_
      rw [h.candidate x (h.closed.has_of_mem hx), m.isEmpty_candidate]
    unfold contendersAt
    rw [show (⟨m.place n⟩ : ItemId) = m.item ⟨n⟩ from rfl, hitem, m.present_moved, m.symbol_moved,
      m.pool_moved, hfull]
  · have hnone : (c'.item ⟨k⟩).symbol = none :=
      h.spare ⟨k⟩ fun v he => hk v.index (congrArg ItemId.index he)
    unfold contendersAt
    rw [hnone]
    cases (c'.item ⟨k⟩).present <;> rfl

/-- The same candidate is selected. -/
theorem Mirrors.select (h : Mirrors m c c') :
    c'.select.1 = c.select.1 := by
  refine select_congr h.contenders fun e he => h.weightOf ?_
  obtain ⟨u, -, -, hpool, -⟩ := mem_contenders.1 he
  exact h.closed.has_of_mem hpool

end Selecting

section Trees

theorem Mirrors.nodeOf
    (h : Mirrors m c c')
    (via : Option Relation)
    (hx : c.Has x)
    (hroot : (c.item (c.candidate x).root).present = true) :
    c'.nodeOf via x = (c.nodeOf via x).moved m.distance := by
  have hlocated := Item.located_of_present hroot
  have hextent : ((c.candidate x).span?.map m.extent).getD
        ((m.moved (c.item (c.candidate x).root)).position,
          (m.moved (c.item (c.candidate x).root)).stop) =
      m.extent ((c.candidate x).span?.getD
        ((c.item (c.candidate x).root).position, (c.item (c.candidate x).root).stop)) := by
    cases (c.candidate x).span? with
    | none => rw [m.position_moved hlocated, m.stop_moved hlocated]; rfl
    | some a => rfl
  have hmarker : (((m.candidate (c.candidate x)).marker.bind fun k => (c'.item k).symbol)) =
      (c.candidate x).marker.bind fun k => (c.item k).symbol := by
    cases hk : (c.candidate x).marker with
    | none => simp [Relocation.candidate, hk]
    | some k => simp [Relocation.candidate, hk, h.symbol]
  simp only [Chart.nodeOf, h.candidate x hx, hmarker, m.root_candidate, m.span?_candidate, h.item,
    hextent, m.symbol_moved, h.grammar]
  rfl

/-- Children have been seen if their parents are stored, so all extents move. -/
theorem Mirrors.parseWithin
    (h : Mirrors m c c')
    (hc : Lawful c)
    (room : Nat)
    (via : Option Relation)
    (hx : c.Has x)
    (hroot : (c.item (c.candidate x).root).present = true) :
    c'.parseWithin room via x = (c.parseWithin room via x).moved m.distance := by
  induction room generalizing via x with
  | zero => rw [Chart.parseWithin, Chart.parseWithin, h.nodeOf via hx hroot]; rfl
  | succ room ih =>
    rw [Chart.parseWithin, Chart.parseWithin, h.nodeOf via hx hroot, h.candidate x hx,
      m.slots_candidate, Parse.moved, Parse.movedAll_eq_map, List.map_map]
    refine congrArg _ (List.map_congr_left fun e he => ?_)
    have hslot := (Slots.mem_filled _ e.1 e.2).1 he
    exact ih (some e.1) (h.closed.has_child hx hslot) (hc.child x e.1 e.2 hx hslot)

theorem Mirrors.bestParse?
    (h : Mirrors m c c')
    (hbest : c'.best = c.best)
    (hc : Sound True c) :
    c'.bestParse? = c.bestParse?.map (Parse.moved m.distance) := by
  rw [Chart.bestParse?, Chart.bestParse?, hbest]
  cases hx : c.best with
  | none => rfl
  | some x =>
    obtain ⟨hhas, hseen⟩ := hc.closed.best x hx
    exact congrArg some (h.parseWithin (hc.lawful trivial) x.index none hhas hseen)

/-- The tree that is selected is moved. -/
theorem Mirrors.selected
    (h : Mirrors m c c')
    (hc : Sound True c) :
    c'.select.2.bestParse? = c.select.2.bestParse?.map (Parse.moved m.distance) := by
  have hselect : Step True c c.select.2 := .select
  have hmirrors : Mirrors m c.select.2 c'.select.2 :=
    h.evolve (.single .select) { h.toRelocates with }
  exact hmirrors.bestParse? h.select (hselect.sound hc)

end Trees

end Chart

end BeamChart
