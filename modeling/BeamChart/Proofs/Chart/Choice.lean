import BeamChart.Proofs.Chart.Arena
import BeamChart.Proofs.Chart.Selected
import BeamChart.Proofs.Coverage.Map

/-!
# The choice among the candidates

What is selected in a driven chart is told without the order in which the candidates are gone
through: it is the contender that goes before all others (`select_iff_goesBefore`). Contenders
are compared by their weights, then by the symbols of their items, then by the places of the
items, and at last by their places in the pool (`GoesBefore`).

Selecting changes nothing but what is stored as best. What is read out then is the whole tree
of the selected candidate (`ReadsOut`), and its top has the weight and the extent of the
candidate.
-/

namespace BeamChart

namespace Chart

variable {g : Grammar} {s : Settings} {c : Chart} {u v : ItemId} {k l : Nat} {x y : CandidateId}

/-- The candidate may be selected: it covers something, for a present item with a symbol. -/
structure Contends (c : Chart) (u : ItemId) (k : SymbolId) (x : CandidateId) : Prop where
  present : (c.item u).present = true
  symbol : (c.item u).symbol = some k
  pooled : x ∈ (c.item u).pool
  covers : (c.candidate x).isEmpty = false

/-- The first contender is heavier, or as heavy and of a lower symbol, or comes no later. -/
def GoesBefore
    (c : Chart)
    (u : ItemId) (k : Nat) (x : CandidateId)
    (v : ItemId) (l : Nat) (y : CandidateId) : Prop :=
  c.weightOf y < c.weightOf x ∨
    c.weightOf y = c.weightOf x ∧
      (k < l ∨
        k = l ∧ (u.index < v.index ∨
          u = v ∧ (c.item u).pool.idxOf x ≤ (c.item u).pool.idxOf y))

/-- Of two contenders only one goes before the other. -/
theorem GoesBefore.antisymm
    (hx : c.Contends u k x)
    (h : c.GoesBefore u k x v l y)
    (h' : c.GoesBefore v l y u k x) :
    x = y := by
  have hweight : (c.weightOf y).toInt ≤ (c.weightOf x).toInt := by
    rcases h with hlt | ⟨heq, -⟩
    · exact Int.le_of_lt hlt
    · exact Int.le_of_eq (congrArg Weight.toInt heq)
  have hweight' : (c.weightOf x).toInt ≤ (c.weightOf y).toInt := by
    rcases h' with hlt | ⟨heq, -⟩
    · exact Int.le_of_lt hlt
    · exact Int.le_of_eq (congrArg Weight.toInt heq)
  obtain ⟨-, hrest⟩ := h.resolve_left (Int.not_lt.2 hweight')
  obtain ⟨-, hrest'⟩ := h'.resolve_left (Int.not_lt.2 hweight)
  obtain ⟨-, hitem⟩ := hrest.resolve_left (by omega)
  obtain ⟨-, hitem'⟩ := hrest'.resolve_left (by omega)
  have hlate : ¬ u.index < v.index := by
    rcases hitem' with hlt | ⟨heq, -⟩
    · exact Nat.lt_asymm hlt
    · rw [heq]
      exact Nat.lt_irrefl _
  obtain ⟨rfl, hplace⟩ := hitem.resolve_left hlate
  have hplace' := (hitem'.resolve_left (Nat.lt_irrefl _)).2
  exact (List.idxOf_inj hx.pooled).1 (Nat.le_antisymm hplace hplace')

section Listing

/-- The entry of the first contender is preferred to that of the second one. -/
def Outdoes (c : Chart) (e a : SymbolId × CandidateId) : Prop :=
  c.weightOf a.2 < c.weightOf e.2 ∨ c.weightOf e.2 = c.weightOf a.2 ∧ e.1 < a.1

variable {e a b : SymbolId × CandidateId}

theorem prefer_of_outdoes
    (h : c.Outdoes e b) :
    c.prefer (some b) e = some e :=
  if_pos h

theorem prefer_of_not_outdoes
    (h : ¬ c.Outdoes e b) :
    c.prefer (some b) e = some b :=
  if_neg h

theorem Outdoes.trans
    (h : c.Outdoes e a)
    (h' : c.Outdoes a b) :
    c.Outdoes e b := by
  rcases h with hlt | ⟨heq, hsymbol⟩
  · rcases h' with hlt' | ⟨heq', -⟩
    · exact Or.inl (Int.lt_trans hlt' hlt)
    · exact Or.inl (heq' ▸ hlt)
  · rcases h' with hlt' | ⟨heq', hsymbol'⟩
    · exact Or.inl (heq ▸ hlt')
    · exact Or.inr ⟨heq.trans heq', Nat.lt_trans hsymbol hsymbol'⟩

/-- An entry that does not outdo another one is no heavier, and its symbol no lower. -/
theorem le_of_not_outdoes
    (h : ¬ c.Outdoes b a) :
    c.weightOf b.2 < c.weightOf a.2 ∨ c.weightOf b.2 = c.weightOf a.2 ∧ a.1 ≤ b.1 := by
  rcases Int.lt_or_eq_of_le (Int.not_lt.1 fun hlt => h (Or.inl hlt)) with hlt | heq
  · exact Or.inl hlt
  · have hsame : c.weightOf b.2 = c.weightOf a.2 := Weight.ext heq
    exact Or.inr ⟨hsame, Nat.not_lt.1 fun hlt => h (Or.inr ⟨hsame, hlt⟩)⟩

/-- What outdoes an entry outdoes all that do not outdo this entry. -/
theorem Outdoes.of_not
    (h : c.Outdoes e a)
    (hb : ¬ c.Outdoes b a) :
    c.Outdoes e b := by
  rcases le_of_not_outdoes hb with hlt | ⟨heq, hsymbol⟩
  · rcases h with hlt' | ⟨heq', -⟩
    · exact Or.inl (Int.lt_trans hlt hlt')
    · exact Or.inl (heq' ▸ hlt)
  · rcases h with hlt' | ⟨heq', hsymbol'⟩
    · exact Or.inl (heq ▸ hlt')
    · exact Or.inr ⟨heq'.trans heq.symm, Nat.lt_of_lt_of_le hsymbol' hsymbol⟩

/-- The entry that is preferred in the end outdoes all before it, and none behind outdoes it. -/
theorem exists_split_of_foldl_prefer
    {entries : List (SymbolId × CandidateId)}
    (h : entries.foldl c.prefer none = some e) :
    ∃ before after, entries = before ++ e :: after ∧
      (∀ a ∈ before, c.Outdoes e a) ∧ ∀ a ∈ after, ¬ c.Outdoes a e := by
  induction entries using List.reverseRecOn generalizing e with
  | nil => cases h
  | append_singleton entries a ih =>
    rw [List.foldl_append, List.foldl_cons, List.foldl_nil] at h
    cases hbest : entries.foldl c.prefer none with
    | none =>
      -- only an empty list leaves nothing preferred
      have hnil : entries = [] := by
        refine List.eq_nil_iff_forall_not_mem.2 fun b hb => ?_
        obtain ⟨_, hsome, -⟩ := le_of_foldl_prefer entries none (Or.inl hb)
        rw [hbest] at hsome
        cases hsome
      rw [hbest] at h
      cases h
      exact ⟨[], [], by rw [hnil], by simp, by simp⟩
    | some b =>
      obtain ⟨before, after, rfl, hbefore, hafter⟩ := ih hbest
      rw [hbest] at h
      by_cases hbetter : c.Outdoes a b
      · rw [prefer_of_outdoes hbetter] at h
        cases h
        refine ⟨before ++ b :: after, [], rfl, fun x hx => ?_, by simp⟩
        rcases List.mem_append.1 hx with hx | hx
        · exact hbetter.trans (hbefore x hx)
        · rcases List.mem_cons.1 hx with rfl | hx
          · exact hbetter
          · exact hbetter.of_not (hafter x hx)
      · rw [prefer_of_not_outdoes hbetter] at h
        cases h
        refine ⟨before, after ++ [a], by simp, hbefore, fun x hx => ?_⟩
        rcases List.mem_append.1 hx with hx | hx
        · exact hafter x hx
        · rwa [List.mem_singleton.1 hx]

theorem mem_contendersAt_iff :
    (k, x) ∈ c.contendersAt u ↔ c.Contends u k x := by
  constructor
  · intro h
    unfold contendersAt at h
    split at h
    · rename_i j hpresent hsymbol
      obtain ⟨y, hy, heq⟩ := List.mem_map.1 h
      cases heq
      obtain ⟨hpool, hcovers⟩ := List.mem_filter.1 hy
      exact ⟨hpresent, hsymbol, hpool, by simpa using hcovers⟩
    · cases h
  · intro h
    simp [contendersAt, h.present, h.symbol, h.pooled, h.covers]

/-- The listed entries are those of the contenders. -/
theorem mem_contenders_iff :
    (k, x) ∈ c.contenders ↔ ∃ u, c.Contends u k x := by
  rw [contenders_eq, List.mem_flatMap]
  constructor
  · rintro ⟨n, -, hmem⟩
    exact ⟨⟨n⟩, mem_contendersAt_iff.1 hmem⟩
  · rintro ⟨u, hu⟩
    exact ⟨u.index, List.mem_range.2 (lt_size_of_present hu.present), mem_contendersAt_iff.2 hu⟩

/-- The item of the first candidate comes first, or else its place in the pool of the item. -/
def Precedes (c : Chart) (x y : CandidateId) : Prop :=
  (c.candidate x).root.index < (c.candidate y).root.index ∨
    (c.candidate x).root = (c.candidate y).root ∧
      (c.item (c.candidate x).root).pool.idxOf x ≤ (c.item (c.candidate x).root).pool.idxOf y

/-- A list without repetitions goes through its places. -/
theorem pairwise_idxOf_lt
    {ids : List CandidateId}
    (h : ids.Nodup) :
    ids.Pairwise fun x y => ids.idxOf x < ids.idxOf y := by
  refine List.pairwise_iff_getElem.2 fun i j hi hj hij => ?_
  rwa [h.idxOf_getElem, h.idxOf_getElem]

/-- Items are gone through in their order, and so is the pool of each. -/
theorem pairwise_contenders
    (hroot : ∀ u, ∀ x ∈ (c.item u).pool, (c.candidate x).root = u)
    (hnodup : ∀ u, (c.item u).pool.Nodup) :
    c.contenders.Pairwise fun e a => c.Precedes e.2 a.2 := by
  have hat : ∀ u, ∀ e ∈ c.contendersAt u, (c.candidate e.2).root = u := fun u e he =>
    hroot u e.2 (mem_contendersAt he).2
  rw [contenders_eq, List.pairwise_flatMap]
  constructor
  · intro n _
    have hpool := pairwise_idxOf_lt (hnodup ⟨n⟩)
    have hsame : (c.contendersAt ⟨n⟩).Pairwise fun e a =>
        (c.item ⟨n⟩).pool.idxOf e.2 < (c.item ⟨n⟩).pool.idxOf a.2 := by
      unfold contendersAt
      split
      · exact List.pairwise_map.2 (hpool.filter _)
      · exact .nil
    refine hsame.imp_of_mem fun {e a} he ha hlt => Or.inr ?_
    rw [hat _ e he, hat _ a ha]
    exact ⟨rfl, Nat.le_of_lt hlt⟩
  · refine List.pairwise_lt_range.imp fun {n m} hlt e he a ha => Or.inl ?_
    rw [hat _ e he, hat _ a ha]
    exact hlt

end Listing

section Selecting

/-- What is selected goes before all contenders. -/
theorem goesBefore_of_select
    (hroot : ∀ u, ∀ x ∈ (c.item u).pool, (c.candidate x).root = u)
    (hnodup : ∀ u, (c.item u).pool.Nodup)
    (h : c.select.1 = some x) :
    ∃ u k, c.Contends u k x ∧ ∀ v l y, c.Contends v l y → c.GoesBefore u k x v l y := by
  obtain ⟨⟨k, x⟩, he, rfl⟩ := Option.map_eq_some_iff.1 h
  obtain ⟨before, after, hsplit, hbefore, hafter⟩ := exists_split_of_foldl_prefer he
  have hpairwise := pairwise_contenders hroot hnodup
  have hmem : (k, x) ∈ c.contenders := by simp [hsplit]
  obtain ⟨u, hu⟩ := mem_contenders_iff.1 hmem
  refine ⟨u, k, hu, fun v l y hv => ?_⟩
  have hy : (l, y) ∈ c.contenders := mem_contenders_iff.2 ⟨v, hv⟩
  have hux := hroot u x hu.pooled
  have hvy := hroot v y hv.pooled
  rw [hsplit] at hy hpairwise
  rcases List.mem_append.1 hy with hy | hy
  · -- what is listed before is outdone
    rcases hbefore _ hy with hlt | ⟨heq, hlt⟩
    · exact Or.inl hlt
    · exact Or.inr ⟨heq.symm, Or.inl hlt⟩
  · have hlater : (k, x) = (l, y) ∨ c.Precedes x y ∧ ¬ c.Outdoes (l, y) (k, x) := by
      rcases List.mem_cons.1 hy with heq | hy
      · exact Or.inl heq.symm
      · have htail := (List.pairwise_append.1 hpairwise).2.1
        exact Or.inr ⟨List.rel_of_pairwise_cons htail hy, hafter _ hy⟩
    rcases hlater with heq | ⟨hprecedes, hnot⟩
    · cases heq
      have hsame : u = v := hux.symm.trans hvy
      exact Or.inr ⟨rfl, Or.inr ⟨rfl, Or.inr ⟨hsame, Nat.le_refl _⟩⟩⟩
    · rw [Precedes, hux, hvy] at hprecedes
      rcases le_of_not_outdoes hnot with hlt | ⟨heq, hle⟩
      · exact Or.inl hlt
      · rcases Nat.lt_or_eq_of_le hle with hlt | hsame
        · exact Or.inr ⟨heq, Or.inl hlt⟩
        · exact Or.inr ⟨heq, Or.inr ⟨hsame, hprecedes⟩⟩

/-- Nothing is selected just if there is no contender. -/
theorem select_eq_none_iff :
    c.select.1 = none ↔ ∀ u k x, ¬ c.Contends u k x := by
  constructor
  · intro hnone u k x hx
    obtain ⟨e, -, he, -⟩ := exists_selected (mem_contenders_iff.2 ⟨u, hx⟩)
    rw [hnone] at he
    cases he
  · intro hno
    have hempty : c.contenders = [] := List.eq_nil_iff_forall_not_mem.2 fun e he => by
      obtain ⟨u, hu⟩ := mem_contenders_iff.1 he
      exact hno u e.1 e.2 hu
    rw [select, hempty]
    rfl

/-- What is selected is the contender that goes before all others. -/
theorem select_eq_some_iff
    (hroot : ∀ u, ∀ x ∈ (c.item u).pool, (c.candidate x).root = u)
    (hnodup : ∀ u, (c.item u).pool.Nodup) :
    c.select.1 = some x ↔
      ∃ u k, c.Contends u k x ∧ ∀ v l y, c.Contends v l y → c.GoesBefore u k x v l y := by
  refine ⟨goesBefore_of_select hroot hnodup, ?_⟩
  rintro ⟨u, k, hx, hfirst⟩
  cases hselect : c.select.1 with
  | none => exact absurd hx (select_eq_none_iff.1 hselect u k x)
  | some y =>
    obtain ⟨v, l, hy, hfirst'⟩ := goesBefore_of_select hroot hnodup hselect
    exact congrArg some ((hfirst v l y hy).antisymm hx (hfirst' u k x hx)).symm

end Selecting

section Reading

/-- The tree of a candidate: its node, and the trees of what fills its slots, in their order. -/
inductive ReadsOut (c : Chart) : Option Relation → CandidateId → Parse → Prop
  | node
      {via : Option Relation} {x : CandidateId} {trees : List Parse}
      (h : List.Forall₂ (fun e t => ReadsOut c (some e.1) e.2.child t)
        (c.candidate x).slots.filled trees) :
      ReadsOut c via x (.node (c.nodeOf via x) trees)

theorem ReadsOut.top_eq
    {via : Option Relation}
    {tree : Parse}
    (h : c.ReadsOut via x tree) :
    tree.top = c.nodeOf via x := by
  cases h
  rfl

/-- Children are stored before their parents, so no part of a tree is cut off. -/
theorem readsOut_parseWithin
    (hc : Closed c)
    (room : Nat)
    (via : Option Relation)
    (hx : c.Has x)
    (hroom : x.index ≤ room) :
    c.ReadsOut via x (c.parseWithin room via x) := by
  induction room generalizing via x with
  | zero =>
    have hnone : (c.candidate x).slots.filled = [] := by
      refine List.eq_nil_iff_forall_not_mem.2 fun e he => ?_
      have hlt := hc.child x e.1 e.2 hx ((Slots.mem_filled _ e.1 e.2).1 he)
      omega
    exact .node (by rw [hnone]; exact .nil)
  | succ room ih =>
    refine .node (List.forall₂_map_right_iff.2 (List.forall₂_same.2 fun e he => ?_))
    have hslot := (Slots.mem_filled _ e.1 e.2).1 he
    have hlt := hc.child x e.1 e.2 hx hslot
    exact ih (some e.1) (hc.has_child hx hslot) (by omega)

/-- What covers something has an extent. -/
theorem exists_span?_of_covers
    (h : (c.candidate x).isEmpty = false) :
    ∃ extent, (c.candidate x).span? = some extent := by
  have hne : (c.candidate x).coverage.runs ≠ [] := fun hnil => by
    simp [Candidate.isEmpty, Coverage.isEmpty, hnil] at h
  exact ⟨_, Coverage.span?_of_ne_nil hne⟩

end Reading

/--
In a driven chart each contender stands in the pool of its own item. Nothing is selected just if
there is no contender, and otherwise the contender that goes before all others. Selecting stores
what is selected and changes nothing else, so it selects the same once more. What is read out
then is the whole tree of the selected candidate, with its weight and extent at the top.
-/
theorem select_iff_goesBefore
    (hrun : Driven g s c) :
    (∀ u k x, c.Contends u k x → (c.candidate x).root = u) ∧
      (c.select.1 = none ↔ ∀ u k x, ¬ c.Contends u k x) ∧
      (∀ x, c.select.1 = some x ↔
        ∃ u k, c.Contends u k x ∧ ∀ v l y, c.Contends v l y → c.GoesBefore u k x v l y) ∧
      c.select.2 = { c with best := c.select.1 } ∧
      c.select.2.select = c.select ∧
      ∀ x, c.select.1 = some x →
        ∃ tree, c.select.2.bestParse? = some tree ∧ c.select.2.ReadsOut none x tree ∧
          tree.top.weight = c.weightOf x ∧
          (c.candidate x).span? = some (tree.top.start, tree.top.stop) := by
  have hkept := hrun.kept
  have hpool := hkept.sound.closed.pool
  have hroot : ∀ u, ∀ x ∈ (c.item u).pool, (c.candidate x).root = u := fun u x hx =>
    (hpool u x hx).2
  have hnodup : ∀ u, (c.item u).pool.Nodup := fun u =>
    ((hkept.sound.lawful trivial).ranks u).beam.apart.nodup
  refine ⟨fun u k x hx => hroot u x hx.pooled, select_eq_none_iff,
    fun x => select_eq_some_iff hroot hnodup, rfl, rfl, fun x hx => ?_⟩
  obtain ⟨u, k, hcontends, -⟩ := goesBefore_of_select hroot hnodup hx
  obtain ⟨extent, hextent⟩ := exists_span?_of_covers hcontends.covers
  have hclosed : Closed c.select.2 :=
    (Driven.input hrun .select).kept.sound.closed
  have hreads : c.select.2.ReadsOut none x (c.select.2.parse x) :=
    readsOut_parseWithin hclosed x.index none (hpool u x hcontends.pooled).1 (Nat.le_refl _)
  have hbest : c.select.2.bestParse? = some (c.select.2.parse x) :=
    congrArg (Option.map c.select.2.parse) hx
  refine ⟨_, hbest, hreads, ?_, ?_⟩
  · rw [hreads.top_eq]
    rfl
  · have hsame : (c.select.2.candidate x).span? = some extent := hextent
    rw [hreads.top_eq, nodeOf, hextent]
    dsimp only
    rw [hsame]
    rfl

section Sample

/-- Two symbols that have nothing to do with each other. -/
def pairGrammar : Grammar :=
  Declaration.built { symbols := [{ name := "first" }, { name := "second" }] }

/-- The second symbol, and behind it the first one. -/
def pairChart : Chart :=
  (Input.feed { concept := 1, position := 1, extent := 1 }).apply
    ((Input.feed { concept := 2, position := 0, extent := 1 }).apply (new pairGrammar {}))

theorem driven_pairChart :
    Driven pairGrammar {} pairChart :=
  .input (.input .new _) _

/-- Two tokens weigh the same, and the one of the lower symbol is selected. -/
theorem select_iff_goesBefore_sample :
    pairChart.Contends ⟨0⟩ 2 ⟨0⟩ ∧ pairChart.Contends ⟨1⟩ 1 ⟨1⟩ ∧
      pairChart.weightOf ⟨0⟩ = pairChart.weightOf ⟨1⟩ ∧
      pairChart.select.1 = some ⟨1⟩ ∧ pairChart.GoesBefore ⟨1⟩ 1 ⟨1⟩ ⟨0⟩ 2 ⟨0⟩ ∧
      ∃ tree, pairChart.select.2.bestParse? = some tree ∧
        (tree.top.start, tree.top.stop) = (1, 2) := by
  have hsecond : pairChart.Contends ⟨0⟩ 2 ⟨0⟩ :=
    ⟨by decide +kernel, by decide +kernel, by decide +kernel, by decide +kernel⟩
  have hselect : pairChart.select.1 = some ⟨1⟩ := by decide +kernel
  obtain ⟨hroot, -, hiff, -, -, htree⟩ := select_iff_goesBefore driven_pairChart
  obtain ⟨u, k, hfirst, hbefore⟩ := (hiff ⟨1⟩).1 hselect
  obtain rfl : u = ⟨1⟩ := (hroot u k ⟨1⟩ hfirst).symm
  obtain rfl : k = 1 := Option.some.inj (hfirst.symbol.symm.trans (by decide +kernel))
  obtain ⟨tree, hparse, -, -, hextent⟩ := htree ⟨1⟩ hselect
  refine ⟨hsecond, hfirst, by decide +kernel, hselect, hbefore _ _ _ hsecond, tree, hparse, ?_⟩
  exact Option.some.inj (hextent.symm.trans (by decide +kernel))

end Sample

end Chart

end BeamChart
