import BeamChart.Proofs.Grammar.Built
import Mathlib.Data.List.Forall2

/-!
# Rules and parent rules

The parent rules of a symbol are the rules of all symbols that take it, turned round, in the
order of the symbols and of their declaration (`parentsAt_of_resolve`). The rules of a symbol
answer one by one to those of its definition whose target has been declared
(`forall₂_answers`). Since no name is declared twice (`nodup_names_of_resolve`), there is no
other target that they could speak of.
-/

namespace BeamChart

namespace Grammar

/-- The rules of a symbol under one relation. -/
def rulesAt (g : Grammar) (p : SymbolId) (r : Relation) : List (Rule SymbolId) :=
  (g.symbol? p).elim [] fun s => s.rulesAt r

/-- The parent rules of a symbol under one relation. -/
def parentsAt (g : Grammar) (x : SymbolId) (r : Relation) : List (Rule SymbolId) :=
  (g.symbol? x).elim [] fun s => s.parentsAt r

end Grammar

namespace Declaration

variable {d : Declaration} {g : Grammar} {k : SymbolId}

/-- The number is that of a symbol declared under the name. -/
def Declares (d : Declaration) (name : String) (k : SymbolId) : Prop :=
  ∃ i s, d.symbols[i]? = some s ∧ s.name = name ∧ k = i + 1

theorem declares_of_find?
    {name : String}
    (h : d.directory.find? name = some k) :
    d.Declares name k := by
  obtain ⟨i, hi, rfl⟩ := Option.map_eq_some_iff.1 h
  obtain ⟨hlt, hname, -⟩ := List.idxOf?_eq_some_iff.1 hi
  have hlt' : i < d.symbols.length := by simpa [directory] using hlt
  exact ⟨i, d.symbols[i], List.getElem?_eq_getElem hlt', by simpa [directory] using hname, rfl⟩

theorem find?_eq_none_iff
    {name : String} :
    d.directory.find? name = none ↔ name ∉ d.symbols.map Definition.name := by
  rw [Directory.find?, Option.map_eq_none_iff, List.idxOf?_eq_none_iff]
  rfl

/-- A name that is met for the second time has been met before. -/
theorem nodup_of_firstRepeat?
    {names seen : List String}
    (h : firstRepeat? seen names = none) :
    names.Nodup ∧ ∀ name ∈ names, name ∉ seen := by
  induction names generalizing seen with
  | nil => simp
  | cons name rest ih =>
    unfold firstRepeat? at h
    split at h
    · cases h
    · rename_i hnew
      obtain ⟨hrest, hapart⟩ := ih h
      have hfirst : name ∉ rest := fun hmem => hapart name hmem List.mem_cons_self
      refine ⟨List.nodup_cons.2 ⟨hfirst, hrest⟩, fun other hother => ?_⟩
      rcases List.mem_cons.1 hother with rfl | hother
      · exact hnew
      · exact fun hseen => hapart other hother (List.mem_cons_of_mem name hseen)

/-- Where a declaration resolves, no name has been declared twice. -/
theorem nodup_names_of_resolve
    (h : d.resolve = .ok g) :
    (d.symbols.map Definition.name).Nodup :=
  (nodup_of_firstRepeat? (of_resolve h).1).1

section Turning

/-- A list is gone through by going through its places. -/
theorem flatMap_eq_flatMap_range
    {α β : Type}
    (l : List α)
    (f : α → List β) :
    l.flatMap f = (List.range l.length).flatMap fun i => l[i]?.elim [] f := by
  induction l with
  | nil => rfl
  | cons a rest ih =>
    rw [List.flatMap_cons, ih, List.length_cons, List.range_succ_eq_map, List.flatMap_cons,
      List.flatMap_map]
    rfl

/-- The edges go from symbol to symbol in the order of the numbers. -/
theorem edges_of_resolve
    (h : d.resolve = .ok g) :
    edges d.numbered = (List.range g.size).flatMap fun p =>
      (g.symbol? p).elim [] fun s => s.rules.map fun rule => (p, rule) := by
  have hsize : d.numbered.toList.length = g.size := by
    rw [size_of_resolve h]
    simp [numbered]
  rw [edges, flatMap_eq_flatMap_range, hsize]
  refine List.flatMap_congr fun p _ => ?_
  rw [symbol?_of_resolve h, Array.getElem?_toList]
  cases hp : d.numbered[p]? with
  | none => rfl
  | some s => simp [(numbered_spec hp).1]

/-- The parent rules are the edges to a symbol; there are none to what is no symbol. -/
theorem parentsAt_eq_filter_edges
    (h : d.resolve = .ok g)
    (x : SymbolId)
    (r : Relation) :
    g.parentsAt x r = (((edges d.numbered).filter fun e => e.2.target = x).map fun e =>
      e.2.seenFromChild e.1).filter fun rule => rule.relation = r := by
  rw [Grammar.parentsAt]
  cases hentry : g.symbol? x with
  | none =>
    have hsize : g.size ≤ x := Array.getElem?_eq_none_iff.1 hentry
    have hnone : ((edges d.numbered).filter fun e => e.2.target = x) = [] := by
      rw [List.filter_eq_nil_iff]
      intro e he htarget
      obtain ⟨p, hp, hrule⟩ := exists_symbol?_of_mem_edges h he
      have heq : e.2.target = x := of_decide_eq_true htarget
      exact Nat.not_lt_of_le hsize
        (heq ▸ (pos_and_lt_of_mentions h (.definition hp (.child hrule))).2)
    rw [hnone]
    rfl
  | some entry =>
    rw [symbol?_of_resolve h] at hentry
    obtain ⟨s, -, rfl⟩ := Option.map_eq_some_iff.1 hentry
    rfl

/-- The parent rules of a symbol are the rules that take it, seen from it. -/
theorem parentsAt_of_resolve
    (h : d.resolve = .ok g)
    (x : SymbolId)
    (r : Relation) :
    g.parentsAt x r = (List.range g.size).flatMap fun p =>
      ((g.rulesAt p r).filter fun rule => rule.target = x).map fun rule =>
        rule.seenFromChild p := by
  rw [parentsAt_eq_filter_edges h, edges_of_resolve h, List.filter_flatMap, List.map_flatMap,
    List.filter_flatMap]
  refine List.flatMap_congr fun p _ => ?_
  rw [Grammar.rulesAt]
  cases g.symbol? p with
  | none => rfl
  | some s =>
    simp [List.filter_map, List.filter_filter, Function.comp_def, Definition.rulesAt,
      Rule.seenFromChild, Bool.and_comm]

end Turning

section Answering

variable {rule : Rule SymbolId} {declared : Rule String}

/-- The rule says of a number what the declared one says of a name. -/
structure Answers (d : Declaration) (rule : Rule SymbolId) (declared : Rule String) : Prop where
  target : d.Declares declared.target rule.target
  relation : rule.relation = declared.relation
  placement : rule.placement = declared.placement
  contact : rule.contact = declared.contact
  stackable : rule.stackable = declared.stackable
  implied : rule.implied = declared.implied

theorem answers_of_resolve?
    (h : Rule.resolve? d.directory declared = some rule) :
    d.Answers rule declared := by
  obtain ⟨k, hk, rfl⟩ := Option.map_eq_some_iff.1 h
  exact ⟨declares_of_find? hk, rfl, rfl, rfl, rfl, rfl⟩

/-- Of some declared rules those with a declared target are answered, in their order. -/
theorem forall₂_answers (rules : List (Rule String)) :
    List.Forall₂ d.Answers (rules.filterMap (Rule.resolve? d.directory))
      (rules.filter fun rule => rule.target ∈ d.symbols.map Definition.name) := by
  induction rules with
  | nil => exact .nil
  | cons declared rest ih =>
    cases hresolve : Rule.resolve? d.directory declared with
    | none =>
      have hlacks := find?_eq_none_iff.1 (Option.map_eq_none_iff.1 hresolve)
      rw [List.filterMap_cons_none hresolve, List.filter_cons_of_neg (by simpa using hlacks)]
      exact ih
    | some rule =>
      have hanswers := answers_of_resolve? hresolve
      obtain ⟨i, s, hs, hname, -⟩ := hanswers.target
      have hmem : declared.target ∈ d.symbols.map Definition.name :=
        List.mem_map.2 ⟨s, List.mem_of_getElem? hs, hname⟩
      rw [List.filterMap_cons_some hresolve, List.filter_cons_of_pos (by simpa using hmem)]
      exact .cons hanswers ih

/-- Resolving does not touch the relations. -/
theorem rulesAt_resolve
    (s : Definition String)
    (r : Relation) :
    (s.resolve d.directory).rulesAt r =
      (s.rulesAt r).filterMap (Rule.resolve? d.directory) := by
  rw [Definition.rulesAt, Definition.rulesAt, Definition.resolve, List.filter_filterMap,
    List.filterMap_filter]
  refine List.filterMap_congr fun declared _ => ?_
  cases hresolve : Rule.resolve? d.directory declared with
  | none => simp
  | some rule =>
    rw [← (answers_of_resolve? hresolve).relation]
    by_cases hr : rule.relation = r <;> simp [hr]

end Answering

/--
Rules and parent rules are exact inverses. The parent rules of a symbol are the rules that
take it, each once, in the order of their symbols and then of their declaration, turned to
the parent. The rules of a symbol are the declared ones whose target has been declared, in
their order; the unrecognized symbol has none. Every number that is stored anywhere is that
of a declared symbol.
-/
theorem relations_are_inverse
    (h : d.resolve = .ok g) :
    g.size = d.symbols.length + 1 ∧
      (d.symbols.map Definition.name).Nodup ∧
      (∀ x r, g.parentsAt x r = (List.range g.size).flatMap fun p =>
        ((g.rulesAt p r).filter fun rule => rule.target = x).map fun rule =>
          { rule with target := p, placement := rule.placement.reversed }) ∧
      (∀ r, g.rulesAt 0 r = []) ∧
      (∀ i s, d.symbols[i]? = some s → ∀ r, List.Forall₂ d.Answers (g.rulesAt (i + 1) r)
        ((s.rulesAt r).filter fun rule => rule.target ∈ d.symbols.map Definition.name)) ∧
      ∀ k, g.Mentions k → 0 < k ∧ k < g.size := by
  refine ⟨size_of_resolve h, nodup_names_of_resolve h, parentsAt_of_resolve h, fun r => ?_,
    fun i s hs r => ?_, fun k hk => pos_and_lt_of_mentions h hk⟩
  · rw [Grammar.rulesAt]
    cases hentry : g.symbol? 0 with
    | none => rfl
    | some entry =>
      rcases definition_of_symbol? h hentry with ⟨-, heq⟩ | ⟨i, s, hzero, -, -⟩
      · rw [Option.elim_some, heq]
        rfl
      · cases hzero
  · obtain ⟨entry, hentry, heq⟩ := exists_symbol? h hs
    rw [Grammar.rulesAt, hentry, Option.elim_some, heq, rulesAt_resolve]
    exact forall₂_answers (s.rulesAt r)

section Sample

/-- A symbol that follows itself and takes another one twice, before that one is declared. -/
def loopDeclaration : Declaration :=
  { symbols :=
      [{ name := "node"
         rules :=
          [{ relation := .next, target := "node", placement := .before },
            { relation := .property, target := "leaf", placement := .after, stackable := true },
            { relation := .property, target := "ghost" },
            { relation := .property, target := "leaf", contact := true }] },
        { name := "leaf", base := some "node" }] }

def loopGrammar : Grammar :=
  loopDeclaration.built

theorem relations_are_inverse_sample :
    loopDeclaration.resolve = .ok loopGrammar ∧
      loopGrammar.parentsAt 1 .next =
        [{ relation := .next, target := 1, placement := .after }] ∧
      loopGrammar.parentsAt 2 .property =
        [{ relation := .property, target := 1, placement := .before, stackable := true },
          { relation := .property, target := 1, contact := true }] := by
  have hresolve : loopDeclaration.resolve = .ok loopGrammar :=
    resolve_eq_built (by decide +kernel)
  obtain ⟨-, -, hinverse, -⟩ := relations_are_inverse hresolve
  refine ⟨hresolve, ?_, ?_⟩ <;> rw [hinverse] <;> decide +kernel

end Sample

end Declaration

end BeamChart
