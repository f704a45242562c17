import BeamChart.Proofs.Chart.Raising
import BeamChart.Proofs.Chart.Run
import BeamChart.Proofs.Grammar.Inheritance

/-!
# Parents that are sought

An item seeks parents by the parent rules of its symbol and of its superclasses, one search
after the other, those from farthest above first, whatever it finds on the way
(`seekParents_eq_foldl`). What is sought is a parent that takes the item.

But a parent also takes a symbol whose base it has a rule for, and no parent is sought by the
parent rules of a base. So a parent is missed if it is listed by the base and by no level of
the symbol itself (`accepted_iff_sought`).
-/

namespace BeamChart

namespace Grammar

variable {d : Declaration} {g : Grammar} {p x level : SymbolId} {r : Relation}
variable {rule : Rule SymbolId} {e : SymbolId × Rule SymbolId}

/-- The parent rules that a symbol seeks by, each with the level that it was declared for. -/
def searches (g : Grammar) (x : SymbolId) : List (SymbolId × Rule SymbolId) :=
  (g.ancestry x).reverse.flatMap fun level => (g.parentRules level).map fun rule => (level, rule)

/-- The first symbol seeks the second one as a parent. -/
def Seeks (g : Grammar) (x p : SymbolId) (r : Relation) : Prop :=
  ∃ e ∈ g.searches x, e.2.target = p ∧ e.2.relation = r

theorem relation_of_mem_parentsAt
    (h : rule ∈ g.parentsAt level r) :
    rule.relation = r := by
  unfold parentsAt at h
  cases hentry : g.symbol? level with
  | none =>
    rw [hentry] at h
    cases h
  | some entry =>
    rw [hentry] at h
    exact of_decide_eq_true (List.mem_filter.1 h).2

theorem mem_parentRules_iff :
    rule ∈ g.parentRules level ↔ ∃ r, r ≠ .subclass ∧ rule ∈ g.parentsAt level r := by
  rw [parentRules]
  unfold parentsAt
  cases g.symbol? level <;> simp

theorem mem_searches_iff :
    e ∈ g.searches x ↔ e.1 ∈ g.ancestry x ∧ e.2 ∈ g.parentRules e.1 := by
  simp only [searches, List.mem_flatMap, List.mem_reverse, List.mem_map]
  constructor
  · rintro ⟨level, hlevel, rule, hrule, rfl⟩
    exact ⟨hlevel, hrule⟩
  · rintro ⟨hlevel, hrule⟩
    exact ⟨e.1, hlevel, e.2, hrule, rfl⟩

/-- What a search is for has been listed by its level. -/
theorem lists_of_mem_searches
    (he : e ∈ g.searches x) :
    e.1 ∈ g.ancestry x ∧ e.2.relation ≠ .subclass ∧ g.Lists e.1 e.2.target e.2.relation := by
  obtain ⟨hlevel, hrule⟩ := mem_searches_iff.1 he
  obtain ⟨r, hr, hparent⟩ := mem_parentRules_iff.1 hrule
  obtain rfl := relation_of_mem_parentsAt hparent
  exact ⟨hlevel, hr, e.2, hparent, rfl⟩

/-- A symbol seeks the parents that one of its levels lists. -/
theorem seeks_iff
    (hr : r ≠ .subclass) :
    g.Seeks x p r ↔ ∃ level ∈ g.ancestry x, g.Lists level p r := by
  constructor
  · rintro ⟨e, he, rfl, rfl⟩
    obtain ⟨hlevel, -, hlists⟩ := lists_of_mem_searches he
    exact ⟨e.1, hlevel, hlists⟩
  · rintro ⟨level, hlevel, rule, hrule, rfl⟩
    exact ⟨(level, rule), mem_searches_iff.2 ⟨hlevel, mem_parentRules_iff.2 ⟨r, hr, hrule⟩⟩, rfl,
      relation_of_mem_parentsAt hrule⟩

/-- A parent takes a symbol if a level of the symbol lists it, or the base does. -/
theorem isSome_ruleFor?_iff_lists
    (h : d.resolve = .ok g) :
    (g.ruleFor? p r x).isSome ↔
      (∃ level ∈ g.ancestry x, g.Lists level p r) ∨
        ∃ base, g.base? x = some base ∧ g.Lists base p r := by
  simp only [isSome_ruleFor?_iff h, inherits_iff h, mem_ancestry_iff h]
  constructor
  · rintro ⟨level, hbase | habove, hlists⟩
    · exact Or.inr ⟨level, hbase, hlists⟩
    · exact Or.inl ⟨level, habove, hlists⟩
  · rintro (⟨level, habove, hlists⟩ | ⟨base, hbase, hlists⟩)
    · exact ⟨level, Or.inr habove, hlists⟩
    · exact ⟨base, Or.inl hbase, hlists⟩

end Grammar

namespace Chart

variable {d : Declaration} {g : Grammar} {s : Settings} {c : Chart}

/-- Searches leave the grammar alone, so all of them are known beforehand. -/
theorem foldl_seekParent_levels
    (hc : Sound False c)
    (hgrammar : c.grammar = g)
    (u : ItemId)
    (levels : List SymbolId) :
    levels.foldl
        (fun c level => (c.parentRules level).foldl (fun c rule => c.seekParent u level rule) c) c =
      (levels.flatMap fun level => (g.parentRules level).map fun rule => (level, rule)).foldl
        (fun c e => c.seekParent u e.1 e.2) c := by
  induction levels generalizing c with
  | nil => rfl
  | cons level rest ih =>
    have hevolves : Evolves False c
        ((c.parentRules level).foldl (fun c rule => c.seekParent u level rule) c) :=
      evolves_foldl (fun c => c) _ _ c fun c₁ rule _ hsteps =>
        seekParentWith_evolves connect_evolves (hsteps.sound hc) fun h => h.elim
    have hrules : c.parentRules level = g.parentRules level := by
      rw [← hgrammar]
      rfl
    rw [List.foldl_cons, List.flatMap_cons, List.foldl_append, List.foldl_map,
      ih (hevolves.sound hc) (hevolves.grows.grammar.trans hgrammar), hrules]

/-- Seeking parents is one search after the other. -/
theorem seekParents_eq_foldl
    (hrun : Operated g s c)
    (u : ItemId)
    (x : SymbolId) :
    c.seekParents u x = (g.searches x).foldl (fun c e => c.seekParent u e.1 e.2) c := by
  have hfold := foldl_seekParent_levels hrun.kept.sound hrun.kept.grammar u (g.ancestry x).reverse
  rw [← hrun.kept.grammar] at hfold ⊢
  exact hfold

/--
A parent takes a symbol exactly if a level of the symbol lists it, the symbol or what lies
above it by superclasses, or if its base does. Parents are sought by the lists of the levels
only: so they are those that take the symbol, as long as the base is a level as well. Every
search is for a parent that takes the symbol, under the rule for its level. In any chart,
seeking parents is one such search after the other.
-/
theorem accepted_iff_sought
    (h : d.resolve = .ok g) :
    (∀ p r x, r ≠ .subclass → ((g.ruleFor? p r x).isSome ↔
        (∃ level ∈ g.ancestry x, g.Lists level p r) ∨
          ∃ base, g.base? x = some base ∧ g.Lists base p r)) ∧
      (∀ p r x, r ≠ .subclass → (g.Seeks x p r ↔ ∃ level ∈ g.ancestry x, g.Lists level p r)) ∧
      (∀ p r x, r ≠ .subclass → (∀ base, g.base? x = some base → base ∈ g.ancestry x) →
        ((g.ruleFor? p r x).isSome ↔ g.Seeks x p r)) ∧
      (∀ x, ∀ e ∈ g.searches x, e.2.relation ≠ .subclass ∧
        (g.ruleFor? e.2.target e.2.relation e.1).isSome ∧
        (g.ruleFor? e.2.target e.2.relation x).isSome) ∧
      ∀ s c u x, Operated g s c →
        c.seekParents u x = (g.searches x).foldl (fun c e => c.seekParent u e.1 e.2) c := by
  refine ⟨fun p r x _ => Grammar.isSome_ruleFor?_iff_lists h, fun p r x hr => Grammar.seeks_iff hr,
    fun p r x hr hbase => ?_, fun x e he => ?_,
    fun s c u x hrun => seekParents_eq_foldl hrun u x⟩
  · rw [Grammar.isSome_ruleFor?_iff_lists h, Grammar.seeks_iff hr, or_iff_left_iff_imp]
    rintro ⟨base, hfound, hlists⟩
    exact ⟨base, hbase base hfound, hlists⟩
  · obtain ⟨hlevel, hr, hlists⟩ := Grammar.lists_of_mem_searches he
    have hself : (g.ruleFor? e.2.target e.2.relation e.1).isSome :=
      (Grammar.isSome_ruleFor?_iff h).2 ⟨e.1, Grammar.inherits_self g e.1, hlists⟩
    exact ⟨hr, hself, (Grammar.isSome_ruleFor?_iff_lists h).2 (Or.inl ⟨e.1, hlevel, hlists⟩)⟩

section Sample

/-- A head takes a base behind it. -/
def leafDeclaration : Declaration :=
  { symbols :=
      [{ name := "base" },
        { name := "head"
          rules := [{ relation := .property, target := "base", placement := .after }] },
        { name := "leaf", base := some "base" }] }

def leafGrammar : Grammar :=
  leafDeclaration.built

/-- A head, and behind it a leaf. -/
def leafChart : Chart :=
  (new leafGrammar {}).feeds
    [{ concept := 2, position := 0, extent := 1 }, { concept := 3, position := 1, extent := 1 }]

theorem accepted_iff_sought_sample :
    leafDeclaration.resolve = .ok leafGrammar ∧
      leafGrammar.Seeks 1 2 .property ∧
      ∀ u, leafChart.seekParents u 1 =
        (leafGrammar.searches 1).foldl (fun c e => c.seekParent u e.1 e.2) leafChart := by
  have hresolve : leafDeclaration.resolve = .ok leafGrammar :=
    Declaration.resolve_eq_built (by decide +kernel)
  have hbase : leafGrammar.base? 1 = none := by decide +kernel
  obtain ⟨-, -, hseeks, -, hfold⟩ := accepted_iff_sought hresolve
  refine ⟨hresolve, (hseeks 2 .property 1 (by decide) ?_).1 (by decide +kernel), fun u => ?_⟩
  · rw [hbase]
    rintro base ⟨⟩
  · exact hfold {} leafChart u 1 (driven_feeds .new _).operated

/-- The head would take the leaf, for its base, but is not sought, and so nothing is offered. -/
theorem base_not_sought :
    leafDeclaration.resolve = .ok leafGrammar ∧
      (leafGrammar.ruleFor? 2 .property 3).isSome ∧
      (∀ level ∈ leafGrammar.ancestry 3, ¬ leafGrammar.Lists level 2 .property) ∧
      leafChart.tally.attempts = 0 ∧
      ∃ rule ∈ leafGrammar.ruleFor? 2 .property 3, (leafChart.offer ⟨0⟩ ⟨1⟩ rule).1 = true := by
  refine ⟨Declaration.resolve_eq_built (by decide +kernel), by decide +kernel, ?_,
    by decide +kernel, by decide +kernel⟩
  unfold Grammar.Lists
  decide +kernel

end Sample

end Chart

end BeamChart
