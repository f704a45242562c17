import BeamChart.Proofs.Grammar.Ancestry
import BeamChart.Proofs.Grammar.Inverse

/-!
# Inheritance

A symbol inherits from its base and from all of its superclasses, also where superclasses go
round in a circle.

A base is not climbed from. Inheritance is therefore transitive along superclasses, and in a
grammar as a whole if and only if no two steps lead farther than one inherits
(`inherits_trans_iff`).

What a parent takes is listed with the symbols that its child inherits from
(`isSome_ruleFor?_iff`).
-/

namespace BeamChart

namespace Grammar

variable {d : Declaration} {g : Grammar} {a b k : SymbolId}

/-- The base of a symbol. -/
def base? (g : Grammar) (a : SymbolId) : Option SymbolId :=
  (g.symbol? a).bind fun s => s.base

/-- The second symbol is the base or the superclass of the first one. -/
def Adjoins (g : Grammar) (a b : SymbolId) : Prop :=
  g.base? a = some b ∨ g.Below a b

section Inheriting

/-- What is inherited is the base and what lies above by superclasses. -/
theorem inherits_iff
    (h : d.resolve = .ok g) :
    g.inherits a b = true ↔ g.base? a = some b ∨ g.Descends a b := by
  simp only [inherits, Bool.or_eq_true, beq_iff_eq, List.contains_iff_mem, mem_ancestry_iff h]
  constructor
  · rintro ((rfl | hbase) | habove)
    · exact Or.inr .refl
    · exact Or.inl hbase
    · exact Or.inr habove
  · rintro (hbase | habove)
    · exact Or.inl (Or.inr hbase)
    · exact Or.inr habove

/-- A single step is inherited. -/
theorem Adjoins.inherits
    (h : d.resolve = .ok g)
    (hstep : g.Adjoins a b) :
    g.inherits a b = true := by
  rw [inherits_iff h]
  exact hstep.imp_right .single

end Inheriting

section Taking

variable {p x : SymbolId} {r : Relation}

/-- The symbol lists the parent among those that take it. -/
def Lists (g : Grammar) (x p : SymbolId) (r : Relation) : Prop :=
  ∃ rule ∈ g.parentsAt x r, rule.target = p

/-- A child is taken under a rule for something that it inherits from. -/
theorem isSome_ruleFor?_iff_rulesAt (g : Grammar) (p x : SymbolId) (r : Relation) :
    (g.ruleFor? p r x).isSome ↔ ∃ rule ∈ g.rulesAt p r, g.inherits x rule.target = true := by
  rw [ruleFor?, rulesAt]
  cases g.symbol? p with
  | none => simp
  | some entry =>
    simp only [Option.bind_some, Option.elim_some]
    cases hexact : (entry.rulesAt r).find? fun rule => rule.target = x with
    | none => simp [List.find?_isSome]
    | some rule =>
      have htarget : rule.target = x := by simpa using List.find?_some hexact
      simp only [Option.isSome_some, true_iff]
      exact ⟨rule, List.mem_of_find?_eq_some hexact, by rw [htarget, inherits_self]⟩

/-- A symbol lists the parents that have a rule for just this symbol. -/
theorem lists_iff
    (h : d.resolve = .ok g) :
    g.Lists x p r ↔ ∃ rule ∈ g.rulesAt p r, rule.target = x := by
  simp only [Lists, Declaration.parentsAt_of_resolve h, List.mem_flatMap, List.mem_map,
    List.mem_filter, List.mem_range, decide_eq_true_eq]
  constructor
  · rintro ⟨_, ⟨q, -, rule, ⟨hrule, htarget⟩, rfl⟩, rfl⟩
    exact ⟨rule, hrule, htarget⟩
  · rintro ⟨rule, hrule, htarget⟩
    have hlt : p < g.size := by
      by_contra hout
      rw [rulesAt, symbol?, Array.getElem?_eq_none (Nat.le_of_not_lt hout)] at hrule
      cases hrule
    exact ⟨_, ⟨p, hlt, rule, ⟨hrule, htarget⟩, rfl⟩, rfl⟩

/-- A parent takes a child if something that the child inherits from lists the parent. -/
theorem isSome_ruleFor?_iff
    (h : d.resolve = .ok g) :
    (g.ruleFor? p r x).isSome ↔ ∃ level, g.inherits x level = true ∧ g.Lists level p r := by
  rw [isSome_ruleFor?_iff_rulesAt]
  simp only [lists_iff h]
  constructor
  · rintro ⟨rule, hrule, hinherits⟩
    exact ⟨rule.target, hinherits, rule, hrule, rfl⟩
  · rintro ⟨_, hinherits, rule, hrule, rfl⟩
    exact ⟨rule, hrule, hinherits⟩

end Taking

section Transitivity

variable {c : SymbolId}

/-- Where two steps never lead farther than one inherits, what is inherited is inherited on. -/
theorem inherits_trans_of_adjoins
    (h : d.resolve = .ok g)
    (htwo : ∀ x y z, g.Adjoins x y → g.Adjoins y z → g.inherits x z = true)
    (hab : g.inherits a b = true)
    (hbc : g.inherits b c = true) :
    g.inherits a c = true := by
  -- a step behind what is inherited, by superclass
  have hbehind : ∀ x y z, g.inherits x y = true → g.Below y z → g.inherits x z = true := by
    intro x y z hxy hyz
    rcases (inherits_iff h).1 hxy with hbase | habove
    · exact htwo x y z (Or.inl hbase) (Or.inr hyz)
    · exact (inherits_iff h).2 (Or.inr (habove.tail hyz))
  -- a step to a base behind steps by superclass
  have hlast : ∀ x y z, g.Descends x y → g.base? y = some z → g.inherits x z = true := by
    intro x y z hxy hyz
    induction hxy using Relation.ReflTransGen.head_induction_on with
    | refl => exact (inherits_iff h).2 (Or.inl hyz)
    | @head x w hxw _ ih =>
      rcases (inherits_iff h).1 ih with hbase | habove
      · exact htwo x w z (Or.inr hxw) (Or.inl hbase)
      · exact (inherits_iff h).2 (Or.inr (.head hxw habove))
  rcases (inherits_iff h).1 hbc with hbase | habove
  · rcases (inherits_iff h).1 hab with hfirst | hfirst
    · exact htwo a b c (Or.inl hfirst) (Or.inl hbase)
    · exact hlast a b c hfirst hbase
  · induction habove with
    | refl => exact hab
    | tail habove hstep ih =>
      exact hbehind _ _ _ (ih ((inherits_iff h).2 (Or.inr habove))) hstep

/--
Every symbol inherits from itself, from its base and from what lies above it by superclasses,
and from nothing else. What is inherited along superclasses is inherited on; a base ends the
way. So inheritance is transitive throughout a grammar if and only if no two steps, to a base
or to a superclass, lead farther than one inherits.
-/
theorem inherits_trans_iff
    (h : d.resolve = .ok g) :
    (∀ a, g.inherits a a = true) ∧
      (∀ a b, g.inherits a b = true ↔ a = b ∨ g.base? a = some b ∨ g.Descends a b) ∧
      (∀ a b c, g.inherits a b = true → g.inherits b c = true →
        (g.Descends a b ∨ b = c) → (g.Descends b c ∨ a = b) → g.inherits a c = true) ∧
      ((∀ a b c, g.inherits a b = true → g.inherits b c = true → g.inherits a c = true) ↔
        ∀ a b c, g.Adjoins a b → g.Adjoins b c → g.inherits a c = true) := by
  refine ⟨fun a => inherits_self g a, fun a b => ?_, fun a b c hab hbc hfirst hsecond => ?_, ?_⟩
  · rw [inherits_iff h]
    constructor
    · exact Or.inr
    · rintro (rfl | hall)
      · exact Or.inr .refl
      · exact hall
  · rcases hfirst with hfirst | rfl
    · rcases hsecond with hsecond | rfl
      · exact (inherits_iff h).2 (Or.inr (hfirst.trans hsecond))
      · exact hbc
    · exact hab
  · constructor
    · exact fun htrans a b c hab hbc => htrans a b c (hab.inherits h) (hbc.inherits h)
    · exact fun htwo a b c hab hbc => inherits_trans_of_adjoins h htwo hab hbc

section Sample

theorem inherits_trans_iff_sample :
    roundDeclaration.resolve = .ok roundGrammar ∧
      roundGrammar.Descends 1 2 ∧ roundGrammar.Descends 2 3 ∧
      roundGrammar.inherits 1 3 = true ∧ roundGrammar.inherits 3 1 = false := by
  have hresolve : roundDeclaration.resolve = .ok roundGrammar :=
    Declaration.resolve_eq_built (by decide +kernel)
  have hfirst : roundGrammar.Descends 1 2 := .single (by unfold Below; decide +kernel)
  have hsecond : roundGrammar.Descends 2 3 := .single (by unfold Below; decide +kernel)
  obtain ⟨-, hiff, htrans, -⟩ := inherits_trans_iff hresolve
  refine ⟨hresolve, hfirst, hsecond, ?_, by decide +kernel⟩
  exact htrans 1 2 3 ((hiff 1 2).2 (Or.inr (Or.inr hfirst)))
    ((hiff 2 3).2 (Or.inr (Or.inr hsecond))) (Or.inl hfirst) (Or.inl hsecond)

/-- Each symbol is the base of the next one. -/
def basesDeclaration : Declaration :=
  { symbols :=
      [{ name := "base" }, { name := "middle", base := some "base" },
        { name := "leaf", base := some "middle" }] }

def basesGrammar : Grammar :=
  basesDeclaration.built

/-- The base of a base is not inherited from. -/
theorem base_of_base_not_inherited :
    basesDeclaration.resolve = .ok basesGrammar ∧
      basesGrammar.inherits 3 2 = true ∧ basesGrammar.inherits 2 1 = true ∧
      basesGrammar.inherits 3 1 = false :=
  ⟨Declaration.resolve_eq_built (by decide +kernel), by decide +kernel, by decide +kernel,
    by decide +kernel⟩

end Sample

end Transitivity

end Grammar

end BeamChart
