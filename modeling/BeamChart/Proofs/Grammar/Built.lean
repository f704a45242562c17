import BeamChart.Grammar.Declaration

/-!
# What a built grammar looks like

Symbols are numbered by their places and defined as declared, by name
(`Declaration.definition_of_symbol?`). Entering the parent rules changes the very
symbols that are being gone through, but not their rules, so what is entered is
known beforehand (`Declaration.symbol?_of_resolve`): the rules of other symbols that
take it, seen from the child (`Declaration.coherent_of_resolve`). In such a grammar
a parent rule leads back to a rule for the very symbol it was found at
(`Coherent.target_of_ruleFor?`). Whatever a symbol or a meaning refers to is a
declared symbol, since dangling references are dropped
(`Declaration.pos_and_lt_of_mentions`).
-/

namespace BeamChart

namespace Definition

variable {ρ : Type}

/-- What a definition refers to. -/
inductive Refers (x : Definition ρ) : ρ → Prop
  | child {rule : Rule ρ} (hrule : rule ∈ x.rules) : Refers x rule.target
  | base {b : ρ} (hbase : x.base = some b) : Refers x b
  | binding {b : Binding ρ} {s : ρ} (hb : b ∈ x.bindings) (hs : b.symbol = some s) : Refers x s
  | level {tower : Composition ρ} {e : ρ × Option Relation}
      (htower : x.composition = some tower) (he : e ∈ tower.levels) : Refers x e.1

end Definition

namespace Grammar

/-- The numbers that stand somewhere in a grammar. -/
inductive Mentions (g : Grammar) : SymbolId → Prop
  | definition {k s : SymbolId} {entry : Symbol}
      (hentry : g.symbol? k = some entry) (hs : entry.toDefinition.Refers s) : Mentions g s
  | parent {k : SymbolId} {entry : Symbol} {rule : Rule SymbolId}
      (hentry : g.symbol? k = some entry) (hrule : rule ∈ entry.parents) : Mentions g rule.target
  | meaning {concept s : SymbolId} (hs : s ∈ g.meaningsOf concept) : Mentions g s

/-- Numbers are places, and parent rules mirror rules. -/
structure Coherent (g : Grammar) : Prop where
  numbered : ∀ k entry, g.symbol? k = some entry → entry.id = k
  mirrored : ∀ k entry parentRule, g.symbol? k = some entry → parentRule ∈ entry.parents →
    ∃ parent rule, g.symbol? parentRule.target = some parent ∧ rule ∈ parent.rules ∧
      rule.target = k ∧ rule.relation = parentRule.relation

/-- What a grammar refers to is one of its symbols. -/
structure Total (g : Grammar) : Prop where
  numbered : ∀ k entry, g.symbol? k = some entry → entry.id = k
  bucket : ∀ k, k < g.size → g.bucketOf k < g.size
  composition : ∀ k entry tower, g.symbol? k = some entry → entry.composition = some tower →
    ∀ e ∈ tower.levels, e.1 < g.size
  meanings : ∀ concept, ∀ s ∈ g.meaningsOf concept, s < g.size

/-- Every symbol that a concept may mean has been declared. -/
def Meant (g : Grammar) : Prop :=
  ∀ concept, ∀ s ∈ g.meaningsOf concept, s ≠ unrecognized

theorem Meant.filter_head?
    {g : Grammar}
    (h : g.Meant)
    (concept : SymbolId) :
    ((g.meaningsOf concept).head?.filter fun s => s ≠ unrecognized) =
      (g.meaningsOf concept).head? := by
  cases heq : (g.meaningsOf concept).head? with
  | none => rfl
  | some s => simp [h concept s (List.mem_of_head? heq)]

variable {g : Grammar} {s level : SymbolId} {r : Relation} {rule : Rule SymbolId}

theorem subset_climb
    (g : Grammar)
    (room : Nat)
    (seen : List SymbolId)
    (id : SymbolId) :
    seen ⊆ g.climb room seen id := by
  induction room generalizing seen id with
  | zero => exact List.Subset.refl seen
  | succ room ih =>
    unfold climb
    split
    · exact List.Subset.refl seen
    · split
      · exact List.subset_append_left seen [id]
      · exact fun x hx => ih _ _ (List.subset_append_left seen [id] hx)

/-- A symbol that is there comes first among its own superclasses. -/
theorem mem_ancestry_self
    {entry : Symbol}
    (h : g.symbol? s = some entry) :
    s ∈ g.ancestry s := by
  have hpos : 0 < g.size := Nat.zero_lt_of_lt (Array.getElem?_eq_some_iff.1 h).1
  obtain ⟨room, hroom⟩ : ∃ room, g.size = room + 1 := ⟨g.size - 1, by omega⟩
  rw [ancestry, hroom, climb]
  split
  · rename_i hmem
    cases hmem
  · split
    · simp
    · exact subset_climb g room _ _ (by simp)

/-- The rule for a child is a rule of the parent, for something the child inherits from. -/
theorem mem_of_ruleFor?
    {child : SymbolId}
    (h : g.ruleFor? s r child = some rule) :
    ∃ entry, g.symbol? s = some entry ∧ rule ∈ entry.rulesAt r ∧
      g.inherits child rule.target = true := by
  rw [ruleFor?, Option.bind_eq_some_iff] at h
  obtain ⟨entry, hentry, hrule⟩ := h
  refine ⟨entry, hentry, ?_⟩
  dsimp only at hrule
  split at hrule
  · rename_i found hfound
    cases hrule
    refine ⟨List.mem_of_find?_eq_some hfound, ?_⟩
    have htarget : rule.target = child := by simpa using List.find?_some hfound
    rw [htarget, inherits_self]
  · exact ⟨List.mem_of_find?_eq_some hrule, by simpa using List.find?_some hrule⟩

/-- A rule for the very child is preferred. -/
theorem target_of_ruleFor?
    {entry : Symbol}
    {other : Rule SymbolId}
    {child : SymbolId}
    (hentry : g.symbol? s = some entry)
    (hmem : other ∈ entry.rulesAt r)
    (htarget : other.target = child)
    (h : g.ruleFor? s r child = some rule) :
    rule.target = child := by
  simp only [ruleFor?, hentry, Option.bind_some] at h
  split at h
  · rename_i found hfound
    cases h
    simpa using List.find?_some hfound
  · rename_i hnone
    have hnot := List.find?_eq_none.1 hnone other hmem
    simp [htarget] at hnot

theorem Coherent.target_of_ruleFor?
    (h : g.Coherent)
    {entry : Symbol}
    {parentRule : Rule SymbolId}
    (hentry : g.symbol? level = some entry)
    (hmem : parentRule ∈ entry.parents)
    (hrule : g.ruleFor? parentRule.target parentRule.relation level = some rule) :
    rule.target = level := by
  obtain ⟨parent, other, hparent, hother, htarget, hrelation⟩ :=
    h.mirrored level entry parentRule hentry hmem
  have hat : other ∈ parent.rulesAt parentRule.relation :=
    (Definition.mem_rulesAt _ _ _).2 ⟨hother, hrelation⟩
  exact Grammar.target_of_ruleFor? hparent hat htarget hrule

end Grammar

section Resolving

variable {d : Directory} {k : SymbolId}

/-- The numbers of a tower replace its names. -/
theorem Composition.exists_find?_of_mem_levels
    {names : Composition String}
    {tower : Composition SymbolId}
    (h : names.resolve? d = some tower)
    {e : SymbolId × Option Relation}
    (he : e ∈ tower.levels) :
    ∃ f ∈ names.levels, d.find? f.1 = some e.1 := by
  induction names generalizing tower with
  | single name =>
    obtain ⟨k, hk, rfl⟩ := Option.map_eq_some_iff.1 h
    rw [List.mem_singleton.1 he]
    exact ⟨(name, none), List.mem_singleton_self _, hk⟩
  | holding name r inner ih =>
    unfold Composition.resolve? at h
    split at h
    · rename_i k below hk hbelow
      cases h
      rcases List.mem_cons.1 he with rfl | hrest
      · exact ⟨(name, some r), List.mem_cons_self, hk⟩
      · obtain ⟨f, hf, hfound⟩ := ih hbelow hrest
        exact ⟨f, List.mem_cons_of_mem _ hf, hfound⟩
    · cases h

/-- What a resolved definition refers to, it has referred to by a name. -/
theorem Definition.Refers.exists_find?
    {s : Definition String}
    (h : (s.resolve d).Refers k) :
    ∃ name, s.Refers name ∧ d.find? name = some k := by
  cases h with
  | child hrule =>
    obtain ⟨declared, hdeclared, hresolve⟩ := List.mem_filterMap.1 hrule
    obtain ⟨n, hn, rfl⟩ := Option.map_eq_some_iff.1 hresolve
    exact ⟨declared.target, .child hdeclared, hn⟩
  | base hbase =>
    obtain ⟨name, hname, hfound⟩ := Option.bind_eq_some_iff.1 hbase
    exact ⟨name, .base hname, hfound⟩
  | binding hb hs =>
    obtain ⟨declared, hdeclared, hresolve⟩ := List.mem_filterMap.1 hb
    unfold Binding.resolve? at hresolve
    split at hresolve
    · cases hresolve
      cases hs
    · rename_i name hname
      obtain ⟨n, hn, rfl⟩ := Option.map_eq_some_iff.1 hresolve
      obtain rfl := Option.some.inj hs
      exact ⟨name, .binding hdeclared hname, hn⟩
  | level htower he =>
    obtain ⟨names, hnames, hresolve⟩ := Option.bind_eq_some_iff.1 htower
    obtain ⟨f, hf, hfound⟩ := Composition.exists_find?_of_mem_levels hresolve he
    exact ⟨f.1, .level hnames hf, hfound⟩

end Resolving

namespace Declaration

/-- The grammar that a declaration resolves to, or one without symbols. -/
def built (d : Declaration) : Grammar :=
  match d.resolve with
  | .ok g => g
  | .error _ => { name := d.name, kind := d.kind, symbols := #[] }

theorem resolve_eq_built
    {d : Declaration}
    (h : d.resolve.isOk = true) :
    d.resolve = .ok d.built := by
  unfold built
  generalize d.resolve = result at h ⊢
  cases result with
  | ok g => rfl
  | error e => cases h

variable {d : Declaration} {g : Grammar} {k : SymbolId} {entry : Symbol}

section Entering

/-- The rules of all symbols with the symbols that they are rules of. -/
def edges (symbols : Array Symbol) : List (SymbolId × Rule SymbolId) :=
  symbols.toList.flatMap fun p => p.rules.map fun rule => (p.id, rule)

theorem withParents_eq_foldl (symbols : Array Symbol) :
    withParents symbols = (edges symbols).foldl (fun acc e => addParent acc e.1 e.2) symbols := by
  rw [withParents, edges, List.foldl_flatMap]
  simp only [List.foldl_map]

/-- Each edge to a symbol is entered with it once, behind those before. -/
theorem getElem?_foldl_addParent
    (edges : List (SymbolId × Rule SymbolId))
    (acc : Array Symbol)
    (k : Nat) :
    (edges.foldl (fun acc e => addParent acc e.1 e.2) acc)[k]? = acc[k]?.map fun s =>
      { s with parents := s.parents ++
        (edges.filter fun e => e.2.target = k).map fun e => e.2.seenFromChild e.1 } := by
  induction edges generalizing acc with
  | nil => simp
  | cons e rest ih =>
    rw [List.foldl_cons, ih, addParent, Array.getElem?_modify]
    by_cases htarget : e.2.target = k
    · rw [if_pos htarget, List.filter_cons_of_pos (by simpa using htarget), Option.map_map]
      congr 1
      funext s
      simp
    · rw [if_neg htarget, List.filter_cons_of_neg (by simpa using htarget)]

end Entering

section Numbering

theorem numbered_spec
    (h : d.numbered[k]? = some entry) :
    entry.id = k ∧ entry.parents = [] := by
  simp only [numbered, List.getElem?_toArray, List.getElem?_map, List.getElem?_zipIdx,
    Option.map_map, Option.map_eq_some_iff] at h
  obtain ⟨e, -, rfl⟩ := h
  simp

/-- What a declaration that resolves has been checked for, and what it gives. -/
theorem of_resolve
    (h : d.resolve = .ok g) :
    firstRepeat? [] d.directory.names = none ∧
      g.symbols = withParents d.numbered ∧
      g.meanings = (d.meanings.filterMap fun e => (d.directory.find? e.2).map (e.1, ·)) ∧
      g.dangling = d.dangling := by
  unfold resolve at h
  split at h
  · cases h
  · split at h
    · cases h
    · rename_i hnone
      cases h
      exact ⟨hnone, rfl, rfl, rfl⟩

theorem fields_of_resolve
    (h : d.resolve = .ok g) :
    g.symbols = withParents d.numbered ∧
      g.meanings = d.meanings.filterMap fun e => (d.directory.find? e.2).map (e.1, ·) :=
  ⟨(of_resolve h).2.1, (of_resolve h).2.2.1⟩

/-- A symbol is as it was numbered, and has the edges to it as its parent rules. -/
theorem symbol?_of_resolve
    (h : d.resolve = .ok g)
    (k : SymbolId) :
    g.symbol? k = d.numbered[k]?.map fun s =>
      { s with parents :=
        ((edges d.numbered).filter fun e => e.2.target = k).map fun e =>
          e.2.seenFromChild e.1 } := by
  rw [Grammar.symbol?, (fields_of_resolve h).1, withParents_eq_foldl, getElem?_foldl_addParent]
  cases hs : d.numbered[k]? with
  | none => rfl
  | some s => simp [(numbered_spec hs).2]

/-- An edge is a rule of the symbol that it starts at. -/
theorem exists_symbol?_of_mem_edges
    (h : d.resolve = .ok g)
    {e : SymbolId × Rule SymbolId}
    (he : e ∈ edges d.numbered) :
    ∃ p, g.symbol? e.1 = some p ∧ e.2 ∈ p.rules := by
  obtain ⟨p, hp, he⟩ := List.mem_flatMap.1 he
  obtain ⟨rule, hrule, rfl⟩ := List.mem_map.1 he
  obtain ⟨m, hm⟩ := List.mem_iff_getElem?.1 hp
  rw [Array.getElem?_toList] at hm
  rw [(numbered_spec hm).1, symbol?_of_resolve h, hm]
  exact ⟨_, rfl, hrule⟩

theorem coherent_of_resolve
    (h : d.resolve = .ok g) :
    g.Coherent where
  numbered k entry hentry := by
    rw [symbol?_of_resolve h] at hentry
    obtain ⟨s, hs, rfl⟩ := Option.map_eq_some_iff.1 hentry
    exact (numbered_spec hs).1
  mirrored k entry parentRule hentry hmem := by
    rw [symbol?_of_resolve h] at hentry
    obtain ⟨s, -, rfl⟩ := Option.map_eq_some_iff.1 hentry
    obtain ⟨e, he, rfl⟩ := List.mem_map.1 hmem
    obtain ⟨hedge, htarget⟩ := List.mem_filter.1 he
    obtain ⟨p, hp, hrule⟩ := exists_symbol?_of_mem_edges h hedge
    exact ⟨p, e.2, hp, hrule, of_decide_eq_true htarget, rfl⟩

end Numbering

section Defining

/-- The definitions of a grammar are the declared ones behind that of the unrecognized symbol. -/
theorem definitions_of_resolve
    (h : d.resolve = .ok g) :
    g.symbols.toList.map Symbol.toDefinition =
      { name := "<unrecognized>" } :: d.symbols.map (Definition.resolve d.directory) := by
  have hsame : g.symbols.toList.map Symbol.toDefinition =
      d.numbered.toList.map Symbol.toDefinition := by
    refine List.ext_getElem? fun k => ?_
    rw [List.getElem?_map, List.getElem?_map, Array.getElem?_toList, Array.getElem?_toList]
    change (g.symbol? k).map _ = _
    rw [symbol?_of_resolve h, Option.map_map]
    rfl
  rw [hsame, numbered, List.map_map]
  exact List.zipIdx_map_fst 0 _

theorem size_of_resolve
    (h : d.resolve = .ok g) :
    g.size = d.symbols.length + 1 := by
  have hlength := congrArg List.length (definitions_of_resolve h)
  simpa [Grammar.size] using hlength

/-- A symbol of a grammar is the unrecognized one, or the one declared in its place. -/
theorem definition_of_symbol?
    (h : d.resolve = .ok g)
    (hentry : g.symbol? k = some entry) :
    k = 0 ∧ entry.toDefinition = { name := "<unrecognized>" } ∨
      ∃ i s, k = i + 1 ∧ d.symbols[i]? = some s ∧ entry.toDefinition = s.resolve d.directory := by
  have hplace := congrArg (fun definitions => definitions[k]?) (definitions_of_resolve h)
  have hfound : g.symbols.toList[k]? = some entry := by
    rw [Array.getElem?_toList]
    exact hentry
  simp only [List.getElem?_map, hfound, Option.map_some] at hplace
  cases k with
  | zero => exact Or.inl ⟨rfl, Option.some.inj hplace⟩
  | succ i =>
    obtain ⟨s, hs, heq⟩ := Option.map_eq_some_iff.1
      ((List.getElem?_map.symm.trans List.getElem?_cons_succ.symm).trans hplace.symm)
    exact Or.inr ⟨i, s, rfl, hs, heq.symm⟩

/-- The symbol declared in a place has the next number. -/
theorem exists_symbol?
    (h : d.resolve = .ok g)
    {i : Nat}
    {s : Definition String}
    (hs : d.symbols[i]? = some s) :
    ∃ entry, g.symbol? (i + 1) = some entry ∧ entry.toDefinition = s.resolve d.directory := by
  have hlt : i + 1 < g.symbols.size := by
    have hi := (List.getElem?_eq_some_iff.1 hs).1
    have hsize := size_of_resolve h
    rw [Grammar.size] at hsize
    omega
  have hentry : g.symbol? (i + 1) = some g.symbols[i + 1] := Array.getElem?_eq_getElem hlt
  rcases definition_of_symbol? h hentry with ⟨hzero, -⟩ | ⟨j, t, hij, ht, heq⟩
  · cases hzero
  · obtain rfl := Nat.succ.inj hij
    rw [hs] at ht
    cases ht
    exact ⟨_, hentry, heq⟩

/-- What is declared under a name has a number that the grammar knows. -/
theorem pos_and_lt_of_find?
    (h : d.resolve = .ok g)
    {name : String}
    (hk : d.directory.find? name = some k) :
    0 < k ∧ k < g.size := by
  obtain ⟨i, hi, rfl⟩ := Option.map_eq_some_iff.1 hk
  obtain ⟨hlt, -⟩ := List.idxOf?_eq_some_iff.1 hi
  rw [size_of_resolve h]
  exact ⟨Nat.succ_pos i, Nat.succ_lt_succ (by simpa [directory] using hlt)⟩

end Defining

section Mentioning

/-- What a symbol refers to has been declared under a name, and the symbol as well. -/
theorem exists_find?_of_refers
    (h : d.resolve = .ok g)
    (hentry : g.symbol? k = some entry)
    {s : SymbolId}
    (hs : entry.toDefinition.Refers s) :
    0 < k ∧ ∃ name, d.directory.find? name = some s := by
  rcases definition_of_symbol? h hentry with ⟨-, heq⟩ | ⟨i, declared, rfl, -, heq⟩ <;>
    rw [heq] at hs
  · cases hs with
    | child hrule => cases hrule
    | base hbase => cases hbase
    | binding hb => cases hb
    | level htower => cases htower
  · obtain ⟨name, -, hname⟩ := hs.exists_find?
    exact ⟨Nat.succ_pos i, name, hname⟩

/-- What a concept means has been declared under a name. -/
theorem exists_find?_of_mem_meaningsOf
    (h : d.resolve = .ok g)
    {concept s : SymbolId}
    (hs : s ∈ g.meaningsOf concept) :
    ∃ name, d.directory.find? name = some s := by
  simp only [Grammar.meaningsOf, (fields_of_resolve h).2, List.mem_filterMap] at hs
  obtain ⟨e, ⟨f, -, hf⟩, he⟩ := hs
  obtain ⟨k, hk, rfl⟩ := Option.map_eq_some_iff.1 hf
  dsimp only at he
  split at he <;> cases he
  exact ⟨f.2, hk⟩

/-- Whatever is mentioned is a declared symbol. -/
theorem pos_and_lt_of_mentions
    (h : d.resolve = .ok g)
    (hk : g.Mentions k) :
    0 < k ∧ k < g.size := by
  cases hk with
  | definition hentry hs =>
    obtain ⟨-, name, hname⟩ := exists_find?_of_refers h hentry hs
    exact pos_and_lt_of_find? h hname
  | parent hentry hrule =>
    rw [symbol?_of_resolve h] at hentry
    obtain ⟨s, -, rfl⟩ := Option.map_eq_some_iff.1 hentry
    obtain ⟨e, he, rfl⟩ := List.mem_map.1 hrule
    obtain ⟨p, hp, hedge⟩ := exists_symbol?_of_mem_edges h (List.mem_filter.1 he).1
    exact ⟨(exists_find?_of_refers h hp (.child hedge)).1, (Array.getElem?_eq_some_iff.1 hp).1⟩
  | meaning hs =>
    obtain ⟨name, hname⟩ := exists_find?_of_mem_meaningsOf h hs
    exact pos_and_lt_of_find? h hname

theorem total_of_resolve (h : d.resolve = .ok g) :
    g.Total where
  numbered := (coherent_of_resolve h).numbered
  bucket k hk := by
    have hentry : g.symbol? k = some g.symbols[k] := Array.getElem?_eq_getElem hk
    simp only [Grammar.bucketOf, hentry, Symbol.bucket]
    cases hbase : g.symbols[k].base with
    | none =>
      rw [Option.getD_none, (coherent_of_resolve h).numbered k _ hentry]
      exact hk
    | some base => exact (pos_and_lt_of_mentions h (.definition hentry (.base hbase))).2
  composition k entry tower hentry htower e he :=
    (pos_and_lt_of_mentions h (.definition hentry (.level htower he))).2
  meanings concept s hs := (pos_and_lt_of_mentions h (.meaning hs)).2

theorem meant_of_resolve (h : d.resolve = .ok g) :
    g.Meant :=
  fun _ _ hs => Nat.pos_iff_ne_zero.1 (pos_and_lt_of_mentions h (.meaning hs)).1

end Mentioning

end Declaration

end BeamChart
