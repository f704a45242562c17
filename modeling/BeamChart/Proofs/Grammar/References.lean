import BeamChart.Proofs.Grammar.Inverse

/-!
# What becomes of references

A definition refers to others in five ways: by its base, by the targets of its rules, by the
symbols of its bindings, by the members of its tower, and a declaration refers to symbols by
what concepts mean. `Declaration.occurrences` lists all of these, each as it would be reported.

References to declared names become the numbers of the symbols declared under them, and the
others are dropped and reported, each once and in order (`references_are_settled`). Towers are
the exception. A tower with an undeclared member is dropped as a whole, the declared members
with it, and it is read no farther than the first undeclared member: another one behind it is
not reported (`inner_reference_not_reported`). So the report is complete if and only if no tower
has two undeclared members.
-/

namespace BeamChart

namespace Definition

variable {ρ : Type}

/-- The members of the tower, outermost first. -/
def members (x : Definition ρ) : List ρ :=
  x.composition.toList.flatMap fun tower => tower.levels.map Prod.fst

/-- What a definition refers to beside its tower. -/
def ownReferences (x : Definition ρ) : List (ReferenceRole × ρ) :=
  x.base.toList.map (.base, ·) ++
  (x.rules.map Rule.target).map (.child, ·) ++
  (x.bindings.flatMap fun b => b.symbol.toList).map (.binding, ·)

/-- All that a definition refers to. -/
def references (x : Definition ρ) : List (ReferenceRole × ρ) :=
  x.ownReferences ++ x.members.map (.composition, ·)

end Definition

namespace Declaration

variable {d : Declaration} {g : Grammar} {k : SymbolId} {name : String}

/-- Nothing is declared under the name. -/
def Lacks (d : Declaration) (name : String) : Prop :=
  name ∉ d.symbols.map Definition.name

instance (d : Declaration) (name : String) : Decidable (d.Lacks name) :=
  inferInstanceAs (Decidable (_ ∉ _))

/-- All references of a declaration, in the order of the declaration. -/
def occurrences (d : Declaration) : List Dangling :=
  (d.symbols.flatMap fun s => s.references.map fun e => ⟨s.name, e.1, e.2⟩) ++
  d.meanings.map fun e => ⟨d.name, .meaning, e.2⟩

/-- The undeclared names that a definition refers to, of a tower only the outermost one. -/
def reported (d : Declaration) (s : Definition String) : List (ReferenceRole × String) :=
  s.ownReferences.filter (fun e => d.Lacks e.2) ++
  ((s.members.filter fun name => d.Lacks name).take 1).map (.composition, ·)

/-- The undeclared members of a tower behind the outermost one. -/
def hidden (d : Declaration) (s : Definition String) : List (ReferenceRole × String) :=
  ((s.members.filter fun name => d.Lacks name).drop 1).map (.composition, ·)

/-- The declared names that a definition refers to, without those of a tower that lacks one. -/
def kept (d : Declaration) (s : Definition String) : List (ReferenceRole × String) :=
  s.ownReferences.filter (fun e => ¬ d.Lacks e.2) ++
  if ∃ name ∈ s.members, d.Lacks name then [] else s.members.map (.composition, ·)

/-- The name of a reference has become the number of the symbol declared under it. -/
def Settles {α : Type} (d : Declaration) (e : α × SymbolId) (f : α × String) : Prop :=
  e.1 = f.1 ∧ d.Declares f.2 e.2

section Reporting

/-- Nothing is added to the parts of a list if the whole stays the same. -/
theorem flatMap_eq_flatMap_append_iff
    {α β : Type}
    (l : List α)
    (f more : α → List β) :
    (l.flatMap f = l.flatMap fun a => f a ++ more a) ↔ ∀ a ∈ l, more a = [] := by
  have hlength : (l.flatMap fun a => f a ++ more a).length =
      (l.flatMap f).length + (l.flatMap more).length := by
    induction l with
    | nil => rfl
    | cons a rest ih =>
      simp only [List.flatMap_cons, List.length_append, ih]
      omega
  constructor
  · intro h
    rw [← h] at hlength
    exact List.flatMap_eq_nil_iff.1 (List.eq_nil_of_length_eq_zero (by omega))
  · intro h
    refine List.flatMap_congr fun a ha => ?_
    rw [h a ha, List.append_nil]

theorem lacks_iff :
    d.Lacks name ↔ d.directory.find? name = none :=
  find?_eq_none_iff.symm

theorem lacks_directory :
    d.directory.lacks = fun name => decide (d.Lacks name) := by
  funext name
  rw [Directory.lacks, Bool.eq_iff_iff, Option.isNone_iff_eq_none, decide_eq_true_iff, lacks_iff]

/-- A tower is read from the outside, up to the first undeclared name. -/
theorem lacking_eq (tower : Composition String) :
    tower.lacking d.directory =
      ((tower.levels.map Prod.fst).filter fun name => d.Lacks name).take 1 := by
  induction tower with
  | single name =>
    rw [Composition.lacking, lacks_directory]
    by_cases hname : d.Lacks name <;> simp [Composition.levels, hname]
  | holding name r inner ih =>
    rw [Composition.lacking, lacks_directory]
    by_cases hname : d.Lacks name <;> simp [Composition.levels, hname, ih]

/-- Of a definition, what `reported` lists is reported. -/
theorem dangling_definition (s : Definition String) :
    s.dangling d.directory = (d.reported s).map fun e => ⟨s.name, e.1, e.2⟩ := by
  have htower : s.composition.toList.flatMap (Composition.lacking d.directory) =
      (s.members.filter fun name => d.Lacks name).take 1 := by
    rw [Definition.members]
    cases s.composition with
    | none => rfl
    | some tower => simpa using lacking_eq tower
  have hbindings : s.bindings.flatMap (Binding.lacking d.directory) =
      (s.bindings.flatMap fun b => b.symbol.toList).filter fun name => d.Lacks name := by
    rw [List.filter_flatMap, ← lacks_directory]
    rfl
  rw [Definition.dangling, htower, hbindings, lacks_directory, reported, Definition.ownReferences]
  simp [List.filter_map, Function.comp_def]

/-- What is reported in all. -/
theorem dangling_eq :
    d.dangling =
      (d.symbols.flatMap fun s => (d.reported s).map fun e => ⟨s.name, e.1, e.2⟩) ++
        (d.meanings.filter fun e => d.Lacks e.2).map fun e => ⟨d.name, .meaning, e.2⟩ := by
  rw [dangling, lacks_directory, List.flatMap_congr fun s _ => dangling_definition s,
    List.filter_map, List.map_map]
  rfl

/-- The report of a definition leaves out what is hidden in its tower. -/
theorem filter_references (s : Definition String) :
    s.references.filter (fun e => d.Lacks e.2) = d.reported s ++ d.hidden s := by
  rw [Definition.references, reported, hidden, List.filter_append, List.append_assoc,
    ← List.map_append, List.take_append_drop, List.filter_map]
  rfl

theorem hidden_eq_nil_iff (s : Definition String) :
    d.hidden s = [] ↔ (s.members.filter fun name => d.Lacks name).length ≤ 1 := by
  rw [hidden, List.map_eq_nil_iff, List.drop_eq_nil_iff]

/-- The report is complete if and only if no tower has two undeclared members. -/
theorem dangling_eq_filter_iff :
    (d.dangling = d.occurrences.filter fun e => d.Lacks e.name) ↔
      ∀ s ∈ d.symbols, (s.members.filter fun name => d.Lacks name).length ≤ 1 := by
  have hall : (d.occurrences.filter fun e => d.Lacks e.name) =
      (d.symbols.flatMap fun s =>
        (d.reported s).map (fun e => (⟨s.name, e.1, e.2⟩ : Dangling)) ++
          (d.hidden s).map fun e => ⟨s.name, e.1, e.2⟩) ++
        (d.meanings.filter fun e => d.Lacks e.2).map fun e => ⟨d.name, .meaning, e.2⟩ := by
    rw [occurrences, List.filter_append, List.filter_flatMap, List.filter_map]
    refine congrArg (· ++ _) (List.flatMap_congr fun s _ => ?_)
    rw [List.filter_map, ← List.map_append, ← filter_references]
    rfl
  rw [hall, dangling_eq, List.append_left_inj, flatMap_eq_flatMap_append_iff]
  simp only [List.map_eq_nil_iff, hidden_eq_nil_iff]

end Reporting

section Settling

/-- Of some references those to declared names are settled, in their order. -/
theorem forall₂_settles {α : Type} (references : List (α × String)) :
    List.Forall₂ d.Settles
      (references.filterMap fun e => (d.directory.find? e.2).map (e.1, ·))
      (references.filter fun e => ¬ d.Lacks e.2) := by
  induction references with
  | nil => exact .nil
  | cons e rest ih =>
    cases hfind : d.directory.find? e.2 with
    | none =>
      rw [List.filterMap_cons_none (by rw [hfind]; rfl),
        List.filter_cons_of_neg (by simpa using lacks_iff.2 hfind)]
      exact ih
    | some k =>
      have hdeclared : ¬ d.Lacks e.2 := fun hlacks => by
        rw [lacks_iff.1 hlacks] at hfind
        cases hfind
      rw [List.filterMap_cons_some (by rw [hfind]; rfl),
        List.filter_cons_of_pos (by simpa using hdeclared)]
      exact .cons ⟨rfl, declares_of_find? hfind⟩ ih

theorem filterMap_find?_role (role : ReferenceRole) (names : List String) :
    ((names.map (role, ·)).filterMap fun e => (d.directory.find? e.2).map (e.1, ·)) =
      (names.filterMap d.directory.find?).map (role, ·) := by
  rw [List.filterMap_map, List.map_filterMap]
  rfl

/-- The references of a definition beside its tower are resolved one by one. -/
theorem ownReferences_resolve (s : Definition String) :
    (s.resolve d.directory).ownReferences =
      s.ownReferences.filterMap fun e => (d.directory.find? e.2).map (e.1, ·) := by
  have hbase : (s.base.bind d.directory.find?).toList =
      s.base.toList.filterMap d.directory.find? := by
    cases s.base with
    | none => rfl
    | some name => cases hfind : d.directory.find? name <;> simp [hfind]
  have hrules : (s.rules.filterMap (Rule.resolve? d.directory)).map Rule.target =
      (s.rules.map Rule.target).filterMap d.directory.find? := by
    rw [List.map_filterMap, List.filterMap_map]
    refine List.filterMap_congr fun rule _ => ?_
    rw [Rule.resolve?, Option.map_map]
    exact Option.map_id'
  have hbindings : ((s.bindings.filterMap (Binding.resolve? d.directory)).flatMap fun b =>
      b.symbol.toList) =
      (s.bindings.flatMap fun b => b.symbol.toList).filterMap d.directory.find? := by
    rw [List.filterMap_flatMap, List.filterMap_eq_flatMap_toList, List.flatMap_assoc]
    refine List.flatMap_congr fun b _ => ?_
    rw [Binding.resolve?]
    cases b.symbol with
    | none => rfl
    | some name => cases hfind : d.directory.find? name <;> simp [hfind]
  simp only [Definition.ownReferences, List.filterMap_append, filterMap_find?_role]
  rw [← hbase, ← hrules, ← hbindings]
  rfl

/-- A tower is dropped if and only if one of its members is undeclared. -/
theorem resolve?_eq_none_iff (tower : Composition String) :
    tower.resolve? d.directory = none ↔
      ∃ name ∈ tower.levels.map Prod.fst, d.Lacks name := by
  induction tower with
  | single name => simp [Composition.resolve?, Composition.levels, lacks_iff]
  | holding name r inner ih =>
    rw [Composition.levels, List.map_cons, List.exists_mem_cons_iff, ← ih, lacks_iff,
      Composition.resolve?]
    cases d.directory.find? name <;> cases inner.resolve? d.directory <;> simp

/-- The members of a tower that is not dropped are settled. -/
theorem forall₂_levels
    {tower : Composition String}
    {numbers : Composition SymbolId}
    (h : tower.resolve? d.directory = some numbers) :
    List.Forall₂ (fun k name => d.Declares name k)
      (numbers.levels.map Prod.fst) (tower.levels.map Prod.fst) := by
  induction tower generalizing numbers with
  | single name =>
    obtain ⟨k, hk, rfl⟩ := Option.map_eq_some_iff.1 h
    exact .cons (declares_of_find? hk) .nil
  | holding name r inner ih =>
    unfold Composition.resolve? at h
    split at h
    · rename_i k below hk hbelow
      cases h
      exact .cons (declares_of_find? hk) (ih hbelow)
    · cases h

theorem forall₂_members (s : Definition String) :
    List.Forall₂ d.Settles
      ((s.resolve d.directory).members.map (ReferenceRole.composition, ·))
      (if ∃ name ∈ s.members, d.Lacks name then []
        else s.members.map (ReferenceRole.composition, ·)) := by
  rw [Definition.members, Definition.members, Definition.resolve]
  cases s.composition with
  | none => simp
  | some tower =>
    simp only [Option.toList_some, List.flatMap_singleton, ← resolve?_eq_none_iff]
    rw [Option.bind_some]
    cases hresolve : tower.resolve? d.directory with
    | none => simp
    | some numbers =>
      simp only [reduceCtorEq, if_false, Option.toList_some, List.flatMap_singleton]
      exact List.forall₂_map_left_iff.2 (List.forall₂_map_right_iff.2
        ((forall₂_levels hresolve).imp fun _ _ hdeclares => ⟨rfl, hdeclares⟩))

/-- What a definition keeps is settled. -/
theorem forall₂_kept (s : Definition String) :
    List.Forall₂ d.Settles (s.resolve d.directory).references (d.kept s) := by
  rw [Definition.references, kept, ownReferences_resolve]
  exact List.rel_append (forall₂_settles s.ownReferences) (forall₂_members s)

theorem Declares.unique
    {k' : SymbolId}
    (hnodup : (d.symbols.map Definition.name).Nodup)
    (h : d.Declares name k)
    (h' : d.Declares name k') :
    k = k' := by
  obtain ⟨i, s, hs, rfl, rfl⟩ := h
  obtain ⟨j, t, ht, hname, rfl⟩ := h'
  have hi : (d.symbols.map Definition.name)[i]? = some s.name := by rw [List.getElem?_map, hs]; rfl
  have hj : (d.symbols.map Definition.name)[j]? = some s.name := by
    rw [List.getElem?_map, ht, ← hname]
    rfl
  have hlt := (List.getElem?_eq_some_iff.1 hi).1
  rw [(List.getElem?_inj hlt hnodup).1 (hi.trans hj.symm)]

/-- A grammar finds under a name the symbol that was declared under it. -/
theorem lookup?_eq_some_iff
    (h : d.resolve = .ok g) :
    g.lookup? name = some k ↔ d.Declares name k := by
  have hfound : ∀ k, g.lookup? name = some k → d.Declares name k := by
    intro k hk
    obtain ⟨entry, hfind, rfl⟩ := Option.map_eq_some_iff.1 hk
    obtain ⟨i, hi⟩ := List.mem_iff_getElem?.1 (List.mem_of_find?_eq_some hfind)
    rw [Grammar.declared, List.getElem?_tail, Array.getElem?_toList] at hi
    have hid := (coherent_of_resolve h).numbered (i + 1) entry hi
    rcases definition_of_symbol? h hi with ⟨hzero, -⟩ | ⟨j, s, hij, hs, heq⟩
    · cases hzero
    · have hname : entry.name = s.name := congrArg Definition.name heq
      exact ⟨j, s, hs, hname.symm.trans (by simpa using List.find?_some hfind), hid.trans hij⟩
  refine ⟨hfound k, fun hdeclares => ?_⟩
  cases hlookup : g.lookup? name with
  | some k' => exact congrArg some ((hfound k' hlookup).unique (nodup_names_of_resolve h) hdeclares)
  | none =>
    obtain ⟨i, s, hs, rfl, rfl⟩ := hdeclares
    obtain ⟨entry, hentry, heq⟩ := exists_symbol? h hs
    have hmem : entry ∈ g.declared := by
      refine List.mem_iff_getElem?.2 ⟨i, ?_⟩
      rw [Grammar.declared, List.getElem?_tail, Array.getElem?_toList]
      exact hentry
    have hnot := List.find?_eq_none.1 (Option.map_eq_none_iff.1 hlookup) entry hmem
    exact absurd (decide_eq_true (congrArg Definition.name heq)) hnot

end Settling

/--
What becomes of the references of a declaration that resolves. References to undeclared names
are reported one by one, of a tower only the outermost one; the report is complete if and only
if no tower has two of them. Of each symbol the references to declared names have become the
numbers that the grammar finds under these names, each in its role and in its place, and so have
the meanings; only a tower with an undeclared member is dropped as a whole.
-/
theorem references_are_settled
    (h : d.resolve = .ok g) :
    (g.dangling =
      (d.symbols.flatMap fun s => (d.reported s).map fun e => ⟨s.name, e.1, e.2⟩) ++
        (d.meanings.filter fun e => d.Lacks e.2).map fun e => ⟨d.name, .meaning, e.2⟩) ∧
      ((g.dangling = d.occurrences.filter fun e => d.Lacks e.name) ↔
        ∀ s ∈ d.symbols, (s.members.filter fun name => d.Lacks name).length ≤ 1) ∧
      (∀ name k, g.lookup? name = some k ↔ d.Declares name k) ∧
      (∀ i s, d.symbols[i]? = some s → ∃ entry, g.symbol? (i + 1) = some entry ∧
        List.Forall₂ d.Settles entry.references (d.kept s)) ∧
      List.Forall₂ d.Settles g.meanings (d.meanings.filter fun e => ¬ d.Lacks e.2) := by
  rw [(of_resolve h).2.2.2, (fields_of_resolve h).2]
  refine ⟨dangling_eq, dangling_eq_filter_iff, fun name k => lookup?_eq_some_iff h,
    fun i s hs => ?_, forall₂_settles d.meanings⟩
  obtain ⟨entry, hentry, heq⟩ := exists_symbol? h hs
  exact ⟨entry, hentry, heq ▸ forall₂_kept s⟩

section Sample

/-- In each way one reference to nothing, and some to what is declared. -/
def ghostDeclaration : Declaration :=
  { symbols :=
      [{ name := "word"
         base := some "ghost"
         rules :=
          [{ relation := .property, target := "ghost" },
            { relation := .property, target := "stem" }]
         bindings :=
          [{ relation := .property, parentName := "stem", concept := "x", symbol := some "ghost" }]
         composition := some (.holding "word" .property (.single "ghost")) },
        { name := "stem" }]
    meanings := [(7, "ghost"), (7, "stem")] }

def ghostGrammar : Grammar :=
  ghostDeclaration.built

theorem references_are_settled_sample :
    ghostDeclaration.resolve = .ok ghostGrammar ∧
      (ghostGrammar.dangling =
        ghostDeclaration.occurrences.filter fun e => ghostDeclaration.Lacks e.name) ∧
      ghostGrammar.dangling.length = 5 ∧
      (∃ entry, ghostGrammar.symbol? 1 = some entry ∧
        List.Forall₂ ghostDeclaration.Settles entry.references [(.child, "stem")]) ∧
      ghostGrammar.lookup? "stem" = some 2 ∧ ghostGrammar.meaningsOf 7 = [2] := by
  have hresolve : ghostDeclaration.resolve = .ok ghostGrammar :=
    resolve_eq_built (by decide +kernel)
  obtain ⟨-, hcomplete, hlookup, hkept, -⟩ := references_are_settled hresolve
  obtain ⟨entry, hentry, hsettled⟩ := hkept 0 _ rfl
  refine ⟨hresolve, hcomplete.2 (by decide +kernel), by decide +kernel, ⟨entry, hentry, hsettled⟩,
    (hlookup "stem" 2).2 ⟨1, _, rfl, rfl, rfl⟩, by decide +kernel⟩

/-- A tower of two undeclared members. -/
def nestedDeclaration : Declaration :=
  { symbols :=
      [{ name := "word", composition := some (.holding "stem" .property (.single "root")) }] }

def nestedGrammar : Grammar :=
  nestedDeclaration.built

/-- The inner member of the tower is dropped and not reported. -/
theorem inner_reference_not_reported :
    nestedDeclaration.resolve = .ok nestedGrammar ∧
      (nestedDeclaration.occurrences.filter fun e => nestedDeclaration.Lacks e.name) =
        [⟨"word", .composition, "stem"⟩, ⟨"word", .composition, "root"⟩] ∧
      nestedGrammar.dangling = [⟨"word", .composition, "stem"⟩] :=
  ⟨resolve_eq_built (by decide +kernel), by decide +kernel, by decide +kernel⟩

end Sample

end Declaration

end BeamChart
