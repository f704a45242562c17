import BeamChart.Grammar.Basic

/-!
# Declarations of grammars

A declaration lists definitions that refer to each other by name.
`Declaration.resolve` numbers the symbols in order, replaces names by
numbers, and gives each symbol the list of rules that take it as a child.

A name that nothing was declared under does not fail: what refers to it is
dropped, and `Grammar.dangling` reports it. Only a name declared twice is an
error, and more symbols than a grammar may have.
-/

namespace BeamChart

/-- A grammar as written, with references by name. -/
structure Declaration where
  serial : Nat := 0
  name : String := ""
  kind : GrammarKind := .operational
  symbols : List (Definition String) := []
  /-- Pairs of a subordinate concept and the name of a symbol. -/
  meanings : List (SymbolId × String) := []

/-- Declared names in the order of their numbers. -/
structure Directory where
  names : List String
deriving DecidableEq

namespace Directory

/-- Number of the symbol declared under a name. -/
def find? (d : Directory) (name : String) : Option SymbolId :=
  (d.names.idxOf? name).map (· + 1)

/-- Nothing was declared under a name. -/
def lacks (d : Directory) (name : String) : Bool :=
  (d.find? name).isNone

end Directory

namespace Rule

/-- Replaces the target by its number. -/
def resolve? (d : Directory) (rule : Rule String) : Option (Rule SymbolId) :=
  (d.find? rule.target).map fun id =>
    { relation := rule.relation
      target := id
      placement := rule.placement
      contact := rule.contact
      stackable := rule.stackable
      implied := rule.implied }

/-- The same rule as the child sees it. -/
def seenFromChild (rule : Rule SymbolId) (parent : SymbolId) : Rule SymbolId :=
  { rule with target := parent, placement := rule.placement.reversed }

end Rule

namespace Binding

/-- Replaces the symbol, if there is one, by its number. -/
def resolve? (d : Directory) (b : Binding String) : Option (Binding SymbolId) :=
  match b.symbol with
  | none =>
    some { relation := b.relation, parentName := b.parentName, concept := b.concept }
  | some name =>
    (d.find? name).map fun id =>
      { relation := b.relation
        parentName := b.parentName
        concept := b.concept
        symbol := some id }

/-- The undeclared name that a binding refers to. -/
def lacking (d : Directory) (b : Binding String) : List String :=
  b.symbol.toList.filter d.lacks

end Binding

namespace Composition

/-- Replaces every symbol by its number, if all of them are declared. -/
def resolve? (d : Directory) : Composition String → Option (Composition SymbolId)
  | single name => (d.find? name).map single
  | holding name r inner =>
    match d.find? name, inner.resolve? d with
    | some id, some c => some (holding id r c)
    | _, _ => none

/-- The first undeclared name, from the outside. -/
def lacking (d : Directory) : Composition String → List String
  | single name => if d.lacks name then [name] else []
  | holding name _ inner => if d.lacks name then [name] else inner.lacking d

end Composition

namespace Definition

/-- Replaces names by numbers and drops what refers to nothing. -/
def resolve (d : Directory) (s : Definition String) : Definition SymbolId :=
  { name := s.name
    kind := s.kind
    base := s.base.bind d.find?
    verification := s.verification
    senses := s.senses
    rules := s.rules.filterMap (Rule.resolve? d)
    bindings := s.bindings.filterMap (Binding.resolve? d)
    composition := s.composition.bind (Composition.resolve? d)
    phrases := s.phrases }

/-- The references of a definition that lead nowhere. -/
def dangling (d : Directory) (s : Definition String) : List Dangling :=
  (s.base.toList.filter d.lacks).map (⟨s.name, .base, ·⟩) ++
  ((s.rules.map Rule.target).filter d.lacks).map (⟨s.name, .child, ·⟩) ++
  (s.bindings.flatMap (Binding.lacking d)).map (⟨s.name, .binding, ·⟩) ++
  (s.composition.toList.flatMap (Composition.lacking d)).map (⟨s.name, .composition, ·⟩)

end Definition

namespace Declaration

/-- The declared names. -/
def directory (d : Declaration) : Directory :=
  ⟨d.symbols.map Definition.name⟩

/-- The first name that has already been seen. -/
def firstRepeat? : (seen : List String) → List String → Option String
  | _, [] => none
  | seen, name :: rest =>
    if name ∈ seen then some name else firstRepeat? (name :: seen) rest

/-- The symbols with their numbers, before the parents are known. -/
def numbered (d : Declaration) : Array Symbol :=
  let definitions : List (Definition SymbolId) :=
    { name := "<unrecognized>" } :: d.symbols.map (Definition.resolve d.directory)
  (definitions.zipIdx.map fun e => { e.1 with id := e.2 : Symbol }).toArray

/-- Enters a rule of `parent` with the symbol that it takes. -/
def addParent (symbols : Array Symbol) (parent : SymbolId) (rule : Rule SymbolId) :
    Array Symbol :=
  symbols.modify rule.target fun s =>
    { s with parents := s.parents ++ [rule.seenFromChild parent] }

/-- Enters every rule of every symbol with the symbol that it takes. -/
def withParents (symbols : Array Symbol) : Array Symbol :=
  symbols.toList.foldl
    (fun acc p => p.rules.foldl (fun acc rule => addParent acc p.id rule) acc)
    symbols

/-- The references that lead nowhere, in the order of the declaration. -/
def dangling (d : Declaration) : List Dangling :=
  d.symbols.flatMap (Definition.dangling d.directory) ++
  ((d.meanings.map Prod.snd).filter d.directory.lacks).map (⟨d.name, .meaning, ·⟩)

/-- A grammar has at most so many symbols, the unrecognized one included. -/
def symbolLimit : Nat := 16777216

/-- The grammar that was declared. -/
def resolve (d : Declaration) : Except GrammarError Grammar :=
  if symbolLimit < d.symbols.length + 1 then .error (.tooMany symbolLimit)
  else
    match firstRepeat? [] d.directory.names with
    | some name => .error (.duplicate name)
    | none =>
      .ok
        { serial := d.serial
          name := d.name
          kind := d.kind
          symbols := withParents d.numbered
          meanings := d.meanings.filterMap fun e =>
            (d.directory.find? e.2).map (e.1, ·)
          dangling := d.dangling }

end Declaration

end BeamChart
