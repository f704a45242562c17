import BeamChart.Grammar.Definition

/-!
# Grammars

A grammar is an array of symbols whose references are numbers in that array.
Place zero is taken by the unrecognized symbol.

Symbols inherit in two ways. The base of a symbol is the bucket that its
items are found in; the superclass chain (`Grammar.ancestry`) passes on rules
to take and to be taken by. `Grammar.inherits` puts the two together and
`Grammar.ruleFor?` is the rule under which a parent takes a child.
-/

namespace BeamChart

/-- A defined symbol with its number and the rules that take it as a child. -/
structure Symbol extends Definition SymbolId where
  id : SymbolId
  parents : List (Rule SymbolId) := []

namespace Symbol

/-- The rules that take this symbol under one relation. -/
def parentsAt (s : Symbol) (r : Relation) : List (Rule SymbolId) :=
  s.parents.filter fun rule => rule.relation = r

/-- Where items of the symbol are found: under its base, if it has one. -/
def bucket (s : Symbol) : SymbolId :=
  s.base.getD s.id

end Symbol

/-- The place of a reference in a definition. -/
inductive ReferenceRole where
  | base
  | child
  | binding
  | composition
  | meaning
deriving DecidableEq

/-- How the place of a reference is reported. -/
def ReferenceRole.label : ReferenceRole → String
  | base => "baseclass"
  | child => "child"
  | binding => "derivation"
  | composition => "composite"
  | meaning => "denotation"

/-- A reference by a name that nothing was declared under. -/
structure Dangling where
  owner : String
  role : ReferenceRole
  name : String
deriving DecidableEq

namespace Dangling

/-- The line that reports the reference. -/
def message (d : Dangling) : String :=
  d.owner ++ ": " ++ d.role.label ++ " '" ++ d.name ++ "'"

end Dangling

/-- What can go wrong when a grammar is made or asked. -/
inductive GrammarError where
  | duplicate (name : String)
  | tooMany (limit : Nat)
  | unknown (name : String)
deriving DecidableEq

namespace GrammarError

/-- The text of an error. -/
def message : GrammarError → String
  | duplicate name => "code '" ++ name ++ "' is defined more than once"
  | tooMany limit => "grammar exceeds " ++ toString limit ++ " codes"
  | unknown name => "unknown code '" ++ name ++ "'"

end GrammarError

/-- Symbols whose references are resolved. -/
structure Grammar where
  /-- Tells apart grammars that were made separately. -/
  serial : Nat := 0
  name : String
  kind : GrammarKind
  symbols : Array Symbol
  /-- Pairs of a subordinate concept and a symbol it stands for. -/
  meanings : List (SymbolId × SymbolId) := []
  /-- The references that were dropped. -/
  dangling : List Dangling := []

namespace Grammar

/-- Number of symbols, the unrecognized one included. -/
def size (g : Grammar) : Nat :=
  g.symbols.size

/-- The symbol with a number. -/
def symbol? (g : Grammar) (id : SymbolId) : Option Symbol :=
  g.symbols[id]?

/-- The declared symbols, in order. -/
def declared (g : Grammar) : List Symbol :=
  g.symbols.toList.tail

/-- Number of the symbol declared under a name. -/
def lookup? (g : Grammar) (name : String) : Option SymbolId :=
  (g.declared.find? fun s => s.name = name).map Symbol.id

/-- Number of the symbol declared under a name, or an error that says so. -/
def find (g : Grammar) (name : String) : Except GrammarError SymbolId :=
  match g.lookup? name with
  | some id => .ok id
  | none => .error (.unknown name)

/-- Name of a symbol; a number without symbol has a fixed name. -/
def nameOf (g : Grammar) (id : SymbolId) : String :=
  match g.symbol? id with
  | some s => s.name
  | none => "<unknown>"

/-- The symbols that a subordinate concept stands for. -/
def meaningsOf (g : Grammar) (concept : SymbolId) : List SymbolId :=
  g.meanings.filterMap fun e => if e.1 = concept then some e.2 else none

/-- Where items of a symbol are found. -/
def bucketOf (g : Grammar) (id : SymbolId) : SymbolId :=
  match g.symbol? id with
  | some s => s.bucket
  | none => id

/-- The superclass of a symbol. -/
def superclass? (g : Grammar) (id : SymbolId) : Option SymbolId :=
  (g.symbol? id).bind fun s => s.superclass?

/--
Climbs from `id` by superclasses until the chain ends or returns to a symbol
in `seen`. Each step adds a symbol, so `room` bounds their number.
-/
def climb (g : Grammar) : (room : Nat) → (seen : List SymbolId) → SymbolId → List SymbolId
  | 0, seen, _ => seen
  | room + 1, seen, id =>
    if id ∈ seen then seen
    else
      match g.superclass? id with
      | none => seen ++ [id]
      | some above => g.climb room (seen ++ [id]) above

/-- A symbol followed by its superclasses, each once. -/
def ancestry (g : Grammar) (id : SymbolId) : List SymbolId :=
  g.climb g.size [] id

/-- The symbol is the ancestor, has it as base, or has it as superclass. -/
def inherits (g : Grammar) (id ancestor : SymbolId) : Bool :=
  id == ancestor ||
    ((g.symbol? id).bind fun s => s.base) == some ancestor ||
      (g.ancestry id).contains ancestor

/--
The rule under which a parent takes a child: the first one for the very
child, or else the first one for something that the child inherits from.
-/
def ruleFor? (g : Grammar) (parent : SymbolId) (r : Relation) (child : SymbolId) :
    Option (Rule SymbolId) :=
  (g.symbol? parent).bind fun s =>
    let rules := s.rulesAt r
    match rules.find? fun rule => rule.target = child with
    | some rule => some rule
    | none => rules.find? fun rule => g.inherits child rule.target

/-- Declared phrases with the symbols they stand for. -/
def phrases (g : Grammar) : List (SymbolId × String × Option ContextId) :=
  g.declared.flatMap fun s => s.phrases.map fun p => (s.id, p.1, p.2)

/-- A symbol inherits from itself. -/
@[simp] theorem inherits_self (g : Grammar) (id : SymbolId) :
    g.inherits id id = true := by
  simp [inherits]

end Grammar

end BeamChart
