import ParserGenerator.SymbolString

/-!
# Rules of a grammar

A rule replaces its left-hand side by its right-hand side. Beside that it says how the syntax
tree of a reduction is shaped: each position of the right-hand side has an option, a chained rule
flattens a list that is built from the left, and a rule with a single symbol may leave its child
in place.
-/

namespace ParserGenerator

/-- How a child is attached to the node that a reduction builds. -/
inductive ChildOption where
  /-- Keeps the child; a branch with exactly one child is replaced by that child. -/
  | default
  /-- Puts the child's children in its place. -/
  | unwrap
  /-- Keeps the child as it is. -/
  | wrap
  /-- Drops the child. -/
  | discard
deriving DecidableEq, Repr, Inhabited

namespace ChildOption

/-- The word for an option in a table's text. -/
def name : ChildOption → String
  | default => "default"
  | unwrap => "unwrap"
  | wrap => "wrap"
  | discard => "discard"

/-- The option of a word. -/
def ofName? (word : String) : Option ChildOption :=
  [default, unwrap, wrap, discard].find? fun option => option.name == word

theorem ofName?_name (option : ChildOption) : ofName? option.name = some option := by
  cases option <;> decide

/-- The first `count` options of a list, with default options where it is too short. -/
def fit (count : Nat) (options : List ChildOption) : List ChildOption :=
  (options ++ List.replicate count default).take count

theorem length_fit (count : Nat) (options : List ChildOption) :
    (fit count options).length = count := by
  simp [fit]

theorem fit_eq_self {count : Nat} {options : List ChildOption} (full : options.length = count) :
    fit count options = options := by
  simp [fit, ← full]

end ChildOption

/-- A rule with an option for each position of its right-hand side. -/
structure Rule where
  lhs : Symbol
  rhs : SymbolString
  options : List ChildOption
  /-- Whether a first child with the rule's own symbol is flattened into the new node. -/
  chained : Bool
  /-- Whether a right-hand side of one symbol leaves its child in place. -/
  unwrapsSingle : Bool
  options_length : options.length = rhs.length
deriving DecidableEq

namespace Rule

/-- A rule with the given options; missing ones are default and surplus ones are dropped. -/
def ofOptions (lhs : Symbol) (rhs : SymbolString) (options : List ChildOption)
    (chained : Bool := false) (unwrapsSingle : Bool := false) : Rule where
  lhs
  rhs
  options := ChildOption.fit rhs.length options
  chained
  unwrapsSingle
  options_length := ChildOption.length_fit _ _

/-- A rule with default options. -/
def plain (lhs : Symbol) (rhs : SymbolString) : Rule := ofOptions lhs rhs []

instance : Inhabited Rule := ⟨plain Symbol.start []⟩

def isEmpty (rule : Rule) : Bool := rule.rhs.isEmpty

/-- The left-hand side, the sign `:=` and the symbols of the right-hand side. -/
def display (names : SymbolTable) (rule : Rule) : String :=
  names.display rule.lhs ++ " :=" ++
    String.join (rule.rhs.map fun symbol => " " ++ names.display symbol)

end Rule

end ParserGenerator
