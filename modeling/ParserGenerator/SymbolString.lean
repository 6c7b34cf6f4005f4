import ParserGenerator.Symbol

/-!
# Strings of symbols

The right-hand side of a rule, and what is derived from it, is a string of symbols. Strings are
compared symbol by symbol in the order of the numbers, and cut at positions that must exist.
-/

namespace ParserGenerator

/-- A sequence of symbols. -/
abbrev SymbolString := List Symbol

namespace SymbolString

/-- The names of the symbols, one space between two of them. -/
def display (names : SymbolTable) (string : SymbolString) : String :=
  " ".intercalate (string.map names.display)

/-- The symbols from position `first` up to but not including position `last`, if the positions
are in order and inside the string. -/
def slice? (string : SymbolString) (first last : Nat) : Option SymbolString :=
  if first ≤ last ∧ last ≤ string.length then some ((string.take last).drop first) else none

/-- The symbols from position `first` on. -/
def drop? (string : SymbolString) (first : Nat) : Option SymbolString :=
  string.slice? first string.length

/-- The symbols in front of position `last`. -/
def take? (string : SymbolString) (last : Nat) : Option SymbolString := string.slice? 0 last

/-- Strings in the order of a dictionary over the symbols' numbers. -/
def order (left right : SymbolString) : Ordering :=
  compare (left.map Symbol.id) (right.map Symbol.id)

end SymbolString

end ParserGenerator
