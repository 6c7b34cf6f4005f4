import ParserGenerator.OrderedSet

/-!
# Sets of characters

A leaf of a regular expression stands for any one character of a finite set. Sets are taken from
an alphabet of printable ASCII characters with tab, line feed and carriage return; a complement is
taken in this alphabet, while single characters of a pattern may lie outside of it.
-/

namespace ParserGenerator

/-- A finite set of characters, in the order of their code points. -/
abbrev CharSet := OrderedSet Char

namespace CharSet

/-- The characters from code point `first` to code point `last`. -/
def range (first last : Char) : List Char :=
  (List.range (last.toNat + 1 - first.toNat)).map fun i => Char.ofNat (first.toNat + i)

/-- The alphabet: printable ASCII with tab, line feed and carriage return. -/
def all : CharSet := OrderedSet.ofList (['\t', '\n', '\r'] ++ range ' ' '~')

/-- The ASCII letters. -/
def letter : CharSet := OrderedSet.ofList (range 'A' 'Z' ++ range 'a' 'z')

/-- The ASCII digits. -/
def digit : CharSet := OrderedSet.ofList (range '0' '9')

/-- The ASCII letters and digits and the underscore. -/
def word : CharSet := (letter ∪ digit).insert '_'

/-- Space, tab, line feed and carriage return. -/
def space : CharSet := OrderedSet.ofList [' ', '\t', '\n', '\r']

/-- The characters of the alphabet that a set lacks. -/
def complement (set : CharSet) : CharSet := all.filter fun c => !set.contains c

theorem mem_complement {set : CharSet} {c : Char} : c ∈ set.complement ↔ c ∈ all ∧ c ∉ set := by
  rw [complement, OrderedSet.mem_filter, Bool.not_eq_true', ← Bool.not_eq_true,
    OrderedSet.contains_iff]

/-- Writes a character as it stands in a pattern, with a name for the blanks of the alphabet. -/
def display (c : Char) : String :=
  if c = '\n' then "\\n"
  else if c = '\t' then "\\t"
  else if c = '\r' then "\\r"
  else if c = ' ' then "' '"
  else c.toString

example : all.size = 98 := by decide +kernel

end CharSet

end ParserGenerator
