import ParserGenerator.CharSet

/-!
# Regular expressions

The patterns of lexer rules. `Regex.Matches` says which strings belong to the language of a
regular expression, and `Regex.escape` writes the pattern that stands for one text alone.
-/

namespace ParserGenerator

/-- A regular expression over characters. -/
inductive Regex where
  /-- Any one character of the set. -/
  | leaf (set : CharSet)
  /-- Each item in turn; no item at all stands for the empty string. -/
  | concat (items : List Regex)
  /-- One of the branches. -/
  | alt (branches : List Regex)
  | optional (inner : Regex)
  /-- Any number of times. -/
  | star (inner : Regex)
  /-- At least once. -/
  | plus (inner : Regex)
deriving Inhabited

namespace Regex

/-- The string belongs to the language of the regular expression. -/
inductive Matches : Regex → List Char → Prop where
  | leaf {set : CharSet} {c : Char} (member : c ∈ set) : Matches (.leaf set) [c]
  | concatNil : Matches (.concat []) []
  | concatCons {item : Regex} {items : List Regex} {first rest : List Char}
      (head : Matches item first) (tail : Matches (.concat items) rest) :
      Matches (.concat (item :: items)) (first ++ rest)
  | alt {branches : List Regex} {branch : Regex} {text : List Char}
      (member : branch ∈ branches) (chosen : Matches branch text) : Matches (.alt branches) text
  | optionalNone {inner : Regex} : Matches (.optional inner) []
  | optionalSome {inner : Regex} {text : List Char} (once : Matches inner text) :
      Matches (.optional inner) text
  | starNil {inner : Regex} : Matches (.star inner) []
  | starCons {inner : Regex} {first rest : List Char}
      (once : Matches inner first) (again : Matches (.star inner) rest) :
      Matches (.star inner) (first ++ rest)
  | plus {inner : Regex} {first rest : List Char}
      (once : Matches inner first) (again : Matches (.star inner) rest) :
      Matches (.plus inner) (first ++ rest)

/-! ## Literal texts -/

/-- The characters with a meaning of their own in a pattern. -/
def metaCharacters : List Char := ['(', ')', '|', '[', ']', '\\', '+', '*', '?', '.']

/-- Puts a backslash in front of each character with a meaning of its own. -/
def escapeChars : List Char → List Char
  | [] => []
  | c :: rest =>
      if c ∈ metaCharacters then '\\' :: c :: escapeChars rest else c :: escapeChars rest

/-- The pattern that stands for one text alone. -/
def escape (text : String) : String := String.ofList (escapeChars text.toList)

end Regex

end ParserGenerator
