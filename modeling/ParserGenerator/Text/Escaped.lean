import ParserGenerator.Text.GraphemeExtend
import ParserGenerator.Text.Unprintable

/-!
# Text and characters inside messages

A token shows its text with escapes, and a message shows a single character between apostrophes.
Both write tab, line feed, carriage return, the null character and the backslash by a backslash
and a letter or digit, and a character that does not print by its number. They differ in the
quotes and in marks that join the character before them: a text escapes both kinds of quotes, and
such a mark only in front; a single character escapes the apostrophe and every mark.
-/

namespace ParserGenerator.Text

/-- Whether a code point lies in one of the ranges. -/
def inRanges (ranges : List (Nat × Nat)) (code : Nat) : Bool :=
  ranges.any fun (first, last) => first ≤ code && code ≤ last

def isPrintable (c : Char) : Bool := !inRanges unprintableRanges c.toNat

def extendsGrapheme (c : Char) : Bool := inRanges graphemeExtendRanges c.toNat

/-- The number of a character in hexadecimal, between braces. -/
def escapedNumber (c : Char) : String :=
  "\\u\x7b" ++ String.ofList (Nat.toDigits 16 c.toNat) ++ "\x7d"

/-- One character with the escapes that texts and single characters share. -/
def escapedCommon (c : Char) : String :=
  if c = '\t' then "\\t"
  else if c = '\n' then "\\n"
  else if c = '\r' then "\\r"
  else if c = '\\' then "\\\\"
  else if c.toNat = 0 then "\\0"
  else if isPrintable c then c.toString
  else escapedNumber c

/-- A text with its quotes and all that does not print escaped. -/
def escaped (text : String) : String :=
  let one (c : Char) : String :=
    if c = '"' then "\\\"" else if c = '\'' then "\\'" else escapedCommon c
  match text.toList with
  | [] => ""
  | first :: rest =>
      (if extendsGrapheme first then escapedNumber first else one first) ++
        String.join (rest.map one)

/-- A single character between apostrophes. -/
def quotedChar (c : Char) : String :=
  let inner :=
    if c = '\'' then "\\'"
    else if extendsGrapheme c then escapedNumber c
    else escapedCommon c
  "'" ++ inner ++ "'"

/-- The first and the last of the ASCII characters that print. -/
example : isPrintable ' ' = true ∧ isPrintable '~' = true := by decide +kernel

example : quotedChar '"' = "'\"'" := by decide +kernel

end ParserGenerator.Text
