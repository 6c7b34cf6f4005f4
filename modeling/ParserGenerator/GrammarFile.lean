import ParserGenerator.Rule
import ParserGenerator.Text.Blank

/-!
# Grammar files

A grammar file has one rule on each line. A line that is blank or starts with two slashes has
none.

    program := expr
    __CHAIN__ list := list item
    list := __EPSILON__

The marks in front of a rule say whether it is chained and whether the tree of a single symbol is
wrapped; without the mark it is left in place. An empty right-hand side may be written as
`__EPSILON__`, which is no symbol. All words are separated by blanks.
-/

namespace ParserGenerator.GrammarFile

/-- The mark of a rule that wraps a single symbol. -/
def wrapMark : List Char := "__WRAP__".toList

/-- The mark of a chained rule. -/
def chainMark : List Char := "__CHAIN__".toList

/-- The word for the empty right-hand side. -/
def emptyWord : List Char := "__EPSILON__".toList

/-- What is wrong with a line. -/
inductive Fault where
  | missingLhs
  | missingSign (lhs : String)
  | emptyWordAmongOthers
deriving DecidableEq, Repr

/-- A fault with the number of its line, counted from 1. -/
structure Error where
  line : Nat
  fault : Fault
deriving DecidableEq, Repr

def Fault.message : Fault → String
  | missingLhs => "missing left-hand side"
  | missingSign lhs => "expected `:=' after `" ++ lhs ++ "'"
  | emptyWordAmongOthers => "`" ++ String.ofList emptyWord ++ "' must be the only symbol"

def Error.message (error : Error) : String :=
  "line " ++ toString error.line ++ ": " ++ error.fault.message

/-- A rule by its names: the marks and the words of a line. -/
structure RuleLine where
  wrap : Bool
  chain : Bool
  lhs : String
  rhs : List String
deriving DecidableEq, Repr

/-- Reads the marks in front of a rule, and returns the words behind them. -/
def readMarks (wrap chain : Bool) : List (List Char) → Bool × Bool × List (List Char)
  | [] => (wrap, chain, [])
  | word :: rest =>
      if word = wrapMark then readMarks true chain rest
      else if word = chainMark then readMarks wrap true rest
      else (wrap, chain, word :: rest)

/-- Reads the words of a line. -/
def readWords (words : List (List Char)) : Except Fault RuleLine :=
  let (wrap, chain, rest) := readMarks false false words
  match rest with
  | [] => .error .missingLhs
  | lhs :: rest =>
      match rest with
      | [':', '='] :: rhs =>
          if rhs = [emptyWord] then .ok ⟨wrap, chain, String.ofList lhs, []⟩
          else if emptyWord ∈ rhs then .error .emptyWordAmongOthers
          else .ok ⟨wrap, chain, String.ofList lhs, rhs.map String.ofList⟩
      | _ => .error (.missingSign (String.ofList lhs))

/-- Registers the names of a rule, those of the right-hand side first. -/
def RuleLine.toRule (line : RuleLine) : Naming Error Rule := do
  let rhs ← Naming.internAll line.rhs
  let lhs ← Naming.intern line.lhs
  pure (Rule.ofOptions lhs rhs [] line.chain !line.wrap)

/-- Reads lines, the first of which has the given number. -/
def readLines (number : Nat) : List (List Char) → Naming Error (List Rule)
  | [] => pure []
  | line :: rest =>
      let text := Text.trim line
      if Text.isBlankOrComment text then readLines (number + 1) rest
      else
        match readWords (Text.words text) with
        | .error fault => throw ⟨number, fault⟩
        | .ok ruleLine => do
            let rule ← ruleLine.toRule
            let later ← readLines (number + 1) rest
            pure (rule :: later)

/-- Reads the rules of a grammar file. -/
def parse (source : String) : Naming Error (List Rule) :=
  readLines 1 (Text.lines source.toList)

end ParserGenerator.GrammarFile
