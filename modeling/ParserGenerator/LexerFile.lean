import ParserGenerator.Lexer
import ParserGenerator.Text.Blank

/-!
# Lexer rule files

A lexer rule file declares one rule on each line, in the order of priority. A line that is blank
or starts with two slashes declares nothing.

    // a comment
    __IGNORED__ space := \s+
    NUMBER := \d+
    +

The text in front of the first `:=` is the name of the rule, behind a mark if its matches make no
tokens; the text behind it is the pattern. A line without `:=` is a literal: its rule matches the
line itself and is named after it.
-/

namespace ParserGenerator.LexerFile

/-- The mark of an ignored rule. -/
def ignoredMark : List Char := "__IGNORED__ ".toList

/-- A rule with the number of its line, counted from 1. -/
structure Declaration where
  rule : LexerRule
  line : Nat
deriving DecidableEq, Repr

/-- What is wrong with a lexer rule file. -/
inductive Error where
  | missingName (line : Nat)
  | missingPattern (line : Nat) (name : String)
  | invalidRule (line : Nat) (cause : LexerRuleError)
deriving DecidableEq, Repr

/-- The message of an error and the messages of what caused it, the outermost first. -/
def Error.causes : Error → List String
  | missingName line => ["line " ++ toString line ++ ": missing rule name"]
  | missingPattern line name =>
      ["line " ++ toString line ++ ": missing pattern for `" ++ name ++ "'"]
  | invalidRule line cause =>
      ["line " ++ toString line, cause.message, cause.cause.message]

/-- Cuts a text at the first `:=`. -/
def splitAtSign : List Char → Option (List Char × List Char)
  | [] => none
  | c :: rest =>
      match c, rest with
      | ':', '=' :: pattern => some ([], pattern)
      | _, _ => (splitAtSign rest).map fun (name, pattern) => (c :: name, pattern)

/-- The rest of a text behind a mark in front of it. -/
def behindMark? : (mark text : List Char) → Option (List Char)
  | [], text => some text
  | _ :: _, [] => none
  | m :: mark, c :: text => if m = c then behindMark? mark text else none

/-- Reads a trimmed line that declares a rule. -/
def readRule (line : Nat) (text : List Char) : Except Error LexerRule :=
  match splitAtSign text with
  | none => .ok (.literal (String.ofList text))
  | some (front, back) =>
      let (name, ignored) := match behindMark? ignoredMark front with
        | some name => (Text.trim name, true)
        | none => (Text.trim front, false)
      let pattern := Text.trim back
      if name.isEmpty then .error (.missingName line)
      else if pattern.isEmpty then .error (.missingPattern line (String.ofList name))
      else .ok ⟨String.ofList name, String.ofList pattern, ignored⟩

/-- Reads lines, the first of which has the given number. -/
def readLines (number : Nat) : List (List Char) → Except Error (List Declaration)
  | [] => .ok []
  | line :: rest =>
      let text := Text.trim line
      if Text.isBlankOrComment text then readLines (number + 1) rest
      else do
        let rule ← readRule number text
        let later ← readLines (number + 1) rest
        pure (⟨rule, number⟩ :: later)

/-- Reads the declarations of a lexer rule file. -/
def parse (source : String) : Except Error (List Declaration) :=
  readLines 1 (Text.lines source.toList)

/-- Declares the rules of a file in order. -/
def declareAll (draft : LexerDraft) : List Declaration → Naming Error LexerDraft
  | [] => pure draft
  | declaration :: rest => do
      let draft ← (draft.declare declaration.rule).mapError (.invalidRule declaration.line)
      declareAll draft rest

/-- Reads a lexer rule file and compiles its rules. -/
def load (source : String) : Naming Error Lexer := do
  let declarations ← parse source
  pure (← declareAll .empty declarations).compile

end ParserGenerator.LexerFile
