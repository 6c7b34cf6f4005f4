import ParserGenerator.JointNfa
import ParserGenerator.Regex.Pattern
import ParserGenerator.Regex.Thompson
import ParserGenerator.Text.Escaped
import ParserGenerator.Token

/-!
# Lexers

A lexer is declared by an ordered list of rules and cuts a text into tokens. At each position it
takes the longest text that some rule matches, and of the rules that match it the one declared
first. Matches of ignored rules make no tokens. Where no rule matches, a strict lexer stops with an
error and a skipping one drops a character. A token without text closes the stream.
-/

namespace ParserGenerator

/-- What a lexer does where no rule matches. -/
inductive InvalidPolicy where
  /-- Stops with an error. -/
  | strict
  /-- Drops one character and goes on behind it. -/
  | skip
deriving DecidableEq, Repr

/-- No rule matches at a byte of the input. -/
structure LexError where
  position : Nat
  found : Char
deriving DecidableEq, Repr

def LexError.message (error : LexError) : String :=
  "no rule matches " ++ Text.quotedChar error.found ++ " at offset " ++ toString error.position

/-- A compiled lexer. -/
structure Lexer where
  dfa : Dfa
  ignored : SymbolSet
  policy : InvalidPolicy

/-! ## Declarations -/

/-- One rule of a lexer. -/
structure LexerRule where
  name : String
  pattern : String
  ignored : Bool
deriving DecidableEq, Repr

/-- The rule that matches one text alone and is named after it. -/
def LexerRule.literal (text : String) : LexerRule := ⟨text, Regex.escape text, false⟩

/-- The pattern of a rule is malformed. -/
structure LexerRuleError where
  rule : String
  cause : Regex.PatternError
deriving DecidableEq, Repr

def LexerRuleError.message (error : LexerRuleError) : String :=
  "invalid pattern for rule `" ++ error.rule ++ "'"

/-- The rules of a lexer that were declared so far. -/
structure LexerDraft where
  joint : JointNfa
  ignored : SymbolSet

namespace LexerDraft

def empty : LexerDraft := ⟨JointNfa.empty, ∅⟩

/-- Declares a rule behind the others. The name is registered after its pattern is read. -/
def declare (draft : LexerDraft) (rule : LexerRule) : Naming LexerRuleError LexerDraft :=
  match Regex.parse rule.pattern with
  | .error cause => throw ⟨rule.name, cause⟩
  | .ok regex => do
      let symbol ← Naming.intern rule.name
      pure
        { joint := draft.joint.addRule symbol regex.toNfa
          ignored := if rule.ignored then draft.ignored.insert symbol else draft.ignored }

/-- Declares the rules of a list in order. -/
def declareAll (draft : LexerDraft) : List LexerRule → Naming LexerRuleError LexerDraft
  | [] => pure draft
  | rule :: rest => do (← draft.declare rule).declareAll rest

/-- The strict lexer of the declared rules. -/
def compile (draft : LexerDraft) : Lexer := ⟨draft.joint.toDfa, draft.ignored, .strict⟩

end LexerDraft

namespace Lexer

/-- The strict lexer of a list of rules. -/
def define (rules : List LexerRule) : Naming LexerRuleError Lexer := do
  pure (← LexerDraft.empty.declareAll rules).compile

def withPolicy (lexer : Lexer) (policy : InvalidPolicy) : Lexer := { lexer with policy }

/-! ## Scanning -/

/-- The length in bytes of a text in UTF-8. -/
def byteLength : List Char → Nat
  | [] => 0
  | c :: rest => c.utf8Size + byteLength rest

theorem byteLength_append (front back : List Char) :
    byteLength (front ++ back) = byteLength front + byteLength back := by
  induction front with
  | nil => exact (Nat.zero_add _).symm
  | cons c rest ih => rw [List.cons_append, byteLength, byteLength, ih, Nat.add_assoc]

theorem byteLength_pos {text : List Char} (nonempty : text ≠ []) : 0 < byteLength text := by
  cases text with
  | nil => exact absurd rfl nonempty
  | cons c rest => exact Nat.add_pos_left c.utf8Size_pos _

/-- Reads on from a state while edges last, and returns the symbol accepted last with the number of
characters read by then. -/
def lastAccepted (dfa : Dfa) (state count : Nat) (last : Option (Symbol × Nat)) :
    List Char → Option (Symbol × Nat)
  | [] => last
  | c :: rest =>
      match dfa.step state c with
      | none => last
      | some next =>
          let last := match dfa.accepted next with
            | some symbol => some (symbol, count + 1)
            | none => last
          lastAccepted dfa next (count + 1) last rest

/-- The symbol and the number of characters of the longest match at the start of a text. -/
def longestMatch (lexer : Lexer) (text : List Char) : Option (Symbol × Nat) :=
  lastAccepted lexer.dfa Dfa.initial 0 none text

/-- The tokens of a text that starts at byte `position` of the input, or the error that ends them.
Each step takes at least one character, so that `fuel` may be the length of the text. -/
def scan (lexer : Lexer) : (fuel position : Nat) → List Char → List (Except LexError Token)
  | _, position, [] => [.ok (Token.endOfInput position)]
  -- Not reached from a fuel of at least the length of the text.
  | 0, _, _ :: _ => []
  | fuel + 1, position, c :: rest =>
      match lexer.longestMatch (c :: rest) with
      | some (symbol, count) =>
          let matched := (c :: rest).take count
          let past := position + byteLength matched
          let later := lexer.scan fuel past ((c :: rest).drop count)
          if lexer.ignored.contains symbol then later
          else .ok ⟨symbol, String.ofList matched, position, past⟩ :: later
      | none =>
          match lexer.policy with
          | .strict => [.error ⟨position, c⟩]
          | .skip => lexer.scan fuel (position + c.utf8Size) rest

/-- The tokens of a text up to and including the one that closes it, or up to the first error. -/
def tokens (lexer : Lexer) (text : String) : List (Except LexError Token) :=
  lexer.scan text.toList.length 0 text.toList

/-- All tokens of a text, unless there is an error. -/
def lex (lexer : Lexer) (text : String) : Except LexError (List Token) :=
  (lexer.tokens text).mapM id

end Lexer

end ParserGenerator
