import ParserGenerator.Symbol
import ParserGenerator.Text.Escaped

/-!
# Tokens

A token is a stretch of the input with the symbol of the rule that recognised it. Offsets count
the bytes of the input in UTF-8.
-/

namespace ParserGenerator

/-- A recognised stretch of the input. -/
structure Token where
  symbol : Symbol
  text : String
  /-- The offset of the first byte. -/
  first : Nat
  /-- The offset just past the last byte. -/
  past : Nat
deriving DecidableEq, Inhabited

namespace Token

/-- The token that closes an input of `length` bytes. -/
def endOfInput (length : Nat) : Token := ⟨Symbol.endOfInput, "", length, length⟩

def isEnd (token : Token) : Bool := token.symbol == Symbol.endOfInput

/-- The symbol's name, followed by the text in angle brackets unless the text spells the name or
the token closes the input. -/
def display (names : SymbolTable) (token : Token) : String :=
  let name := names.display token.symbol
  if name = token.text ∨ token.isEnd then name else name ++ "<" ++ Text.escaped token.text ++ ">"

end Token

end ParserGenerator
