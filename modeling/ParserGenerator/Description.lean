import ParserGenerator.Description.Language
import ParserGenerator.Session
import ParserGenerator.Text.Blank

/-!
# Descriptions

A description declares the start symbol of a grammar and then rules with a body each. A body is
built from names by juxtaposition, alternatives, optional parts and groups, and a name may carry
the option of its position.

    __ACCEPTS__ program
    > program := statement (";" statement)?
    > item := __DISCARD__ "(" __UNWRAP__ options __DISCARD__ ")" | name

Each declaration stands for one rule for each alternative of its body; a rule that equals an
earlier one is dropped. The alternatives of a body are listed in order: those of a left factor
vary slowest, and an optional part lists its alternatives before the empty one.

A name is a row of letters and hyphens, or is written between quotes, where a backslash stands for
the character behind it. Names are separated by blanks in the text of a table, so a quoted name
must be free of them.
-/

namespace ParserGenerator

/-- What is wrong with a description. -/
inductive DescriptionError where
  | lexical (line : Nat) (cause : LexError)
  | unexpectedToken (line : Nat) (cause : ParseError)
  | unparsed (cause : ParseError)
  | unterminatedName (text : String)
  | blankInName (text : String)
  | malformed (part : String)
deriving DecidableEq

def DescriptionError.message : DescriptionError → String
  | lexical line cause => "line " ++ toString line ++ ": " ++ cause.message
  | unexpectedToken line cause =>
      "line " ++ toString line ++ ": " ++ cause.message Description.Language.symbols
  | unparsed cause => cause.message Description.Language.symbols
  | unterminatedName text => "unterminated quoted name " ++ text
  | blankInName text => "quoted name " ++ text ++ " contains whitespace"
  | malformed part => "malformed " ++ part

/-- The start symbol and the rules of a description. -/
structure Description where
  start : Symbol
  rules : List Rule
deriving DecidableEq

namespace Description

/-! ## Names -/

/-- Takes the backslashes away that stand in front of another character. -/
def unescape : List Char → List Char
  | [] => []
  | c :: rest =>
      if c = '\\' then
        match rest with
        | [] => []
        | e :: rest => e :: unescape rest
      else c :: unescape rest

/-- The text between the quotes of a quoted name, if there is one behind the first quote. -/
def withoutLastQuote? (text : List Char) : Option (List Char) :=
  match text.reverse with
  | '"' :: inner => some inner.reverse
  | _ => none

/-- The name that a name token stands for. -/
def unquote (text : String) : Except DescriptionError String :=
  match text.toList with
  | '"' :: rest =>
      match withoutLastQuote? rest with
      | none => .error (.unterminatedName text)
      | some inner =>
          let name := unescape inner
          if name.any Text.isBlank then .error (.blankInName text)
          else .ok (String.ofList name)
  | _ => .ok text

/-! ## Bodies -/

/-- One right-hand side that a body stands for: names with the options of their positions. -/
abbrev Alternative := List (String × ChildOption)

/-- The option that an annotated item gives to its name. -/
def annotation? (symbol : Symbol) : Option ChildOption :=
  if symbol = Part.unwrappedItem.symbol then some .unwrap
  else if symbol = Part.wrappedItem.symbol then some .wrap
  else if symbol = Part.discardedItem.symbol then some .discard
  else none

/-- Each alternative of the first list in front of each one of the second. -/
def juxtapose (first second : List Alternative) : List Alternative :=
  first.flatMap fun front => second.map fun back => front ++ back

mutual
/-- The alternatives that a tree of a body stands for. -/
def expand : SyntaxTree → Except DescriptionError (List Alternative)
  | .leaf token =>
      if token.symbol = Part.name.symbol then do
        pure [[(← unquote token.text, .default)]]
      else if token.symbol = Part.epsilon.symbol then pure [[]]
      else throw (.malformed "token in a rule body")
  | .branch symbol children =>
      if symbol = Part.options.symbol then do
        pure (← expandAll children).flatten
      else if symbol = Part.list.symbol then do
        pure ((← expandAll children).foldl juxtapose [[]])
      else if symbol = Part.item.symbol ∨ symbol = Part.rhs.symbol then
        match children with
        | [child] => expand child
        | _ => throw (.malformed "item")
      else if symbol = Part.optionalItem.symbol then
        match children with
        | [child] => do pure ((← expand child) ++ [[]])
        | _ => throw (.malformed "optional item")
      else match annotation? symbol, children with
        | some option, [.leaf token] => do pure [[(← unquote token.text, option)]]
        | some _, _ => throw (.malformed "annotated item")
        | none, _ => throw (.malformed "node in a rule body")

/-- The alternatives of each tree of a sequence. -/
def expandAll : List SyntaxTree → Except DescriptionError (List (List Alternative))
  | [] => pure []
  | tree :: rest => do
      let first ← expand tree
      let later ← expandAll rest
      pure (first :: later)
end

/-! ## Reading -/

/-- Registers the name of a name token. -/
def internName (token : Token) : Naming DescriptionError Symbol := do
  Naming.intern (← unquote token.text)

/-- The rules of the alternatives of a body, behind the rules so far; a rule that is there already
is dropped. -/
def addAlternatives (lhs : Symbol) (rules : List Rule) : List Alternative →
    Naming DescriptionError (List Rule)
  | [] => pure rules
  | alternative :: rest => do
      let rhs ← Naming.internAll (alternative.map Prod.fst)
      let rule := Rule.ofOptions lhs rhs (alternative.map Prod.snd)
      addAlternatives lhs (if rule ∈ rules then rules else rules ++ [rule]) rest

/-- The rules of declarations, behind the rules so far. -/
def addDeclarations (rules : List Rule) : List SyntaxTree → Naming DescriptionError (List Rule)
  | [] => pure rules
  | .branch symbol [_, .branch _ left, _, .branch _ right] :: rest =>
      if symbol = Part.ruleDeclaration.symbol then
        match left with
        | [.leaf name] => do
            let lhs ← internName name
            match right with
            | [body] => do
                let alternatives ← expand body
                let rules ← addAlternatives lhs rules alternatives
                addDeclarations rules rest
            | _ => throw (.malformed "right-hand side")
        | _ => throw (.malformed "left-hand side")
      else throw (.malformed "rule declaration")
  | _ :: _ => throw (.malformed "rule declaration")

/-- The description of a tree. -/
def ofTree (tree : SyntaxTree) : Naming DescriptionError Description :=
  match tree.children with
  | [start, declarations] =>
      match start.children with
      | [.leaf name] =>
          if name.symbol = Part.name.symbol then do
            let start ← internName name
            let rules ← addDeclarations [] declarations.children
            pure ⟨start, rules⟩
          else throw (.malformed "start symbol declaration")
      | _ => throw (.malformed "start symbol declaration")
  | _ => throw (.malformed "description tree")

/-- The number of line feeds in the first `offset` bytes of a text. -/
def lineFeedsBefore (offset : Nat) : List Char → Nat
  | [] => 0
  | c :: rest =>
      if offset = 0 then 0
      else (if c = '\n' then 1 else 0) + lineFeedsBefore (offset - c.utf8Size) rest

/-- The number of the line of a byte, counted from 1. -/
def lineOf (source : String) (offset : Nat) : Nat := lineFeedsBefore offset source.toList + 1

/-- A bound on the steps that one token takes: a token ends no more trees than there are tokens,
and each of them takes a few reductions up to the rule it belongs to. -/
def stepBound (tokens : List Token) : Nat := 16 * (tokens.length + 1)

/-- The tree of a description, if it has one. -/
def parseTree (source : String) : Except DescriptionError SyntaxTree :=
  match Language.lexer.lex source with
  | .error error => .error (.lexical (lineOf source error.position) error)
  | .ok tokens =>
      match Language.table.parseTokens (stepBound tokens) tokens with
      -- Not reached, for the bound holds for all token sequences.
      | none => .error (.malformed "parse")
      | some (.ok tree) => .ok tree
      | some (.error (.unexpectedToken state token expected)) =>
          .error (.unexpectedToken (lineOf source token.first)
            (.unexpectedToken state token expected))
      | some (.error error) => .error (.unparsed error)

/-- Reads a description and registers its names. -/
def parse (source : String) : Naming DescriptionError Description := do
  ofTree (← parseTree source)

end Description

end ParserGenerator
