import ParserGenerator.LexerFile
import ParserGenerator.Table.OfAutomaton

/-!
# The language of descriptions

The description language is lexed and parsed by this library's own means: its words are the rules
of a lexer rule file, and its structure is a grammar whose rules shape the tree that the reader of
descriptions walks over. Its symbols live in a symbol table of their own.
-/

namespace ParserGenerator.Description

/-- The symbols of the description language, in the order of their numbers. -/
inductive Part where
  | comment | space | wrap | unwrap | epsilon | accepts | discard | name | sep | question | or
  | rparen | lparen | arrow
  | grammar | startDeclaration | ruleDeclarations | ruleDeclaration | lhs | rhs | options | list
  | item | optionalItem | discardedItem | unwrappedItem | wrappedItem
deriving DecidableEq, Repr

namespace Part

/-- All symbols of the description language. -/
def all : List Part :=
  [comment, space, wrap, unwrap, epsilon, accepts, discard, name, sep, question, or, rparen,
    lparen, arrow, grammar, startDeclaration, ruleDeclarations, ruleDeclaration, lhs, rhs, options,
    list, item, optionalItem, discardedItem, unwrappedItem, wrappedItem]

/-- The word for a symbol in messages. -/
def word : Part → String
  | comment => "comment"
  | space => "space"
  | wrap => "wrap"
  | unwrap => "unwrap"
  | epsilon => "epsilon"
  | accepts => "accepts"
  | discard => "discard"
  | name => "name"
  | sep => "sep"
  | question => "?"
  | or => "or"
  | rparen => ")"
  | lparen => "("
  | arrow => ">"
  | grammar => "grammar"
  | startDeclaration => "start-symbol-declaration"
  | ruleDeclarations => "rule-declarations"
  | ruleDeclaration => "rule-declaration"
  | lhs => "lhs"
  | rhs => "rhs"
  | options => "options"
  | list => "list"
  | item => "item"
  | optionalItem => "optional-item"
  | discardedItem => "discarded-item"
  | unwrappedItem => "unwrapped-item"
  | wrappedItem => "wrapped-item"

/-- The symbol in the table of the description language. -/
def symbol (part : Part) : Symbol := ⟨Symbol.reservedNames.length + all.idxOf part⟩

end Part

namespace Language

/-- The symbol table of the description language. -/
def symbols : SymbolTable where
  names := Symbol.reservedNames ++ Part.all.map Part.word
  distinct := by decide
  reserved := List.prefix_append _ _

theorem symbols_get? (part : Part) : symbols.get? part.word = some part.symbol := by
  cases part <;> decide

/-- The lines of the lexer rule file of the language: comments and blanks make no tokens, and a name
is either a row of letters and hyphens or quoted. -/
def lexerLines : List String :=
  ["",
    "__IGNORED__ comment := //[^\\n]*",
    "__IGNORED__ space := \\s",
    "wrap := __WRAP__",
    "unwrap := __UNWRAP__",
    "epsilon := __EPSILON__",
    "accepts := __ACCEPTS__",
    "discard := __DISCARD__",
    "name := \\l+(-\\l+)*|\"([^\"\\\\]|\\\\.)+\"",
    "sep := \\:\\=",
    "?",
    "or := \\|",
    ")",
    "(",
    ">"]

def lexerText : String := String.ofList (lexerLines.flatMap fun line => line.toList ++ ['\n'])

/-- The lexer of the description language, if its file makes one. -/
def lexer? : Except LexerFile.Error Lexer :=
  ((LexerFile.load lexerText).outcome SymbolTable.initial).1

/-- A rule of the description language, with an option for each symbol of its right-hand side. -/
def rule (left : Part) (right : List (Part × ChildOption)) : Rule :=
  Rule.ofOptions left.symbol (right.map fun part => part.1.symbol) (right.map Prod.snd)

open ParserGenerator.Description.Part ParserGenerator.ChildOption in
/-- The rules of the description language. Their options leave a description with a child for the
start declaration and one for the rule declarations, and each declaration with four children. -/
def rules : List Rule :=
  [rule grammar [(startDeclaration, .wrap), (ruleDeclarations, .wrap)],
    rule startDeclaration [(accepts, .discard), (name, .default)],
    rule ruleDeclarations [],
    rule ruleDeclarations [(ruleDeclarations, .unwrap), (ruleDeclaration, .default)],
    rule ruleDeclaration [(arrow, .default), (lhs, .wrap), (sep, .default), (rhs, .wrap)],
    rule lhs [(name, .default)],
    rule rhs [(options, .default)],
    rule options [(list, .default)],
    rule options [(options, .unwrap), (or, .discard), (list, .default)],
    rule list [(item, .default)],
    rule list [(list, .unwrap), (item, .default)],
    rule item [(lparen, .discard), (options, .default), (rparen, .discard)],
    rule item [(name, .default)],
    rule item [(unwrappedItem, .wrap)],
    rule item [(wrappedItem, .wrap)],
    rule item [(discardedItem, .wrap)],
    rule item [(optionalItem, .wrap)],
    rule item [(epsilon, .default)],
    rule optionalItem [(item, .default), (question, .discard)],
    rule discardedItem [(discard, .discard), (name, .default)],
    rule unwrappedItem [(unwrap, .discard), (name, .default)],
    rule wrappedItem [(wrap, .discard), (name, .default)]]

/-- The grammar of the description language, if its rules make one. -/
def grammar? : Except GrammarError Grammar :=
  Grammar.ofRules rules (some Part.grammar.symbol) symbols

/-- The lexer of the description language. -/
def lexer : Lexer := lexer?.toOption.getD LexerDraft.empty.compile

/-- The parse table of the description language. -/
def table : Table :=
  (grammar?.toOption.bind fun g => (Table.ofGrammar g symbols none).toOption).getD
    (Table.blank symbols [] 0)

end Language

end ParserGenerator.Description
