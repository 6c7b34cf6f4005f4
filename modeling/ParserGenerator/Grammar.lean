import ParserGenerator.Grammar.Progress
import ParserGenerator.Text.Decimal

/-!
# Context-free grammars

A grammar is a list of rules with a start symbol. It is extended by a start rule, which derives
the start symbol from a reserved symbol and has number 0; the other rules follow in order. A symbol
on a left-hand side is a nonterminal; all other symbols on right-hand sides, and the end of the
input, are terminals.

`Grammar.ofRules` refuses rules that use reserved symbols and a start symbol without a rule.
-/

namespace ParserGenerator

/-- Why a list of rules is no grammar. -/
inductive GrammarError where
  | noRules
  | undefinedStart (name : String)
  | reservedLhs (name : String)
  | reservedRhs (name : String)
deriving DecidableEq, Repr

def GrammarError.message : GrammarError → String
  | noRules => "the grammar has no rules"
  | undefinedStart name => "no rule defines the start symbol `" ++ name ++ "'"
  | reservedLhs name => "reserved symbol `" ++ name ++ "' used as a left-hand side"
  | reservedRhs name => "reserved symbol `" ++ name ++ "' used in a right-hand side"

/-- A grammar with its FIRST and FOLLOW sets. -/
structure Grammar where
  startSymbol : Symbol
  userRules : List Rule
  sets : GrammarSets

namespace Grammar

/-- The number of the start rule. -/
def startRuleId : Nat := 0

/-- The start rule and the given rules, by number. -/
def extendRules (startSymbol : Symbol) (userRules : List Rule) : List Rule :=
  Rule.plain Symbol.start [startSymbol] :: userRules

/-- The left-hand sides of rules, each once, in the order of their first rule. -/
def lhsSymbols (rules : List Rule) : List Symbol := (rules.map Rule.lhs).eraseDups

/-- The end of the input, and the symbols on right-hand sides that no rule defines, each once, in
the order in which they occur. -/
def terminalSymbols (rules : List Rule) : List Symbol :=
  (Symbol.endOfInput :: (rules.flatMap Rule.rhs).filter fun symbol =>
    !rules.any (·.lhs == symbol)).eraseDups

/-- The first rule that uses a reserved symbol. -/
def reservedUse? (names : SymbolTable) : List Rule → Option GrammarError
  | [] => none
  | rule :: rest =>
      if rule.lhs.isReserved then some (.reservedLhs (names.display rule.lhs))
      else match rule.rhs.find? Symbol.isReserved with
        | some symbol => some (.reservedRhs (names.display symbol))
        | none => reservedUse? names rest

/-- The grammar of a list of rules. The start symbol is that of the first rule if none is given;
`names` serves for the names in errors only. -/
def ofRules (rules : List Rule) (start : Option Symbol) (names : SymbolTable) :
    Except GrammarError Grammar :=
  match rules with
  | [] => .error .noRules
  | firstRule :: _ =>
      let startSymbol := start.getD firstRule.lhs
      match reservedUse? names rules with
      | some error => .error error
      | none =>
          if rules.any (·.lhs == startSymbol) then
            let extended := extendRules startSymbol rules
            let sets :=
              GrammarSets.ofRules extended (terminalSymbols extended) (lhsSymbols extended)
            .ok ⟨startSymbol, rules, sets⟩
          else .error (.undefinedStart (names.display startSymbol))

/-- All rules by number, the start rule first. -/
def rules (g : Grammar) : List Rule := extendRules g.startSymbol g.userRules

def rule? (g : Grammar) (id : Nat) : Option Rule := g.rules[id]?

/-- The rules with a given left-hand side, with their numbers. -/
def rulesOf (g : Grammar) (lhs : Symbol) : List (Nat × Rule) :=
  g.rules.zipIdx.filterMap fun (rule, id) => if rule.lhs = lhs then some (id, rule) else none

def terminals (g : Grammar) : List Symbol := terminalSymbols g.rules

def nonterminals (g : Grammar) : List Symbol := lhsSymbols g.rules

def isNonterminal (g : Grammar) (symbol : Symbol) : Bool := g.rules.any (·.lhs == symbol)

def isTerminal (g : Grammar) (symbol : Symbol) : Bool :=
  !g.isNonterminal symbol &&
    (symbol == Symbol.endOfInput || g.rules.any fun rule => rule.rhs.contains symbol)

def isNullable (g : Grammar) (symbol : Symbol) : Bool := g.sets.nullable.contains symbol

/-- FIRST of a symbol of the grammar. -/
def first? (g : Grammar) (symbol : Symbol) : Option SymbolSet := g.sets.first.get? symbol

/-- FOLLOW of a symbol of the grammar. -/
def follow? (g : Grammar) (symbol : Symbol) : Option SymbolSet := g.sets.follow.get? symbol

/-- FIRST of a string. -/
def firstOf (g : Grammar) (string : SymbolString) : SymbolSet := g.sets.firstOf string

/-- FOLLOW of a string. -/
def followOf (g : Grammar) (string : SymbolString) : SymbolSet := g.sets.followOf string

/-- Passes over the rules once more, and says whether that changed a set. -/
def update (g : Grammar) : Bool × Grammar :=
  let progress := g.sets.reportedPass g.rules
  (progress.changed, { g with sets := progress.sets })

/-- The terminals, the nonterminals with their sets, and the rules with their numbers. -/
def display (names : SymbolTable) (g : Grammar) : String :=
  let terminal (symbol : Symbol) : String := "- " ++ names.display symbol ++ "\n"
  let nonterminal (symbol : Symbol) : String :=
    "- " ++ names.display symbol ++
      (if g.isNullable symbol then " (nullable)" else "") ++
      ((g.first? symbol).map fun set => " first=" ++ set.display names).getD "" ++
      ((g.follow? symbol).map fun set => " follow=" ++ set.display names).getD "" ++ "\n"
  let rule (entry : Rule × Nat) : String :=
    "- [" ++ Text.twoDigits entry.2 ++ "] " ++ entry.1.display names ++ "\n"
  "## terminals:\n" ++ String.join (g.terminals.map terminal) ++
    "\n## nonterminals:\n" ++ String.join (g.nonterminals.map nonterminal) ++
    "\n## rules:\n" ++ String.join (g.rules.zipIdx.map rule)

end Grammar

end ParserGenerator
