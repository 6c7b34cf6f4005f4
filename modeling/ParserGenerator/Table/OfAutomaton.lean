import ParserGenerator.Automaton
import ParserGenerator.Table

/-!
# The table of an automaton

Each state of the automaton fills a row, item by item: an item that expects a terminal shifts it, a
finished item reduces by its rule on its lookahead, and the finished start rule accepts at the end
of the input. The edges for nonterminals become gotos. Where items of a state disagree, the entry
written last stays, which is the one of the greatest rule and marker.
-/

namespace ParserGenerator.Table

/-- Writes an entry under each of several symbols. -/
def setAll (table : Table) (state : Nat) (entry : Entry) (symbols : List Symbol) : Table :=
  symbols.foldl (fun table symbol => table.set state symbol entry) table

/-- Writes what an item says about its state. -/
def fillItem (g : Grammar) (state : Nat) (edges : List (Symbol × Nat)) (table : Table)
    (item : Item) : Table :=
  match item.core.nextSymbol g with
  | none =>
      if item.core.rule = Grammar.startRuleId then table.set state Symbol.endOfInput .accept
      else table.setAll state (.reduce item.core.rule) item.lookahead.toList
  | some symbol =>
      if g.isTerminal symbol then
        match edges.lookup symbol with
        | some next => table.set state symbol (.shift next)
        | none => table
      else table

/-- Writes a goto for an edge, if its symbol is a nonterminal. -/
def fillEdge (g : Grammar) (state : Nat) (table : Table) (edge : Symbol × Nat) : Table :=
  if g.isNonterminal edge.1 then table.set state edge.1 (.goto edge.2) else table

/-- Writes the row of a state. -/
def fillState (g : Grammar) (table : Table) (entry : AutomatonState × Nat) : Table :=
  let (state, index) := entry
  state.edges.foldl (fillEdge g index)
    (state.items.items.foldl (fillItem g index state.edges) table)

/-- The parse table of an automaton of a grammar. -/
def ofAutomaton (g : Grammar) (symbols : SymbolTable) (automaton : Automaton) : Table :=
  automaton.states.zipIdx.foldl (fillState g) (blank symbols g.rules automaton.size)

/-- The parse table of a grammar, if its automaton keeps the limit. -/
def ofGrammar (g : Grammar) (symbols : SymbolTable) (limit : Option Nat) :
    Except BuildError Table := do
  pure (ofAutomaton g symbols (← Automaton.generate g limit))

end ParserGenerator.Table
