import ParserGenerator.Proofs.Table.Contributions

/-!
# The layout of generated tables

The cells of a generated table keep apart what is for tokens and what is for the symbols of
reductions. Nothing in the writing of a table checks this: it comes from the sets of the grammar,
where lookaheads are made of terminals, and from the rules, where no right-hand side holds a
reserved symbol, so that none labels an edge. The start rule is finished behind the start symbol
alone, which is read from the first state.

Results: `Table.laidOut_of_ofGrammar`.
-/

namespace ParserGenerator

/-! ## Definitions -/

/-- Which entries a table has, and under which symbols. -/
structure Table.LaidOut (g : Grammar) (automaton : Automaton) (table : Table) : Prop where
  endOfInput_terminal : g.isTerminal Symbol.endOfInput = true
  action_terminal : ∀ state symbol entry, table.get? state symbol = some entry →
    entry.isAction = true → g.isTerminal symbol = true
  /-- The gotos are the edges for nonterminals. -/
  goto_iff : ∀ state symbol next, table.get? state symbol = some (.goto next) ↔
    g.isNonterminal symbol = true ∧ automaton.Edge state symbol next
  epsilon_empty : ∀ state, table.get? state Symbol.epsilon = none
  start_empty : ∀ state, table.get? state Symbol.start = none
  accept_of : ∀ state symbol, table.get? state symbol = some .accept →
    symbol = Symbol.endOfInput ∧ automaton.Edge Table.initialState g.startSymbol state
  accept_once : ∀ state symbol state' symbol', table.get? state symbol = some .accept →
    table.get? state' symbol' = some .accept → state = state' ∧ symbol = symbol'
  endOfInput_not_shifted : ∀ state next, table.get? state Symbol.endOfInput ≠ some (.shift next)
  reduce_rule : ∀ state symbol id, table.get? state symbol = some (.reduce id) →
    id ≠ Grammar.startRuleId ∧ ∃ rule, table.rule? id = some rule
  target_lt : ∀ state symbol entry next, table.get? state symbol = some entry →
    entry.target? = some next → next < table.size
  conflict_kind : ∀ conflict ∈ table.conflicts, conflict.kind = .shiftReduce ∨
    conflict.kind = .reduceReduce ∨ conflict.kind = .accept

variable {g : Grammar} {automaton : Automaton} {symbols : SymbolTable} {state : Nat}
  {symbol : Symbol} {entry : Entry} {limit : Option Nat}

/-! ## Labels and cells -/

/-- A label of an edge is a symbol of a right-hand side, which no reserved symbol is. -/
theorem Automaton.Canonical.not_reserved_of_edge (canonical : automaton.Canonical g)
    (formed : g.WellFormed) {target : Nat} (edge : automaton.Edge state symbol target) :
    symbol.isReserved = false := by
  obtain ⟨item, member⟩ := List.exists_mem_of_ne_nil _ (canonical.itemsAt_of_edge edge).1
  obtain ⟨old, _, next, _⟩ := Automaton.mem_moved.1 member
  obtain ⟨rule, found, atMarker⟩ := ItemCore.nextSymbol_eq_some.1 next
  exact formed.not_reserved_of_mem_rhs (Grammar.mem_rules_of_rule? found)
    (List.mem_of_getElem? atMarker)

theorem Grammar.WellFormed.not_reserved_of_isTerminal (formed : g.WellFormed)
    (terminal : g.isTerminal symbol = true) (differs : symbol ≠ Symbol.endOfInput) :
    symbol.isReserved = false := by
  rcases Grammar.mem_terminals.1 ((Grammar.isTerminal_iff formed).1 terminal) with
    isEnd | ⟨⟨rule, member, inRhs⟩, _⟩
  · exact absurd isEnd differs
  · exact formed.not_reserved_of_mem_rhs member inRhs

namespace Table

open Automaton (Prescribes)

/-- Of the reserved symbols, something is said for the end of the input alone. -/
theorem eq_endOfInput_of_prescribes (formed : g.WellFormed)
    (built : Automaton.generate g limit = .ok automaton)
    (prescribes : automaton.Prescribes g state symbol entry) (reserved : symbol.isReserved = true) :
    symbol = Symbol.endOfInput := by
  by_contra differs
  have free : symbol.isReserved = false := by
    cases action : entry.isAction with
    | true =>
        rw [isAction_eq_of_prescribes formed built prescribes] at action
        exact formed.not_reserved_of_isTerminal action differs
    | false =>
        obtain ⟨target, _, _, edge⟩ := goto_of_prescribes prescribes action
        exact (Automaton.canonical_of_generate built).not_reserved_of_edge formed edge
  cases reserved.symm.trans free

/-- A path that has read one symbol is an edge out of the first state. -/
theorem edge_of_path {states : List Nat} (path : automaton.Path (state :: states) [symbol]) :
    automaton.Edge initialState symbol state := by
  cases path with
  | push before edge =>
      cases before with
      | start => exact edge

/-- The end of the input is accepted in the state behind the start symbol. -/
theorem edge_of_accept (formed : g.WellFormed)
    (built : Automaton.generate g limit = .ok automaton)
    (cell : (ofAutomaton g symbols automaton).get? state symbol = some .accept) :
    symbol = Symbol.endOfInput ∧ automaton.Edge initialState g.startSymbol state := by
  have canonical := Automaton.canonical_of_generate built
  have bound := lt_size_of_prescribes (prescribes_of_get? canonical cell)
  obtain ⟨_, read, path⟩ := Automaton.exists_path_of_generate built bound
  obtain ⟨isEnd, isRead⟩ := (generated_ofAutomaton formed canonical).read_of_accept path cell
  rw [isRead] at path
  exact ⟨isEnd, edge_of_path path⟩

/-! ## Conflicts -/

/-- A conflict is between a shift and a reduction or between two reductions, or it has to do with
accepting. -/
theorem kind_of_mem_conflicts (formed : g.WellFormed)
    (built : Automaton.generate g limit = .ok automaton) {conflict : Conflict}
    (member : conflict ∈ (ofAutomaton g symbols automaton).conflicts) :
    conflict.kind = .shiftReduce ∨ conflict.kind = .reduceReduce ∨ conflict.kind = .accept := by
  have isTerminal := isTerminal_of_mem_conflicts formed built member
  obtain ⟨previous, replacement, differs⟩ :=
    prescribes_of_mem_conflicts (Automaton.canonical_of_generate built) member
  have first := (isAction_eq_of_prescribes formed built previous).trans isTerminal
  have second := (isAction_eq_of_prescribes formed built replacement).trans isTerminal
  obtain ⟨state, symbol, old, new⟩ := conflict
  dsimp only at previous replacement differs first second
  -- Two shifts in a cell go along one edge, and the other kinds are read off the two entries.
  cases previous with
  | goto => cases first
  | accept =>
      cases replacement with
      | goto => cases second
      | accept => exact absurd rfl differs
      | shift => exact .inr (.inr rfl)
      | reduce => exact .inr (.inr rfl)
  | reduce =>
      cases replacement with
      | goto => cases second
      | accept => exact .inr (.inr rfl)
      | shift => exact .inl rfl
      | reduce => exact .inr (.inl rfl)
  | shift _ _ _ edge =>
      cases replacement with
      | goto => cases second
      | accept => exact .inr (.inr rfl)
      | reduce => exact .inl rfl
      | shift _ _ _ edge' =>
          rw [edge.unique edge'] at differs
          exact absurd rfl differs

/-! ## The layout -/

theorem laidOut_ofAutomaton (formed : g.WellFormed)
    (built : Automaton.generate g limit = .ok automaton) (symbols : SymbolTable) :
    (ofAutomaton g symbols automaton).LaidOut g automaton := by
  have canonical := Automaton.canonical_of_generate built
  have said {state : Nat} {symbol : Symbol} {entry : Entry}
      (cell : (ofAutomaton g symbols automaton).get? state symbol = some entry) :
      automaton.Prescribes g state symbol entry := prescribes_of_get? canonical cell
  have empty (state : Nat) {symbol : Symbol} (reserved : symbol.isReserved = true)
      (differs : symbol ≠ Symbol.endOfInput) :
      (ofAutomaton g symbols automaton).get? state symbol = none := by
    rw [Option.eq_none_iff_forall_not_mem]
    exact fun entry cell =>
      differs (eq_endOfInput_of_prescribes formed built (said cell) reserved)
  constructor
  · exact (Grammar.isTerminal_iff formed).2 (Grammar.mem_terminals.2 (.inl rfl))
  · exact fun state symbol entry cell action =>
      (isAction_eq_of_prescribes formed built (said cell)).symm.trans action
  · intro state symbol next
    constructor
    · intro cell
      obtain ⟨target, isGoto, nonterminal, edge⟩ := goto_of_prescribes (said cell) rfl
      cases isGoto
      exact ⟨nonterminal, edge⟩
    · rintro ⟨nonterminal, edge⟩
      have bound := lt_size_of_prescribes (.goto nonterminal edge)
      obtain ⟨_, _, path⟩ := Automaton.exists_path_of_generate built bound
      exact (driven_ofAutomaton formed canonical).goto_of_path path edge nonterminal
  · exact fun state => empty state (by decide) (by decide)
  · exact fun state => empty state (by decide) (by decide)
  · exact fun state symbol cell => edge_of_accept formed built cell
  · intro state symbol state' symbol' cell cell'
    obtain ⟨isEnd, edge⟩ := edge_of_accept formed built cell
    obtain ⟨isEnd', edge'⟩ := edge_of_accept formed built cell'
    exact ⟨edge.unique edge', isEnd.trans isEnd'.symm⟩
  · intro state next cell
    cases said cell with
    | shift _ _ _ edge => cases canonical.not_reserved_of_edge formed edge
  · intro state symbol id cell
    refine ⟨?_, ?_⟩
    · cases said cell with
      | reduce _ differs _ => exact differs
    · rw [rule?_ofAutomaton]
      exact exists_rule_of_prescribes (said cell) formed built
  · intro state symbol entry next cell leads
    rw [size_ofAutomaton]
    exact target_lt_of_prescribes formed built (said cell) leads
  · exact fun conflict member => kind_of_mem_conflicts formed built member

/-- The table that is built for a grammar is laid out by its automaton; without a limit there always
is one. -/
theorem laidOut_of_ofGrammar {rules : List Rule} {start : Option Symbol} {names : SymbolTable}
    (accepted : Grammar.ofRules rules start names = .ok g) (symbols : SymbolTable) :
    (∃ table, ofGrammar g symbols none = .ok table) ∧
      ∀ limit table, ofGrammar g symbols limit = .ok table →
        ∃ automaton, Automaton.generate g limit = .ok automaton ∧ table.LaidOut g automaton := by
  have formed := Grammar.wellFormed_of_ofRules accepted
  refine ⟨?_, fun limit table built => ?_⟩
  · obtain ⟨automaton, generated⟩ := Automaton.exists_generate formed
    exact ⟨ofAutomaton g symbols automaton, ofGrammar_of_generate generated⟩
  · obtain ⟨automaton, generated, rfl⟩ := exists_automaton_of_ofGrammar built
    exact ⟨automaton, generated, laidOut_ofAutomaton formed generated symbols⟩

/-- A rule that derives its own symbol, beside one for a token: `3 := 3` and `3 := 4`. -/
def loopRules : List Rule := [Rule.plain ⟨3⟩ [⟨3⟩], Rule.plain ⟨3⟩ [⟨4⟩]]

/-- The reduction by the looping rule replaces the only entry that accepts. -/
theorem exists_loopTable :
    ∃ g, Grammar.ofRules loopRules none SymbolTable.initial = .ok g ∧
      ∃ table, ofGrammar g SymbolTable.initial none = .ok table ∧
        table.get? 1 Symbol.endOfInput = some (.reduce 1) ∧
        table.conflicts = [⟨1, Symbol.endOfInput, .accept, .reduce 1⟩] := by
  decide +kernel

theorem laidOut_of_ofGrammar_loop :
    ∃ g table automaton, Grammar.ofRules loopRules none SymbolTable.initial = .ok g ∧
      ofGrammar g SymbolTable.initial none = .ok table ∧
      table.conflicts = [⟨1, Symbol.endOfInput, .accept, .reduce 1⟩] ∧
      Automaton.generate g none = .ok automaton ∧ table.LaidOut g automaton := by
  obtain ⟨g, accepted, table, built, _, conflicts⟩ := exists_loopTable
  obtain ⟨automaton, generated, laidOut⟩ :=
    (laidOut_of_ofGrammar accepted SymbolTable.initial).2 none table built
  exact ⟨g, table, automaton, accepted, built, conflicts, generated, laidOut⟩

end Table

end ParserGenerator
