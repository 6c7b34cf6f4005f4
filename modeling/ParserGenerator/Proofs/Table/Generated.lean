import ParserGenerator.Proofs.Automaton.Path
import ParserGenerator.Proofs.Table.Cells

/-!
# Generated tables

What a parse needs to know of the table that was generated for a grammar: whatever a cell says is
justified by valid items, and without conflicts every valid item has a say. States are met on paths
only, where valid items are those of the symbols that were read.

Results: `Table.generated_of_ofGrammar` and `Table.exact_of_ofGrammar`, and what they say about the
cells of the state at the end of a path.
-/

namespace ParserGenerator

namespace Table

/-! ## Definitions -/

/-- The cells of the table say nothing but what the automaton of the grammar says. -/
structure Generated (g : Grammar) (automaton : Automaton) (table : Table) : Prop where
  formed : g.WellFormed
  canonical : automaton.Canonical g
  rule?_eq : ∀ id, table.rule? id = g.rule? id
  sound : ∀ state symbol entry, table.get? state symbol = some entry →
    automaton.Prescribes g state symbol entry
  distinct : table.RowsDistinct

/-- Where a path leads over a nonterminal, the table has a goto, whatever else was overwritten. -/
structure Driven (g : Grammar) (automaton : Automaton) (table : Table) : Prop
    extends table.Generated g automaton where
  goto_of_path : ∀ {top target : Nat} {states : List Nat} {read : List Symbol} {symbol : Symbol},
    automaton.Path (top :: states) read → automaton.Edge top symbol target →
      g.isNonterminal symbol = true → table.get? top symbol = some (.goto target)

/-- The cells of the table say all that the automaton of the grammar says. -/
structure Exact (g : Grammar) (automaton : Automaton) (table : Table) : Prop
    extends table.Generated g automaton where
  complete : ∀ state symbol entry, automaton.Prescribes g state symbol entry →
    table.get? state symbol = some entry

variable {rules : List Rule} {start : Option Symbol} {names symbols : SymbolTable} {g : Grammar}
  {limit : Option Nat} {table : Table}

theorem ofGrammar_of_generate {automaton : Automaton}
    (generated : Automaton.generate g limit = .ok automaton) :
    ofGrammar g symbols limit = .ok (ofAutomaton g symbols automaton) := by
  unfold ofGrammar
  rw [generated]
  rfl

theorem exists_automaton_of_ofGrammar (built : ofGrammar g symbols limit = .ok table) :
    ∃ automaton, Automaton.generate g limit = .ok automaton ∧
      table = ofAutomaton g symbols automaton := by
  unfold ofGrammar at built
  cases generated : Automaton.generate g limit with
  | error => rw [generated] at built; cases built
  | ok automaton =>
      rw [generated] at built
      exact ⟨automaton, rfl, (Except.ok.inj built).symm⟩

theorem generated_ofAutomaton {automaton : Automaton} (formed : g.WellFormed)
    (canonical : automaton.Canonical g) :
    (ofAutomaton g symbols automaton).Generated g automaton where
  formed := formed
  canonical := canonical
  rule?_eq := rule?_ofAutomaton
  sound _ _ _ := prescribes_of_get? canonical
  distinct := rowsDistinct_ofAutomaton

/-- Nothing but its goto is said for a nonterminal: lookaheads are terminals. -/
theorem driven_ofAutomaton {automaton : Automaton} (formed : g.WellFormed)
    (canonical : automaton.Canonical g) :
    (ofAutomaton g symbols automaton).Driven g automaton where
  toGenerated := generated_ofAutomaton formed canonical
  goto_of_path {top target states read symbol} path edge nonterminal := by
    obtain ⟨last, found, prescribes⟩ :
        ∃ last, (ofAutomaton g symbols automaton).get? top symbol = some last ∧
          automaton.Prescribes g top symbol last :=
      exists_get?_of_prescribes canonical (.goto nonterminal edge)
    have noTerminal : ¬ g.isNonterminal symbol = false := by
      rw [nonterminal]
      exact Bool.noConfusion
    cases prescribes with
    | shift _ _ terminal _ =>
        unfold Grammar.isTerminal at terminal
        rw [nonterminal] at terminal
        cases terminal
    | reduce _ _ looks =>
        have awaits := ((path.validAfter formed canonical).looks _ symbol).1 looks
        have terminal := formed.isNonterminal_of_mem_terminals (awaits.mem_terminals formed)
        exact absurd terminal noTerminal
    | accept => exact absurd formed.endOfInput_terminal noTerminal
    | goto _ other =>
        cases edge.unique other
        exact found

theorem driven_of_ofGrammar (accepted : Grammar.ofRules rules start names = .ok g)
    (built : ofGrammar g symbols limit = .ok table) :
    ∃ automaton, table.Driven g automaton := by
  obtain ⟨automaton, generated, equal⟩ := exists_automaton_of_ofGrammar built
  have formed := Grammar.wellFormed_of_ofRules accepted
  have canonical := Automaton.canonical_of_generate generated
  exact ⟨automaton, equal ▸ driven_ofAutomaton formed canonical⟩

theorem generated_of_ofGrammar (accepted : Grammar.ofRules rules start names = .ok g)
    (built : ofGrammar g symbols limit = .ok table) :
    ∃ automaton, table.Generated g automaton := by
  obtain ⟨automaton, generated, equal⟩ := exists_automaton_of_ofGrammar built
  have formed := Grammar.wellFormed_of_ofRules accepted
  have canonical := Automaton.canonical_of_generate generated
  exact ⟨automaton, equal ▸ generated_ofAutomaton formed canonical⟩

theorem exact_of_ofGrammar (accepted : Grammar.ofRules rules start names = .ok g)
    (built : ofGrammar g symbols limit = .ok table) (clean : table.conflicts = []) :
    ∃ automaton, table.Exact g automaton := by
  obtain ⟨automaton, generated, equal⟩ := exists_automaton_of_ofGrammar built
  have formed := Grammar.wellFormed_of_ofRules accepted
  have canonical := Automaton.canonical_of_generate generated
  subst equal
  exact ⟨automaton, generated_ofAutomaton formed canonical,
    fun _ _ _ prescribes => get?_of_prescribes canonical clean prescribes⟩

/-! ## Cells at the end of a path -/

variable {automaton : Automaton} {top : Nat} {states : List Nat} {read : List Symbol}
  {symbol : Symbol}

namespace Generated

variable (generated : table.Generated g automaton) (path : automaton.Path (top :: states) read)
include generated

theorem edge_of_shift {next : Nat} (cell : table.get? top symbol = some (.shift next)) :
    automaton.Edge top symbol next ∧ g.isNonterminal symbol = false := by
  cases generated.sound _ _ _ cell with
  | shift _ _ terminal edge =>
      unfold Grammar.isTerminal at terminal
      rw [Bool.and_eq_true, Bool.not_eq_true'] at terminal
      exact ⟨edge, terminal.1⟩

theorem edge_of_goto {next : Nat} (cell : table.get? top symbol = some (.goto next)) :
    automaton.Edge top symbol next := by
  cases generated.sound _ _ _ cell with
  | goto _ edge => exact edge

include path

/-- A reduction is by a rule of the user whose right-hand side was read and behind which the symbol
is awaited. -/
theorem awaits_of_reduce {id : Nat} (cell : table.get? top symbol = some (.reduce id)) :
    ∃ rule ∈ g.userRules, g.rule? id = some rule ∧ Awaits g read ⟨id, rule.rhs.length⟩ symbol := by
  cases generated.sound _ _ _ cell with
  | @reduce core _ finished differs looks =>
      have awaits :=
        ((path.validAfter generated.formed generated.canonical).looks core symbol).1 looks
      obtain ⟨rule, found, _⟩ := awaits.stands.began
      have atEnd := awaits.stands.marker_eq_of_finished found finished
      refine ⟨rule, Grammar.mem_userRules_of_rule? differs found, found, ?_⟩
      rw [← atEnd]
      exact awaits

/-- Only the end of the input is accepted, when the start symbol was read. -/
theorem read_of_accept (cell : table.get? top symbol = some .accept) :
    symbol = Symbol.endOfInput ∧ read = [g.startSymbol] := by
  cases generated.sound _ _ _ cell with
  | @accept core has finished isStart =>
      have stands := ((path.validAfter generated.formed generated.canonical).has core).1 has
      obtain ⟨id, marker⟩ := core
      cases isStart
      have atEnd := stands.marker_eq_of_finished Grammar.rule?_startRuleId finished
      obtain ⟨rule, found, _, taken, began⟩ := stands.began
      cases found
      dsimp only at atEnd taken began
      rw [atEnd] at taken began
      have nothing := Stands.read_eq_of_startRule generated.formed began
      refine ⟨rfl, ?_⟩
      rw [← List.take_append_drop (Rule.plain Symbol.start [g.startSymbol]).rhs.length read, taken,
        nothing]
      rfl

end Generated

namespace Exact

variable (exact : table.Exact g automaton) (path : automaton.Path (top :: states) read)
include exact

theorem goto_of_edge {next : Nat} (edge : automaton.Edge top symbol next)
    (nonterminal : g.isNonterminal symbol = true) : table.get? top symbol = some (.goto next) :=
  exact.complete _ _ _ (.goto nonterminal edge)

theorem driven : table.Driven g automaton where
  toGenerated := exact.toGenerated
  goto_of_path _ edge nonterminal := exact.goto_of_edge edge nonterminal

include path

/-- A terminal that a valid item expects is shifted. -/
theorem shift_of_expects {core : ItemCore} (stands : Stands g read core)
    (next : core.nextSymbol g = some symbol) (terminal : g.isNonterminal symbol = false) :
    ∃ target, automaton.Edge top symbol target ∧
      table.get? top symbol = some (.shift target) := by
  obtain ⟨target, edge⟩ := path.exists_edge exact.formed exact.canonical stands next
  have has := ((path.validAfter exact.formed exact.canonical).has core).2 stands
  refine ⟨target, edge, exact.complete _ _ _ (.shift has next ?_ edge)⟩
  obtain ⟨rule, found, isNext⟩ := ItemCore.nextSymbol_eq_some.1 next
  have used : g.rules.any (fun rule => rule.rhs.contains symbol) = true :=
    List.any_eq_true.2 ⟨rule, Grammar.mem_rules_of_rule? found,
      List.contains_iff_mem.2 (List.mem_of_getElem? isNext)⟩
  unfold Grammar.isTerminal
  rw [terminal, used, Bool.or_true]
  rfl

/-- What is awaited behind a rule that was read makes the rule reduce. -/
theorem reduce_of_awaits {id : Nat} {rule : Rule} (found : g.rule? id = some rule)
    (differs : id ≠ Grammar.startRuleId) (awaits : Awaits g read ⟨id, rule.rhs.length⟩ symbol) :
    table.get? top symbol = some (.reduce id) := by
  have finished : (⟨id, rule.rhs.length⟩ : ItemCore).nextSymbol g = none := by
    rw [ItemCore.nextSymbol_eq found]
    exact List.getElem?_eq_none (Nat.le_refl _)
  have looks := ((path.validAfter exact.formed exact.canonical).looks _ symbol).2 awaits
  exact exact.complete _ _ _ (.reduce finished differs looks)

/-- When the start symbol was read, the end of the input is accepted. -/
theorem accept_of_stands (stands : Stands g read ⟨Grammar.startRuleId, 1⟩) :
    table.get? top Symbol.endOfInput = some .accept := by
  have has := ((path.validAfter exact.formed exact.canonical).has _).2 stands
  exact exact.complete _ _ _ (.accept has rfl rfl)

end Exact

end Table

end ParserGenerator
