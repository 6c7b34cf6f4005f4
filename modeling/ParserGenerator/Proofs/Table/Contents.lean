import ParserGenerator.Proofs.Automaton.Labels
import ParserGenerator.Proofs.Grammar.Following
import ParserGenerator.Proofs.Table.Cells

/-!
# What the cells of a generated table hold

The cells of a state belong to the end of the input and to labels of edges, so that the states bound
the number of cells in a row. Entries lead to states of the automaton and reduce by rules of the
grammar, and those that are actions are the ones for terminals.

Results: `Table.label_of_prescribes`, `Table.isAction_eq_of_prescribes`, `Table.length_row_lt`,
`Table.target_lt_of_prescribes` and `Table.exists_rule_of_prescribes`.
-/

namespace ParserGenerator.Table

open Automaton (Prescribes generate exists_path_of_generate canonical_of_generate)

variable {g : Grammar} {automaton : Automaton} {limit : Option Nat} {state : Nat} {symbol : Symbol}
  {entry : Entry}

/-- Something is said for the end of the input and for labels of edges alone. -/
theorem label_of_prescribes (formed : g.WellFormed) (built : generate g limit = .ok automaton)
    (prescribes : automaton.Prescribes g state symbol entry) :
    symbol = Symbol.endOfInput ∨ ∃ source target, automaton.Edge source symbol target := by
  cases prescribes with
  | shift _ _ _ edge => exact .inr ⟨_, _, edge⟩
  | goto _ edge => exact .inr ⟨_, _, edge⟩
  | accept => exact .inl rfl
  | @reduce core _ finished differs looks =>
      have canonical := canonical_of_generate built
      have bound : state < automaton.size :=
        lt_size_of_prescribes (.reduce finished differs looks)
      obtain ⟨_, _, path⟩ := exists_path_of_generate built bound
      exact path.exists_edge_of_awaits formed canonical
        (((path.validAfter formed canonical).looks core symbol).1 looks)

theorem isNonterminal_eq_false (terminal : g.isTerminal symbol = true) :
    g.isNonterminal symbol = false := by
  unfold Grammar.isTerminal at terminal
  rw [Bool.and_eq_true, Bool.not_eq_true'] at terminal
  exact terminal.1

/-- What is said for terminals are actions, and nothing else is an action: lookaheads are
terminals. -/
theorem isAction_eq_of_prescribes (formed : g.WellFormed) (built : generate g limit = .ok automaton)
    (prescribes : automaton.Prescribes g state symbol entry) :
    entry.isAction = g.isTerminal symbol := by
  cases prescribes with
  | shift _ _ terminal _ => exact terminal.symm
  | accept =>
      exact ((Grammar.isTerminal_iff formed).2 (Grammar.mem_terminals.2 (.inl rfl))).symm
  | @reduce core _ finished differs looks =>
      have canonical := canonical_of_generate built
      obtain ⟨_, _, path⟩ :=
        exists_path_of_generate built (lt_size_of_prescribes (.reduce finished differs looks))
      have awaits := ((path.validAfter formed canonical).looks core symbol).1 looks
      exact ((Grammar.isTerminal_iff formed).2 (awaits.mem_terminals formed)).symm
  | goto nonterminal _ =>
      cases isTerminal : g.isTerminal symbol with
      | false => rfl
      | true => cases nonterminal.symm.trans (isNonterminal_eq_false isTerminal)

/-- What is said for a nonterminal is one goto along its edge. -/
theorem goto_of_prescribes (prescribes : automaton.Prescribes g state symbol entry)
    (noAction : entry.isAction = false) :
    ∃ target, entry = .goto target ∧ g.isNonterminal symbol = true ∧
      automaton.Edge state symbol target := by
  cases prescribes with
  | goto nonterminal edge => exact ⟨_, rfl, nonterminal, edge⟩
  | shift => cases noAction
  | reduce => cases noAction
  | accept => cases noAction

theorem isCollection_of_built (formed : g.WellFormed) (built : generate g limit = .ok automaton) :
    automaton.IsCollection g :=
  (canonical_of_generate built).isCollection formed fun _ bound =>
    exists_path_of_generate built bound

theorem exists_get?_of_mem {table : Table} (distinct : table.RowsDistinct) {row : Row}
    (isRow : row ∈ table.rows) {cell : Symbol × Entry} (inside : cell ∈ row) :
    ∃ state, table.get? state cell.1 = some cell.2 := by
  obtain ⟨state, found⟩ := List.mem_iff_getElem?.1 isRow
  exact ⟨state, get?_eq_some.2 ⟨row, found, (lookup_eq_some_iff_mem (distinct row isRow)).2 inside⟩⟩

/-- A row has a cell for the end of the input and for labels of edges at most. -/
theorem length_row_le (formed : g.WellFormed) (built : generate g limit = .ok automaton)
    {symbols : SymbolTable} {row : Row} (isRow : row ∈ (ofAutomaton g symbols automaton).rows) :
    row.length ≤ automaton.size + 1 := by
  have distinct : (ofAutomaton g symbols automaton).RowsDistinct := rowsDistinct_ofAutomaton
  obtain ⟨labels, short, all⟩ := Automaton.exists_labels formed built automaton.size
  have within : row.map Prod.fst ⊆ Symbol.endOfInput :: labels := by
    intro symbol isKey
    obtain ⟨cell, inside, rfl⟩ := List.mem_map.1 isKey
    obtain ⟨state, found⟩ := exists_get?_of_mem distinct isRow inside
    have prescribes := prescribes_of_get? (canonical_of_generate built) found
    rcases label_of_prescribes formed built prescribes with isEnd | ⟨source, target, edge⟩
    · rw [isEnd]
      exact List.mem_cons_self
    · have bound := ((isCollection_of_built formed built).closes source cell.1 target edge).1
      exact List.mem_cons_of_mem _ (all source cell.1 target bound edge)
  have length := (List.subperm_of_subset (distinct row isRow) within).length_le
  rw [List.length_map, List.length_cons] at length
  omega

/-- The number of cells in a row is a machine word, as the number of states is one. -/
theorem length_row_lt (formed : g.WellFormed) (built : generate g limit = .ok automaton)
    (small : automaton.size < Text.stateBound) (symbols : SymbolTable) :
    ∀ row ∈ (ofAutomaton g symbols automaton).rows, row.length < Text.countBound := by
  intro row isRow
  have short := length_row_le formed built isRow
  have bounds : Text.stateBound < Text.countBound := by decide
  omega

theorem target_lt_of_prescribes (formed : g.WellFormed) (built : generate g limit = .ok automaton)
    (prescribes : automaton.Prescribes g state symbol entry) {next : Nat}
    (leads : entry.target? = some next) : next < automaton.size := by
  have closes := (isCollection_of_built formed built).closes
  cases prescribes with
  | shift _ _ _ edge =>
      cases leads
      exact (closes _ _ _ edge).1
  | goto _ edge =>
      cases leads
      exact (closes _ _ _ edge).1
  | reduce => cases leads
  | accept => cases leads

theorem exists_rule_of_prescribes {id : Nat}
    (prescribes : automaton.Prescribes g state symbol (.reduce id)) (formed : g.WellFormed)
    (built : generate g limit = .ok automaton) : ∃ rule, g.rule? id = some rule := by
  have bound := lt_size_of_prescribes prescribes
  have canonical := canonical_of_generate built
  obtain ⟨_, _, path⟩ := exists_path_of_generate built bound
  cases prescribes with
  | @reduce core _ finished differs looks =>
      obtain ⟨rule, found, _⟩ :=
        (((path.validAfter formed canonical).looks core symbol).1 looks).stands.began
      exact ⟨rule, found⟩

end ParserGenerator.Table
