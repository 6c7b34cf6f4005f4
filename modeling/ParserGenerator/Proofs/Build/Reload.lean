import ParserGenerator.Proofs.Table.Contents
import ParserGenerator.Proofs.Table.Flags
import ParserGenerator.Proofs.Table.Generated

/-!
# Reloading tables

A table that is built from a grammar is written as a text of words: the readers of grammars let
words through as names and nothing else, and the symbols of cells are symbols of the grammar. The
states bound the cells of a row, and all entries lead to states. So nothing can keep the text from
being read back but a left-hand side that is spelled like a flag.

Results: `Table.reload_of_build`.
-/

namespace ParserGenerator

variable {names : SymbolTable} {g : Grammar}

/-! ## Names of the grammar -/

theorem namesWord_of_get? {name : String} {symbol : Symbol}
    (named : names.get? name = some symbol) (isWord : NameIsWord name) : names.NamesWord symbol :=
  ⟨name, SymbolTable.get?_eq_some_iff.1 named, isWord⟩

theorem namesWord_of_reserved {symbol : Symbol} (isReserved : symbol.isReserved = true) :
    names.NamesWord symbol := by
  have words : ∀ name ∈ Symbol.reservedNames, Text.IsWord name.toList := by decide
  have below : symbol.id < Symbol.reservedNames.length := of_decide_eq_true isReserved
  exact ⟨_, getElem?_of_isPrefix names.reserved (List.getElem?_eq_getElem below),
    words _ (List.getElem_mem below)⟩

theorem NamedRule.Means.legible {named : NamedRule} {rule : Rule} (means : named.Means names rule)
    (areWords : named.All NameIsWord) : Table.RuleLegible names rule where
  lhs := namesWord_of_get? means.lhs areWords.lhs
  rhs symbol member := by
    obtain ⟨name, inNames, isSymbol⟩ := exists_mem_of_forall₂ means.rhs.flip member
    exact namesWord_of_get? isSymbol (areWords.rhs name inNames)

/-- All rules of a grammar whose names are words are legible, the start rule included. -/
theorem NamedGrammar.Means.legible {named : NamedGrammar} (means : named.Means names g)
    (areWords : ∀ rule ∈ named.rules, rule.All NameIsWord) (formed : g.WellFormed) :
    ∀ rule ∈ g.rules, Table.RuleLegible names rule := by
  have user : ∀ rule ∈ g.userRules, Table.RuleLegible names rule := by
    intro rule member
    obtain ⟨namedRule, isNamed, isRule⟩ := exists_mem_of_forall₂ means.rules.flip member
    exact isRule.legible (areWords namedRule isNamed)
  intro rule member
  rcases Grammar.mem_rules.1 member with rfl | isUser
  · obtain ⟨defining, isUser, definesStart⟩ := formed.start_defined
    refine ⟨namesWord_of_reserved Grammar.isReserved_start, fun symbol inRhs => ?_⟩
    rw [List.mem_singleton.1 inRhs, ← definesStart]
    exact (user defining isUser).lhs
  · exact user rule isUser

/-! ## Tables -/

namespace Table

open Automaton (generate canonical_of_generate)

variable {automaton : Automaton} {limit : Option Nat} {state : Nat} {symbol : Symbol}
  {entry : Entry}

theorem namesWord_of_prescribes (formed : g.WellFormed) (built : generate g limit = .ok automaton)
    (legible : ∀ rule ∈ g.rules, RuleLegible names rule)
    (prescribes : automaton.Prescribes g state symbol entry) : names.NamesWord symbol := by
  rcases label_of_prescribes formed built prescribes with rfl | ⟨source, target, edge⟩
  · exact namesWord_of_reserved Grammar.isReserved_endOfInput
  · obtain ⟨core, _, next⟩ :=
      ((isCollection_of_built formed built).expects source symbol).1 ⟨target, edge⟩
    obtain ⟨rule, found, inRhs⟩ := ItemCore.nextSymbol_eq_some.1 next
    exact (legible rule (Grammar.mem_rules_of_rule? found)).rhs symbol (List.mem_of_getElem? inRhs)

/-- The text of the table of a grammar with words for names consists of lines of words. -/
theorem legible_ofAutomaton (formed : g.WellFormed) (built : generate g limit = .ok automaton)
    (legible : ∀ rule ∈ g.rules, RuleLegible names rule) :
    (ofAutomaton g names automaton).Legible := by
  have symbols : (ofAutomaton g names automaton).symbols = names := symbols_ofAutomaton
  have prescribed {row : Row} (isRow : row ∈ (ofAutomaton g names automaton).rows)
      {cell : Symbol × Entry} (inside : cell ∈ row) :
      ∃ state, automaton.Prescribes g state cell.1 cell.2 := by
    obtain ⟨state, found⟩ := exists_get?_of_mem rowsDistinct_ofAutomaton isRow inside
    exact ⟨state, prescribes_of_get? (canonical_of_generate built) found⟩
  refine ⟨fun row isRow cell inside => ?_, fun row isRow cell inside => ?_⟩
  · obtain ⟨state, prescribes⟩ := prescribed isRow inside
    rw [symbols]
    exact namesWord_of_prescribes formed built legible prescribes
  · obtain ⟨state, prescribes⟩ := prescribed isRow inside
    obtain ⟨symbol, entry⟩ := cell
    cases entry with
    | shift => trivial
    | goto => trivial
    | accept => trivial
    | reduce id =>
        obtain ⟨rule, found⟩ := exists_rule_of_prescribes prescribes formed built
        refine ⟨rule, (rule?_ofAutomaton id).trans found, ?_⟩
        rw [symbols]
        exact legible rule (Grammar.mem_rules_of_rule? found)

/-- Nothing but flags keeps the text from being read back. -/
theorem writable_ofAutomaton (formed : g.WellFormed) (built : generate g limit = .ok automaton)
    (legible : ∀ rule ∈ g.rules, RuleLegible names rule)
    (small : automaton.size < Text.stateBound)
    (free : (ofAutomaton g names automaton).FlagFree) :
    (ofAutomaton g names automaton).Writable := by
  have isLegible := legible_ofAutomaton formed built legible
  have size : (ofAutomaton g names automaton).size = automaton.size := size_ofAutomaton
  refine ⟨size ▸ small, length_row_lt formed built small names, rowsDistinct_ofAutomaton,
    isLegible.symbol, fun row isRow cell inside => ?_⟩
  have entryLegible := isLegible.entry row isRow cell inside
  have entryFree := free row isRow cell inside
  obtain ⟨state, found⟩ := exists_get?_of_mem rowsDistinct_ofAutomaton isRow inside
  have prescribes := prescribes_of_get? (canonical_of_generate built) found
  obtain ⟨symbol, entry⟩ := cell
  cases entry with
  | shift next =>
      have inside := target_lt_of_prescribes formed built prescribes rfl
      exact Nat.lt_of_lt_of_eq inside size.symm
  | goto next =>
      have inside := target_lt_of_prescribes formed built prescribes rfl
      exact Nat.lt_of_lt_of_eq inside size.symm
  | accept => trivial
  | reduce id =>
      obtain ⟨rule, isRule, named⟩ := entryLegible
      exact ⟨rule, isRule, named.lhs, named.rhs, entryFree rule isRule⟩

/-- A table that is built from a source is written as a text. If no reduction is by a rule whose
left-hand side is spelled like a flag, the text is read back to an equal table with the names that
the table was built with; otherwise it is refused, whatever names are known. -/
theorem reload_of_build {format : GrammarFormat} {source : String} {later : SymbolTable}
    {table : Table} (built : (build format limit source).outcome names = (.ok table, later))
    (small : table.size < Text.stateBound) :
    ∃ text, table.text? = some text ∧
      (table.FlagFree → ∃ again, (parse text).outcome later = (.ok again, later) ∧
        sameCells again table = true ∧ sameCells table again = true) ∧
      (¬ table.FlagFree → ∀ known, ∃ error, ((parse text).outcome known).1 = .error error) := by
  obtain ⟨g, read, made⟩ := outcome_build_eq_ok.1 built
  obtain ⟨named, areWords, makes⟩ := Grammar.exists_named_of_read read
  obtain ⟨_, _, readAgain, _, formed, means⟩ := makes names
  cases read.symm.trans readAgain
  obtain ⟨automaton, generated, rfl⟩ := exists_automaton_of_ofGrammar made
  rw [size_ofAutomaton] at small
  have rules := means.legible areWords formed
  have legible := legible_ofAutomaton formed generated rules
  refine ⟨_, legible.text?_eq, fun free => ?_, fun flagged known => ?_⟩
  · have writable := writable_ofAutomaton formed generated rules small free
    obtain ⟨again, last, readBack, grows, isLast, alike, _⟩ := writable.yields_parse later
    have unchanged : last = later := grows.unchanged (symbols_ofAutomaton ▸ .refl later)
    have known : again.symbols.Extends (ofAutomaton g later automaton).symbols := by
      rw [isLast, unchanged, symbols_ofAutomaton]
      exact .refl later
    obtain ⟨same, same'⟩ := alike.sameCells known rowsDistinct_ofAutomaton
    rw [unchanged] at readBack
    exact ⟨again, readBack, same, same'⟩
  · cases outcome : (parse _).outcome known with
    | mk result last =>
        cases result with
        | error error => exact ⟨error, rfl⟩
        | ok again =>
            have counted := length_row_lt formed generated small later
            have isSmall : (ofAutomaton g later automaton).size < Text.stateBound :=
              size_ofAutomaton ▸ small
            exact absurd (legible.flagFree_of_parse isSmall counted outcome) flagged

/-- A grammar file for lists, where no name is spelled like a flag. -/
def listSource : String := "__CHAIN__ list := list item\nlist := item\n"

theorem reload_of_build_list :
    ∃ table later, (build .simple none listSource).outcome SymbolTable.initial =
        (.ok table, later) ∧ table.size < Text.stateBound ∧ table.FlagFree ∧
      ∃ text, table.text? = some text ∧
        (table.FlagFree → ∃ again, (parse text).outcome later = (.ok again, later) ∧
          sameCells again table = true ∧ sameCells table again = true) ∧
        (¬ table.FlagFree → ∀ known, ∃ error, ((parse text).outcome known).1 = .error error) := by
  have made : ∃ table, ((build .simple none listSource).outcome SymbolTable.initial).1 = .ok table ∧
      table.size < Text.stateBound ∧ table.FlagFree := by
    decide +kernel
  obtain ⟨table, isTable, small, free⟩ := made
  have built := Naming.outcome_eq_of_fst isTable
  exact ⟨table, _, built, small, free, reload_of_build built small⟩

/-- A grammar file whose only rule has a left-hand side spelled like a flag. -/
def flagSource : String := "__UNWRAP__ := x\n"

/-- The table of this grammar file is not read back. -/
theorem not_reload_flag :
    ∃ table later text, (build .simple none flagSource).outcome SymbolTable.initial =
        (.ok table, later) ∧ table.size < Text.stateBound ∧ table.text? = some text ∧
      ((parse text).outcome later).1 = .error ⟨8, .invalidRule ":= x"⟩ := by
  have made : ∃ table, ((build .simple none flagSource).outcome SymbolTable.initial).1 = .ok table ∧
      table.size < Text.stateBound ∧ ∃ text ∈ table.text?,
        ((parse text).outcome ((build .simple none flagSource).outcome SymbolTable.initial).2).1.map
          (fun _ => ()) = .error ⟨8, .invalidRule ":= x"⟩ := by
    decide +kernel
  obtain ⟨table, isTable, small, text, isText, refused⟩ := made
  refine ⟨table, _, text, Naming.outcome_eq_of_fst isTable, small, isText, ?_⟩
  generalize ((parse text).outcome _).1 = result at refused ⊢
  cases result with
  | ok => cases refused
  | error error => rw [Except.error.inj refused]

end Table

end ParserGenerator
