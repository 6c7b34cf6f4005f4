import ParserGenerator.Proofs.Build.Named
import ParserGenerator.Proofs.Table.RoundTrip

/-!
# Names that are taken for flags

In the text of a table, the flags of a rule stand in front of its left-hand side, and a left-hand
side that is spelled like a flag is read as one more flag. What is left of the rule has no left-hand
side in front of the sign, so that the text of a table with such a reduction cannot be read.

Results: `Table.Legible.flagFree_of_parse`.
-/

namespace ParserGenerator.Table

/-! ## Definitions -/

/-- The left-hand side of the rule is not spelled like a flag. -/
def RuleFlagFree (symbols : SymbolTable) (rule : Rule) : Prop :=
  symbols.display rule.lhs ≠ chainFlag ∧ symbols.display rule.lhs ≠ unwrapFlag

/-- A reduction is by a rule whose left-hand side is not spelled like a flag. -/
def EntryFlagFree (table : Table) : Entry → Prop
  | .reduce id => ∀ rule ∈ table.rule? id, RuleFlagFree table.symbols rule
  | _ => True

/-- All reductions are by rules whose left-hand sides are not spelled like flags. -/
def FlagFree (table : Table) : Prop :=
  ∀ row ∈ table.rows, ∀ cell ∈ row, table.EntryFlagFree cell.2

instance (symbols : SymbolTable) (rule : Rule) : Decidable (RuleFlagFree symbols rule) :=
  inferInstanceAs (Decidable (_ ∧ _))

instance (table : Table) : (entry : Entry) → Decidable (table.EntryFlagFree entry)
  | .shift _ => .isTrue trivial
  | .goto _ => .isTrue trivial
  | .accept => .isTrue trivial
  | .reduce id =>
      inferInstanceAs (Decidable (∀ rule ∈ table.rule? id, RuleFlagFree table.symbols rule))

instance (table : Table) : Decidable table.FlagFree :=
  inferInstanceAs (Decidable (∀ row ∈ table.rows, ∀ cell ∈ row, table.EntryFlagFree cell.2))

/-! ## Rules -/

variable {table acc after : Table} {names later : SymbolTable}

/-- The flags and a left-hand side like a flag are all read, and the sign is left. -/
theorem readFlags_flagged (rule : Rule) {lhs : String}
    (isFlag : ¬ (lhs ≠ chainFlag ∧ lhs ≠ unwrapFlag)) (rest : List (List Char)) :
    ∃ chained unwrapsSingle,
      readFlags false false
          ((flagWords rule).map String.toList ++ lhs.toList :: [':', '='] :: rest) =
        (chained, unwrapsSingle, [':', '='] :: rest) := by
  have flag : lhs = chainFlag ∨ lhs = unwrapFlag := by
    by_contra neither
    exact isFlag (not_or.1 neither)
  have signChain : ¬ [':', '='] = chainFlag.toList := by decide
  have signUnwrap : ¬ [':', '='] = unwrapFlag.toList := by decide
  have differ : ¬ unwrapFlag.toList = chainFlag.toList := by decide
  rw [flagWords]
  rcases flag with rfl | rfl <;> cases rule.chained <;> cases rule.unwrapsSingle <;>
    simp [readFlags, signChain, signUnwrap, differ]

/-- A rule whose left-hand side is spelled like a flag is not read. -/
theorem flagFree_of_readRule {symbols : SymbolTable} {rule found : Rule} {line : Nat}
    (read : (readRule line (optionsWord rule).toList
      ((ruleWords symbols rule).map String.toList)).outcome names = (.ok found, later)) :
    RuleFlagFree symbols rule := by
  by_contra flagged
  have sign : (":=" : String).toList = [':', '='] := rfl
  have length :
      rule.options.length = ((rule.rhs.map symbols.display).map String.toList).length := by
    rw [List.length_map, List.length_map, rule.options_length]
  generalize behind : (rule.rhs.map symbols.display).map String.toList = rest at length
  obtain ⟨chained, unwrapsSingle, flags⟩ := readFlags_flagged rule flagged rest
  rw [readRule, inBrackets?_optionsWord] at read
  dsimp only at read
  rw [readOptions_written] at read
  dsimp only at read
  rw [ruleWords, List.map_append, List.map_cons, List.map_cons, sign, behind, flags] at read
  dsimp only at read
  split at read
  · rename_i lhs rhs shape
    -- Only a right-hand side that begins with the sign gets here, and it has too many options.
    have tooMany : ¬ rule.options.length = rhs.length := by
      rw [length, (List.cons.inj shape).2, List.length_cons]
      omega
    obtain ⟨_, _, _, readOn⟩ := Naming.outcome_bind_eq_ok.1 read
    rw [if_neg tooMany] at readOn
    cases readOn
  · cases read

theorem flagFree_of_readEntry {entry : Entry} {line : Line} {action : String}
    {rest : List String} (words : table.entryWords entry = action :: rest)
    {found : Entry × Table}
    (read : (readEntry acc line action (rest.map String.toList)).outcome names =
      (.ok found, later)) : table.EntryFlagFree entry := by
  cases entry with
  | shift => trivial
  | goto => trivial
  | accept => trivial
  | reduce id =>
      intro rule isRule
      rw [entryWords, Option.mem_def.1 isRule] at words
      cases words
      obtain ⟨_, _, readRule, _⟩ := Naming.outcome_bind_eq_ok.1 read
      exact flagFree_of_readRule readRule

/-! ## Cells and rows -/

theorem flagFree_of_readCell {cell : Symbol × Entry} (legible : table.EntryLegible cell.2)
    {line : Line} (holds : line.Holds (table.cellWords cell)) {size state : Nat}
    (read : (acc.readCell size state line).outcome names = (.ok after, later)) :
    table.EntryFlagFree cell.2 := by
  obtain ⟨action, rest, words⟩ := List.exists_cons_of_ne_nil (entryWords_ne_nil legible)
  rw [readCell, holds, cellWords, words, List.map_cons, List.map_cons] at read
  obtain ⟨_, _, _, readOn⟩ := Naming.outcome_bind_eq_ok.1 read
  obtain ⟨_, _, readEntry, _⟩ := Naming.outcome_bind_eq_ok.1 readOn
  rw [String.ofList_toList] at readEntry
  exact flagFree_of_readEntry words readEntry

/-- Cells that are read have no flagged rules, and the lines behind them are left. -/
theorem flagFree_of_readCells {past size state : Nat} {cells : Row}
    (legible : ∀ cell ∈ cells, table.EntryLegible cell.2) {lines left : List Line}
    {written : List (List String)}
    (holds : List.Forall₂ Line.Holds lines (cells.map table.cellWords ++ written))
    (read : (acc.readCells past size state cells.length lines).outcome names =
      (.ok (after, left), later)) :
    (∀ cell ∈ cells, table.EntryFlagFree cell.2) ∧ List.Forall₂ Line.Holds left written := by
  induction cells generalizing acc names lines with
  | nil =>
      cases read
      exact ⟨fun cell member => absurd member List.not_mem_nil, holds⟩
  | cons cell rest ih =>
      obtain ⟨line, others, isCell, areOthers, rfl⟩ := List.forall₂_cons_right_iff.1 holds
      obtain ⟨isLegible, others_legible⟩ := List.forall_mem_cons.1 legible
      obtain ⟨_, _, readCell, readOn⟩ := Naming.outcome_bind_eq_ok.1 read
      obtain ⟨others_free, areLeft⟩ := ih others_legible areOthers readOn
      exact ⟨List.forall_mem_cons.2 ⟨flagFree_of_readCell isLegible isCell readCell, others_free⟩,
        areLeft⟩

/-- Rows that are read have no flagged rules. -/
theorem flagFree_of_readRows {past size : Nat} {rows : List Row}
    (counted : ∀ row ∈ rows, row.length < Text.countBound)
    (legible : ∀ row ∈ rows, ∀ cell ∈ row, table.EntryLegible cell.2) {lines : List Line}
    {left : List Line} (holds : List.Forall₂ Line.Holds lines (rows.flatMap table.rowLines))
    (read : (acc.readRows past size rows.length lines).outcome names =
      (.ok (after, left), later)) :
    ∀ row ∈ rows, ∀ cell ∈ row, table.EntryFlagFree cell.2 := by
  induction rows generalizing acc names lines with
  | nil => exact fun row member => absurd member List.not_mem_nil
  | cons row rest ih =>
      obtain ⟨isCounted, others_counted⟩ := List.forall_mem_cons.1 counted
      obtain ⟨isLegible, others_legible⟩ := List.forall_mem_cons.1 legible
      obtain ⟨line, others, isHeader, areOthers, rfl⟩ := List.forall₂_cons_right_iff.1 holds
      rw [List.length_cons, readRows, readHeader_written isCounted isHeader] at read
      obtain ⟨_, _, header, readOn⟩ := Naming.outcome_bind_eq_ok.1 read
      cases header
      obtain ⟨⟨middle, behind⟩, _, readCells, readRows⟩ := Naming.outcome_bind_eq_ok.1 readOn
      obtain ⟨isFree, areBehind⟩ := flagFree_of_readCells isLegible areOthers readCells
      exact List.forall_mem_cons.2 ⟨isFree, ih others_counted others_legible areBehind readRows⟩

/-- The text of a table is read only if no reduction is by a rule whose left-hand side is spelled
like a flag. -/
theorem Legible.flagFree_of_parse (legible : table.Legible) (small : table.size < Text.stateBound)
    (counted : ∀ row ∈ table.rows, row.length < Text.countBound) {again : Table}
    (read : (parse (String.join (table.tableLines.map lineText))).outcome names =
      (.ok again, later)) : table.FlagFree := by
  obtain ⟨line, others, ⟨isSize, _⟩, areOthers, contents⟩ :=
    List.forall₂_cons_right_iff.1 (contentLines_written legible.areWords)
  rw [tableLines, parse] at read
  dsimp only at read
  rw [contents] at read
  dsimp only at read
  rw [isSize, List.map_singleton, Text.spaced, List.intercalate_singleton,
    readNumber_toString small] at read
  obtain ⟨_, _, size, readOn⟩ := Naming.outcome_bind_eq_ok.1 read
  cases size
  obtain ⟨⟨_, _⟩, _, readRows, _⟩ := Naming.outcome_bind_eq_ok.1 readOn
  exact flagFree_of_readRows counted legible.entry (areOthers.imp fun _ _ both => both.2) readRows

end ParserGenerator.Table
