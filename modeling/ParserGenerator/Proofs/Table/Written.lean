import ParserGenerator.Proofs.Naming
import ParserGenerator.Proofs.Table.Writes
import ParserGenerator.Proofs.Text.Words
import ParserGenerator.Table.Text

/-!
# The words of a table's text

The text of a table is put together from lines of words: the number of states, and for each row a
line with the number of its cells and a line for each cell. When the names in a table can be read as
words, each of these words can be.

Results: `Table.Legible.text?_eq`, that the text is made of the lines, and
`Table.Legible.areWords`, that the words on them are words.
-/

namespace ParserGenerator

/-! ## Definitions -/

/-- The symbol has a name that can be read as a word. -/
def SymbolTable.NamesWord (symbols : SymbolTable) (symbol : Symbol) : Prop :=
  ∃ name ∈ symbols.name? symbol, Text.IsWord name.toList

theorem SymbolTable.NamesWord.isWord_display {symbols : SymbolTable} {symbol : Symbol}
    (named : symbols.NamesWord symbol) : Text.IsWord (symbols.display symbol).toList := by
  obtain ⟨name, found, isWord⟩ := named
  rwa [SymbolTable.display_of_name? found]

theorem SymbolTable.NamesWord.hasName {symbols : SymbolTable} {symbol : Symbol}
    (named : symbols.NamesWord symbol) : symbols.HasName symbol := by
  obtain ⟨name, found, _⟩ := named
  exact ⟨name, found⟩

theorem SymbolTable.NamesWord.mono {names later : SymbolTable} {symbol : Symbol}
    (named : names.NamesWord symbol) (grown : later.Extends names) : later.NamesWord symbol := by
  obtain ⟨name, found, isWord⟩ := named
  exact ⟨name, grown.name? found, isWord⟩

theorem SymbolTable.namesWord_of_word {names : SymbolTable} {symbol : Symbol}
    {word : List Char} (named : names.name? symbol = some (String.ofList word))
    (isWord : Text.IsWord word) : names.NamesWord symbol :=
  ⟨_, named, String.toList_ofList ▸ isWord⟩

namespace Table

/-- The names of the rule can be read as words, and the left-hand side is not taken for a flag. -/
structure RuleWritable (symbols : SymbolTable) (rule : Rule) : Prop where
  lhs : symbols.NamesWord rule.lhs
  rhs : ∀ symbol ∈ rule.rhs, symbols.NamesWord symbol
  not_flag : symbols.display rule.lhs ≠ chainFlag ∧ symbols.display rule.lhs ≠ unwrapFlag

/-- The entry leads to a state of the table or reduces by a rule of the table. -/
def EntryWritable (table : Table) : Entry → Prop
  | .shift next => next < table.size
  | .goto next => next < table.size
  | .accept => True
  | .reduce id => ∃ rule ∈ table.rule? id, RuleWritable table.symbols rule

/-- What a table has to be like for its text to be read back. That rows have one cell for a symbol,
and no more cells than a machine word counts, holds of every row that is kept as a map. -/
structure Writable (table : Table) : Prop where
  size_lt : table.size < Text.stateBound
  count_lt : ∀ row ∈ table.rows, row.length < Text.countBound
  distinct : table.RowsDistinct
  symbol : ∀ row ∈ table.rows, ∀ cell ∈ row, table.symbols.NamesWord cell.1
  entry : ∀ row ∈ table.rows, ∀ cell ∈ row, table.EntryWritable cell.2

/-- The names of the rule can be read as words. -/
structure RuleLegible (symbols : SymbolTable) (rule : Rule) : Prop where
  lhs : symbols.NamesWord rule.lhs
  rhs : ∀ symbol ∈ rule.rhs, symbols.NamesWord symbol

/-- A reduction is by a rule of the table with names that can be read as words. -/
def EntryLegible (table : Table) : Entry → Prop
  | .reduce id => ∃ rule ∈ table.rule? id, RuleLegible table.symbols rule
  | _ => True

/-- The text of the table consists of lines of words. -/
structure Legible (table : Table) : Prop where
  symbol : ∀ row ∈ table.rows, ∀ cell ∈ row, table.symbols.NamesWord cell.1
  entry : ∀ row ∈ table.rows, ∀ cell ∈ row, table.EntryLegible cell.2

instance (symbols : SymbolTable) (symbol : Symbol) : Decidable (symbols.NamesWord symbol) :=
  inferInstanceAs (Decidable (∃ name ∈ symbols.name? symbol, Text.IsWord name.toList))

instance (symbols : SymbolTable) (rule : Rule) : Decidable (RuleWritable symbols rule) :=
  decidable_of_iff (symbols.NamesWord rule.lhs ∧ (∀ symbol ∈ rule.rhs, symbols.NamesWord symbol) ∧
      symbols.display rule.lhs ≠ chainFlag ∧ symbols.display rule.lhs ≠ unwrapFlag)
    ⟨fun ⟨lhs, rhs, notFlag⟩ => ⟨lhs, rhs, notFlag⟩,
      fun writable => ⟨writable.lhs, writable.rhs, writable.not_flag⟩⟩

instance (table : Table) : (entry : Entry) → Decidable (table.EntryWritable entry)
  | .shift next => inferInstanceAs (Decidable (next < table.size))
  | .goto next => inferInstanceAs (Decidable (next < table.size))
  | .accept => .isTrue trivial
  | .reduce id =>
      inferInstanceAs (Decidable (∃ rule ∈ table.rule? id, RuleWritable table.symbols rule))

/-- The options of a rule between brackets. -/
def optionsWord (rule : Rule) : String :=
  "[" ++ ",".intercalate (rule.options.map ChildOption.name) ++ "]"

/-- The flags of a rule. -/
def flagWords (rule : Rule) : List String :=
  (if rule.chained then [chainFlag] else []) ++ if rule.unwrapsSingle then [unwrapFlag] else []

/-- The words of a reduction behind the options. -/
def ruleWords (symbols : SymbolTable) (rule : Rule) : List String :=
  flagWords rule ++ symbols.display rule.lhs :: ":=" :: rule.rhs.map symbols.display

/-- The words behind the symbol of a cell. -/
def entryWords (table : Table) : Entry → List String
  | .shift next => ["shift", toString next]
  | .goto next => ["goto", toString next]
  | .accept => ["accept"]
  | .reduce id =>
      match table.rule? id with
      | some rule => "reduce" :: optionsWord rule :: ruleWords table.symbols rule
      | none => []

/-- The words of a cell. -/
def cellWords (table : Table) (cell : Symbol × Entry) : List String :=
  table.symbols.display cell.1 :: table.entryWords cell.2

/-- The words on the lines of a row. -/
def rowLines (table : Table) (row : Row) : List (List String) :=
  ["state", toString row.length] :: row.map table.cellWords

/-- The words on the lines of the table. -/
def tableLines (table : Table) : List (List String) :=
  [toString table.size] :: table.rows.flatMap table.rowLines

/-- The line of some words. -/
def lineText (words : List String) : String := " ".intercalate words ++ "\n"

variable {table : Table}

theorem RuleWritable.mono {names later : SymbolTable} {rule : Rule}
    (writable : RuleWritable names rule) (grown : later.Extends names) :
    RuleWritable later rule where
  lhs := writable.lhs.mono grown
  rhs symbol member := (writable.rhs symbol member).mono grown
  not_flag := by
    obtain ⟨name, named, _⟩ := writable.lhs
    rw [SymbolTable.display_of_name? (grown.name? named), ← SymbolTable.display_of_name? named]
    exact writable.not_flag

theorem EntryWritable.legible {entry : Entry} (writable : table.EntryWritable entry) :
    table.EntryLegible entry := by
  cases entry with
  | shift next => trivial
  | goto next => trivial
  | accept => trivial
  | reduce id =>
      obtain ⟨rule, found, ruleWritable⟩ := writable
      exact ⟨rule, found, ruleWritable.lhs, ruleWritable.rhs⟩

theorem Writable.legible (writable : table.Writable) : table.Legible where
  symbol := writable.symbol
  entry row isRow cell inside := (writable.entry row isRow cell inside).legible

/-! ## The text is made of the lines -/

theorem intercalate_cons (word : String) (rest : List String) :
    " ".intercalate (word :: rest) = word ++ String.join (rest.map (" " ++ ·)) := by
  induction rest generalizing word with
  | nil => rw [String.intercalate_singleton, List.map_nil, String.join_nil, String.append_empty]
  | cons next rest ih =>
      rw [String.intercalate_cons_cons, ih, List.map_cons, String.join_cons, String.append_assoc,
        String.append_assoc]

theorem join_flag (isSet : Bool) (flag : String) :
    String.join ((if isSet then [flag] else []).map (" " ++ ·)) =
      if isSet then " " ++ flag else "" := by
  cases isSet with
  | false => rfl
  | true =>
      rw [if_pos rfl, if_pos rfl, List.map_cons, List.map_nil, String.join_cons, String.join_nil,
        String.append_empty]

theorem ruleText_eq (symbols : SymbolTable) (rule : Rule) :
    ruleText symbols rule = " ".intercalate (optionsWord rule :: ruleWords symbols rule) := by
  have sign : " " ++ ":=" = " :=" := rfl
  rw [intercalate_cons, ruleWords, flagWords, List.map_append, String.join_append, List.map_append,
    String.join_append, join_flag, join_flag, List.map_cons, List.map_cons, String.join_cons,
    String.join_cons, List.map_map, sign, ruleText, Rule.display, optionsWord]
  simp only [String.append_assoc]
  rfl

theorem entryText?_eq_some {entry : Entry} (legible : table.EntryLegible entry) :
    table.entryText? entry = some (" ".intercalate (table.entryWords entry)) := by
  have spaced (action next : String) : " ".intercalate [action, next] = action ++ " " ++ next := by
    rw [String.intercalate_cons_cons, String.intercalate_singleton]
  cases entry with
  | shift next => rw [entryText?, entryWords, spaced]; rfl
  | goto next => rw [entryText?, entryWords, spaced]; rfl
  | accept => rw [entryText?, entryWords, String.intercalate_singleton]
  | reduce id =>
      obtain ⟨rule, found, _⟩ := legible
      rw [entryText?, entryWords, Option.mem_def.1 found, Option.map_some, ruleText_eq,
        String.intercalate_cons_cons]
      rfl

theorem entryWords_ne_nil {entry : Entry} (legible : table.EntryLegible entry) :
    table.entryWords entry ≠ [] := by
  cases entry with
  | shift next => exact List.cons_ne_nil _ _
  | goto next => exact List.cons_ne_nil _ _
  | accept => exact List.cons_ne_nil _ _
  | reduce id =>
      obtain ⟨rule, found, _⟩ := legible
      rw [entryWords, Option.mem_def.1 found]
      exact List.cons_ne_nil _ _

theorem cellText?_eq_some {cell : Symbol × Entry} (legible : table.EntryLegible cell.2) :
    table.cellText? cell = some (lineText (table.cellWords cell)) := by
  rw [cellText?, entryText?_eq_some legible, Option.map_some, lineText, cellWords,
    String.intercalate_cons_of_ne_nil (entryWords_ne_nil legible)]

theorem mapM_eq_some {α β : Type} {f : α → Option β} {g : α → β} {list : List α}
    (agree : ∀ a ∈ list, f a = some (g a)) : list.mapM f = some (list.map g) := by
  induction list with
  | nil => rfl
  | cons first rest ih =>
      rw [List.mapM_cons, agree first List.mem_cons_self,
        ih fun a member => agree a (List.mem_cons_of_mem _ member)]
      rfl

theorem rowText?_eq_some {row : Row} (legible : ∀ cell ∈ row, table.EntryLegible cell.2) :
    table.rowText? row = some (String.join ((table.rowLines row).map lineText)) := by
  rw [rowText?, mapM_eq_some fun cell member => cellText?_eq_some (legible cell member), rowLines,
    List.map_cons, String.join_cons, List.map_map, lineText, String.intercalate_cons_cons,
    String.intercalate_singleton]
  rfl

/-- The text of a table is made of its lines. -/
theorem Legible.text?_eq (legible : table.Legible) :
    table.text? = some (String.join (table.tableLines.map lineText)) := by
  have rows : String.join (table.rows.map fun row =>
      String.join ((table.rowLines row).map lineText)) =
      String.join ((table.rows.flatMap table.rowLines).map lineText) := by
    induction table.rows with
    | nil => rfl
    | cons row rest ih =>
        rw [List.map_cons, String.join_cons, ih, List.flatMap_cons, List.map_append,
          String.join_append]
  rw [text?, mapM_eq_some fun row member => rowText?_eq_some (legible.entry row member),
    tableLines, List.map_cons, String.join_cons, lineText, String.intercalate_singleton, ← rows]
  rfl

/-! ## The words are words -/

theorem isBlank_of_isDigit {c : Char} (digit : c.isDigit = true) : Text.isBlank c = false := by
  obtain ⟨above, below⟩ := Char.isDigit_iff_toNat.1 digit
  have zero : '0'.toNat = 48 := rfl
  have nine : '9'.toNat = 57 := rfl
  simp only [Text.isBlank, Bool.or_eq_false_iff, Bool.and_eq_false_iff, decide_eq_false_iff_not,
    beq_eq_false_iff_ne]
  omega

theorem isWord_toString (n : Nat) : Text.IsWord (toString n).toList := by
  have digits : (toString n).toList = Nat.toDigits 10 n := Nat.toList_repr
  rw [digits]
  exact ⟨Nat.toDigits_ne_nil, fun c member =>
    isBlank_of_isDigit (Nat.isDigit_of_mem_toDigits (by decide) (by decide) member)⟩

theorem isWord_optionsWord (rule : Rule) : Text.IsWord (optionsWord rule).toList := by
  have names (option : ChildOption) : Text.IsWord option.name.toList := by
    cases option <;> decide
  have comma : Text.IsWord (",".toList) := by decide
  have inside : ∀ c ∈ (",".intercalate (rule.options.map ChildOption.name)).toList,
      Text.isBlank c = false := by
    rw [String.toList_intercalate, List.map_map]
    refine Text.visible_intercalate comma.2 fun piece member => ?_
    obtain ⟨option, _, rfl⟩ := List.mem_map.1 member
    exact (names option).2
  have parts : (optionsWord rule).toList =
      '[' :: ((",".intercalate (rule.options.map ChildOption.name)).toList ++ [']']) := by
    rw [optionsWord, String.toList_append, String.toList_append]
    rfl
  rw [parts]
  refine ⟨List.cons_ne_nil _ _, fun c member => ?_⟩
  rcases List.mem_cons.1 member with rfl | later
  · rfl
  · rcases List.mem_append.1 later with isInside | isLast
    · exact inside c isInside
    · rw [List.mem_singleton.1 isLast]
      rfl

theorem isWord_flagWords {rule : Rule} {word : String} (member : word ∈ flagWords rule) :
    Text.IsWord word.toList := by
  rcases List.mem_append.1 member with isChained | isUnwrap
  · split at isChained
    · rw [List.mem_singleton.1 isChained]
      decide
    · cases isChained
  · split at isUnwrap
    · rw [List.mem_singleton.1 isUnwrap]
      decide
    · cases isUnwrap

theorem RuleLegible.isWord {symbols : SymbolTable} {rule : Rule}
    (legible : RuleLegible symbols rule) {word : String}
    (member : word ∈ ruleWords symbols rule) : Text.IsWord word.toList := by
  rcases List.mem_append.1 member with isFlag | isPart
  · exact isWord_flagWords isFlag
  rcases List.mem_cons.1 isPart with rfl | isBehind
  · exact legible.lhs.isWord_display
  rcases List.mem_cons.1 isBehind with rfl | isRhs
  · decide
  · obtain ⟨symbol, inRhs, rfl⟩ := List.mem_map.1 isRhs
    exact (legible.rhs symbol inRhs).isWord_display

theorem EntryLegible.isWord {entry : Entry} (legible : table.EntryLegible entry) {word : String}
    (member : word ∈ table.entryWords entry) : Text.IsWord word.toList := by
  have numbered {action : String} (isAction : Text.IsWord action.toList) {next : Nat}
      (inside : word ∈ [action, toString next]) : Text.IsWord word.toList := by
    rcases List.mem_cons.1 inside with rfl | isNumber
    · exact isAction
    · rw [List.mem_singleton.1 isNumber]
      exact isWord_toString next
  cases entry with
  | shift next => exact numbered (by decide) member
  | goto next => exact numbered (by decide) member
  | accept =>
      rw [List.mem_singleton.1 member]
      decide
  | reduce id =>
      obtain ⟨rule, found, ruleLegible⟩ := legible
      rw [entryWords, Option.mem_def.1 found] at member
      rcases List.mem_cons.1 member with rfl | isBehind
      · decide
      rcases List.mem_cons.1 isBehind with rfl | isRule
      · exact isWord_optionsWord rule
      · exact ruleLegible.isWord isRule

/-- The line is not empty and has words alone. -/
def AreWords (words : List String) : Prop := words ≠ [] ∧ ∀ word ∈ words, Text.IsWord word.toList

theorem areWords_cellWords {cell : Symbol × Entry} (named : table.symbols.NamesWord cell.1)
    (legible : table.EntryLegible cell.2) : AreWords (table.cellWords cell) := by
  refine ⟨List.cons_ne_nil _ _, fun word member => ?_⟩
  rcases List.mem_cons.1 member with rfl | isBehind
  · exact named.isWord_display
  · exact legible.isWord isBehind

/-- The lines of a table have words alone. -/
theorem Legible.areWords (legible : table.Legible) :
    ∀ words ∈ table.tableLines, AreWords words := by
  intro words member
  rcases List.mem_cons.1 member with rfl | isLine
  · refine ⟨List.cons_ne_nil _ _, fun word inside => ?_⟩
    rw [List.mem_singleton.1 inside]
    exact isWord_toString table.size
  obtain ⟨row, isRow, inRow⟩ := List.mem_flatMap.1 isLine
  rcases List.mem_cons.1 inRow with rfl | isCell
  · refine ⟨List.cons_ne_nil _ _, fun word inside => ?_⟩
    rcases List.mem_cons.1 inside with rfl | isCount
    · decide
    · rw [List.mem_singleton.1 isCount]
      exact isWord_toString row.length
  · obtain ⟨cell, inside, rfl⟩ := List.mem_map.1 isCell
    exact areWords_cellWords (legible.symbol row isRow cell inside)
      (legible.entry row isRow cell inside)

end Table

end ParserGenerator
