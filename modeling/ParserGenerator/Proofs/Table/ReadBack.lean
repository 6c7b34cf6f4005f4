import ParserGenerator.Proofs.Table.Alike
import ParserGenerator.Proofs.Table.Written

/-!
# Reading written cells

What is written for a rule, an entry or a cell is read back from its words: the options from between
the brackets, the flags from the words in front of the rule, and each name as a symbol with the same
name. A rule that the table being read has already keeps its number.

Results:
1. `Table.yields_readRule`: a rule that says the same by names is read.
2. `Table.yields_readEntry`, `Table.yields_readCell`: an entry that says the same is read, and put
   behind the cells of the row.
-/

namespace ParserGenerator.Table

open Naming (Yields)
open SymbolTable (GrowsBy SameName)

/-! ## Options -/

theorem inBrackets?_brackets (inner : List Char) :
    inBrackets? ('[' :: (inner ++ [']'])) = some inner := by
  rw [inBrackets?, List.reverse_append]
  exact congrArg some (List.reverse_reverse inner)

theorem splitCommas_append_comma {word : List Char} (single : ',' ∉ word) (rest : List Char) :
    splitCommas (word ++ ',' :: rest) = word :: splitCommas rest := by
  induction word with
  | nil => rw [List.nil_append, splitCommas, if_pos rfl]
  | cons c tail ih =>
      rw [List.cons_append, splitCommas, if_neg (Ne.symm (List.ne_of_not_mem_cons single)),
        ih (List.not_mem_of_not_mem_cons single), Text.consFirst]

theorem splitCommas_of_not_mem {word : List Char} (single : ',' ∉ word) :
    splitCommas word = [word] := by
  induction word with
  | nil => rfl
  | cons c tail ih =>
      rw [splitCommas, if_neg (Ne.symm (List.ne_of_not_mem_cons single)),
        ih (List.not_mem_of_not_mem_cons single), Text.consFirst]

theorem splitCommas_intercalate {words : List (List Char)} (nonempty : words ≠ [])
    (single : ∀ word ∈ words, ',' ∉ word) : splitCommas ([','].intercalate words) = words := by
  induction words with
  | nil => exact absurd rfl nonempty
  | cons word rest ih =>
      have first := single word List.mem_cons_self
      by_cases last : rest = []
      · rw [last, List.intercalate_singleton, splitCommas_of_not_mem first]
      · rw [List.intercalate_cons_of_ne_nil last, List.append_assoc, List.singleton_append,
          splitCommas_append_comma first,
          ih last fun other member => single other (List.mem_cons_of_mem _ member)]

theorem readOptions_names (line : Nat) (options : List ChildOption) :
    readOptions line (options.map fun option => option.name.toList) = .ok options := by
  induction options with
  | nil => rfl
  | cons option rest ih =>
      have nonempty : ¬ option.name.toList.isEmpty = true := by cases option <;> decide
      rw [List.map_cons, readOptions, if_neg nonempty, String.ofList_toList,
        ChildOption.ofName?_name, ih]
      rfl

theorem readOptions_written (line : Nat) (options : List ChildOption) :
    readOptions line (splitCommas (",".intercalate (options.map ChildOption.name)).toList) =
      .ok options := by
  have single : ∀ option : ChildOption, ',' ∉ option.name.toList := by
    intro option
    cases option <;> decide
  rw [String.toList_intercalate, List.map_map]
  by_cases empty : options = []
  · rw [empty]
    rfl
  · refine (congrArg _ (splitCommas_intercalate ?_ ?_)).trans (readOptions_names line options)
    · exact fun none => empty (List.map_eq_nil_iff.1 none)
    · intro word member
      obtain ⟨option, _, rfl⟩ := List.mem_map.1 member
      exact single option

theorem inBrackets?_optionsWord (rule : Rule) : inBrackets? (optionsWord rule).toList =
    some (",".intercalate (rule.options.map ChildOption.name)).toList := by
  rw [optionsWord, String.toList_append, String.toList_append]
  exact inBrackets?_brackets _

/-! ## Rules -/

theorem readFlags_written {rule : Rule} {lhs : String}
    (notFlag : lhs ≠ chainFlag ∧ lhs ≠ unwrapFlag) (rest : List (List Char)) :
    readFlags false false ((flagWords rule).map String.toList ++ lhs.toList :: rest) =
      (rule.chained, rule.unwrapsSingle, lhs.toList :: rest) := by
  have notChain : ¬ lhs.toList = chainFlag.toList :=
    fun same => notFlag.1 (String.toList_inj.1 same)
  have notUnwrap : ¬ lhs.toList = unwrapFlag.toList :=
    fun same => notFlag.2 (String.toList_inj.1 same)
  have differ : ¬ unwrapFlag.toList = chainFlag.toList := by decide
  rw [flagWords]
  cases rule.chained <;> cases rule.unwrapsSingle <;>
    simp [readFlags, notChain, notUnwrap, differ]

variable {table acc : Table} {names : SymbolTable}

/-- A rule is read from its words. -/
theorem yields_readRule {known : SymbolTable} {rule : Rule} (writable : RuleWritable known rule)
    (line : Nat) (names : SymbolTable) :
    Yields known names
      (readRule line (optionsWord rule).toList ((ruleWords known rule).map String.toList))
      fun later found => RulesAlike later known found rule := by
  have sign : (":=" : String).toList = [':', '='] := rfl
  have rest : ((rule.rhs.map known.display).map String.toList).map String.ofList =
      rule.rhs.map known.display := by
    have same : String.ofList ∘ String.toList = id := funext fun _ => String.ofList_toList
    rw [List.map_map, same, List.map_id]
  have count : rule.options.length = ((rule.rhs.map known.display).map String.toList).length := by
    rw [List.length_map, List.length_map, rule.options_length]
  rw [readRule, inBrackets?_optionsWord]
  dsimp only
  rw [readOptions_written]
  dsimp only
  rw [ruleWords, List.map_append, List.map_cons, List.map_cons, readFlags_written writable.not_flag,
    sign]
  show Yields known names (Naming.intern (String.ofList (known.display rule.lhs).toList) >>=
    fun lhs => if rule.options.length = ((rule.rhs.map known.display).map String.toList).length
      then Naming.internAll (((rule.rhs.map known.display).map String.toList).map String.ofList) >>=
        fun rhs => pure (Rule.ofOptions lhs rhs rule.options rule.chained rule.unwrapsSingle)
      else _) _
  rw [String.ofList_toList, rest]
  refine (Naming.yields_intern_display writable.lhs.hasName names).bind ?_
  intro lhs between _ isLhs
  rw [if_pos count]
  refine (Naming.yields_internAll (fun symbol member => (writable.rhs symbol member).hasName)
    between).bind ?_
  intro rhs later grows areRhs
  refine Naming.yields_pure ⟨isLhs.mono grows.grown, areRhs, ?_, rfl, rfl⟩
  exact ChildOption.fit_eq_self (rule.options_length.trans areRhs.length_eq.symm)

/-! ## Entries -/

theorem ruleId_spec (acc : Table) (rule : Rule) :
    (acc.ruleId rule).2.rules[(acc.ruleId rule).1]? = some rule ∧
      acc.rules <+: (acc.ruleId rule).2.rules ∧ (acc.ruleId rule).2.rows = acc.rows ∧
      (acc.ruleId rule).2.conflicts = acc.conflicts := by
  unfold ruleId
  split
  · rename_i id found
    obtain ⟨bound, same, _⟩ := List.findIdx?_eq_some_iff_getElem.1 found
    refine ⟨List.getElem?_eq_some_iff.2 ⟨bound, ?_⟩, List.prefix_refl _, rfl, rfl⟩
    exact beq_iff_eq.1 same
  · refine ⟨?_, List.prefix_append _ _, rfl, rfl⟩
    exact List.getElem?_concat_length

/-- What reading an entry leaves of the table that is being read. -/
structure Keeps (before after : Table) : Prop where
  rules : before.rules <+: after.rules
  rows : after.rows = before.rows
  conflicts : after.conflicts = before.conflicts

theorem Keeps.refl (acc : Table) : Keeps acc acc := ⟨List.prefix_refl _, rfl, rfl⟩

theorem readNumber_toString {bound n : Nat} (below : n < bound) (line : Nat) :
    readNumber bound line (toString n).toList = .ok n := by
  rw [readNumber, Text.readDecimal_repr below]

/-- An entry is read from its words. -/
theorem yields_readEntry {entry : Entry} (writable : table.EntryWritable entry)
    (small : table.size < Text.stateBound) (line : Line) (names : SymbolTable) {action : String}
    {rest : List String} (words : table.entryWords entry = action :: rest) :
    Yields table.symbols names (readEntry acc line action (rest.map String.toList))
      fun later found => EntriesAlike later table.symbols found.2.rules table.rules found.1 entry ∧
        Keeps acc found.2 := by
  cases entry with
  | shift next =>
      cases words
      have read := readNumber_toString (Nat.lt_trans writable small) line.number
      show Yields _ _ (liftM (readNumber _ line.number (toString next).toList) >>= _) _
      rw [read]
      exact Naming.yields_pure ⟨.shift next, .refl acc⟩
  | goto next =>
      cases words
      have read := readNumber_toString (Nat.lt_trans writable small) line.number
      show Yields _ _ (liftM (readNumber _ line.number (toString next).toList) >>= _) _
      rw [read]
      exact Naming.yields_pure ⟨.goto next, .refl acc⟩
  | accept =>
      cases words
      exact Naming.yields_pure ⟨.accept, .refl acc⟩
  | reduce id =>
      obtain ⟨rule, found, ruleWritable⟩ := writable
      rw [entryWords, Option.mem_def.1 found] at words
      cases words
      show Yields _ _ (readRule line.number (optionsWord rule).toList _ >>= _) _
      refine (yields_readRule ruleWritable line.number names).bind fun read later _ alike => ?_
      obtain ⟨isRule, longer, sameRows, sameConflicts⟩ := acc.ruleId_spec read
      exact Naming.yields_pure ⟨.reduce isRule found alike, longer, sameRows, sameConflicts⟩

/-! ## Cells -/

theorem EntryWritable.target_lt {entry : Entry} (writable : table.EntryWritable entry) {next : Nat}
    (leads : entry.target? = some next) : next < table.size := by
  cases entry with
  | shift target =>
      cases leads
      exact writable
  | goto target =>
      cases leads
      exact writable
  | accept => cases leads
  | reduce id => cases leads

/-- The words of the line. -/
def Line.Holds (line : Line) (words : List String) : Prop :=
  Text.words line.text = words.map String.toList

/-- A cell is read from its words, and written to the state. -/
theorem yields_readCell {cell : Symbol × Entry} (named : table.symbols.NamesWord cell.1)
    (writable : table.EntryWritable cell.2) (small : table.size < Text.stateBound) {line : Line}
    (holds : line.Holds (table.cellWords cell)) (state : Nat) (names : SymbolTable) :
    Yields table.symbols names (acc.readCell table.size state line) fun later read =>
      ∃ found after, read = after.set state found.1 found.2 ∧ Keeps acc after ∧
        CellsAlike later table.symbols after.rules table.rules found cell := by
  obtain ⟨action, rest, words⟩ := List.exists_cons_of_ne_nil (entryWords_ne_nil writable.legible)
  rw [readCell, holds, cellWords, words, List.map_cons, List.map_cons]
  dsimp only
  rw [String.ofList_toList, String.ofList_toList]
  refine (Naming.yields_intern_display named.hasName names).bind ?_
  intro symbol between _ isSymbol
  refine (yields_readEntry writable small line between words).bind ?_
  rintro ⟨entry, after⟩ later grows ⟨alike, keeps⟩
  have result : ∃ found changed, after.set state symbol entry = changed.set state found.1 found.2 ∧
      Keeps acc changed ∧ CellsAlike later table.symbols changed.rules table.rules found cell :=
    ⟨(symbol, entry), after, rfl, keeps, isSymbol.mono grows.grown, alike⟩
  dsimp only
  cases leads : entry.target? with
  | none => exact Naming.yields_pure result
  | some next =>
      have inside : next < table.size := writable.target_lt (alike.target?_eq ▸ leads)
      dsimp only
      rw [if_pos inside]
      exact Naming.yields_pure result

end ParserGenerator.Table
