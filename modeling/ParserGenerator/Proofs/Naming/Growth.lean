import ParserGenerator.Build
import ParserGenerator.Proofs.Naming

/-!
# Readers only add names

Tokens, rules, lexers and tables keep the numbers of their symbols and not the names. So whatever
is made early stays good only if no reader that runs later gives a name another number, and this
must hold of a reader that fails as well: what it registered on its way stays in the table.

A reader is put together from parts by binds. A part that registers a name adds it to the end of
the table, all other parts leave the table alone, and a failure keeps the table as it is then.
Hence a reader does nothing but add names, wherever it stops.

Results:
1. `SymbolTable.continues_of_extends`: what a table has in common with one that it extends.
2. `Naming.Grows.bind`: a reader whose parts only add names only adds names.
3. `readers_continue`: all readers of lexers, grammars and tables, on all texts.
-/

namespace ParserGenerator

/-! ## Tables that names are added to -/

namespace SymbolTable

/-- The table with the names of a list registered in order. -/
def internAll (table : SymbolTable) (names : List String) : SymbolTable :=
  names.foldl (fun table name => (table.intern name).2) table

/-- A later table continues an earlier one. -/
structure Continues (later earlier : SymbolTable) : Prop where
  /-- The new names are registered one after another and have the next numbers. -/
  added : ∃ names, later = earlier.internAll names ∧ later.names = earlier.names ++ names
  /-- The old names have their numbers. -/
  kept : ∀ symbol name, earlier.name? symbol = some name → later.name? symbol = some name
  distinct : later.names.Nodup
  inverse : ∀ name symbol, later.get? name = some symbol ↔ later.name? symbol = some name
  reserved : later.get? "__START__" = some .start ∧ later.get? "__EOF__" = some .endOfInput ∧
    later.get? "__EPSILON__" = some .epsilon

theorem eq_of_names {left right : SymbolTable} (same : left.names = right.names) :
    left = right := by
  cases left
  cases right
  cases same
  rfl

theorem names_intern_of_not_mem {table : SymbolTable} {name : String}
    (fresh : name ∉ table.names) : (table.intern name).2.names = table.names ++ [name] := by
  have unknown := get?_eq_none_iff.2 fresh
  unfold intern
  split
  · rename_i symbol known
    cases unknown.symm.trans known
  · rfl

/-- Registering names that are new and distinct adds them to the end. -/
theorem eq_internAll {earlier later : SymbolTable} {names : List String}
    (added : later.names = earlier.names ++ names) : later = earlier.internAll names := by
  induction names generalizing earlier with
  | nil => exact eq_of_names (added.trans (List.append_nil _))
  | cons name rest ih =>
      have distinct := later.distinct
      rw [added] at distinct
      have fresh : name ∉ earlier.names := fun old =>
        (List.nodup_append.1 distinct).2.2 name old name List.mem_cons_self rfl
      refine ih ?_
      rw [names_intern_of_not_mem fresh, List.append_assoc]
      exact added

/-- Every table is made from the initial one by registering names. -/
theorem eq_initial_internAll (table : SymbolTable) : ∃ names, table = initial.internAll names := by
  obtain ⟨names, added⟩ := table.reserved
  exact ⟨names, eq_internAll added.symm⟩

theorem get?_reserved (table : SymbolTable) {name : String} {symbol : Symbol}
    (known : initial.get? name = some symbol) : table.get? name = some symbol :=
  have grown : table.Extends initial := table.reserved
  grown.get? known

theorem continues_of_extends {later earlier : SymbolTable} (grown : later.Extends earlier) :
    later.Continues earlier where
  added := by
    obtain ⟨names, added⟩ := grown
    exact ⟨names, eq_internAll added.symm, added.symm⟩
  kept _ _ := grown.name?
  distinct := later.distinct
  inverse _ _ := get?_eq_some_iff
  reserved := ⟨later.get?_reserved rfl, later.get?_reserved rfl, later.get?_reserved rfl⟩

end SymbolTable

/-! ## Readers that only add names -/

namespace Naming

variable {ε δ α β : Type} {reader : Naming ε α} {next : α → Naming ε β}

/-- Whether it makes a value or fails, the reader only adds names to the table. -/
def Grows (reader : Naming ε α) : Prop := ∀ names, (reader.outcome names).2.Extends names

theorem grows_pure (value : α) : Grows (pure value : Naming ε α) := .refl

theorem grows_throw (error : ε) : Grows (throw error : Naming ε α) := .refl

theorem grows_get : Grows (get : Naming ε SymbolTable) := .refl

theorem grows_lift (result : Except ε α) : Grows (liftM result : Naming ε α) := by
  cases result with
  | ok value => exact grows_pure value
  | error error => exact grows_throw error

theorem grows_intern (name : String) : Grows (intern name : Naming ε Symbol) :=
  fun names => names.extends_intern name

theorem Grows.bind (early : reader.Grows) (late : ∀ value, (next value).Grows) :
    (reader >>= next).Grows := by
  intro names
  have grown := early names
  match read : reader.outcome names with
  | (.ok value, middle) =>
      rw [read] at grown
      rw [outcome_bind_ok read]
      exact (late value middle).trans grown
  | (.error error, middle) =>
      rw [read] at grown
      rw [outcome_bind_of_error read]
      exact grown

theorem Grows.mapError (grows : reader.Grows) (change : ε → δ) : (reader.mapError change).Grows :=
  grows

theorem grows_internAll (names : List String) :
    Grows (internAll names : Naming ε (List Symbol)) := by
  induction names with
  | nil => exact grows_pure []
  | cons name rest ih =>
      refine (grows_intern name).bind fun symbol => ?_
      exact ih.bind fun symbols => grows_pure _

end Naming

open Naming

/-! ## Lexers -/

theorem LexerDraft.grows_declare (draft : LexerDraft) (rule : LexerRule) :
    Grows (draft.declare rule) := by
  unfold declare
  split
  · exact grows_throw _
  · exact (grows_intern _).bind fun symbol => grows_pure _

theorem LexerDraft.grows_declareAll (draft : LexerDraft) (rules : List LexerRule) :
    Grows (draft.declareAll rules) := by
  induction rules generalizing draft with
  | nil => exact grows_pure draft
  | cons rule rest ih => exact (draft.grows_declare rule).bind ih

theorem Lexer.grows_define (rules : List LexerRule) : Grows (define rules) :=
  (LexerDraft.empty.grows_declareAll rules).bind fun _ => grows_pure _

namespace LexerFile

theorem grows_declareAll (draft : LexerDraft) (declarations : List Declaration) :
    Grows (declareAll draft declarations) := by
  induction declarations generalizing draft with
  | nil => exact grows_pure draft
  | cons declaration rest ih => exact ((draft.grows_declare declaration.rule).mapError _).bind ih

theorem grows_load (source : String) : Grows (load source) :=
  (grows_lift _).bind fun declarations =>
    (grows_declareAll .empty declarations).bind fun _ => grows_pure _

end LexerFile

/-! ## Grammars -/

namespace GrammarFile

theorem grows_toRule (line : RuleLine) : Grows line.toRule := by
  refine (grows_internAll line.rhs).bind fun rhs => ?_
  exact (grows_intern line.lhs).bind fun lhs => grows_pure _

theorem grows_readLines (number : Nat) (lines : List (List Char)) :
    Grows (readLines number lines) := by
  induction lines generalizing number with
  | nil => exact grows_pure []
  | cons line rest ih =>
      unfold readLines
      dsimp only
      split
      · exact ih (number + 1)
      · split
        · exact grows_throw _
        · rename_i ruleLine _
          refine (grows_toRule ruleLine).bind fun rule => ?_
          exact (ih (number + 1)).bind fun later => grows_pure _

theorem grows_parse (source : String) : Grows (parse source) := grows_readLines 1 _

end GrammarFile

namespace Description

theorem grows_internName (token : Token) : Grows (internName token) :=
  (grows_lift _).bind fun name => grows_intern name

theorem grows_addAlternatives (lhs : Symbol) (rules : List Rule)
    (alternatives : List Alternative) : Grows (addAlternatives lhs rules alternatives) := by
  induction alternatives generalizing rules with
  | nil => exact grows_pure rules
  | cons alternative rest ih => exact (grows_internAll _).bind fun rhs => ih _

theorem grows_addDeclarations (rules : List Rule) (trees : List SyntaxTree) :
    Grows (addDeclarations rules trees) := by
  induction trees generalizing rules with
  | nil =>
      unfold addDeclarations
      exact grows_pure rules
  | cons tree rest ih =>
      unfold addDeclarations
      split
      · contradiction
      · rename_i isCons
        cases isCons
        split
        · split
          · refine (grows_internName _).bind fun lhs => ?_
            split
            · refine (grows_lift _).bind fun alternatives => ?_
              exact (grows_addAlternatives _ _ _).bind fun rules => ih rules
            · exact grows_throw _
          · exact grows_throw _
        · exact grows_throw _
      · exact grows_throw _

theorem grows_ofTree (tree : SyntaxTree) : Grows (ofTree tree) := by
  unfold ofTree
  split
  · split
    · split
      · refine (grows_internName _).bind fun start => ?_
        exact (grows_addDeclarations [] _).bind fun rules => grows_pure _
      · exact grows_throw _
    · exact grows_throw _
  · exact grows_throw _

theorem grows_parse (source : String) : Grows (parse source) :=
  (grows_lift _).bind grows_ofTree

end Description

namespace Grammar

theorem grows_fromRules (rules : List Rule) (start : Option Symbol) :
    Grows (fromRules rules start) := by
  refine grows_get.bind fun names => ?_
  split
  · exact grows_pure _
  · exact grows_throw _

theorem grows_read (format : GrammarFormat) (source : String) : Grows (read format source) := by
  cases format with
  | simple => exact ((GrammarFile.grows_parse source).mapError _).bind fun rules =>
      grows_fromRules rules none
  | description => exact ((Description.grows_parse source).mapError _).bind fun description =>
      grows_fromRules _ _

end Grammar

/-! ## Tables -/

namespace Table

theorem grows_readRule (line : Nat) (optionsWord : List Char) (words : List (List Char)) :
    Grows (readRule line optionsWord words) := by
  unfold readRule
  split
  · exact grows_throw _
  · dsimp only
    split
    · exact grows_throw _
    · split
      · refine (grows_intern _).bind fun lhs => ?_
        split
        · exact (grows_internAll _).bind fun rhs => grows_pure _
        · exact grows_throw _
      · exact grows_throw _

theorem grows_readEntry (table : Table) (line : Line) (action : String)
    (words : List (List Char)) : Grows (readEntry table line action words) := by
  unfold readEntry
  split
  · exact (grows_lift _).bind fun next => grows_pure _
  · exact (grows_lift _).bind fun next => grows_pure _
  · exact grows_pure _
  · exact (grows_readRule _ _ _).bind fun rule => grows_pure _
  · split
    · exact grows_throw _
    · exact grows_throw _

theorem grows_readCell (size state : Nat) (table : Table) (line : Line) :
    Grows (readCell size state table line) := by
  unfold readCell
  split
  · refine (grows_intern _).bind fun symbol => ?_
    refine (grows_readEntry table line _ _).bind fun read => ?_
    dsimp only
    split
    · split
      · exact grows_pure _
      · exact grows_throw _
    · exact grows_pure _
  · exact grows_throw _

theorem grows_readCells (past size state : Nat) (table : Table) (count : Nat)
    (lines : List Line) : Grows (readCells past size state table count lines) := by
  induction count generalizing table lines with
  | zero => exact grows_pure _
  | succ count ih =>
      cases lines with
      | nil => exact grows_throw _
      | cons line rest => exact (grows_readCell size state table line).bind fun read => ih read rest

theorem grows_readRows (past size : Nat) (table : Table) (count : Nat) (lines : List Line) :
    Grows (readRows past size table count lines) := by
  induction count generalizing table lines with
  | zero => exact grows_pure _
  | succ count ih =>
      cases lines with
      | nil => exact grows_throw _
      | cons line rest =>
          refine (grows_lift _).bind fun cells => ?_
          refine (grows_readCells _ _ _ _ _ _).bind fun read => ?_
          exact ih read.1 read.2

theorem grows_parse (source : String) : Grows (parse source) := by
  unfold parse
  dsimp only
  split
  · exact grows_throw _
  · refine (grows_lift _).bind fun size => ?_
    refine (grows_readRows _ _ _ _ _).bind fun read => ?_
    split
    · exact grows_throw _
    · exact grows_get.bind fun symbols => grows_pure _

end Table

/-! ## All readers -/

/-- From every table that registering names can make, and whatever the text is and wherever it is
wrong, a reader leaves a table that continues the one it started from. -/
theorem readers_continue (names : SymbolTable) :
    (∃ registered, names = SymbolTable.initial.internAll registered) ∧
      (∀ draft rule, ((LexerDraft.declare draft rule).outcome names).2.Continues names) ∧
      (∀ rules, ((Lexer.define rules).outcome names).2.Continues names) ∧
      (∀ source, ((LexerFile.load source).outcome names).2.Continues names) ∧
      (∀ source, ((GrammarFile.parse source).outcome names).2.Continues names) ∧
      (∀ source, ((Description.parse source).outcome names).2.Continues names) ∧
      (∀ format source, ((Grammar.read format source).outcome names).2.Continues names) ∧
      ∀ source, ((Table.parse source).outcome names).2.Continues names := by
  have continues {ε α : Type} {reader : Naming ε α} (grows : reader.Grows) :
      (reader.outcome names).2.Continues names :=
    SymbolTable.continues_of_extends (grows names)
  exact ⟨names.eq_initial_internAll,
    fun draft rule => continues (draft.grows_declare rule),
    fun rules => continues (Lexer.grows_define rules),
    fun source => continues (LexerFile.grows_load source),
    fun source => continues (GrammarFile.grows_parse source),
    fun source => continues (Description.grows_parse source),
    fun format source => continues (Grammar.grows_read format source),
    fun source => continues (Table.grows_parse source)⟩

-- The second pattern is malformed, and the name of the first rule stays.
example : ((Lexer.define [⟨"letter", "a", false⟩, ⟨"open", "(", false⟩]).outcome .initial).2.names =
    Symbol.reservedNames ++ ["letter"] := by decide +kernel

end ParserGenerator
