import ParserGenerator.CommandLine
import ParserGenerator.Proofs.Build.Agree
import ParserGenerator.Proofs.Lexer.Loaded
import ParserGenerator.Proofs.Session.Alike

/-!
# Parsing with a grammar and parsing with its table

A parse is run with the grammar itself or with the file that was written for its table. In one case
the names of the grammar are registered behind those of the lexer, in the other one the table was
built without them and is read behind them. The two tables agree, and the lexer's tokens have names
in both of them, so that the runs cannot be told apart but by warnings about conflicts, which the
file does not keep.

Results: `CommandLine.parse_agreement`.
-/

namespace ParserGenerator

/-- A table with no rule whose left-hand side is spelled like a flag reduces by none. -/
theorem Table.flagFree_of_rules {table : Table}
    (free : ∀ rule ∈ table.rules, RuleFlagFree table.symbols rule) : table.FlagFree := by
  intro row _ cell _
  cases cell.2 with
  | reduce id => exact fun rule found => free rule (List.mem_of_getElem? found)
  | shift => trivial
  | goto => trivial
  | accept => trivial

namespace CommandLine

/-! ## Definitions -/

/-- The run of a parse that got to its end, with what was found. -/
def finished (table : Table) : Except ParseError SyntaxTree → Run
  | .error error => .fail (conflictWarning table) ⟨error.message table.symbols, []⟩
  | .ok tree => ⟨conflictWarning table, .ok (tree.display table.symbols, none)⟩

/-- How two parses end that differ in their tables alone. What the lexer makes of the input is
given, and either table has warnings of its own. -/
inductive RunsAgree (lexed : Except LexError (List Token)) (fuel : Nat) (left right : Table) :
    Option Run → Option Run → Prop
  /-- The input has no tokens: both runs fail with the error of the lexer. -/
  | unlexed {error : LexError} (notes notes' : String) (isError : lexed = .error error) :
      RunsAgree lexed fuel left right (some (.fail notes ⟨error.message, []⟩))
        (some (.fail notes' ⟨error.message, []⟩))
  /-- Both parses have a token that takes more steps. -/
  | unfinished {tokens : List Token} (areTokens : lexed = .ok tokens)
      (parsed : left.parseTokens fuel tokens = none)
      (parsed' : right.parseTokens fuel tokens = none) :
      RunsAgree lexed fuel left right none none
  /-- Both parses find trees with the same text. -/
  | printed {tokens : List Token} {tree tree' : SyntaxTree} (notes notes' : String)
      (areTokens : lexed = .ok tokens) (parsed : left.parseTokens fuel tokens = some (.ok tree))
      (parsed' : right.parseTokens fuel tokens = some (.ok tree'))
      (display_eq : tree.display left.symbols = tree'.display right.symbols) :
      RunsAgree lexed fuel left right (some ⟨notes, .ok (tree.display left.symbols, none)⟩)
        (some ⟨notes', .ok (tree'.display right.symbols, none)⟩)
  /-- Both parses fail with errors that are alike. -/
  | refused {tokens : List Token} {error error' : ParseError} (notes notes' : String)
      (areTokens : lexed = .ok tokens)
      (parsed : left.parseTokens fuel tokens = some (.error error))
      (parsed' : right.parseTokens fuel tokens = some (.error error'))
      (alike : error.Alike left.symbols right.symbols error') :
      RunsAgree lexed fuel left right (some (.fail notes ⟨error.message left.symbols, []⟩))
        (some (.fail notes' ⟨error'.message right.symbols, []⟩))

variable {files : ReadFile} {rules grammar path input source text content : String}
  {format : GrammarFormat} {lexer : Lexer} {symbols names : SymbolTable} {table : Table}
  {fuel : Nat}

/-! ## Files -/

theorem readFile_eq_ok (isFile : files path = .ok text) : readFile files path = .ok text := by
  unfold readFile
  rw [isFile]

theorem ok_bind {ε α β : Type} (value : α) (next : α → Except ε β) :
    (Except.ok value >>= next) = next value := rfl

theorem loadLexer_of_load (isSource : files rules = .ok source)
    (loaded : (LexerFile.load source).outcome SymbolTable.initial = (.ok lexer, symbols)) :
    loadLexer files rules = .ok (lexer, symbols) := by
  unfold loadLexer
  rw [readFile_eq_ok isSource, ok_bind, loaded]
  rfl

/-- The symbols of a lexer's tokens are named in the table that the lexer was loaded with. -/
theorem hasName_of_loadLexer (loaded : loadLexer files rules = .ok (lexer, symbols))
    {tokens : List Token} (lexed : lexer.lex content = .ok tokens) :
    ∀ token ∈ tokens, symbols.HasName token.symbol := by
  unfold loadLexer at loaded
  cases isSource : readFile files rules with
  | error report =>
      rw [isSource] at loaded
      cases loaded
  | ok source =>
      rw [isSource, ok_bind] at loaded
      split at loaded
      · rename_i made later isMade
        cases loaded
        obtain ⟨declared, accords, named⟩ := LexerFile.exists_accords_of_load isMade
        exact accords.hasName_of_lex named lexed
      · cases loaded

/-- The command for tables writes the text of the table that is built. -/
theorem text?_of_written (isGrammar : files grammar = .ok source)
    (built : (Table.build format none source).outcome SymbolTable.initial = (.ok table, names))
    {states : Bool} (written :
      (runTable files grammar format (some path) states none).outcome.written = some (path, text)) :
    text = table.text?.getD "" := by
  obtain ⟨g, read, made⟩ := Table.outcome_build_eq_ok.1 built
  obtain ⟨automaton, generated, rfl⟩ := Table.exists_automaton_of_ofGrammar made
  unfold runTable at written
  rw [readFile_eq_ok isGrammar] at written
  dsimp only at written
  rw [read] at written
  dsimp only at written
  rw [generated] at written
  cases written
  rfl

theorem loadTable_grammar (isGrammar : files grammar = .ok source)
    (built : (Table.build format none source).outcome symbols = (.ok table, names)) :
    loadTable files (.grammar grammar format) symbols = .ok table := by
  unfold loadTable
  dsimp only
  rw [readFile_eq_ok isGrammar, ok_bind, built]
  rfl

theorem loadTable_table (isTable : files path = .ok text)
    (read : (Table.parse text).outcome symbols = (.ok table, names)) :
    loadTable files (.table path) symbols = .ok table := by
  unfold loadTable
  dsimp only
  rw [readFile_eq_ok isTable, ok_bind, read]
  rfl

/-! ## Runs -/

section

variable (loaded : loadLexer files rules = .ok (lexer, symbols))
  {tableSource : TableSource} (isTable : loadTable files tableSource symbols = .ok table)
  (isInput : files input = .ok content)
include loaded isTable isInput

theorem runParse_of_error {error : LexError} (lexed : lexer.lex content = .error error) :
    runParse fuel files rules tableSource input =
      some (.fail (conflictWarning table) ⟨error.message, []⟩) := by
  unfold runParse
  rw [loaded]
  dsimp only
  rw [isTable]
  dsimp only
  rw [readFile_eq_ok isInput]
  dsimp only
  rw [lexed]

theorem runParse_of_tokens {tokens : List Token} (lexed : lexer.lex content = .ok tokens) :
    runParse fuel files rules tableSource input =
      (table.parseTokens fuel tokens).map (finished table) := by
  unfold runParse
  rw [loaded]
  dsimp only
  rw [isTable]
  dsimp only
  rw [readFile_eq_ok isInput]
  dsimp only
  rw [lexed]
  dsimp only
  cases table.parseTokens fuel tokens with
  | none => rfl
  | some result => cases result <;> rfl

end

/-- Runs with tables that agree agree, whenever all tokens have names in both tables. -/
theorem runsAgree_of_agree {left right : Table} (agree : left.Agree right)
    (loaded : loadLexer files rules = .ok (lexer, symbols)) {source source' : TableSource}
    (isLeft : loadTable files source symbols = .ok left)
    (isRight : loadTable files source' symbols = .ok right)
    (grown : left.symbols.Extends symbols) (grown' : right.symbols.Extends symbols)
    (isInput : files input = .ok content) (fuel : Nat) :
    RunsAgree (lexer.lex content) fuel left right (runParse fuel files rules source input)
      (runParse fuel files rules source' input) := by
  cases lexed : lexer.lex content with
  | error error =>
      rw [runParse_of_error loaded isLeft isInput lexed,
        runParse_of_error loaded isRight isInput lexed]
      exact .unlexed _ _ rfl
  | ok tokens =>
      rw [runParse_of_tokens loaded isLeft isInput lexed,
        runParse_of_tokens loaded isRight isInput lexed]
      have named : ∀ token ∈ tokens,
          SymbolTable.SameName left.symbols right.symbols token.symbol token.symbol := by
        intro token member
        obtain ⟨name, isName⟩ := hasName_of_loadLexer loaded lexed token member
        exact ⟨name, grown.name? isName, grown'.name? isName⟩
      have parses := agree.parseTokens named fuel
      generalize parsed : left.parseTokens fuel tokens = result at parses ⊢
      generalize parsed' : right.parseTokens fuel tokens = result' at parses ⊢
      cases parses with
      | none => exact .unfinished rfl parsed parsed'
      | some results =>
          cases results with
          | ok trees => exact .printed _ _ rfl parsed parsed' trees.display_eq
          | error errors => exact .refused _ _ rfl parsed parsed' errors

/-- A parse with a grammar and a parse with the file that was written for its table agree: both
print the same text, or both fail with errors of the same kind in the same place, or both go on for
as long as they are let. The states of the table are numbered by words of 32 bits. -/
theorem parse_agreement (loaded : loadLexer files rules = .ok (lexer, symbols))
    (built : (Table.build format none source).outcome SymbolTable.initial = (.ok table, names))
    (small : table.size < Text.stateBound)
    (free : ∀ rule ∈ table.rules, Table.RuleFlagFree table.symbols rule)
    {before : ReadFile} (wasGrammar : before grammar = .ok source) {states : Bool}
    (written :
      (runTable before grammar format (some path) states none).outcome.written = some (path, text))
    (isGrammar : files grammar = .ok source) (isTable : files path = .ok text)
    (isInput : files input = .ok content) :
    ∃ left right, loadTable files (.grammar grammar format) symbols = .ok left ∧
      loadTable files (.table path) symbols = .ok right ∧
      ∀ fuel, RunsAgree (lexer.lex content) fuel left right
        (runParse fuel files rules (.grammar grammar format) input)
        (runParse fuel files rules (.table path) input) := by
  obtain ⟨left, _, builtHere, grown, rfl, agree⟩ := Table.exists_agree_of_build built symbols
  obtain ⟨known, isKnown, reads⟩ :=
    Table.exists_agree_of_parse built small (Table.flagFree_of_rules free)
  have isText := text?_of_written wasGrammar built written
  rw [isKnown, Option.getD_some] at isText
  obtain ⟨right, _, readHere, grown', rfl, agree'⟩ := reads symbols
  have isLeft : loadTable files (.grammar grammar format) symbols = .ok left :=
    loadTable_grammar isGrammar builtHere
  have isRight : loadTable files (.table path) symbols = .ok right :=
    loadTable_table (isText ▸ isTable) readHere
  exact ⟨left, right, isLeft, isRight,
    runsAgree_of_agree (agree.trans agree'.symm) loaded isLeft isRight grown grown' isInput⟩

/-- The files of a parse of a list, with what the file of the table holds. -/
def listFiles (table : Except String String) : ReadFile := fun path =>
  if path = "rules" then .ok "item := x\n"
  else if path = "grammar" then .ok Table.listSource
  else if path = "input" then .ok "xxx"
  else table

theorem parse_agreement_list :
    ∃ text lexer symbols table names,
      (runTable (listFiles (.error "missing")) "grammar" .simple (some "table") false
        none).outcome.written = some ("table", text) ∧
      loadLexer (listFiles (.ok text)) "rules" = .ok (lexer, symbols) ∧
      (Table.build .simple none Table.listSource).outcome SymbolTable.initial =
        (.ok table, names) ∧ table.size < Text.stateBound ∧
      (∀ rule ∈ table.rules, Table.RuleFlagFree table.symbols rule) ∧
      ∃ left right,
        loadTable (listFiles (.ok text)) (.grammar "grammar" .simple) symbols = .ok left ∧
        loadTable (listFiles (.ok text)) (.table "table") symbols = .ok right ∧
        ∀ fuel, RunsAgree (lexer.lex "xxx") fuel left right
          (runParse fuel (listFiles (.ok text)) "rules" (.grammar "grammar" .simple) "input")
          (runParse fuel (listFiles (.ok text)) "rules" (.table "table") "input") := by
  have isWritten : (runTable (listFiles (.error "missing")) "grammar" .simple (some "table") false
      none).outcome.written.map Prod.fst = some "table" := by
    decide +kernel
  obtain ⟨⟨path, text⟩, written, isPath⟩ := Option.map_eq_some_iff.1 isWritten
  cases isPath
  have isLexer : ∃ lexer, ((LexerFile.load "item := x\n").outcome SymbolTable.initial).1 =
      .ok lexer ∧ True := by
    decide +kernel
  obtain ⟨lexer, isLexer, _⟩ := isLexer
  have made : ∃ table, ((Table.build .simple none Table.listSource).outcome
      SymbolTable.initial).1 = .ok table ∧ table.size < Text.stateBound ∧
        ∀ rule ∈ table.rules, Table.RuleFlagFree table.symbols rule := by
    decide +kernel
  obtain ⟨table, isTable, small, free⟩ := made
  have built := Naming.outcome_eq_of_fst isTable
  have loaded : loadLexer (listFiles (.ok text)) "rules" = .ok (lexer, _) :=
    loadLexer_of_load rfl (Naming.outcome_eq_of_fst isLexer)
  exact ⟨text, lexer, _, table, _, written, loaded, built, small, free,
    parse_agreement loaded built small free rfl written rfl rfl rfl⟩

end CommandLine

end ParserGenerator
