import ParserGenerator.LexerFile
import ParserGenerator.Proofs.Lexer.Scan

/-!
# Lexers from rule files

A lexer that is loaded from a rule file accords with the rules that the file declares, whose names
are all registered. So the symbols of its tokens have names, and the token that closes the input has
a reserved one.

Results: `LexerFile.exists_accords_of_load`, `LexerFile.load_of_define` and
`Lexer.Accords.hasName_of_lex`.
-/

namespace ParserGenerator

variable {names later : SymbolTable}

theorem SymbolTable.HasName.mono {symbol : Symbol} (named : names.HasName symbol)
    (grown : later.Extends names) : later.HasName symbol :=
  named.imp fun _ => grown.name?

theorem Declares.hasName {rule : LexerRule} {declared : DeclaredRule}
    (declares : Declares names rule declared) : names.HasName declared.symbol :=
  ⟨rule.name, SymbolTable.get?_eq_some_iff.1 declares.named⟩

namespace LexerFile

/-- Rules are declared behind those of a draft, and their names are registered. -/
theorem exists_holds_of_declareAll {declarations : List Declaration} {draft last : LexerDraft}
    {declared : List DeclaredRule} (holds : draft.Holds declared)
    (named : ∀ rule ∈ declared, names.HasName rule.symbol)
    (declares : (declareAll draft declarations).outcome names = (.ok last, later)) :
    ∃ all, last.Holds all ∧ ∀ rule ∈ all, later.HasName rule.symbol := by
  induction declarations generalizing draft declared names with
  | nil =>
      cases declares
      exact ⟨declared, holds, named⟩
  | cons declaration rest ih =>
      obtain ⟨next, between, first, others⟩ := Naming.outcome_bind_eq_ok.1 declares
      have first := Naming.outcome_mapError_eq_ok.1 first
      obtain ⟨grown, middle, added, isFirst, grows, isAdded, holdsNext⟩ :=
        holds.declare (LexerDraft.parses_of_declare first) names
      cases first.symm.trans isFirst
      refine ih holdsNext (fun rule member => ?_) others
      rcases List.mem_append.1 member with before | isLast
      · exact (named rule before).mono grows
      · rw [List.mem_singleton.1 isLast]
        exact isAdded.hasName

/-- A lexer that is loaded accords with rules whose symbols have names. -/
theorem exists_accords_of_load {source : String} {lexer : Lexer}
    (loaded : (load source).outcome names = (.ok lexer, later)) :
    ∃ declared, lexer.Accords declared ∧ ∀ rule ∈ declared, later.HasName rule.symbol := by
  obtain ⟨declarations, middle, parsed, compiled⟩ := Naming.outcome_bind_eq_ok.1 loaded
  obtain ⟨draft, last, declares, isLexer⟩ := Naming.outcome_bind_eq_ok.1 compiled
  rw [Naming.outcome_pure, Prod.mk.injEq, Except.ok.injEq] at isLexer
  obtain ⟨rfl, rfl⟩ := isLexer
  obtain ⟨declared, holds, named⟩ := exists_holds_of_declareAll LexerDraft.holds_empty
    (fun _ impossible => absurd impossible List.not_mem_nil) declares
  exact ⟨declared, ⟨holds.joins.recognize_eq, holds.ignored_iff⟩, named⟩

/-- The rules of a file are declared like those of a list. -/
theorem declareAll_of_rules {declarations : List Declaration} {draft last : LexerDraft}
    (declares : (draft.declareAll (declarations.map Declaration.rule)).outcome names =
      (.ok last, later)) :
    (declareAll draft declarations).outcome names = (.ok last, later) := by
  induction declarations generalizing draft names with
  | nil =>
      cases declares
      rfl
  | cons declaration rest ih =>
      obtain ⟨next, between, first, others⟩ := Naming.outcome_bind_eq_ok.1 declares
      exact Naming.outcome_bind_eq_ok.2
        ⟨next, between, Naming.outcome_mapError_eq_ok.2 first, ih others⟩

/-- A file is loaded as the lexer of the rules that are read from it. -/
theorem load_of_define {source : String} {rules : List LexerRule} {lexer : Lexer}
    (parsed : (parse source).map (List.map Declaration.rule) = .ok rules)
    (defined : (Lexer.define rules).outcome names = (.ok lexer, later)) :
    (load source).outcome names = (.ok lexer, later) := by
  cases read : parse source with
  | error error =>
      rw [read] at parsed
      cases parsed
  | ok declarations =>
      rw [read] at parsed
      cases parsed
      obtain ⟨draft, last, declares, isLexer⟩ := Naming.outcome_bind_eq_ok.1 defined
      rw [Naming.outcome_pure, Prod.mk.injEq, Except.ok.injEq] at isLexer
      obtain ⟨rfl, rfl⟩ := isLexer
      have lifted : (liftM (parse source) : Naming Error (List Declaration)).outcome names =
          (.ok declarations, names) := by
        rw [read]
        rfl
      exact (Naming.outcome_bind_ok lifted).trans
        (Naming.outcome_bind_ok (declareAll_of_rules declares))

end LexerFile

/-- The symbols of all tokens of a text have names. -/
theorem Lexer.Accords.hasName_of_lex {lexer : Lexer} {declared : List DeclaredRule}
    (accords : lexer.Accords declared) (named : ∀ rule ∈ declared, names.HasName rule.symbol)
    {text : String} {tokens : List Token} (lexed : lexer.lex text = .ok tokens) :
    ∀ token ∈ tokens, names.HasName token.symbol := by
  intro token member
  rcases accords.matched_of_mem_tokens (mem_tokens_of_lex lexed member) with
    isEnd | ⟨rule, isRule, sameSymbol, _⟩
  · rw [isEnd]
    have reserved : Symbol.endOfInput.isReserved = true := rfl
    obtain ⟨name, isName, _⟩ := SymbolTable.sameName_of_isReserved names names reserved
    exact ⟨name, isName⟩
  · exact sameSymbol ▸ named rule isRule

end ParserGenerator
