import Mathlib.Data.List.Forall2
import ParserGenerator.Proofs.Lexer.Munch
import ParserGenerator.Proofs.Naming

/-!
# Compiling declared rules

Rules are declared one after the other. Each adds its automaton behind those of the older rules,
and registers its name, which keeps the symbols of the older names. A symbol is ignored as soon as
one of the rules with its name is.

Results: `Lexer.define_of_parsed`, that rules with patterns that are all well-formed make a lexer
that accords with them, and `Lexer.exists_accords_of_define`, that no other rules make a lexer.
-/

namespace ParserGenerator

/-! ## Definitions -/

/-- What a rule declares, with its symbol from a symbol table. -/
structure Declares (names : SymbolTable) (rule : LexerRule) (declared : DeclaredRule) : Prop where
  named : names.get? rule.name = some declared.symbol
  parsed : Regex.parse rule.pattern = .ok declared.regex
  ignored_eq : declared.ignored = rule.ignored

theorem Declares.mono {names later : SymbolTable} {rule : LexerRule} {declared : DeclaredRule}
    (declares : Declares names rule declared) (grown : later.Extends names) :
    Declares later rule declared :=
  ⟨grown.get? declares.named, declares.parsed, declares.ignored_eq⟩

/-- The pattern of the rule is well-formed. -/
def LexerRule.Parses (rule : LexerRule) : Prop := ∃ regex, Regex.parse rule.pattern = .ok regex

theorem LexerRule.parses_iff {rule : LexerRule} :
    rule.Parses ↔ (Regex.parse rule.pattern).isOk = true := by
  unfold Parses
  cases Regex.parse rule.pattern with
  | error cause =>
      constructor
      · rintro ⟨_, impossible⟩
        cases impossible
      · exact fun impossible => absurd impossible Bool.false_ne_true
  | ok regex => exact ⟨fun _ => rfl, fun _ => ⟨regex, rfl⟩⟩

instance (rule : LexerRule) : Decidable rule.Parses := decidable_of_iff _ LexerRule.parses_iff.symm

/-- The draft was made of the declared rules. -/
structure LexerDraft.Holds (draft : LexerDraft) (declared : List DeclaredRule) : Prop where
  joins : draft.joint.Joins (ruleNfas declared)
  ignored_iff : ∀ symbol, draft.ignored.contains symbol = true ↔ IsIgnored declared symbol

namespace LexerDraft

variable {draft : LexerDraft} {declared : List DeclaredRule}

theorem holds_empty : empty.Holds [] where
  joins := JointNfa.joins_empty
  ignored_iff symbol := by
    rw [OrderedSet.contains_iff]
    constructor
    · exact fun member => absurd member OrderedSet.not_mem_empty
    · rintro ⟨_, member, _⟩
      cases member

theorem isIgnored_concat {rule : DeclaredRule} {symbol : Symbol} :
    IsIgnored (declared ++ [rule]) symbol ↔
      IsIgnored declared symbol ∨ rule.symbol = symbol ∧ rule.ignored = true := by
  simp only [IsIgnored, List.mem_append, List.mem_singleton, or_and_right, exists_or,
    exists_eq_left]

theorem contains_insert_if {ignored : SymbolSet} {symbol other : Symbol} {isIgnored : Bool} :
    (if isIgnored then ignored.insert symbol else ignored).contains other = true ↔
      ignored.contains other = true ∨ symbol = other ∧ isIgnored = true := by
  cases isIgnored with
  | false => simp
  | true =>
      rw [if_pos rfl, OrderedSet.contains_iff, OrderedSet.mem_insert, OrderedSet.contains_iff,
        or_comm, eq_comm, and_iff_left rfl]

/-- Declaring a rule puts it behind the others. -/
theorem Holds.declare (holds : draft.Holds declared) {rule : LexerRule} (parses : rule.Parses)
    (names : SymbolTable) :
    ∃ grown later added, (draft.declare rule).outcome names = (.ok grown, later) ∧
      later.Extends names ∧ Declares later rule added ∧ grown.Holds (declared ++ [added]) := by
  obtain ⟨regex, parsed⟩ := parses
  let symbol := (names.intern rule.name).1
  let added : DeclaredRule := ⟨symbol, regex, rule.ignored⟩
  let grown : LexerDraft := ⟨draft.joint.addRule symbol regex.toNfa,
    if rule.ignored then draft.ignored.insert symbol else draft.ignored⟩
  refine ⟨grown, (names.intern rule.name).2, added, ?_, names.extends_intern rule.name,
    ⟨names.get?_intern rule.name, parsed, rfl⟩, ?_, ?_⟩
  · rw [LexerDraft.declare, parsed]
    exact (Naming.outcome_bind_ok (Naming.outcome_intern rule.name names)).trans
      (Naming.outcome_pure _ _)
  · rw [ruleNfas, List.map_append]
    exact holds.joins.addRule symbol (Regex.embeddable_toNfa regex).closed
  · intro other
    rw [isIgnored_concat, ← holds.ignored_iff]
    exact contains_insert_if

theorem Holds.declareAll {rules : List LexerRule} (parses : ∀ rule ∈ rules, rule.Parses)
    (holds : draft.Holds declared) (names : SymbolTable) :
    ∃ grown later added, (draft.declareAll rules).outcome names = (.ok grown, later) ∧
      later.Extends names ∧ List.Forall₂ (Declares later) rules added ∧
      grown.Holds (declared ++ added) := by
  induction rules generalizing draft declared names with
  | nil =>
      refine ⟨draft, names, [], Naming.outcome_pure _ _, .refl names, .nil, ?_⟩
      rwa [List.append_nil]
  | cons rule rest ih =>
      obtain ⟨next, between, first, declares, grown, isFirst, holdsNext⟩ :=
        holds.declare (parses rule List.mem_cons_self) names
      obtain ⟨last, later, added, declaresRest, grownRest, isRest, holdsLast⟩ :=
        ih (fun other member => parses other (List.mem_cons_of_mem _ member)) holdsNext between
      refine ⟨last, later, first :: added, ?_, grownRest.trans grown,
        .cons (isFirst.mono grownRest) isRest, ?_⟩
      · exact (Naming.outcome_bind_ok declares).trans declaresRest
      · rwa [List.append_assoc, List.singleton_append] at holdsLast

variable {rule : LexerRule} {rules : List LexerRule} {names later : SymbolTable}
  {grown : LexerDraft}

theorem parses_of_declare (declares : (draft.declare rule).outcome names = (.ok grown, later)) :
    rule.Parses := by
  unfold LexerDraft.declare at declares
  cases parsed : Regex.parse rule.pattern with
  | error cause =>
      rw [parsed] at declares
      cases congrArg Prod.fst declares
  | ok regex => exact ⟨regex, parsed⟩

theorem parses_of_declareAll
    (declares : (draft.declareAll rules).outcome names = (.ok grown, later)) :
    ∀ rule ∈ rules, rule.Parses := by
  induction rules generalizing draft names with
  | nil => exact fun _ impossible => absurd impossible List.not_mem_nil
  | cons rule rest ih =>
      obtain ⟨next, between, first, others⟩ := Naming.outcome_bind_eq_ok.1 declares
      exact List.forall_mem_cons.2 ⟨parses_of_declare first, ih others⟩

end LexerDraft

namespace Lexer

/-- Rules whose patterns are all well-formed make a lexer that accords with them. -/
theorem define_of_parsed {rules : List LexerRule} (parses : ∀ rule ∈ rules, rule.Parses)
    (names : SymbolTable) :
    ∃ lexer later declared, (define rules).outcome names = (.ok lexer, later) ∧
      later.Extends names ∧ List.Forall₂ (Declares later) rules declared ∧
      lexer.Accords declared := by
  obtain ⟨draft, later, declared, declares, grown, isDeclared, holds⟩ :=
    LexerDraft.holds_empty.declareAll parses names
  exact ⟨draft.compile, later, declared, Naming.outcome_bind_ok declares, grown, isDeclared,
    holds.joins.recognize_eq, holds.ignored_iff⟩

/-- A lexer that is made of rules accords with them. -/
theorem exists_accords_of_define {rules : List LexerRule} {names later : SymbolTable}
    {lexer : Lexer} (defined : (define rules).outcome names = (.ok lexer, later)) :
    ∃ declared, List.Forall₂ (Declares later) rules declared ∧ lexer.Accords declared := by
  obtain ⟨draft, between, declares, _⟩ := Naming.outcome_bind_eq_ok.1 defined
  obtain ⟨made, last, declared, isMade, _, isDeclared, accords⟩ :=
    define_of_parsed (LexerDraft.parses_of_declareAll declares) names
  cases defined.symm.trans isMade
  exact ⟨declared, isDeclared, accords⟩

end Lexer

end ParserGenerator
