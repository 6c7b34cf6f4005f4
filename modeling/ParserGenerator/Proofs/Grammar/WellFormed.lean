import ParserGenerator.Grammar

/-!
# What an accepted list of rules guarantees

`Grammar.ofRules` checks that rules do not use reserved symbols and that the start symbol has a
rule. This module states once what follows for a grammar that was accepted, so that later proofs
speak of `Grammar.WellFormed` and never open `ofRules` again.

Results: `Grammar.wellFormed_of_ofRules`, and what it says about the three reserved symbols: no
right-hand side holds one of them (`not_reserved_of_mem_rhs`), and no rule defines the end of the
input (`endOfInput_terminal`).
-/

namespace ParserGenerator.Grammar

/-- What `ofRules` has checked, and where the sets of the grammar come from. -/
structure WellFormed (g : Grammar) : Prop where
  lhs_not_reserved : ∀ rule ∈ g.userRules, rule.lhs.isReserved = false
  rhs_not_reserved : ∀ rule ∈ g.userRules, ∀ symbol ∈ rule.rhs, symbol.isReserved = false
  start_defined : ∃ rule ∈ g.userRules, rule.lhs = g.startSymbol
  sets_eq : g.sets = GrammarSets.ofRules g.rules g.terminals g.nonterminals

/-! ## Helpers -/

theorem not_reserved_of_reservedUse? {names : SymbolTable} {rules : List Rule}
    (clean : reservedUse? names rules = none) {rule : Rule} (member : rule ∈ rules) :
    rule.lhs.isReserved = false ∧ ∀ symbol ∈ rule.rhs, symbol.isReserved = false := by
  induction rules with
  | nil => simp at member
  | cons first rest ih =>
      unfold reservedUse? at clean
      split at clean
      · cases clean
      · rename_i lhsClean
        split at clean
        · cases clean
        · rename_i rhsClean
          rcases List.mem_cons.1 member with equal | inRest
          · subst equal
            refine ⟨by simpa using lhsClean, fun symbol inRhs => ?_⟩
            simpa using List.find?_eq_none.1 rhsClean symbol inRhs
          · exact ih clean inRest

theorem isReserved_start : Symbol.start.isReserved = true := by decide

theorem isReserved_endOfInput : Symbol.endOfInput.isReserved = true := by decide

theorem isReserved_epsilon : Symbol.epsilon.isReserved = true := by decide

theorem ne_of_not_reserved {symbol reserved : Symbol} (free : symbol.isReserved = false)
    (isReserved : reserved.isReserved = true) : symbol ≠ reserved := by
  intro equal
  rw [equal, isReserved] at free
  cases free

/-! ## Accepted rules -/

theorem userRules_of_ofRules {rules : List Rule} {start : Option Symbol} {names : SymbolTable}
    {g : Grammar} (accepted : ofRules rules start names = .ok g) : g.userRules = rules := by
  unfold ofRules at accepted
  split at accepted
  · cases accepted
  · dsimp only at accepted
    split at accepted
    · cases accepted
    · split at accepted
      · cases accepted
        rfl
      · cases accepted

theorem startSymbol_of_ofRules {rules : List Rule} {start : Symbol} {names : SymbolTable}
    {g : Grammar} (accepted : ofRules rules (some start) names = .ok g) :
    g.startSymbol = start := by
  unfold ofRules at accepted
  split at accepted
  · cases accepted
  · dsimp only at accepted
    split at accepted
    · cases accepted
    · split at accepted
      · cases accepted
        rfl
      · cases accepted

/-- An accepted list of rules is a well-formed grammar. -/
theorem wellFormed_of_ofRules {rules : List Rule} {start : Option Symbol} {names : SymbolTable}
    {g : Grammar} (accepted : ofRules rules start names = .ok g) : g.WellFormed := by
  unfold ofRules at accepted
  split at accepted
  · cases accepted
  · dsimp only at accepted
    split at accepted
    · cases accepted
    · rename_i clean
      split at accepted
      · rename_i defined
        cases accepted
        refine ⟨fun rule member => (not_reserved_of_reservedUse? clean member).1,
          fun rule member => (not_reserved_of_reservedUse? clean member).2, ?_, rfl⟩
        obtain ⟨rule, member, same⟩ := List.any_eq_true.1 defined
        exact ⟨rule, member, by simpa using same⟩
      · cases accepted

theorem mem_rules {g : Grammar} {rule : Rule} :
    rule ∈ g.rules ↔ rule = Rule.plain Symbol.start [g.startSymbol] ∨ rule ∈ g.userRules :=
  List.mem_cons

theorem mem_rules_of_rule? {g : Grammar} {id : Nat} {rule : Rule} (found : g.rule? id = some rule) :
    rule ∈ g.rules := List.mem_of_getElem? found

theorem mem_userRules_of_rule? {g : Grammar} {id : Nat} {rule : Rule} (differs : id ≠ startRuleId)
    (found : g.rule? id = some rule) : rule ∈ g.userRules := by
  cases id with
  | zero => exact absurd rfl differs
  | succ index => exact List.mem_of_getElem? (i := index) found

theorem isNonterminal_iff {g : Grammar} {symbol : Symbol} :
    g.isNonterminal symbol = true ↔ ∃ rule ∈ g.rules, rule.lhs = symbol := by
  simp [isNonterminal, List.any_eq_true]

theorem isNonterminal_lhs {g : Grammar} {rule : Rule} (member : rule ∈ g.rules) :
    g.isNonterminal rule.lhs = true := isNonterminal_iff.2 ⟨rule, member, rfl⟩

theorem mem_rulesOf {g : Grammar} {symbol : Symbol} {id : Nat} {rule : Rule} :
    (id, rule) ∈ g.rulesOf symbol ↔ g.rule? id = some rule ∧ rule.lhs = symbol := by
  simp only [rulesOf, List.mem_filterMap, Prod.exists, rule?, List.mem_zipIdx_iff_getElem?]
  constructor
  · rintro ⟨other, index, found, kept⟩
    split at kept
    · rename_i lhs
      cases kept
      exact ⟨found, lhs⟩
    · cases kept
  · rintro ⟨found, lhs⟩
    exact ⟨rule, id, found, by simp [lhs]⟩

theorem exists_mem_rulesOf {g : Grammar} {rule : Rule} (member : rule ∈ g.rules) :
    ∃ id, (id, rule) ∈ g.rulesOf rule.lhs := by
  obtain ⟨id, found⟩ := List.getElem?_of_mem member
  exact ⟨id, mem_rulesOf.2 ⟨found, rfl⟩⟩

/-- The symbols of terminals: the end of the input, and what stands on a right-hand side but on no
left-hand side. -/
theorem mem_terminals {g : Grammar} {symbol : Symbol} :
    symbol ∈ g.terminals ↔ symbol = Symbol.endOfInput ∨
      (∃ rule ∈ g.rules, symbol ∈ rule.rhs) ∧ g.isNonterminal symbol = false := by
  have noRule : (g.rules.any (·.lhs == symbol)) = g.isNonterminal symbol := rfl
  simp only [terminals, terminalSymbols, List.mem_eraseDups, List.mem_cons, List.mem_filter,
    List.mem_flatMap, noRule, Bool.not_eq_true']

theorem mem_nonterminals {g : Grammar} {symbol : Symbol} :
    symbol ∈ g.nonterminals ↔ g.isNonterminal symbol = true := by
  simp [nonterminals, lhsSymbols, isNonterminal_iff]

namespace WellFormed

variable {g : Grammar} (formed : g.WellFormed)
include formed

/-- No right-hand side holds a reserved symbol, that of the start rule included. -/
theorem not_reserved_of_mem_rhs {rule : Rule} (member : rule ∈ g.rules) {symbol : Symbol}
    (inRhs : symbol ∈ rule.rhs) : symbol.isReserved = false := by
  rcases mem_rules.1 member with equal | inUser
  · subst equal
    obtain ⟨first, inUser, lhs⟩ := formed.start_defined
    have isStart : symbol = g.startSymbol := by simpa [Rule.plain, Rule.ofOptions] using inRhs
    rw [isStart, ← lhs]
    exact formed.lhs_not_reserved first inUser
  · exact formed.rhs_not_reserved rule inUser symbol inRhs

theorem start_not_mem_rhs {rule : Rule} (member : rule ∈ g.rules) :
    Symbol.start ∉ rule.rhs := fun inRhs =>
  ne_of_not_reserved (formed.not_reserved_of_mem_rhs member inRhs) isReserved_start rfl

theorem endOfInput_terminal : g.isNonterminal Symbol.endOfInput = false := by
  rw [Bool.eq_false_iff]
  intro isLhs
  obtain ⟨rule, member, lhs⟩ := isNonterminal_iff.1 isLhs
  rcases mem_rules.1 member with equal | inUser
  · rw [equal] at lhs
    change Symbol.start = Symbol.endOfInput at lhs
    exact absurd lhs (by decide)
  · exact ne_of_not_reserved (formed.lhs_not_reserved rule inUser) isReserved_endOfInput lhs

theorem isNonterminal_of_mem_terminals {symbol : Symbol} (terminal : symbol ∈ g.terminals) :
    g.isNonterminal symbol = false := by
  rcases mem_terminals.1 terminal with isEnd | ⟨_, notDefined⟩
  · exact isEnd ▸ formed.endOfInput_terminal
  · exact notDefined

theorem epsilon_not_mem_terminals : Symbol.epsilon ∉ g.terminals := by
  intro member
  rcases mem_terminals.1 member with equal | ⟨⟨rule, inRules, inRhs⟩, _⟩
  · exact absurd equal (by decide)
  · exact ne_of_not_reserved (formed.not_reserved_of_mem_rhs inRules inRhs) isReserved_epsilon rfl

end WellFormed

end ParserGenerator.Grammar
