import ParserGenerator.Proofs.Automaton.ItemSets
import ParserGenerator.Proofs.Grammar.Trees

/-!
# Valid items

What the states of the automaton stand for can be said without the automaton. After some symbols
have been read, an item is valid when the start item has been read and expanded up to it, and its
lookahead is what can follow its rule there. The symbols that were read are listed from the last
one on, as on the stack of a parse.

Results: `Stands.began`, that the right-hand side up to the marker was read last, and
`Stands.derives`, that what was read and what is expected is derived from the start symbol.
-/

namespace ParserGenerator

/-! ## Definitions -/

/-- The core is valid after `read`. -/
inductive Stands (g : Grammar) : List Symbol → ItemCore → Prop
  | start : Stands g [] ⟨Grammar.startRuleId, 0⟩
  | expand {read : List Symbol} {core : ItemCore} {symbol : Symbol} {id : Nat} {rule : Rule}
      (stands : Stands g read core) (next : core.nextSymbol g = some symbol)
      (ofNext : (id, rule) ∈ g.rulesOf symbol) : Stands g read ⟨id, 0⟩
  | shift {read : List Symbol} {core : ItemCore} {symbol : Symbol} (stands : Stands g read core)
      (next : core.nextSymbol g = some symbol) : Stands g (symbol :: read) core.shifted

/-- The terminal can follow the rule of the core, which is valid after `read`: it begins what is
expected behind the rule, or comes from further out because all of that can be empty. -/
inductive Awaits (g : Grammar) : List Symbol → ItemCore → Symbol → Prop
  | start : Awaits g [] ⟨Grammar.startRuleId, 0⟩ Symbol.endOfInput
  | first {read : List Symbol} {core : ItemCore} {symbol : Symbol} {id : Nat} {rule : Rule}
      {x : Symbol} (stands : Stands g read core) (next : core.nextSymbol g = some symbol)
      (ofNext : (id, rule) ∈ g.rulesOf symbol) (differs : x ≠ Symbol.epsilon)
      (begins : x ∈ g.firstOf (core.rest g)) : Awaits g read ⟨id, 0⟩ x
  | inherit {read : List Symbol} {core : ItemCore} {symbol : Symbol} {id : Nat} {rule : Rule}
      {x : Symbol} (awaits : Awaits g read core x) (next : core.nextSymbol g = some symbol)
      (ofNext : (id, rule) ∈ g.rulesOf symbol)
      (nullable : Symbol.epsilon ∈ g.firstOf (core.rest g)) : Awaits g read ⟨id, 0⟩ x
  | shift {read : List Symbol} {core : ItemCore} {symbol : Symbol} {x : Symbol}
      (awaits : Awaits g read core x) (next : core.nextSymbol g = some symbol) :
      Awaits g (symbol :: read) core.shifted x

/-- The terminal can stand right behind the symbol that the core expects. -/
def Behind (g : Grammar) (read : List Symbol) (core : ItemCore) (x : Symbol) : Prop :=
  (x ≠ Symbol.epsilon ∧ x ∈ g.firstOf (core.rest g)) ∨
    (Symbol.epsilon ∈ g.firstOf (core.rest g) ∧ Awaits g read core x)

/-! ## Rules of items -/

namespace Grammar

variable {g : Grammar}

theorem rule?_startRuleId : g.rule? startRuleId = some (Rule.plain Symbol.start [g.startSymbol]) :=
  rfl

theorem WellFormed.ne_startRuleId (formed : g.WellFormed) {id : Nat} {rule : Rule}
    (member : rule ∈ g.userRules) (found : g.rule? id = some rule) : id ≠ startRuleId := by
  intro isStart
  rw [isStart, rule?_startRuleId] at found
  cases found
  exact ne_of_not_reserved (formed.lhs_not_reserved _ member) isReserved_start rfl

/-- What an item expects is used in a right-hand side, so its rules are rules of the user. -/
theorem WellFormed.mem_userRules_of_next (formed : g.WellFormed) {core : ItemCore}
    {symbol : Symbol} (next : core.nextSymbol g = some symbol) {id : Nat} {rule : Rule}
    (ofNext : (id, rule) ∈ g.rulesOf symbol) : rule ∈ g.userRules ∧ id ≠ startRuleId := by
  obtain ⟨found, lhs⟩ := mem_rulesOf.1 ofNext
  obtain ⟨outer, isOuter, isNext⟩ := ItemCore.nextSymbol_eq_some.1 next
  have inRhs := List.mem_of_getElem? isNext
  have differs : rule.lhs ≠ Symbol.start := by
    intro equal
    rw [← lhs, equal] at inRhs
    exact formed.start_not_mem_rhs (mem_rules_of_rule? isOuter) inRhs
  constructor
  · rcases mem_rules.1 (mem_rules_of_rule? found) with isStart | member
    · exact absurd (congrArg Rule.lhs isStart) differs
    · exact member
  · intro isStart
    rw [isStart, rule?_startRuleId] at found
    exact differs (congrArg Rule.lhs (Option.some.inj found)).symm

end Grammar

variable {g : Grammar} {read : List Symbol} {core : ItemCore} {x : Symbol}

theorem Awaits.stands (awaits : Awaits g read core x) : Stands g read core := by
  induction awaits with
  | start => exact .start
  | first stands next ofNext _ _ => exact .expand stands next ofNext
  | inherit _ next ofNext _ ih => exact .expand ih next ofNext
  | shift _ next ih => exact .shift ih next

/-- The right-hand side up to the marker was read last, and in front of it the rule began. -/
theorem Stands.began (stands : Stands g read core) :
    ∃ rule, g.rule? core.rule = some rule ∧ core.marker ≤ rule.rhs.length ∧
      read.take core.marker = (rule.rhs.take core.marker).reverse ∧
      Stands g (read.drop core.marker) ⟨core.rule, 0⟩ := by
  induction stands with
  | start => exact ⟨_, Grammar.rule?_startRuleId, Nat.zero_le _, rfl, .start⟩
  | @expand read core symbol id rule stands next ofNext _ =>
      exact ⟨rule, (Grammar.mem_rulesOf.1 ofNext).1, Nat.zero_le _, rfl, .expand stands next ofNext⟩
  | @shift read core symbol _ next ih =>
      obtain ⟨rule, found, _, taken, began⟩ := ih
      rw [ItemCore.nextSymbol_eq found] at next
      obtain ⟨bound, isNext⟩ := List.getElem?_eq_some_iff.1 next
      refine ⟨rule, found, bound, ?_, began⟩
      show symbol :: read.take core.marker = (rule.rhs.take (core.marker + 1)).reverse
      rw [taken, List.take_succ_eq_append_getElem bound, isNext, List.reverse_append]
      rfl

/-- With the whole right-hand side behind the marker, as many symbols were read. -/
theorem Stands.length_le (stands : Stands g read core) : core.marker ≤ read.length := by
  obtain ⟨rule, _, bound, taken, _⟩ := stands.began
  have lengths := congrArg List.length taken
  rw [List.length_take, List.length_reverse, List.length_take] at lengths
  omega

/-- An item expects nothing more exactly when its marker is at the end. -/
theorem Stands.marker_eq_of_finished (stands : Stands g read core) {rule : Rule}
    (found : g.rule? core.rule = some rule) (finished : core.nextSymbol g = none) :
    core.marker = rule.rhs.length := by
  obtain ⟨other, isOther, bound, _, _⟩ := stands.began
  rw [found] at isOther
  cases isOther
  rw [ItemCore.nextSymbol_eq found, List.getElem?_eq_none_iff] at finished
  exact Nat.le_antisymm bound finished

/-- The start rule begins before anything is read. -/
theorem Stands.read_eq_of_startRule (formed : g.WellFormed)
    (stands : Stands g read ⟨Grammar.startRuleId, 0⟩) : read = [] := by
  generalize equal : (⟨Grammar.startRuleId, 0⟩ : ItemCore) = core at stands
  cases stands with
  | start => rfl
  | expand _ next ofNext =>
      exact absurd (congrArg ItemCore.rule equal).symm
        (formed.mem_userRules_of_next next ofNext).2
  | shift => cases congrArg ItemCore.marker equal

/-- A rule of the user begins where its left-hand side is expected. -/
theorem Stands.expected_of_began {id : Nat} (stands : Stands g read ⟨id, 0⟩)
    (differs : id ≠ Grammar.startRuleId) {rule : Rule} (found : g.rule? id = some rule) :
    ∃ outer, Stands g read outer ∧ outer.nextSymbol g = some rule.lhs := by
  generalize isCore : (⟨id, 0⟩ : ItemCore) = core at stands
  cases stands with
  | start => exact absurd (congrArg ItemCore.rule isCore) differs
  | @expand _ outer symbol id' rule' stands next ofNext =>
      cases isCore
      obtain ⟨isRule, lhs⟩ := Grammar.mem_rulesOf.1 ofNext
      cases found.symm.trans isRule
      rw [lhs]
      exact ⟨outer, stands, next⟩
  | shift => cases congrArg ItemCore.marker isCore

/-- What was read and what is expected is derived from the start symbol. -/
theorem Stands.derives (formed : g.WellFormed) (stands : Stands g read core) :
    ∃ rule tail, g.rule? core.rule = some rule ∧
      Derives g.userRules [g.startSymbol]
        (read.reverse ++ (rule.rhs.drop core.marker ++ tail)) := by
  induction stands with
  | start => exact ⟨_, [], Grammar.rule?_startRuleId, .refl _⟩
  | @expand read core symbol id rule _ next ofNext ih =>
      obtain ⟨outer, tail, isOuter, derived⟩ := ih
      obtain ⟨found, lhs⟩ := Grammar.mem_rulesOf.1 ofNext
      have member := (formed.mem_userRules_of_next next ofNext).1
      rw [ItemCore.drop_eq_cons isOuter next, ← lhs] at derived
      exact ⟨rule, core.rest g ++ tail, found,
        derived.trans (.step (.intro member read.reverse (core.rest g ++ tail)) (.refl _))⟩
  | @shift read core symbol _ next ih =>
      obtain ⟨rule, tail, found, derived⟩ := ih
      refine ⟨rule, tail, found, ?_⟩
      rw [ItemCore.drop_eq_cons found next, ItemCore.rest_eq found] at derived
      rw [List.reverse_cons, List.append_assoc]
      exact derived

/-- What is awaited is a terminal. -/
theorem Awaits.mem_terminals (formed : g.WellFormed) (awaits : Awaits g read core x) :
    x ∈ g.terminals := by
  induction awaits with
  | start => exact Grammar.mem_terminals.2 (.inl rfl)
  | first _ _ _ differs begins => exact (formed.firstOf_subset begins).resolve_right differs
  | inherit _ _ _ _ ih => exact ih
  | shift _ _ ih => exact ih

/-! ## Reading on -/

theorem ItemCore.next_of_drop {rule : Rule} (found : g.rule? core.rule = some rule)
    {symbol : Symbol} {rest : SymbolString}
    (expected : rule.rhs.drop core.marker = symbol :: rest) :
    core.nextSymbol g = some symbol ∧ core.rest g = rest := by
  have bound : core.marker < rule.rhs.length := by
    rw [← Nat.not_le, ← List.drop_eq_nil_iff, expected]
    exact List.cons_ne_nil _ _
  rw [List.drop_eq_getElem_cons bound, List.cons.injEq] at expected
  rw [nextSymbol_eq found, rest_eq found]
  exact ⟨List.getElem?_eq_some_iff.2 ⟨bound, expected.1⟩, expected.2⟩

theorem ItemCore.used_rest {rule : Rule} (found : g.rule? core.rule = some rule) :
    g.Used (core.rest g) := by
  rw [rest_eq found]
  exact (Grammar.used_rhs (Grammar.mem_rules_of_rule? found)).drop _

theorem Awaits.of_behind (stands : Stands g read core) (behind : Behind g read core x)
    {symbol : Symbol} (next : core.nextSymbol g = some symbol) {id : Nat} {rule : Rule}
    (ofNext : (id, rule) ∈ g.rulesOf symbol) : Awaits g read ⟨id, 0⟩ x := by
  rcases behind with ⟨differs, begins⟩ | ⟨nullable, awaits⟩
  · exact .first stands next ofNext differs begins
  · exact .inherit awaits next ofNext nullable

/-- What begins a string derived from the rest can stand behind the expected symbol. -/
theorem Behind.of_derives (formed : g.WellFormed) {rule : Rule}
    (found : g.rule? core.rule = some rule) {rest : SymbolString}
    (derived : Derives g.rules (core.rest g) (x :: rest)) (terminal : g.isNonterminal x = false) :
    Behind g read core x := by
  have used := ItemCore.used_rest found
  refine .inl ⟨?_, formed.mem_firstOf_of_derives used derived terminal⟩
  obtain ⟨other, member, inRhs⟩ := used.derives derived x List.mem_cons_self
  exact Grammar.ne_of_not_reserved (formed.not_reserved_of_mem_rhs member inRhs)
    Grammar.isReserved_epsilon

/-- Where the rest can be empty, what is awaited can stand behind the expected symbol. -/
theorem Behind.of_derives_nil (formed : g.WellFormed) (derived : Derives g.rules (core.rest g) [])
    (awaits : Awaits g read core x) : Behind g read core x :=
  .inr ⟨formed.epsilon_mem_firstOf_iff.2 derived, awaits⟩

/-- What is awaited where a rule began is awaited after some of its right-hand side. -/
theorem Stands.awaits_of_began (stands : Stands g read core)
    (began : Awaits g (read.drop core.marker) ⟨core.rule, 0⟩ x) : Awaits g read core x := by
  obtain ⟨id, marker⟩ := core
  induction marker generalizing read with
  | zero => exact began
  | succ marker ih =>
      generalize isCore : (⟨id, marker + 1⟩ : ItemCore) = core at stands
      cases stands with
      | start => cases isCore
      | expand => cases isCore
      | @shift earlier core symbol stands next =>
          obtain ⟨id', marker'⟩ := core
          cases isCore
          exact .shift (ih stands began) next

end ParserGenerator
