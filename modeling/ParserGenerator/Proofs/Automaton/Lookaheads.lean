import ParserGenerator.Proofs.Automaton.Collection
import ParserGenerator.Proofs.Grammar.Following

/-!
# Lookaheads and FOLLOW sets

A lookahead says what can stand behind a rule where the rule is expected, and FOLLOW of a
nonterminal says what can stand behind it anywhere. The two are computed in unrelated ways:
lookaheads are carried along by closures and moved over edges, and FOLLOW sets grow by passes over
the rules. What relates them is how a symbol comes to be awaited. An expansion hands on what begins
the rest of an item or, where the rest can be empty, what is awaited behind the item, and stable
FOLLOW sets have both already.

Results: `Automaton.lookaheads_within_follow`.
-/

namespace ParserGenerator

variable {g : Grammar}

/-- What is handed on by an expansion is in FOLLOW of the expanded nonterminal. -/
theorem GrammarSets.FollowClosed.mem_follow {sets : GrammarSets} (closed : sets.FollowClosed g)
    {core : ItemCore} {outer : Rule} (isOuter : g.rule? core.rule = some outer) {symbol : Symbol}
    (next : core.nextSymbol g = some symbol) {id : Nat} {rule : Rule}
    (ofNext : (id, rule) ∈ g.rulesOf symbol) :
    (∀ x ∈ sets.firstOf (core.rest g), x ≠ Symbol.epsilon → x ∈ sets.follow.get rule.lhs) ∧
      (Symbol.epsilon ∈ sets.firstOf (core.rest g) →
        ∀ x ∈ sets.follow.get outer.lhs, x ∈ sets.follow.get rule.lhs) := by
  obtain ⟨found, lhs⟩ := Grammar.mem_rulesOf.1 ofNext
  have split : outer.rhs = outer.rhs.take core.marker ++ symbol :: core.rest g := by
    rw [← ItemCore.drop_eq_cons isOuter next, List.take_append_drop]
  have nonterminal : g.isNonterminal symbol = true :=
    lhs ▸ Grammar.isNonterminal_lhs (Grammar.mem_rules_of_rule? found)
  rw [lhs]
  exact closed outer (Grammar.mem_rules_of_rule? isOuter) _ symbol _ split nonterminal

/-- What is awaited behind a rule can follow its left-hand side. -/
theorem Awaits.mem_follow (formed : g.WellFormed) {read : List Symbol} {core : ItemCore}
    {x : Symbol} (awaits : Awaits g read core x) :
    ∃ rule, g.rule? core.rule = some rule ∧ x ∈ g.sets.follow.get rule.lhs := by
  induction awaits with
  | start =>
      refine ⟨_, Grammar.rule?_startRuleId, ?_⟩
      have isFollow : g.sets.follow.get? Symbol.start = _ := formed.follow?_start
      change Symbol.endOfInput ∈ g.sets.follow.get Symbol.start
      rw [SetsBySymbol.get, isFollow]
      exact OrderedSet.mem_singleton.2 rfl
  | first stands next ofNext differs begins =>
      obtain ⟨outer, isOuter, _⟩ := stands.began
      have handed := formed.followClosed.mem_follow isOuter next ofNext
      exact ⟨_, (Grammar.mem_rulesOf.1 ofNext).1, handed.1 _ begins differs⟩
  | inherit _ next ofNext nullable ih =>
      obtain ⟨outer, isOuter, inFollow⟩ := ih
      have handed := formed.followClosed.mem_follow isOuter next ofNext
      exact ⟨_, (Grammar.mem_rulesOf.1 ofNext).1, handed.2 nullable _ inFollow⟩
  | shift _ _ ih => exact ih

namespace Automaton

variable {automaton : Automaton}

/-- Every state is reached over some symbols, and holds the items that are valid after these. -/
theorem exists_validAfter (formed : g.WellFormed) {limit : Option Nat}
    (built : generate g limit = .ok automaton) {state : AutomatonState}
    (member : state ∈ automaton.states) : ∃ read, state.items.ValidAfter g read := by
  obtain ⟨index, found⟩ := List.mem_iff_getElem?.1 member
  obtain ⟨below, read, path⟩ :=
    exists_path_of_generate built (List.getElem?_eq_some_iff.1 found).1
  have valid := path.validAfter formed (canonical_of_generate built)
  rw [itemsAt_of_getElem? found] at valid
  exact ⟨read, valid⟩

/-- In every state of the automaton, which is always built, each item is one of a rule of the
grammar, and its lookahead lies in FOLLOW of the left-hand side of the rule. -/
theorem lookaheads_within_follow {rules : List Rule} {start : Option Symbol} {names : SymbolTable}
    (accepted : Grammar.ofRules rules start names = .ok g) :
    (∃ automaton, generate g none = .ok automaton) ∧
      ∀ limit automaton, generate g limit = .ok automaton →
        ∀ state ∈ automaton.states, ∀ item ∈ state.items.items,
          ∃ rule following, g.rule? item.core.rule = some rule ∧
            g.follow? rule.lhs = some following ∧ ∀ x ∈ item.lookahead, x ∈ following := by
  have formed := Grammar.wellFormed_of_ofRules accepted
  refine ⟨exists_generate formed, fun limit automaton built state member item inItems => ?_⟩
  obtain ⟨read, valid⟩ := exists_validAfter formed built member
  have stands := (valid.has item.core).1 (ItemSet.has_iff.2 ⟨item, inItems, rfl⟩)
  obtain ⟨rule, found, _⟩ := stands.began
  have isKey : rule.lhs ∈ g.sets.follow.map Prod.fst := by
    rw [formed.within.follow_keys]
    exact List.mem_append.2 (.inr (Grammar.mem_nonterminals.2
      (Grammar.isNonterminal_lhs (Grammar.mem_rules_of_rule? found))))
  refine ⟨rule, g.sets.follow.get rule.lhs, found, SetsBySymbol.get?_eq_some_get isKey,
    fun x inLookahead => ?_⟩
  have awaits := (valid.looks item.core x).1
    (ItemSet.mem_lookahead_iff.2 ⟨item, inItems, rfl, inLookahead⟩)
  obtain ⟨same, isSame, inFollow⟩ := awaits.mem_follow formed
  cases found.symm.trans isSame
  exact inFollow

/-- The rules `3 := 4 6 5`, `3 := 7 6 8` and `6 := 9`, where what is behind `6` tells what was in
front of it. -/
def bracketRules : List Rule :=
  [Rule.plain ⟨3⟩ [⟨4⟩, ⟨6⟩, ⟨5⟩], Rule.plain ⟨3⟩ [⟨7⟩, ⟨6⟩, ⟨8⟩], Rule.plain ⟨6⟩ [⟨9⟩]]

/-- Both `5` and `8` can follow `6`, and behind a `4` only `5` is awaited. -/
theorem lookaheads_within_follow_bracket :
    ∃ g automaton state rule following,
      Grammar.ofRules bracketRules none SymbolTable.initial = .ok g ∧
      generate g none = .ok automaton ∧ state ∈ automaton.states ∧
      ⟨⟨3, 0⟩, OrderedSet.singleton ⟨5⟩⟩ ∈ state.items.items ∧ g.rule? 3 = some rule ∧
      g.follow? rule.lhs = some following ∧ following = OrderedSet.ofList [⟨5⟩, ⟨8⟩] ∧
      ∀ x ∈ (OrderedSet.singleton ⟨5⟩ : SymbolSet), x ∈ following := by
  have accepted : ∃ g, Grammar.ofRules bracketRules none SymbolTable.initial = .ok g ∧
      (generate g none).toOption.any (fun automaton => automaton.states.any fun state =>
        state.items.items.contains ⟨⟨3, 0⟩, OrderedSet.singleton ⟨5⟩⟩) = true ∧
      (g.rule? 3).bind (fun rule => g.follow? rule.lhs) = some (OrderedSet.ofList [⟨5⟩, ⟨8⟩]) :=
    ⟨_, rfl, by decide +kernel, by decide +kernel⟩
  obtain ⟨g, accepted, single, both⟩ := accepted
  obtain ⟨⟨automaton, built⟩, within⟩ := lookaheads_within_follow accepted
  rw [built] at single
  obtain ⟨state, member, holds⟩ := List.any_eq_true.1 single
  have inItems := List.contains_iff_mem.1 holds
  obtain ⟨rule, following, found, follow, within⟩ :=
    within none automaton built state member _ inItems
  rw [found, Option.bind_some, follow, Option.some.injEq] at both
  exact ⟨g, automaton, state, rule, following, accepted, built, member, inItems, found, follow,
    both, within⟩

end Automaton

end ParserGenerator
