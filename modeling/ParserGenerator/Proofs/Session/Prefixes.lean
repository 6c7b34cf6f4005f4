import ParserGenerator.Proofs.Grammar.Begins
import ParserGenerator.Proofs.Session.Runs

/-!
# Prefixes

Without conflicts, a session takes tokens as long as they begin something that is derived from the
start symbol, whether or not it can be completed to a string of tokens; with any generated table, it
takes no others.

Results: `Session.TakesAll.of_begins`, a run over the beginning of what is expected, and
`Table.takes_prefix_iff`.
-/

namespace ParserGenerator

variable {g : Grammar} {automaton : Automaton} {table : Table} {top : Nat} {states : List Nat}
  {read : List Symbol} {tokens : List Token}

/-! ## Tokens that begin what is expected -/

/-- A run takes the tokens that begin what is behind the marker of a valid item. -/
theorem Session.TakesAll.of_begins (exact : table.Exact g automaton) {string : SymbolString}
    (begins : Begins g string tokens) (path : automaton.Path (top :: states) read)
    (core : ItemCore) (nodes : List SyntaxTree) (stands : Stands g read core) {rule : Rule}
    (found : g.rule? core.rule = some rule) (expected : rule.rhs.drop core.marker = string) :
    ∃ log after, TakesAll table ⟨top :: states, nodes, false⟩ tokens log (.ok after) := by
  induction begins generalizing top states read core nodes rule with
  | stop => exact ⟨[], _, .nil _⟩
  | token terminal rest =>
      obtain ⟨expects, _⟩ := ItemCore.next_of_drop found expected
      obtain ⟨target, _, cell⟩ := exact.shift_of_expects path stands expects terminal
      exact ⟨[], _, .of_shift cell (.nil _)⟩
  | @tree tree rest next tokens valid behind ih =>
      obtain ⟨expects, behindRoot⟩ := ItemCore.next_of_drop found expected
      obtain ⟨target, edge⟩ := path.exists_edge exact.formed exact.canonical stands expects
      obtain ⟨more, derived⟩ := behind.derives
      rw [← behindRoot] at derived
      have canFollow : Behind g read core next.symbol :=
        .of_derives exact.formed found derived (behind.terminal next List.mem_cons_self)
      rw [ItemCore.rest_eq found] at behindRoot
      obtain ⟨log, after, later⟩ :=
        ih (.push path edge) core.shifted (tree.syntaxTree :: nodes) (.shift stands expects) found
          behindRoot
      exact ⟨_, after, runsOver_of_valid exact valid path stands expects canFollow edge later⟩
  | @inside inner tokens member _ rest ih =>
      obtain ⟨expects, _⟩ := ItemCore.next_of_drop found expected
      obtain ⟨id, ofNext⟩ := Grammar.exists_mem_rulesOf (Grammar.mem_rules.2 (.inr member))
      exact ih path ⟨id, 0⟩ nodes (.expand stands expects ofNext)
        (Grammar.mem_rulesOf.1 ofNext).1 rfl

/-! ## Tokens that were taken -/

theorem Automaton.Path.exists_stands (formed : g.WellFormed) (canonical : automaton.Canonical g)
    (path : automaton.Path states read) : ∃ core, Stands g read core := by
  cases path with
  | start => exact ⟨_, .start⟩
  | push path edge =>
      obtain ⟨core, stands, next⟩ := path.expects formed canonical edge
      exact ⟨core.shifted, .shift stands next⟩

theorem DerivationTree.Valid.root_ne_start (formed : g.WellFormed) {tree : DerivationTree}
    (valid : tree.Valid g) : Symbol.start ≠ tree.root := by
  cases valid with
  | leaf token terminal =>
      intro isStart
      have nonterminal : g.isNonterminal Symbol.start = true :=
        Grammar.isNonterminal_lhs (Grammar.mem_rules.2 (.inl rfl))
      rw [isStart] at nonterminal
      cases terminal.symm.trans nonterminal
  | node rule children member =>
      exact (Grammar.ne_of_not_reserved (formed.lhs_not_reserved rule member)
        Grammar.isReserved_start).symm

/-- The tokens that a session has taken begin a string that is derived from the start symbol. -/
theorem Session.Represents.derives (generated : table.Generated g automaton) {session : Session}
    {trees : List DerivationTree} (represents : session.Represents g automaton trees) :
    ∃ rest, Derives g.userRules [g.startSymbol]
      ((DerivationTree.yield trees).map Token.symbol ++ rest) := by
  have formed := generated.formed
  obtain ⟨core, stands⟩ := represents.path.exists_stands formed generated.canonical
  obtain ⟨rule, tail, _, derived⟩ := stands.derives formed
  have leaves := DerivationTree.derives_leavesOfAll fun tree (member : tree ∈ trees.reverse) =>
    (represents.valid tree (List.mem_reverse.1 member)).derives
  have noStart : Symbol.start ∉ trees.reverse.map DerivationTree.root := by
    intro member
    obtain ⟨tree, inTrees, isStart⟩ := List.mem_map.1 member
    have valid := represents.valid tree (List.mem_reverse.1 inTrees)
    exact valid.root_ne_start formed isStart.symm
  rw [← List.map_reverse] at derived
  exact ⟨_, derived.trans ((leaves.user formed noStart).append (.refl _))⟩

/-! ## The prefix property -/

/-- Tokens in front of the end of the input are all taken only if they begin a string of symbols
that is derived from the start symbol; without conflicts, they are taken whenever they do. -/
theorem Table.takes_prefix_iff {rules : List Rule} {start : Option Symbol}
    {names symbols : SymbolTable} {limit : Option Nat}
    (accepted : Grammar.ofRules rules start names = .ok g)
    (built : Table.ofGrammar g symbols limit = .ok table)
    (notEnd : ∀ token ∈ tokens, token.symbol ≠ Symbol.endOfInput)
    (terminal : ∀ token ∈ tokens, g.isNonterminal token.symbol = false) :
    ((∃ fuel session, Session.start.processAll table fuel tokens = some (.ok session)) →
      ∃ rest, Derives rules [g.startSymbol] (tokens.map Token.symbol ++ rest)) ∧
    (table.conflicts = [] →
      ((∃ enough session, ∀ fuel, enough ≤ fuel →
        Session.start.processAll table fuel tokens = some (.ok session)) ↔
      ∃ rest, Derives rules [g.startSymbol] (tokens.map Token.symbol ++ rest))) := by
  have isRules := Grammar.userRules_of_ofRules accepted
  have onlyIf (fuel : Nat) (session : Session)
      (processed : Session.start.processAll table fuel tokens = some (.ok session)) :
      ∃ rest, Derives rules [g.startSymbol] (tokens.map Token.symbol ++ rest) := by
    obtain ⟨automaton, generated⟩ := Table.generated_of_ofGrammar accepted built
    obtain ⟨log, takes⟩ := Session.takesAll_of_processAll processed
    rcases takes.represents generated (Session.represents_start g automaton) with
      ⟨trees, represents, yields⟩ | ⟨word, closing, _, isTokens, isEnd, _⟩
    · obtain ⟨rest, derived⟩ := represents.derives generated
      rw [yields, isRules] at derived
      exact ⟨rest, derived⟩
    · have inTokens : closing ∈ tokens := by
        rw [isTokens]
        exact List.mem_append.2 (.inr (List.mem_singleton.2 rfl))
      exact absurd isEnd (notEnd closing inTokens)
  refine ⟨fun ⟨fuel, session, processed⟩ => onlyIf fuel session processed, fun clean => ⟨?_, ?_⟩⟩
  · rintro ⟨enough, session, processed⟩
    exact onlyIf enough session (processed enough (Nat.le_refl enough))
  · rintro ⟨rest, derived⟩
    obtain ⟨automaton, exact⟩ := Table.exact_of_ofGrammar accepted built clean
    rw [← isRules] at derived
    have begins := Begins.of_derives derived terminal
    obtain ⟨log, session, takes⟩ :=
      Session.TakesAll.of_begins exact begins .start ⟨Grammar.startRuleId, 0⟩ [] .start
        Grammar.rule?_startRuleId rfl
    exact ⟨log.length + 1, session, fun fuel bound => takes.processAll bound⟩

theorem takes_prefix_iff_sequence :
    ∃ g table, Grammar.ofRules sequenceRules none SymbolTable.initial = .ok g ∧
      Table.ofGrammar g SymbolTable.initial none = .ok table ∧
      ((∃ fuel session,
        Session.start.processAll table fuel [sequenceToken] = some (.ok session)) →
        ∃ rest, Derives sequenceRules [g.startSymbol] ([sequenceToken].map Token.symbol ++ rest)) ∧
      (table.conflicts = [] →
        ((∃ enough session, ∀ fuel, enough ≤ fuel →
          Session.start.processAll table fuel [sequenceToken] = some (.ok session)) ↔
        ∃ rest, Derives sequenceRules [g.startSymbol]
          ([sequenceToken].map Token.symbol ++ rest))) := by
  obtain ⟨g, table, accepted, _, terminal, built, _⟩ := exists_sequenceTable
  have terminals : ∀ token ∈ [sequenceToken], g.isNonterminal token.symbol = false := by
    intro token member
    rw [List.mem_singleton.1 member]
    exact terminal
  exact ⟨g, table, accepted, built, Table.takes_prefix_iff accepted built (by decide) terminals⟩

end ParserGenerator
