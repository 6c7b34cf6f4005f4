import ParserGenerator.Proofs.Session.Prefixes
import ParserGenerator.Proofs.Session.Reachable

/-!
# Expected symbols

Without conflicts, a session knows at once what it can take: a token is taken exactly when its
symbol is expected, and otherwise it is refused before anything is reduced. A reduction that a cell
asks for is never in vain, because the terminal it is for is awaited behind the rule: it begins what
is behind the rule further out, or all of that can be empty and it is awaited there.

Results: `Session.process_exact`.
-/

namespace ParserGenerator

namespace Session

variable {g : Grammar} {automaton : Automaton} {table : Table} {top : Nat} {states : List Nat}
  {nodes : List SyntaxTree} {read : List Symbol} {token : Token}

/-! ## Reductions on awaited terminals -/

/-- A member of FIRST of what an item expects is a token that begins it. -/
theorem begins_of_mem_firstOf (formed : g.WellFormed) {core : ItemCore} {rule : Rule}
    (found : g.rule? core.rule = some rule)
    (differs : token.symbol ≠ Symbol.epsilon) (begins : token.symbol ∈ g.firstOf (core.rest g)) :
    Begins g (core.rest g) [token] := by
  have terminal := (formed.firstOf_subset begins).resolve_right differs
  obtain ⟨rest, derived⟩ := (formed.mem_firstOf_iff terminal).1 begins
  have noStart := formed.start_not_mem_used (ItemCore.used_rest found)
  refine Begins.of_derives (derived.user formed noStart) ?_
  intro other member
  rw [List.mem_singleton.1 member]
  exact formed.isNonterminal_of_mem_terminals terminal

/-- Where the rest of a right-hand side can be empty and the token is awaited behind the rule, a
run comes to the end of the rule. -/
theorem TakesAll.of_nullable (exact : table.Exact g automaton)
    (path : automaton.Path (top :: states) read) (sizes : nodes.length = read.length)
    {id marker : Nat} (stands : Stands g read ⟨id, marker⟩)
    (began : Awaits g (read.drop marker) ⟨id, 0⟩ token.symbol) {rule : Rule}
    (found : g.rule? id = some rule) (nullable : Derives g.rules (rule.rhs.drop marker) []) :
    ∃ last later stack, ∃ more : List SyntaxTree, automaton.Path (last :: later) stack ∧
      more.length = stack.length ∧ stack.drop rule.rhs.length = read.drop marker ∧
      Awaits g stack ⟨id, rule.rhs.length⟩ token.symbol ∧
      ∀ {log : List Rule} {after : Session},
        TakesAll table ⟨last :: later, more, false⟩ [token] log (.ok after) →
        ∃ log', TakesAll table ⟨top :: states, nodes, false⟩ [token] log' (.ok after) := by
  have noStart : Symbol.start ∉ rule.rhs.drop marker :=
    exact.formed.start_not_mem_used
      ((Grammar.used_rhs (Grammar.mem_rules_of_rule? found)).drop marker)
  obtain ⟨trees, valid, roots, leaves⟩ :=
    @DerivationTree.exists_forest g _ [] (nullable.user exact.formed noStart) nofun
  obtain ⟨last, later, lastPath, _, awaits, run⟩ :=
    TakesAll.of_forest exact (fun tree member => runsOver_of_valid exact (valid tree member)) valid
      path ⟨id, marker⟩ nodes [] found roots.symm (stands.awaits_of_began began)
  have count : trees.length + marker = rule.rhs.length := by
    obtain ⟨other, isOther, bound, _⟩ := stands.began
    cases found.symm.trans isOther
    have lengths := congrArg List.length roots
    rw [List.length_map, List.length_drop] at lengths
    rw [lengths]
    exact Nat.sub_add_cancel bound
  refine ⟨last, later, _, (trees.map DerivationTree.syntaxTree).reverse ++ nodes, lastPath, ?_, ?_,
    ?_, fun {log after} final => ⟨DerivationTree.postorderOfAll trees ++ log, ?_⟩⟩
  · rw [List.length_append, List.length_append, List.length_reverse, List.length_reverse,
      List.length_map, List.length_map, sizes]
  · have front : (trees.map DerivationTree.root).reverse.length = trees.length := by
      rw [List.length_reverse, List.length_map]
    rw [← count, ← List.drop_drop, ← front, List.drop_left]
  · rw [← count, Nat.add_comm]
    exact awaits
  · have whole := run final
    rw [leaves] at whole
    exact whole

/-- In the same way a run comes to the end of the rule and goes over its left-hand side, where the
rule was expected. -/
theorem TakesAll.of_inner (exact : table.Exact g automaton)
    (path : automaton.Path (top :: states) read) (sizes : nodes.length = read.length)
    {id marker : Nat} (stands : Stands g read ⟨id, marker⟩) {outer : ItemCore} {symbol : Symbol}
    (outerStands : Stands g (read.drop marker) outer) (next : outer.nextSymbol g = some symbol)
    {rule : Rule} (ofNext : (id, rule) ∈ g.rulesOf symbol)
    (began : Awaits g (read.drop marker) ⟨id, 0⟩ token.symbol)
    (nullable : Derives g.rules (rule.rhs.drop marker) []) :
    ∃ target below, ∃ more : List SyntaxTree,
      automaton.Path (target :: below) (symbol :: read.drop marker) ∧
      more.length = (symbol :: read.drop marker).length ∧
      ∀ {log : List Rule} {after : Session},
        TakesAll table ⟨target :: below, more, false⟩ [token] log (.ok after) →
        ∃ log', TakesAll table ⟨top :: states, nodes, false⟩ [token] log' (.ok after) := by
  obtain ⟨found, lhs⟩ := Grammar.mem_rulesOf.1 ofNext
  have differs := (exact.formed.mem_userRules_of_next next ofNext).2
  obtain ⟨last, later, stack, trees, lastPath, stackSizes, front, atEnd, run⟩ :=
    of_nullable exact path sizes stands began found nullable
  have bound := atEnd.stands.length_le
  have backPath := lastPath.drop bound
  obtain ⟨source, below, back⟩ := backPath.exists_top
  dsimp only at bound backPath back
  rw [back, front] at backPath
  obtain ⟨target, edge⟩ := backPath.exists_edge exact.formed exact.canonical outerStands next
  have edgeOver : automaton.Edge source rule.lhs target := by
    rw [lhs]
    exact edge
  refine ⟨target, source :: below,
    rule.treeOf (trees.take rule.rhs.length).reverse :: trees.drop rule.rhs.length,
    .push backPath edge, ?_, fun {log after} final => ?_⟩
  · rw [List.length_cons, List.length_cons, List.length_drop, stackSizes, ← List.length_drop, front]
  · exact run
      (.of_awaits exact lastPath found differs atEnd back edgeOver (stackSizes ▸ bound) final)

/-- A token that is awaited behind a rule is taken, after reductions by the rule and by rules
further out. -/
theorem TakesAll.of_awaited (exact : table.Exact g automaton) {earlier : List Symbol}
    {core : ItemCore} {x : Symbol} (awaits : Awaits g earlier core x) (isX : token.symbol = x)
    (path : automaton.Path (top :: states) read) (sizes : nodes.length = read.length) {marker : Nat}
    (stands : Stands g read ⟨core.rule, marker⟩)
    (same : read.drop marker = earlier.drop core.marker) {rule : Rule}
    (found : g.rule? core.rule = some rule) (nullable : Derives g.rules (rule.rhs.drop marker) []) :
    ∃ log after, TakesAll table ⟨top :: states, nodes, false⟩ [token] log (.ok after) := by
  -- The induction goes outward: behind the rule the terminal is read, or it is awaited there.
  induction awaits generalizing top states nodes read marker rule with
  | start =>
      have began : Awaits g (read.drop marker) ⟨Grammar.startRuleId, 0⟩ token.symbol := by
        rw [same, isX]
        exact .start
      obtain ⟨last, later, stack, more, lastPath, _, _, atEnd, run⟩ :=
        of_nullable exact path sizes stands began found nullable
      cases found
      have cell := exact.accept_of_stands lastPath atEnd.stands
      rw [← isX] at cell
      obtain ⟨log, takes⟩ := run (.cons rfl (.accept cell) (.nil _))
      exact ⟨log, _, takes⟩
  | @first earlier outer symbol id inner x outerStands next ofNext differs begins =>
      cases found.symm.trans (Grammar.mem_rulesOf.1 ofNext).1
      have began := Awaits.first outerStands next ofNext differs begins
      replace same : read.drop marker = earlier := same
      rw [← isX] at began
      rw [← same] at outerStands began
      obtain ⟨target, below, more, targetPath, _, run⟩ :=
        of_inner exact path sizes stands outerStands next ofNext began nullable
      obtain ⟨outerRule, isOuter, _⟩ := outerStands.began
      have reads : Begins g (outer.rest g) [token] := by
        rw [← isX] at begins differs
        exact begins_of_mem_firstOf exact.formed isOuter differs begins
      obtain ⟨log, after, takes⟩ := TakesAll.of_begins exact reads targetPath outer.shifted more
        (.shift outerStands next) isOuter (ItemCore.rest_eq isOuter).symm
      obtain ⟨log', takes'⟩ := run takes
      exact ⟨log', after, takes'⟩
  | @inherit earlier outer symbol id inner x outerAwaits next ofNext outerNullable ih =>
      cases found.symm.trans (Grammar.mem_rulesOf.1 ofNext).1
      have began := Awaits.inherit outerAwaits next ofNext outerNullable
      have outerStands := outerAwaits.stands
      replace same : read.drop marker = earlier := same
      rw [← isX] at began
      rw [← same] at outerStands began
      obtain ⟨target, below, more, targetPath, moreSizes, run⟩ :=
        of_inner exact path sizes stands outerStands next ofNext began nullable
      obtain ⟨outerRule, isOuter, _⟩ := outerStands.began
      have empty := exact.formed.epsilon_mem_firstOf_iff.1 outerNullable
      rw [ItemCore.rest_eq isOuter] at empty
      obtain ⟨log, after, takes⟩ := ih isX targetPath moreSizes (.shift outerStands next)
        (congrArg (List.drop outer.marker) same) isOuter empty
      obtain ⟨log', takes'⟩ := run takes
      exact ⟨log', after, takes'⟩
  | shift _ _ ih => exact ih isX path sizes stands same found nullable

/-! ## All sessions -/

theorem TakesAll.takes {session after : Session} {log : List Rule}
    (all : session.TakesAll table [token] log (.ok after)) :
    ∃ log, session.Takes table token log (.ok after) := by
  cases all with
  | cons _ takes takesRest =>
      cases takesRest
      exact ⟨_, takes⟩

/-- A token is taken if its symbol is expected, and otherwise it is refused at once. -/
theorem Represents.takes_or_refuses (exact : table.Exact g automaton) {session : Session}
    {trees : List DerivationTree} (represents : session.Represents g automaton trees)
    (token : Token) :
    (token.symbol ∈ session.expected table ∧
      ∃ log after, session.Takes table token log (.ok after)) ∨
    (token.symbol ∉ session.expected table ∧ ∃ top below, session.states = top :: below ∧
      session.Takes table token []
        (.error ⟨.unexpectedToken top token (session.expected table), session⟩)) := by
  obtain ⟨states, nodes, accepted⟩ := session
  obtain ⟨path, isNodes, valid, running⟩ := represents
  dsimp only at path isNodes running
  obtain ⟨top, below, isStates⟩ := path.exists_top
  subst isStates running
  have expects : token.symbol ∈ expected table ⟨top :: below, nodes, false⟩ ↔
      ∃ entry, table.get? top token.symbol = some entry ∧ entry.isAction = true :=
    Table.mem_expected_iff exact.distinct
  by_cases isExpected : token.symbol ∈ expected table ⟨top :: below, nodes, false⟩
  · refine .inl ⟨isExpected, ?_⟩
    obtain ⟨entry, cell, action⟩ := expects.1 isExpected
    cases entry with
    | shift next => exact ⟨[], _, .shift cell⟩
    | accept => exact ⟨[], _, .accept cell⟩
    | goto => cases action
    | reduce id =>
        obtain ⟨rule, _, found, awaits⟩ := exact.awaits_of_reduce path cell
        have sizes : nodes.length = (trees.map DerivationTree.root).length := by
          rw [isNodes, List.length_map, List.length_map]
        have nothing : Derives g.rules (rule.rhs.drop rule.rhs.length) [] := by
          rw [List.drop_length]
          exact .refl []
        obtain ⟨log, after, all⟩ :=
          TakesAll.of_awaited exact awaits rfl path sizes awaits.stands rfl found nothing
        obtain ⟨log', takes⟩ := all.takes
        exact ⟨log', after, takes⟩
  · refine .inr ⟨isExpected, top, below, rfl, .refuse fun entry cell => ?_⟩
    rw [Bool.eq_false_iff]
    exact fun action => isExpected (expects.2 ⟨entry, cell, action⟩)

/-- A session that is reached and has not accepted stands for derivation trees. -/
theorem Reachable.represents (exact : table.Exact g automaton) {session : Session}
    (reachable : session.Reachable table) (running : session.accepted = false) :
    ∃ trees, session.Represents g automaton trees := by
  rcases reachable.represents_or_closed exact.driven with represents | ⟨closed, _⟩
  · exact represents
  · cases running.symm.trans closed

/-- Without conflicts, a token is taken after finitely many reductions exactly when its symbol is
expected; otherwise it is refused before any reduction, and the session is left as it was. -/
theorem process_exact {rules : List Rule} {start : Option Symbol} {names symbols : SymbolTable}
    {limit : Option Nat} (accepted : Grammar.ofRules rules start names = .ok g)
    (built : Table.ofGrammar g symbols limit = .ok table) (clean : table.conflicts = [])
    {session : Session} (reachable : session.Reachable table) (running : session.accepted = false)
    (token : Token) :
    ∃ log outcome, session.Takes table token log outcome ∧
      (∀ fuel, log.length < fuel → session.process table fuel token = some outcome) ∧
      ((∃ after, outcome = .ok after) ↔ token.symbol ∈ session.expected table) ∧
      ∀ failure, outcome = .error failure → log = [] ∧ ∃ top below, session.states = top :: below ∧
        failure = ⟨.unexpectedToken top token (session.expected table), session⟩ := by
  obtain ⟨automaton, exact⟩ := Table.exact_of_ofGrammar accepted built clean
  obtain ⟨trees, represents⟩ := reachable.represents exact running
  rcases represents.takes_or_refuses exact token with
    ⟨isExpected, log, after, takes⟩ | ⟨notExpected, top, below, isStates, refuses⟩
  · refine ⟨log, .ok after, takes, fun fuel bound => ?_,
      ⟨fun _ => isExpected, fun _ => ⟨after, rfl⟩⟩, fun failure isError => ?_⟩
    · exact (process_of_running running fuel token).trans (takes.advance bound)
    · cases isError
  · refine ⟨[], _, refuses, fun fuel bound => ?_, ⟨fun ⟨_, isOk⟩ => ?_, fun isExpected => ?_⟩,
      fun failure isError => ?_⟩
    · exact (process_of_running running fuel token).trans (refuses.advance bound)
    · cases isOk
    · exact absurd isExpected notExpected
    · cases isError
      exact ⟨rfl, top, below, isStates, rfl⟩

theorem process_exact_sequence :
    ∃ g table, Grammar.ofRules sequenceRules none SymbolTable.initial = .ok g ∧
      Table.ofGrammar g SymbolTable.initial none = .ok table ∧ table.conflicts = [] ∧
      ∃ log outcome, start.Takes table sequenceToken log outcome ∧
        (∀ fuel, log.length < fuel → start.process table fuel sequenceToken = some outcome) ∧
        ((∃ after, outcome = .ok after) ↔ sequenceToken.symbol ∈ start.expected table) ∧
        ∀ failure, outcome = .error failure → log = [] ∧ ∃ top below, start.states = top :: below ∧
          failure = ⟨.unexpectedToken top sequenceToken (start.expected table), start⟩ := by
  obtain ⟨g, table, accepted, _, _, built, clean, _⟩ := exists_sequenceTable
  exact ⟨g, table, accepted, built, clean,
    process_exact accepted built clean .start rfl sequenceToken⟩

end Session

end ParserGenerator
