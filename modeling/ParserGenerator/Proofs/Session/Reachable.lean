import ParserGenerator.Proofs.Session.Represents

/-!
# The sessions that are reached

A parse trusts its table: that the rule of a reduction exists, that the stacks are deep enough for
it, and that the state in front of its right-hand side has a goto. On generated tables this trust is
justified, also where entries were overwritten and also after tokens were refused. The state in
front of a right-hand side that was read expects the left-hand side, and a cell for a nonterminal is
written by nothing but the edge. So a token is refused by a cell or not at all, and an accepted
session has one tree.

Results: `Session.errors_of_reachable`.
-/

namespace ParserGenerator

/-! ## Definitions -/

/-- The sessions that are reached by feeding tokens, errors included. -/
inductive Session.Reachable (table : Table) : Session → Prop
  | start : Reachable table start
  | taken {session after : Session} {fuel : Nat} {token : Token}
      (reachable : Reachable table session)
      (processed : session.process table fuel token = some (.ok after)) : Reachable table after
  | failed {session : Session} {failure : Failure} {fuel : Nat} {token : Token}
      (reachable : Reachable table session)
      (processed : session.process table fuel token = some (.error failure)) :
      Reachable table failure.session

namespace Session

variable {g : Grammar} {automaton : Automaton} {table : Table} {session : Session}
  {trees : List DerivationTree} {token : Token}

/-! ## Reductions -/

/-- Where a rule was read, the table reduces by it. -/
theorem Represents.exists_reduce (driven : table.Driven g automaton)
    (represents : session.Represents g automaton trees) {id : Nat} {rule : Rule}
    (member : rule ∈ g.userRules) (found : g.rule? id = some rule)
    (stands : Stands g (trees.map DerivationTree.root) ⟨id, rule.rhs.length⟩) :
    ∃ after, session.reduce table id = .ok after := by
  obtain ⟨enough, _, path⟩ := represents.back found stands
  obtain ⟨top, below, back⟩ := path.exists_top
  have isNode : rule.rhs.length ≤ session.nodes.length := by
    rw [represents.nodes, List.length_map]
    exact enough
  -- Whatever began the rule expected its left-hand side in front of it.
  obtain ⟨_, _, _, _, began⟩ := stands.began
  obtain ⟨outer, outerStands, next⟩ :=
    began.expected_of_began (driven.formed.ne_startRuleId member found) found
  dsimp only at outerStands
  rw [← List.map_drop] at outerStands
  rw [back] at path
  obtain ⟨target, edge⟩ := path.exists_edge driven.formed driven.canonical outerStands next
  have nonterminal := Grammar.isNonterminal_lhs (Grammar.mem_rules_of_rule? found)
  exact ⟨_, reduce_of_goto ((driven.rule?_eq id).trans found) back
    (driven.goto_of_path path edge nonterminal) isNode⟩

/-! ## Refused tokens -/

/-- A token that is not taken is refused by the cell of a state, after reductions that leave the
session standing for derivation trees. -/
theorem Takes.refused (driven : table.Driven g automaton) {log : List Rule} {failure : Failure}
    (takes : session.Takes table token log (.error failure))
    (represents : session.Represents g automaton trees) :
    (∃ later, failure.session.Represents g automaton later) ∧
      ∃ top below, failure.session.states = top :: below ∧
        failure.error = .unexpectedToken top token (table.expected top) := by
  generalize isError : Except.error failure = outcome at takes
  induction takes generalizing trees with
  | shift => cases isError
  | accept => cases isError
  | reduce cell _ reduced _ ih =>
      obtain ⟨rule, member, found, awaits⟩ := driven.awaits_of_reduce represents.path cell
      exact ih (represents.reduce driven.toGenerated member found awaits.stands reduced) isError
  | fail cell failed =>
      obtain ⟨rule, member, found, awaits⟩ := driven.awaits_of_reduce represents.path cell
      obtain ⟨after, reduced⟩ := represents.exists_reduce driven member found awaits.stands
      cases reduced.symm.trans failed
  | refuse cell =>
      cases isError
      exact ⟨⟨trees, represents⟩, _, _, rfl, rfl⟩
  | bottom =>
      obtain ⟨top, below, isStates⟩ := represents.path.exists_top
      cases isStates

/-! ## All sessions -/

theorem takes_of_process {session : Session} {fuel : Nat} {outcome : Except Failure Session}
    (running : session.accepted = false)
    (processed : session.process table fuel token = some outcome) :
    ∃ log, session.Takes table token log outcome := by
  rw [process_of_running running] at processed
  obtain ⟨log, takes, _⟩ := takes_of_advance processed
  exact ⟨log, takes⟩

/-- A session that is reached stands for derivation trees, or it has accepted with one tree. -/
theorem Reachable.represents_or_closed (driven : table.Driven g automaton)
    (reachable : session.Reachable table) :
    (∃ trees, session.Represents g automaton trees) ∨
      (session.accepted = true ∧ ∃ tree, session.nodes = [tree]) := by
  induction reachable with
  | start => exact .inl ⟨[], represents_start g automaton⟩
  | @taken session after fuel token _ processed ih =>
      rcases ih with ⟨trees, represents⟩ | ⟨closed, _⟩
      · obtain ⟨log, takes⟩ := takes_of_process represents.running processed
        rcases takes.represents driven.toGenerated represents with
          ⟨later, shifted, _⟩ | ⟨_, closed, tree, _, _, _, nodes⟩
        · exact .inl ⟨later, shifted⟩
        · exact .inr ⟨closed, tree.syntaxTree, nodes⟩
      · rw [process_of_accepted closed] at processed
        cases processed
  | @failed session failure fuel token _ processed ih =>
      rcases ih with ⟨trees, represents⟩ | ⟨closed, single⟩
      · obtain ⟨log, takes⟩ := takes_of_process represents.running processed
        exact .inl (takes.refused driven represents).1
      · rw [process_of_accepted closed] at processed
        cases processed
        exact .inr ⟨closed, single⟩

/-- On a generated table, with conflicts or without, a token is refused by the cell of a state or
because it comes after the input, a session has no tree only when it has not accepted, and an
accepted session has a tree; no other error arises, also not after errors. -/
theorem errors_of_reachable {rules : List Rule} {start : Option Symbol}
    {names symbols : SymbolTable} {limit : Option Nat}
    (accepted : Grammar.ofRules rules start names = .ok g)
    (built : Table.ofGrammar g symbols limit = .ok table) (reachable : session.Reachable table) :
    (∀ fuel token failure, session.process table fuel token = some (.error failure) →
      (session.accepted = false ∧ ∃ top below, failure.session.states = top :: below ∧
        failure.error = .unexpectedToken top token (table.expected top)) ∨
      (session.accepted = true ∧ failure = ⟨.alreadyAccepted token.symbol, session⟩)) ∧
    (∀ error, session.finish table = .error error →
      session.accepted = false ∧ error = .unexpectedEnd (session.expected table)) ∧
    (session.accepted = true → ∃ tree, session.finish table = .ok tree) := by
  obtain ⟨automaton, driven⟩ := Table.driven_of_ofGrammar accepted built
  have closes : session.accepted = true → ∃ tree, session.finish table = .ok tree := by
    intro closed
    rcases reachable.represents_or_closed driven with ⟨_, represents⟩ | ⟨_, tree, single⟩
    · cases represents.running.symm.trans closed
    · refine ⟨tree, ?_⟩
      unfold finish
      rw [if_pos closed, single]
  refine ⟨fun fuel token failure processed => ?_, fun error finished => ?_, closes⟩
  · rcases reachable.represents_or_closed driven with ⟨trees, represents⟩ | ⟨closed, _⟩
    · obtain ⟨log, takes⟩ := takes_of_process represents.running processed
      exact .inl ⟨represents.running, (takes.refused driven represents).2⟩
    · rw [process_of_accepted closed] at processed
      cases processed
      exact .inr ⟨closed, rfl⟩
  · cases closed : session.accepted with
    | true =>
        obtain ⟨tree, isTree⟩ := closes closed
        cases isTree.symm.trans finished
    | false =>
        unfold finish at finished
        rw [closed, if_neg Bool.false_ne_true] at finished
        cases finished
        exact ⟨rfl, rfl⟩

/-- The ambiguous rules of rows: `3 := 3 3` and `3 := 4`. -/
def rowRules : List Rule := [Rule.plain ⟨3⟩ [⟨3⟩, ⟨3⟩], Rule.plain ⟨3⟩ [⟨4⟩]]

/-- An element of a row. -/
def rowToken : Token := ⟨⟨4⟩, "x", 0, 1⟩

/-- A token that no rule uses. -/
def strayToken : Token := ⟨⟨5⟩, "y", 1, 2⟩

/-- The session that has read the row of one element. -/
def rowRead : Session := ⟨[2, 0], [.leaf rowToken], false⟩

/-- The session that has accepted the row of one element. -/
def rowClosed : Session := ⟨[1, 0], [.branch ⟨3⟩ [.leaf rowToken]], true⟩

theorem exists_rowTable :
    ∃ g, Grammar.ofRules rowRules none SymbolTable.initial = .ok g ∧
      ∃ table, Table.ofGrammar g SymbolTable.initial none = .ok table ∧ table.conflicts ≠ [] ∧
        start.process table 2 rowToken = some (.ok rowRead) ∧
        rowRead.process table 2 strayToken =
          some (.error ⟨.unexpectedToken 2 strayToken [Symbol.endOfInput, ⟨4⟩], rowRead⟩) ∧
        rowRead.process table 2 (Token.endOfInput 2) = some (.ok rowClosed) := by
  decide +kernel

theorem errors_of_reachable_row :
    ∃ g table, Grammar.ofRules rowRules none SymbolTable.initial = .ok g ∧
      Table.ofGrammar g SymbolTable.initial none = .ok table ∧ table.conflicts ≠ [] ∧
      rowClosed.Reachable table ∧
      (∀ fuel token failure, rowClosed.process table fuel token = some (.error failure) →
        (rowClosed.accepted = false ∧ ∃ top below, failure.session.states = top :: below ∧
          failure.error = .unexpectedToken top token (table.expected top)) ∨
        (rowClosed.accepted = true ∧ failure = ⟨.alreadyAccepted token.symbol, rowClosed⟩)) ∧
      (∀ error, rowClosed.finish table = .error error →
        rowClosed.accepted = false ∧ error = .unexpectedEnd (rowClosed.expected table)) ∧
      (rowClosed.accepted = true → ∃ tree, rowClosed.finish table = .ok tree) := by
  obtain ⟨g, accepted, table, built, conflicts, first, refused, last⟩ := exists_rowTable
  have reachable : rowClosed.Reachable table := .taken (.failed (.taken .start first) refused) last
  exact ⟨g, table, accepted, built, conflicts, reachable,
    errors_of_reachable accepted built reachable⟩

end Session

end ParserGenerator
