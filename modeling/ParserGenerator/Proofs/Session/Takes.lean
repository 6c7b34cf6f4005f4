import ParserGenerator.Session

/-!
# What a session does with its tokens

A session takes a token after some reductions, or refuses it. `Takes` and `TakesAll` tell this
without a bound on the number of steps, together with the rules of the reductions in the order in
which they are performed. The bounded functions have an outcome exactly when their bound is larger
than the number of reductions that this takes.

Results: `Session.advance_eq_some_iff`, `Session.takesAll_of_processAll` and
`Session.TakesAll.processAll`.
-/

namespace ParserGenerator.Session

/-! ## Definitions -/

/-- The session reduces by the rules of the log and then takes the token or stops with an error. -/
inductive Takes (table : Table) (token : Token) :
    Session → List Rule → Except Failure Session → Prop
  | shift {top next : Nat} {below : List Nat} {nodes : List SyntaxTree} {accepted : Bool}
      (cell : table.get? top token.symbol = some (.shift next)) :
      Takes table token ⟨top :: below, nodes, accepted⟩ []
        (.ok ⟨next :: top :: below, .leaf token :: nodes, accepted⟩)
  | accept {top : Nat} {below : List Nat} {nodes : List SyntaxTree} {accepted : Bool}
      (cell : table.get? top token.symbol = some .accept) :
      Takes table token ⟨top :: below, nodes, accepted⟩ [] (.ok ⟨top :: below, nodes, true⟩)
  | reduce {top id : Nat} {below : List Nat} {nodes : List SyntaxTree} {accepted : Bool}
      {rule : Rule} {after : Session} {log : List Rule} {outcome : Except Failure Session}
      (cell : table.get? top token.symbol = some (.reduce id)) (known : table.rule? id = some rule)
      (reduced : reduce table ⟨top :: below, nodes, accepted⟩ id = .ok after)
      (later : Takes table token after log outcome) :
      Takes table token ⟨top :: below, nodes, accepted⟩ (rule :: log) outcome
  | fail {top id : Nat} {below : List Nat} {nodes : List SyntaxTree} {accepted : Bool}
      {failure : Failure} (cell : table.get? top token.symbol = some (.reduce id))
      (failed : reduce table ⟨top :: below, nodes, accepted⟩ id = .error failure) :
      Takes table token ⟨top :: below, nodes, accepted⟩ [] (.error failure)
  | refuse {top : Nat} {below : List Nat} {nodes : List SyntaxTree} {accepted : Bool}
      (cell : ∀ entry, table.get? top token.symbol = some entry → entry.isAction = false) :
      Takes table token ⟨top :: below, nodes, accepted⟩ []
        (.error ⟨.unexpectedToken top token (table.expected top), ⟨top :: below, nodes, accepted⟩⟩)
  | bottom {nodes : List SyntaxTree} {accepted : Bool} :
      Takes table token ⟨[], nodes, accepted⟩ []
        (.error ⟨.emptyStateStack, ⟨[], nodes, accepted⟩⟩)

/-- The session takes the tokens one after the other, or stops with the first error; the log has
the rules of all reductions. -/
inductive TakesAll (table : Table) :
    Session → List Token → List Rule → Except Failure Session → Prop
  | nil (session : Session) : TakesAll table session [] [] (.ok session)
  | cons {session after : Session} {token : Token} {rest : List Token} {log later : List Rule}
      {outcome : Except Failure Session} (running : session.accepted = false)
      (takes : session.Takes table token log (.ok after))
      (takesRest : TakesAll table after rest later outcome) :
      TakesAll table session (token :: rest) (log ++ later) outcome
  | fail {session : Session} {token : Token} {rest : List Token} {log : List Rule}
      {failure : Failure} (running : session.accepted = false)
      (takes : session.Takes table token log (.error failure)) :
      TakesAll table session (token :: rest) log (.error failure)
  | finished {session : Session} {token : Token} {rest : List Token}
      (accepted : session.accepted = true) :
      TakesAll table session (token :: rest) []
        (.error ⟨.alreadyAccepted token.symbol, session⟩)

/-! ## One reduction -/

variable {table : Table} {session : Session} {id : Nat}

theorem exists_rule_of_reduce {after : Session}
    (reduced : session.reduce table id = .ok after) : ∃ rule, table.rule? id = some rule := by
  unfold reduce at reduced
  cases found : table.rule? id with
  | none =>
      rw [found] at reduced
      cases reduced
  | some rule => exact ⟨rule, rfl⟩

variable {rule : Rule} {top : Nat} {below : List Nat}

/-- With a tree for each symbol of the right-hand side, a reduction goes from the state in front of
them over the left-hand side. -/
theorem reduce_of_goto {next : Nat} (known : table.rule? id = some rule)
    (back : session.states.drop rule.rhs.length = top :: below)
    (cell : table.get? top rule.lhs = some (.goto next))
    (enough : rule.rhs.length ≤ session.nodes.length) :
    session.reduce table id = .ok { session with
      states := next :: top :: below
      nodes := rule.treeOf (session.nodes.take rule.rhs.length).reverse ::
        session.nodes.drop rule.rhs.length } := by
  unfold reduce
  rw [known]
  dsimp only
  rw [back]
  dsimp only
  rw [cell]
  exact reduceNodes_of_le enough

theorem goto_of_reduce {after : Session} (known : table.rule? id = some rule)
    (back : session.states.drop rule.rhs.length = top :: below)
    (reduced : session.reduce table id = .ok after) :
    ∃ next, table.get? top rule.lhs = some (.goto next) := by
  unfold reduce at reduced
  rw [known] at reduced
  dsimp only at reduced
  rw [back] at reduced
  dsimp only at reduced
  split at reduced
  · rename_i next cell
    exact ⟨next, cell⟩
  · cases reduced

/-! ## One token -/

variable {token : Token} {log : List Rule} {outcome : Except Failure Session}

theorem takes_of_advance {fuel : Nat} (advanced : session.advance table token fuel = some outcome) :
    ∃ log, session.Takes table token log outcome ∧ log.length < fuel := by
  induction fuel generalizing session with
  | zero => cases advanced
  | succ fuel ih =>
      obtain ⟨states, nodes, accepted⟩ := session
      cases states with
      | nil =>
          cases advanced
          exact ⟨[], .bottom, Nat.zero_lt_succ fuel⟩
      | cons top below =>
          unfold advance at advanced
          dsimp only at advanced
          split at advanced
          · rename_i next cell
            cases advanced
            exact ⟨[], .shift cell, Nat.zero_lt_succ fuel⟩
          · rename_i cell
            cases advanced
            exact ⟨[], .accept cell, Nat.zero_lt_succ fuel⟩
          · rename_i id cell
            split at advanced
            · rename_i after reduced
              obtain ⟨rule, known⟩ := exists_rule_of_reduce reduced
              obtain ⟨log, later, bound⟩ := ih advanced
              exact ⟨rule :: log, .reduce cell known reduced later, Nat.succ_lt_succ bound⟩
            · rename_i failure failed
              cases advanced
              exact ⟨[], .fail cell failed, Nat.zero_lt_succ fuel⟩
          · rename_i noShift noAccept noReduce
            cases advanced
            refine ⟨[], .refuse fun entry cell => ?_, Nat.zero_lt_succ fuel⟩
            cases entry with
            | shift next => exact absurd cell (noShift next)
            | reduce id => exact absurd cell (noReduce id)
            | accept => exact absurd cell noAccept
            | goto => rfl

theorem Takes.advance_succ (takes : session.Takes table token log outcome) {fuel : Nat}
    (bound : log.length ≤ fuel) : session.advance table token (fuel + 1) = some outcome := by
  induction takes generalizing fuel with
  | shift cell =>
      rw [Session.advance]
      dsimp only
      rw [cell]
  | accept cell =>
      rw [Session.advance]
      dsimp only
      rw [cell]
  | reduce cell _ reduced _ ih =>
      cases fuel with
      | zero => cases bound
      | succ fuel =>
          rw [Session.advance]
          dsimp only
          rw [cell]
          dsimp only
          rw [reduced]
          exact ih (Nat.le_of_succ_le_succ bound)
  | fail cell failed =>
      rw [Session.advance]
      dsimp only
      rw [cell]
      dsimp only
      rw [failed]
  | @refuse top below nodes accepted cell =>
      rw [Session.advance]
      dsimp only
      cases found : table.get? top token.symbol with
      | none => rfl
      | some entry =>
          have noAction := cell entry found
          cases entry with
          | goto => rfl
          | shift | reduce | accept => cases noAction
  | bottom => rfl

theorem Takes.advance (takes : session.Takes table token log outcome) {fuel : Nat}
    (bound : log.length < fuel) : session.advance table token fuel = some outcome := by
  cases fuel with
  | zero => cases bound
  | succ fuel => exact takes.advance_succ (Nat.le_of_lt_succ bound)

/-- A bound gives the outcome exactly when it is larger than the number of reductions. -/
theorem advance_eq_some_iff {fuel : Nat} :
    session.advance table token fuel = some outcome ↔
      ∃ log, session.Takes table token log outcome ∧ log.length < fuel :=
  ⟨takes_of_advance, fun ⟨_, takes, bound⟩ => takes.advance bound⟩

theorem Takes.unique {log' : List Rule} {outcome' : Except Failure Session}
    (one : session.Takes table token log outcome)
    (other : session.Takes table token log' outcome') : log = log' ∧ outcome = outcome' := by
  induction one generalizing log' with
  | shift cell =>
      cases other with
      | shift cell' => cases cell.symm.trans cell'; exact ⟨rfl, rfl⟩
      | accept cell' => cases cell.symm.trans cell'
      | reduce cell' => cases cell.symm.trans cell'
      | fail cell' => cases cell.symm.trans cell'
      | refuse cell' => cases cell' _ cell
  | accept cell =>
      cases other with
      | shift cell' => cases cell.symm.trans cell'
      | accept cell' => exact ⟨rfl, rfl⟩
      | reduce cell' => cases cell.symm.trans cell'
      | fail cell' => cases cell.symm.trans cell'
      | refuse cell' => cases cell' _ cell
  | reduce cell known reduced _ ih =>
      cases other with
      | shift cell' => cases cell.symm.trans cell'
      | accept cell' => cases cell.symm.trans cell'
      | reduce cell' known' reduced' later' =>
          cases cell.symm.trans cell'
          cases known.symm.trans known'
          cases reduced.symm.trans reduced'
          obtain ⟨sameLog, sameOutcome⟩ := ih later'
          exact ⟨congrArg _ sameLog, sameOutcome⟩
      | fail cell' failed' =>
          cases cell.symm.trans cell'
          cases reduced.symm.trans failed'
      | refuse cell' => cases cell' _ cell
  | fail cell failed =>
      cases other with
      | shift cell' => cases cell.symm.trans cell'
      | accept cell' => cases cell.symm.trans cell'
      | reduce cell' known' reduced' later' =>
          cases cell.symm.trans cell'
          cases failed.symm.trans reduced'
      | fail cell' failed' =>
          cases cell.symm.trans cell'
          cases failed.symm.trans failed'
          exact ⟨rfl, rfl⟩
      | refuse cell' => cases cell' _ cell
  | refuse cell =>
      cases other with
      | shift cell' | accept cell' | reduce cell' | fail cell' => cases cell _ cell'
      | refuse => exact ⟨rfl, rfl⟩
  | bottom =>
      cases other
      exact ⟨rfl, rfl⟩

/-! ## Many tokens -/

theorem process_of_accepted (accepted : session.accepted = true) (fuel : Nat) (token : Token) :
    session.process table fuel token =
      some (.error ⟨.alreadyAccepted token.symbol, session⟩) := by
  unfold process
  rw [accepted]
  rfl

theorem process_of_running (running : session.accepted = false) (fuel : Nat) (token : Token) :
    session.process table fuel token = session.advance table token fuel := by
  unfold process
  rw [running, if_neg Bool.false_ne_true]

variable {tokens rest : List Token}

theorem takesAll_of_processAll {fuel : Nat}
    (processed : session.processAll table fuel tokens = some outcome) :
    ∃ log, session.TakesAll table tokens log outcome := by
  induction tokens generalizing session with
  | nil =>
      cases processed
      exact ⟨[], .nil session⟩
  | cons token rest ih =>
      unfold processAll at processed
      cases finished : session.accepted with
      | true =>
          rw [process_of_accepted finished] at processed
          cases processed
          exact ⟨[], .finished finished⟩
      | false =>
          rw [process_of_running finished] at processed
          obtain ⟨first, advanced, later⟩ := Option.bind_eq_some_iff.1 processed
          obtain ⟨log, takes, _⟩ := takes_of_advance advanced
          cases first with
          | ok after =>
              obtain ⟨log', takesRest⟩ := ih later
              exact ⟨log ++ log', .cons finished takes takesRest⟩
          | error failure =>
              cases later
              exact ⟨log, .fail finished takes⟩

/-- A bound that is larger than the number of all reductions is enough for each token. -/
theorem TakesAll.processAll (takes : session.TakesAll table tokens log outcome) {fuel : Nat}
    (bound : log.length < fuel) : session.processAll table fuel tokens = some outcome := by
  induction takes with
  | nil => rfl
  | @cons session after token rest log later outcome running takes _ ih =>
      rw [List.length_append] at bound
      have advanced := takes.advance (Nat.lt_of_le_of_lt (Nat.le_add_right _ _) bound)
      have processed := ih (Nat.lt_of_le_of_lt (Nat.le_add_left _ _) bound)
      unfold Session.processAll
      rw [process_of_running running, advanced]
      exact processed
  | fail running takes =>
      unfold Session.processAll
      rw [process_of_running running, takes.advance bound]
      rfl
  | finished accepted =>
      unfold Session.processAll
      rw [process_of_accepted accepted]
      rfl

theorem TakesAll.unique {log' : List Rule} {outcome' : Except Failure Session}
    (one : session.TakesAll table tokens log outcome)
    (other : session.TakesAll table tokens log' outcome') : log = log' ∧ outcome = outcome' := by
  induction one generalizing log' with
  | nil =>
      cases other
      exact ⟨rfl, rfl⟩
  | cons running takes _ ih =>
      cases other with
      | cons _ takes' later' =>
          obtain ⟨sameLog, sameOutcome⟩ := takes.unique takes'
          cases sameOutcome
          obtain ⟨sameRest, sameLast⟩ := ih later'
          exact ⟨by rw [sameLog, sameRest], sameLast⟩
      | fail _ takes' => cases (takes.unique takes').2
      | finished accepted => cases running.symm.trans accepted
  | fail running takes =>
      cases other with
      | cons _ takes' => cases (takes.unique takes').2
      | fail _ takes' => exact takes.unique takes'
      | finished accepted => cases running.symm.trans accepted
  | finished accepted =>
      cases other with
      | cons running => cases running.symm.trans accepted
      | fail running => cases running.symm.trans accepted
      | finished => exact ⟨rfl, rfl⟩

variable {nodes : List SyntaxTree}

/-- A shift in front of the rest of a run. -/
theorem TakesAll.of_shift {next : Nat} (cell : table.get? top token.symbol = some (.shift next))
    (later : TakesAll table ⟨next :: top :: below, .leaf token :: nodes, false⟩ rest log outcome) :
    TakesAll table ⟨top :: below, nodes, false⟩ (token :: rest) log outcome :=
  .cons rfl (.shift cell) later

/-- A reduction in front of the rest of a run. -/
theorem TakesAll.of_reduce {states : List Nat} {trees : List SyntaxTree}
    (cell : table.get? top token.symbol = some (.reduce id)) (known : table.rule? id = some rule)
    (reduced : reduce table ⟨top :: below, nodes, false⟩ id = .ok ⟨states, trees, false⟩)
    (later : TakesAll table ⟨states, trees, false⟩ (token :: rest) log outcome) :
    TakesAll table ⟨top :: below, nodes, false⟩ (token :: rest) (rule :: log) outcome := by
  cases later with
  | cons _ takes takesRest => exact .cons rfl (.reduce cell known reduced takes) takesRest
  | fail _ takes => exact .fail rfl (.reduce cell known reduced takes)
  | finished accepted => cases accepted

end ParserGenerator.Session
