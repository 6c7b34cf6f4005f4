import ParserGenerator.Proofs.Session.Leaves

/-!
# The two stacks of a session

A session starts with one state, and every token and every reduction that goes through puts a tree
beside its state. An error may cut states off while their trees stay: a reduction goes back over the
states of a right-hand side before it looks for the goto. No error takes away a tree whose state
stays. So there are at most as many states as trees and one more, whatever the table says and
whatever was fed after errors, and a reduction that finds the states of its right-hand side finds
the trees as well.

Results:
1. `Session.Balanced.reduces`: what one reduction comes to.
2. `Session.stacks_of_reachable`: no reduction and no end of a parse lacks a tree.
-/

namespace ParserGenerator.Session

variable {table : Table} {session : Session} {token : Token} {outcome : Except Failure Session}

/-! ## Definitions -/

/-- There is a state, and for each state but one there is a tree. -/
structure Balanced (session : Session) : Prop where
  states_ne_nil : session.states ≠ []
  length_states_le : session.states.length ≤ session.nodes.length + 1

/-- What a step leaves is balanced, and the step has not failed for want of a tree. -/
structure KeepsBalance (outcome : Except Failure Session) : Prop where
  left_balanced : (left outcome).Balanced
  error_ne : ∀ failure, outcome = .error failure → failure.error ≠ .emptyNodeStack

/-- What a reduction comes to in a balanced session. It fails for want of the rule or of states and
leaves the session as it is, or for want of a goto and leaves it with the states of the right-hand
side cut off. -/
inductive Reduces (table : Table) (session : Session) (id : Nat) : Except Failure Session → Prop
  | unknown (missing : table.rule? id = none) :
      Reduces table session id (.error ⟨.unknownRule id, session⟩)
  | short {rule : Rule} (known : table.rule? id = some rule)
      (few : session.states.length ≤ rule.rhs.length) :
      Reduces table session id (.error ⟨.emptyStateStack, session⟩)
  | unled {rule : Rule} {top : Nat} {below : List Nat} (known : table.rule? id = some rule)
      (back : session.states.drop rule.rhs.length = top :: below)
      (noGoto : ∀ next, table.get? top rule.lhs ≠ some (.goto next)) :
      Reduces table session id
        (.error ⟨.missingGoto top rule.lhs, { session with states := top :: below }⟩)
  | done {rule : Rule} {top next : Nat} {below : List Nat} (known : table.rule? id = some rule)
      (back : session.states.drop rule.rhs.length = top :: below)
      (cell : table.get? top rule.lhs = some (.goto next))
      (enough : rule.rhs.length ≤ session.nodes.length) :
      Reduces table session id (.ok { session with
        states := next :: top :: below
        nodes := rule.treeOf (session.nodes.take rule.rhs.length).reverse ::
          session.nodes.drop rule.rhs.length })

/-! ## Steps -/

theorem balanced_start : start.Balanced := ⟨List.cons_ne_nil _ _, Nat.le_refl 1⟩

theorem Balanced.keeps_ok (balanced : session.Balanced) : KeepsBalance (.ok session) :=
  ⟨balanced, nofun⟩

theorem Balanced.keeps_error (balanced : session.Balanced) {error : ParseError}
    (differs : error ≠ .emptyNodeStack) : KeepsBalance (.error ⟨error, session⟩) := by
  refine ⟨balanced, fun failure isFailure => ?_⟩
  cases isFailure
  exact differs

/-- A token puts a tree beside its state. -/
theorem Balanced.shift (balanced : session.Balanced) (next : Nat) (tree : SyntaxTree) :
    Balanced { session with states := next :: session.states, nodes := tree :: session.nodes } :=
  ⟨List.cons_ne_nil _ _, Nat.succ_le_succ balanced.length_states_le⟩

/-- A reduction that finds the states of its right-hand side finds their trees. -/
theorem Balanced.reduces (balanced : session.Balanced) (table : Table) (id : Nat) :
    Reduces table session id (session.reduce table id) := by
  cases known : table.rule? id with
  | none =>
      have failed : session.reduce table id = .error ⟨.unknownRule id, session⟩ := by
        simp only [Session.reduce, known]
      exact failed ▸ .unknown known
  | some rule =>
      cases back : session.states.drop rule.rhs.length with
      | nil =>
          have failed : session.reduce table id = .error ⟨.emptyStateStack, session⟩ := by
            simp only [Session.reduce, known, back]
          exact failed ▸ .short known (List.drop_eq_nil_iff.1 back)
      | cons top below =>
          by_cases led : ∃ next, table.get? top rule.lhs = some (.goto next)
          · obtain ⟨next, cell⟩ := led
            have length := congrArg List.length back
            have bound := balanced.length_states_le
            rw [List.length_drop, List.length_cons] at length
            have enough : rule.rhs.length ≤ session.nodes.length := by omega
            exact reduce_of_goto known back cell enough ▸ .done known back cell enough
          · have noGoto : ∀ next, table.get? top rule.lhs ≠ some (.goto next) :=
              fun next cell => led ⟨next, cell⟩
            have failed : session.reduce table id =
                .error ⟨.missingGoto top rule.lhs, { session with states := top :: below }⟩ := by
              simp only [Session.reduce, known, back]
            exact failed ▸ .unled known back noGoto

/-- A reduction puts one state and one tree in the place of those of its right-hand side, or it
stops with the states cut off. -/
theorem Balanced.reduce (balanced : session.Balanced) (table : Table) (id : Nat) :
    KeepsBalance (session.reduce table id) := by
  have bound := balanced.length_states_le
  have reduces := balanced.reduces table id
  generalize session.reduce table id = outcome at reduces ⊢
  cases reduces with
  | unknown | short => exact balanced.keeps_error nofun
  | unled _ back _ =>
      have length := congrArg List.length back
      rw [List.length_drop, List.length_cons] at length
      refine Balanced.keeps_error ⟨List.cons_ne_nil _ _, ?_⟩ nofun
      dsimp only
      rw [List.length_cons]
      omega
  | done _ back _ _ =>
      have length := congrArg List.length back
      rw [List.length_drop, List.length_cons] at length
      refine Balanced.keeps_ok ⟨List.cons_ne_nil _ _, ?_⟩
      dsimp only
      rw [List.length_cons, List.length_cons, List.length_cons, List.length_drop]
      omega

theorem Takes.keepsBalance {log : List Rule} (takes : session.Takes table token log outcome)
    (balanced : session.Balanced) : KeepsBalance outcome := by
  induction takes with
  | shift => exact (balanced.shift _ _).keeps_ok
  | accept => exact Balanced.keeps_ok ⟨balanced.states_ne_nil, balanced.length_states_le⟩
  | @reduce _ id _ _ _ _ _ _ _ _ _ reduced _ ih =>
      have after := balanced.reduce table id
      rw [reduced] at after
      exact ih after.left_balanced
  | @fail _ id _ _ _ _ _ failed => exact failed ▸ balanced.reduce table id
  | refuse => exact balanced.keeps_error nofun
  | bottom => exact absurd rfl balanced.states_ne_nil

/-! ## Runs -/

theorem Balanced.process (balanced : session.Balanced) {fuel : Nat}
    (processed : session.process table fuel token = some outcome) : KeepsBalance outcome := by
  cases running : session.accepted with
  | true =>
      rw [process_of_accepted running] at processed
      cases processed
      exact balanced.keeps_error nofun
  | false =>
      obtain ⟨log, takes⟩ := takes_of_process running processed
      exact takes.keepsBalance balanced

theorem Reachable.balanced (reachable : session.Reachable table) : session.Balanced := by
  induction reachable with
  | start => exact balanced_start
  | taken _ processed ih => exact (ih.process processed).left_balanced
  | failed _ processed ih => exact (ih.process processed).left_balanced

/-- For every table and every session that is reached, also after errors: there is a state, there
are at most as many states as trees and one more, and neither a token nor the end of the parse fails
for want of a tree. -/
theorem stacks_of_reachable (table : Table) (reachable : session.Reachable table) :
    session.states ≠ [] ∧ session.states.length ≤ session.nodes.length + 1 ∧
    (∀ fuel token failure, session.process table fuel token = some (.error failure) →
      failure.error ≠ .emptyNodeStack) ∧
    session.finish table ≠ .error .emptyNodeStack := by
  have balanced := reachable.balanced
  refine ⟨balanced.states_ne_nil, balanced.length_states_le,
    fun fuel token failure processed => (balanced.process processed).error_ne failure rfl, ?_⟩
  unfold finish
  split
  · split <;> exact nofun
  · exact nofun

/-- A table for `3 := 4` without the goto for `3`. -/
def brokenTable : Table where
  symbols := SymbolTable.initial
  rules := [.plain ⟨3⟩ [⟨4⟩]]
  rows := [[(⟨4⟩, .shift 1)], [(.endOfInput, .reduce 0)]]
  conflicts := []

/-- The only element of the input. -/
def brokenToken : Token := ⟨⟨4⟩, "x", 0, 1⟩

/-- The session with an element whose reduction has failed. -/
def brokenSession : Session := ⟨[0], [.leaf brokenToken], false⟩

/-- The reduction has cut off the state of the element and has left its tree. -/
theorem stacks_of_reachable_broken :
    brokenSession.Reachable brokenTable ∧
    brokenSession.states ≠ [] ∧ brokenSession.states.length ≤ brokenSession.nodes.length + 1 ∧
    (∀ fuel token failure, brokenSession.process brokenTable fuel token = some (.error failure) →
      failure.error ≠ .emptyNodeStack) ∧
    brokenSession.finish brokenTable ≠ .error .emptyNodeStack := by
  have shifted : start.process brokenTable 1 brokenToken =
      some (.ok ⟨[1, 0], [.leaf brokenToken], false⟩) := by decide
  have failed : process brokenTable 1 ⟨[1, 0], [.leaf brokenToken], false⟩ (.endOfInput 1) =
      some (.error ⟨.missingGoto 0 ⟨3⟩, brokenSession⟩) := by decide
  have reachable : brokenSession.Reachable brokenTable := .failed (.taken .start shifted) failed
  exact ⟨reachable, stacks_of_reachable brokenTable reachable⟩

end ParserGenerator.Session
