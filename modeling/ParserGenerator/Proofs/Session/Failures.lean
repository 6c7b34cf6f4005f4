import ParserGenerator.Proofs.Session.Stacks

/-!
# What a failure leaves behind

A reduction that fails never touches the trees. It leaves the states as they were where the table
lacks the rule or the session lacks states for it; where the goto is missing, the states of the
right-hand side are gone already. The states that were cut off in this way are all that a session
ever lacks beside its trees: every other call, whether its token is taken or refused, puts a state
and a tree side by side.

Results:
1. `Session.Balanced.accounts_reduce`: how many states one reduction cuts off.
2. `Session.left_of_failure`: what failures leave, for every table and every session on the way.
3. `Session.not_unchanged_of_failure`: a failing reduction may change the session.
-/

namespace ParserGenerator

/-! ## Definitions -/

/-- The goto behind a right-hand side was missing. -/
def ParseError.IsMissingGoto (error : ParseError) : Prop :=
  ∃ state symbol, error = .missingGoto state symbol

namespace Session

variable {table : Table} {session : Session} {token : Token} {outcome : Except Failure Session}

/-- How many states the trees and the start call for beyond those that are there. -/
def lack (session : Session) : Nat := session.nodes.length + 1 - session.states.length

/-- A step that begins where `before` states are lacking leaves as many lacking, and those of a
right-hand side more if it has missed the goto behind it. -/
def Accounts (table : Table) (before : Nat) : Except Failure Session → Prop
  | .ok after => after.lack = before
  | .error ⟨.missingGoto _ symbol, after⟩ =>
      ∃ rule ∈ table.rules, rule.lhs = symbol ∧ after.lack = before + rule.rhs.length
  | .error ⟨_, after⟩ => after.lack = before

/-- The sessions that a parse goes through: between calls, also behind failed ones, and between
the reductions of a call. -/
inductive Visited (table : Table) : Session → Prop
  | start : Visited table start
  | fed {session : Session} {outcome : Except Failure Session} {fuel : Nat} {token : Token}
      (visited : Visited table session)
      (processed : session.process table fuel token = some outcome) : Visited table (left outcome)
  | reduced {session after : Session} {id : Nat} (visited : Visited table session)
      (reduced : session.reduce table id = .ok after) : Visited table after

/-- The sessions that a parse goes through as long as no goto is missing. -/
inductive Unbroken (table : Table) : Session → Prop
  | start : Unbroken table start
  | fed {session : Session} {outcome : Except Failure Session} {fuel : Nat} {token : Token}
      (unbroken : Unbroken table session)
      (processed : session.process table fuel token = some outcome)
      (led : ∀ failure, outcome = .error failure → ¬ failure.error.IsMissingGoto) :
      Unbroken table (left outcome)
  | reduced {session after : Session} {id : Nat} (unbroken : Unbroken table session)
      (reduced : session.reduce table id = .ok after) : Unbroken table after

/-! ## Steps -/

theorem Balanced.length_add_lack (balanced : session.Balanced) :
    session.states.length + session.lack = session.nodes.length + 1 :=
  Nat.add_sub_cancel' balanced.length_states_le

/-- A reduction cuts off the states of its right-hand side when it misses the goto behind them, and
no states otherwise. -/
theorem Balanced.accounts_reduce (balanced : session.Balanced) (table : Table) (id : Nat) :
    Accounts table session.lack (session.reduce table id) := by
  have reduces := balanced.reduces table id
  generalize session.reduce table id = outcome at reduces ⊢
  have whole := balanced.length_add_lack
  cases reduces with
  | unknown => rfl
  | short => rfl
  | @unled rule _ _ known back _ =>
      have length := congrArg List.length back
      rw [List.length_drop, List.length_cons] at length
      refine ⟨rule, List.mem_of_getElem? known, rfl, ?_⟩
      simp only [lack, List.length_cons] at whole ⊢
      omega
  | done _ back _ enough =>
      have length := congrArg List.length back
      rw [List.length_drop, List.length_cons] at length
      simp only [Accounts, lack, List.length_cons, List.length_drop] at whole ⊢
      omega

/-- A token and its reductions cut off the states of the right-hand side at which they miss a
goto. -/
theorem Takes.accounts {log : List Rule} (takes : session.Takes table token log outcome)
    (balanced : session.Balanced) : Accounts table session.lack outcome := by
  induction takes with
  | shift =>
      simp only [Accounts, lack, List.length_cons]
      omega
  | accept | refuse | bottom => rfl
  | @reduce top id below nodes accepted rule after log outcome _ _ reduced _ ih =>
      have step := balanced.accounts_reduce table id
      have kept := balanced.reduce table id
      rw [reduced] at step kept
      have rest := ih kept.left_balanced
      rwa [show after.lack = _ from step] at rest
  | @fail top id below nodes accepted failure _ failed =>
      have step := balanced.accounts_reduce table id
      rwa [failed] at step

theorem Balanced.accounts_process (balanced : session.Balanced) {fuel : Nat}
    (processed : session.process table fuel token = some outcome) :
    Accounts table session.lack outcome := by
  cases running : session.accepted with
  | true =>
      rw [process_of_accepted running] at processed
      cases processed
      rfl
  | false =>
      obtain ⟨log, takes⟩ := takes_of_process running processed
      exact takes.accounts balanced

/-- Only a missing goto makes a step lose states. -/
theorem lack_left {before : Nat} (accounts : Accounts table before outcome)
    (led : ∀ failure, outcome = .error failure → ¬ failure.error.IsMissingGoto) :
    (left outcome).lack = before := by
  cases outcome with
  | ok after => exact accounts
  | error failure =>
      obtain ⟨error, after⟩ := failure
      cases error with
      | missingGoto state symbol => exact absurd ⟨state, symbol, rfl⟩ (led _ rfl)
      | _ => exact accounts

/-! ## Runs -/

theorem Reachable.visited (reachable : session.Reachable table) : session.Visited table := by
  induction reachable with
  | start => exact .start
  | taken _ processed ih => exact .fed ih processed
  | failed _ processed ih => exact .fed ih processed

theorem Visited.balanced (visited : session.Visited table) : session.Balanced := by
  induction visited with
  | start => exact balanced_start
  | fed _ processed ih => exact (ih.process processed).left_balanced
  | @reduced _ _ id _ reduced ih =>
      have kept := ih.reduce table id
      rw [reduced] at kept
      exact kept.left_balanced

theorem Unbroken.visited (unbroken : session.Unbroken table) : session.Visited table := by
  induction unbroken with
  | start => exact .start
  | fed _ processed _ ih => exact .fed ih processed
  | reduced _ reduced ih => exact .reduced ih reduced

theorem Unbroken.lack_eq_zero (unbroken : session.Unbroken table) : session.lack = 0 := by
  induction unbroken with
  | start => rfl
  | fed unbroken processed led ih =>
      have accounts := unbroken.visited.balanced.accounts_process processed
      exact (lack_left accounts led).trans ih
  | @reduced session after id unbroken reduced ih =>
      have accounts := unbroken.visited.balanced.accounts_reduce table id
      rw [reduced] at accounts
      exact Eq.trans accounts ih

/-- For every table and every session on the way of a parse, also behind errors: a reduction that
fails leaves the trees as they were, and the whole session where the rule or the states for it are
missing; where the goto is missing, it has cut off the states of the right-hand side, and so has
changed the session unless the right-hand side is empty. It never lacks a tree. A call cuts off no
other states, so that there is one state more than there are trees as long as no goto was
missing. -/
theorem left_of_failure (visited : session.Visited table) :
    (∀ id failure, session.reduce table id = .error failure →
      failure.session.nodes = session.nodes ∧ failure.session.accepted = session.accepted ∧
      ((failure.error = .unknownRule id ∧ failure.session = session) ∨
        (failure.error = .emptyStateStack ∧ failure.session = session) ∨
        ∃ rule top, table.rule? id = some rule ∧ failure.error = .missingGoto top rule.lhs ∧
          failure.session.states = session.states.drop rule.rhs.length ∧
          failure.session.states.head? = some top ∧
          (failure.session = session ↔ rule.rhs = []))) ∧
    (∀ fuel token outcome, session.process table fuel token = some outcome →
      Accounts table session.lack outcome) ∧
    session.states.length + session.lack = session.nodes.length + 1 ∧
    (session.Unbroken table → session.states.length = session.nodes.length + 1) := by
  have balanced := visited.balanced
  refine ⟨fun id failure failed => ?_, fun fuel token outcome => balanced.accounts_process,
    balanced.length_add_lack, fun unbroken => ?_⟩
  · have reduces := balanced.reduces table id
    rw [failed] at reduces
    cases reduces with
    | unknown => exact ⟨rfl, rfl, .inl ⟨rfl, rfl⟩⟩
    | short => exact ⟨rfl, rfl, .inr (.inl ⟨rfl, rfl⟩)⟩
    | @unled rule top below known back _ =>
        refine ⟨rfl, rfl, .inr (.inr ⟨rule, top, known, rfl, back.symm, rfl, ?_⟩)⟩
        constructor
        · intro same
          have states : session.states = top :: below := (congrArg Session.states same).symm
          have length := congrArg List.length back
          rw [List.length_drop, states, List.length_cons] at length
          exact List.eq_nil_of_length_eq_zero (by omega)
        · intro empty
          rw [empty, List.length_nil, List.drop_zero] at back
          rw [← back]
  · have whole := balanced.length_add_lack
    rwa [unbroken.lack_eq_zero] at whole

/-- The session with an element whose reduction is to come. -/
def heldSession : Session := ⟨[1, 0], [.leaf brokenToken], false⟩

theorem reachable_heldSession : heldSession.Reachable brokenTable := by
  have shifted : start.process brokenTable 1 brokenToken = some (.ok heldSession) := by decide
  exact .taken .start shifted

/-- The reduction of the element finds no goto: it leaves the session without the state of the
element, and so does the call that makes it. -/
theorem left_of_failure_held :
    heldSession.Visited brokenTable ∧ heldSession.Unbroken brokenTable ∧
    heldSession.reduce brokenTable 0 = .error ⟨.missingGoto 0 ⟨3⟩, brokenSession⟩ ∧
    (brokenSession.nodes = heldSession.nodes ∧ brokenSession.states = heldSession.states.drop 1 ∧
      brokenSession ≠ heldSession) ∧
    Accounts brokenTable heldSession.lack (.error ⟨.missingGoto 0 ⟨3⟩, brokenSession⟩) ∧
    heldSession.states.length = heldSession.nodes.length + 1 := by
  have shifted : start.process brokenTable 1 brokenToken = some (.ok heldSession) := by decide
  have unbroken : heldSession.Unbroken brokenTable := .fed .start shifted nofun
  have failed : heldSession.reduce brokenTable 0 =
      .error ⟨.missingGoto 0 ⟨3⟩, brokenSession⟩ := by decide
  have processed : heldSession.process brokenTable 1 (.endOfInput 1) =
      some (.error ⟨.missingGoto 0 ⟨3⟩, brokenSession⟩) := by decide
  have visited := reachable_heldSession.visited
  obtain ⟨leaves, accounts, _, level⟩ := left_of_failure visited
  obtain ⟨nodes, _, isUnknown | isShort | ⟨rule, _, known, _, states, _, changed⟩⟩ :=
    leaves 0 _ failed
  · exact absurd isUnknown.1 nofun
  · exact absurd isShort.1 nofun
  · cases known
    refine ⟨visited, unbroken, failed, ⟨nodes, states, fun same => ?_⟩,
      accounts 1 _ _ processed, level unbroken⟩
    exact absurd (changed.1 same) (List.cons_ne_nil _ _)

/-- A reduction that fails may change the states, and a session behind it may have fewer states than
one more than it has trees. -/
theorem not_unchanged_of_failure :
    (¬ ∀ (table : Table) (session : Session) (id : Nat) (failure : Failure),
      session.Reachable table → session.reduce table id = .error failure →
      failure.session.states = session.states ∧ failure.session.nodes = session.nodes) ∧
    ¬ ∀ (table : Table) (session : Session), session.Reachable table →
      session.states.length = session.nodes.length + 1 := by
  have reachable := reachable_heldSession
  have failed : heldSession.reduce brokenTable 0 =
      .error ⟨.missingGoto 0 ⟨3⟩, brokenSession⟩ := by decide
  have processed : heldSession.process brokenTable 1 (.endOfInput 1) =
      some (.error ⟨.missingGoto 0 ⟨3⟩, brokenSession⟩) := by decide
  constructor
  · intro unchanged
    exact absurd (unchanged _ _ _ _ reachable failed).1 (by decide)
  · intro level
    exact absurd (level _ _ (.failed reachable processed)) (by decide)

end Session

end ParserGenerator
