import ParserGenerator.SyntaxTree.Shape
import ParserGenerator.Table

/-!
# Parsing with a table

A session feeds tokens to a table one by one. It keeps the states it went through and the trees it
has built, both as stacks with the top in front. A token is shifted or accepted, possibly after
some reductions; a reduction takes the trees of a rule's right-hand side off the stack and puts
one tree in their place.

A session goes on after an error from where the error left it. With some tables reductions follow
each other for ever, so that feeding a token takes a bound on the number of steps and has no
outcome if the bound is met.

Results: `Session.reduceNodes_of_le`, what a reduction does to the trees when there are enough of
them.
-/

namespace ParserGenerator

/-- Why a token was refused or a session has no tree. -/
inductive ParseError where
  | unexpectedToken (state : Nat) (token : Token) (expected : List Symbol)
  | unexpectedEnd (expected : List Symbol)
  | alreadyAccepted (found : Symbol)
  | missingGoto (state : Nat) (symbol : Symbol)
  | unknownRule (rule : Nat)
  | emptyStateStack
  | emptyNodeStack
  | unbalancedNodeStack (count : Nat)
deriving DecidableEq

namespace ParseError

/-- The symbols that would have been taken instead. -/
def expected : ParseError → List Symbol
  | unexpectedToken _ _ expected => expected
  | unexpectedEnd expected => expected
  | _ => []

def message (names : SymbolTable) : ParseError → String
  | unexpectedToken _ token expected =>
      "unexpected " ++ names.display token.symbol ++ " at offset " ++ toString token.first ++
        ": expected one of " ++ ", ".intercalate (expected.map names.display)
  | unexpectedEnd expected =>
      "unexpected end of tokens: expected one of " ++
        ", ".intercalate (expected.map names.display)
  | alreadyAccepted found => names.display found ++ " after the input was accepted"
  | missingGoto state symbol =>
      "missing goto entry for " ++ names.display symbol ++ " in state " ++ toString state
  | unknownRule rule => "unknown rule " ++ toString rule
  | emptyStateStack => "empty state stack"
  | emptyNodeStack => "empty node stack"
  | unbalancedNodeStack count => toString count ++ " nodes left on the stack after accept"

end ParseError

/-! ## Sessions -/

/-- A parse in progress. -/
structure Session where
  /-- The states gone through, the current one first. -/
  states : List Nat
  /-- The trees built so far, the latest one first. -/
  nodes : List SyntaxTree
  accepted : Bool
deriving DecidableEq

/-- An error with the session as the error left it. -/
structure Failure where
  error : ParseError
  session : Session
deriving DecidableEq

namespace Session

/-- The session that has read nothing. -/
def start : Session := ⟨[Table.initialState], [], false⟩

/-- The symbols that the next token may have. -/
def expected (table : Table) (session : Session) : List Symbol :=
  match session.states with
  | [] => []
  | top :: _ => table.expected top

/-- Puts a tree in place of the trees of a rule's right-hand side; a rule that unwraps a single
symbol leaves the tree of the symbol there. -/
def reduceNodes (session : Session) (rule : Rule) : Except Failure Session :=
  let count := rule.rhs.length
  if rule.unwrapsSingle ∧ count = 1 then .ok session
  else if session.nodes.length < count then .error ⟨.emptyNodeStack, session⟩
  else
    let trees := (session.nodes.take count).reverse
    .ok { session with
      nodes := .branch rule.lhs (rule.shape trees) :: session.nodes.drop count }

/-- With a tree for each symbol of the right-hand side, the tree of the rule takes their place. -/
theorem reduceNodes_of_le {session : Session} {rule : Rule}
    (enough : rule.rhs.length ≤ session.nodes.length) :
    session.reduceNodes rule = .ok { session with
      nodes := rule.treeOf (session.nodes.take rule.rhs.length).reverse ::
        session.nodes.drop rule.rhs.length } := by
  obtain ⟨states, nodes, accepted⟩ := session
  unfold reduceNodes Rule.treeOf
  by_cases unwrapped : rule.unwrapsSingle = true ∧ rule.rhs.length = 1
  · obtain ⟨unwraps, single⟩ := unwrapped
    cases nodes with
    | nil => simp [single] at enough
    | cons first rest => simp [unwraps, single]
  · rw [if_neg unwrapped, if_neg (by omega)]
    split
    · rename_i only unwraps single
      have length := congrArg List.length single
      rw [List.length_reverse, List.length_take, Nat.min_eq_left enough] at length
      exact absurd ⟨unwraps, length⟩ unwrapped
    · rfl

/-- Reduces by a rule: goes back over the states of the right-hand side, and from the state in
front of them over the left-hand side. -/
def reduce (table : Table) (session : Session) (id : Nat) : Except Failure Session :=
  match table.rule? id with
  | none => .error ⟨.unknownRule id, session⟩
  | some rule =>
      match session.states.drop rule.rhs.length with
      | [] => .error ⟨.emptyStateStack, session⟩
      | top :: below =>
          match table.get? top rule.lhs with
          | some (.goto next) =>
              reduceNodes { session with states := next :: top :: below } rule
          | _ => .error ⟨.missingGoto top rule.lhs, { session with states := top :: below }⟩

/-- Reduces as often as the table says and then takes the token, in at most `fuel` steps. -/
def advance (table : Table) (token : Token) : (fuel : Nat) → Session →
    Option (Except Failure Session)
  | 0, _ => none
  | fuel + 1, session =>
      match session.states with
      | [] => some (.error ⟨.emptyStateStack, session⟩)
      | top :: _ =>
          match table.get? top token.symbol with
          | some (.shift next) =>
              some (.ok { session with
                states := next :: session.states
                nodes := .leaf token :: session.nodes })
          | some .accept => some (.ok { session with accepted := true })
          | some (.reduce id) =>
              match session.reduce table id with
              | .ok session => advance table token fuel session
              | .error failure => some (.error failure)
          -- A goto is for the symbols of reductions: a token does not follow it.
          | _ => some (.error ⟨.unexpectedToken top token (table.expected top), session⟩)

/-- Feeds one token in at most `fuel` steps. -/
def process (table : Table) (fuel : Nat) (session : Session) (token : Token) :
    Option (Except Failure Session) :=
  if session.accepted then some (.error ⟨.alreadyAccepted token.symbol, session⟩)
  else advance table token fuel session

/-- Feeds the tokens of a list up to the first error, each in at most `fuel` steps. -/
def processAll (table : Table) (fuel : Nat) (session : Session) : List Token →
    Option (Except Failure Session)
  | [] => some (.ok session)
  | token :: rest => do
      match ← session.process table fuel token with
      | .ok session => session.processAll table fuel rest
      | .error failure => some (.error failure)

/-- The tree of an accepted session. -/
def finish (table : Table) (session : Session) : Except ParseError SyntaxTree :=
  if session.accepted then
    match session.nodes with
    | [tree] => .ok tree
    | nodes => .error (.unbalancedNodeStack nodes.length)
  else .error (.unexpectedEnd (session.expected table))

end Session

namespace Table

/-- The tree of a sequence of tokens, which has to end with the token that closes the input. Each
token takes at most `fuel` steps. -/
def parseTokens (table : Table) (fuel : Nat) (tokens : List Token) :
    Option (Except ParseError SyntaxTree) := do
  match ← Session.start.processAll table fuel tokens with
  | .ok session => pure (session.finish table)
  | .error failure => pure (.error failure.error)

end Table

end ParserGenerator
