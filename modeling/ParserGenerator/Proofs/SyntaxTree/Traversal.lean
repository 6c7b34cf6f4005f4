import ParserGenerator.SyntaxTree

/-!
# The traversal of a tree with a stack

A loop collects the tokens of a tree without recursion. A turn takes the top of a stack off: a leaf
gives its token, and a branch puts its children on the stack, the last one first, so that the first
one is on top. Trees of several levels wait on the stack together, yet from the top down they hold
what is still to be collected, in the order of the tree; and each turn is over with one leaf or
branch for good.

Results:
1. `Traversal.ends_iff`: how many turns a stack takes, and what they collect.
2. `tokens_of_traversal`: the loop ends with the tokens of the tree, which are those of its children
   put together.
-/

namespace ParserGenerator.SyntaxTree

/-! ## Definitions -/

mutual
/-- The number of leaves and branches of a tree. -/
def size : SyntaxTree → Nat
  | .leaf _ => 1
  | .branch _ children => sizeOfAll children + 1

/-- The number of leaves and branches of a sequence of trees. -/
def sizeOfAll : List SyntaxTree → Nat
  | [] => 0
  | tree :: rest => size tree + sizeOfAll rest
end

/-- The loop between two turns: what was collected, and the stack with its top in front. -/
structure Traversal where
  collected : List Token
  stack : List SyntaxTree

namespace Traversal

def start (tree : SyntaxTree) : Traversal := ⟨[], [tree]⟩

/-- Puts trees on a stack one after the other. -/
def pushAll (stack trees : List SyntaxTree) : List SyntaxTree :=
  trees.foldl (fun stack tree => tree :: stack) stack

/-- One turn, unless the stack is empty. -/
def turn : Traversal → Option Traversal
  | ⟨_, []⟩ => none
  | ⟨collected, .leaf token :: stack⟩ => some ⟨collected ++ [token], stack⟩
  | ⟨collected, .branch _ children :: stack⟩ => some ⟨collected, pushAll stack children.reverse⟩

/-- The loop ends after so many turns and has collected these tokens. -/
inductive Ends : Traversal → (turns : Nat) → (tokens : List Token) → Prop
  | done {traversal : Traversal} (stops : traversal.turn = none) :
      Ends traversal 0 traversal.collected
  | turn {traversal next : Traversal} {turns : Nat} {tokens : List Token}
      (once : traversal.turn = some next) (later : Ends next turns tokens) :
      Ends traversal (turns + 1) tokens

end Traversal

/-! ## Sizes and leaves -/

theorem size_pos (tree : SyntaxTree) : 0 < tree.size := by
  cases tree with
  | leaf => exact Nat.one_pos
  | branch => exact Nat.succ_pos _

theorem sizeOfAll_eq_zero {trees : List SyntaxTree} : sizeOfAll trees = 0 ↔ trees = [] := by
  cases trees with
  | nil => exact ⟨fun _ => rfl, fun _ => rfl⟩
  | cons tree rest =>
      have positive := tree.size_pos
      rw [sizeOfAll]
      exact ⟨fun isZero => by omega, nofun⟩

theorem sizeOfAll_append (first second : List SyntaxTree) :
    sizeOfAll (first ++ second) = sizeOfAll first + sizeOfAll second := by
  induction first with
  | nil => exact (Nat.zero_add _).symm
  | cons tree rest ih => rw [List.cons_append, sizeOfAll, sizeOfAll, ih, Nat.add_assoc]

theorem leavesOfAll_eq_flatMap (trees : List SyntaxTree) :
    leavesOfAll trees = trees.flatMap leaves := by
  induction trees with
  | nil => rfl
  | cons tree rest ih => rw [leavesOfAll, ih, List.flatMap_cons]

namespace Traversal

variable {traversal next : Traversal} {turns : Nat} {tokens : List Token}

/-! ## One turn -/

/-- Children that are put on a stack in reverse order stand there in their own order. -/
theorem pushAll_reverse (stack children : List SyntaxTree) :
    pushAll stack children.reverse = children ++ stack := by
  rw [pushAll, List.foldl_reverse, List.foldr_cons_eq_append']

theorem turn_eq_none_iff : traversal.turn = none ↔ traversal.stack = [] := by
  obtain ⟨collected, stack⟩ := traversal
  cases stack with
  | nil => exact ⟨fun _ => rfl, fun _ => rfl⟩
  | cons tree stack => cases tree <;> exact ⟨nofun, nofun⟩

/-- A turn is over with one leaf or branch, and what was collected and what the stack holds are
together the same tokens as before. -/
theorem of_turn (once : traversal.turn = some next) :
    sizeOfAll next.stack + 1 = sizeOfAll traversal.stack ∧
      next.collected ++ leavesOfAll next.stack =
        traversal.collected ++ leavesOfAll traversal.stack := by
  obtain ⟨collected, stack⟩ := traversal
  cases stack with
  | nil => cases once
  | cons tree stack =>
      cases tree with
      | leaf token =>
          cases once
          exact ⟨Nat.add_comm _ _, List.append_assoc _ _ _⟩
      | branch symbol children =>
          cases once
          rw [pushAll_reverse, sizeOfAll_append, leavesOfAll_append]
          refine ⟨?_, rfl⟩
          rw [sizeOfAll, size]
          exact Nat.add_right_comm _ _ _

/-! ## The loop -/

/-- The loop takes one turn for each leaf and branch on the stack, and then it has collected the
leaves from the top of the stack down. -/
theorem ends_iff : traversal.Ends turns tokens ↔
    turns = sizeOfAll traversal.stack ∧
      tokens = traversal.collected ++ leavesOfAll traversal.stack := by
  constructor
  · intro ends
    induction ends with
    | done stops =>
        rw [turn_eq_none_iff.1 stops]
        exact ⟨rfl, (List.append_nil _).symm⟩
    | turn once _ ih =>
        obtain ⟨less, same⟩ := of_turn once
        exact ⟨ih.1 ▸ less, ih.2.trans same⟩
  · rintro ⟨rfl, rfl⟩
    generalize amount : sizeOfAll traversal.stack = turns
    induction turns generalizing traversal with
    | zero =>
        have empty := sizeOfAll_eq_zero.1 amount
        rw [empty, leavesOfAll, List.append_nil]
        exact .done (turn_eq_none_iff.2 empty)
    | succ turns ih =>
        cases once : traversal.turn with
        | none =>
            rw [turn_eq_none_iff.1 once] at amount
            cases amount
        | some next =>
            obtain ⟨less, same⟩ := of_turn once
            rw [← same]
            exact .turn once (ih (by omega))

end Traversal

/-- The loop over a tree ends after one turn for each leaf and branch, and what it has collected are
the tokens of the tree: a leaf has its own token, and a branch has the tokens of its children, one
child after the other. -/
theorem tokens_of_traversal :
    (∀ tree turns tokens, (Traversal.start tree).Ends turns tokens ↔
      turns = tree.size ∧ tokens = tree.tokens) ∧
    (∀ token, tokens (.leaf token) = [token]) ∧
    ∀ symbol children, tokens (.branch symbol children) = children.flatMap tokens := by
  have recursive : tokens = leaves := funext tokens_eq_leaves
  rw [recursive]
  refine ⟨fun tree turns collected => ?_, fun _ => rfl, fun _ _ => leavesOfAll_eq_flatMap _⟩
  have one : sizeOfAll [tree] = tree.size := rfl
  have held : leavesOfAll [tree] = tree.leaves := List.append_nil _
  rw [Traversal.ends_iff, Traversal.start, one, held, List.nil_append]

/-- The empty branch gives no token, and the leaf behind the inner branch comes last. -/
example (a b : Token) : tokens (.branch ⟨3⟩
    [.branch ⟨4⟩ [], .branch ⟨3⟩ [.leaf a, .branch ⟨4⟩ []], .leaf b]) = [a, b] := by
  cbv

end ParserGenerator.SyntaxTree
