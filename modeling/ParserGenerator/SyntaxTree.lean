import ParserGenerator.Token

/-!
# Syntax trees

A syntax tree has tokens at its leaves and a symbol at each branch. Its tokens are collected from
left to right with a stack of the trees that are still to be visited.

Results: `SyntaxTree.tokens_eq_leaves`, that the traversal with a stack lists the leaves in the
order in which the recursion over the tree meets them.
-/

namespace ParserGenerator

/-- A leaf token, or a symbol over a sequence of trees. -/
inductive SyntaxTree where
  | leaf (token : Token)
  | branch (symbol : Symbol) (children : List SyntaxTree)
deriving Inhabited

namespace SyntaxTree

mutual
/-- Decides whether two trees are equal. -/
def decideEq : (left right : SyntaxTree) → Decidable (left = right)
  | .leaf a, .leaf b =>
      if same : a = b then isTrue (same ▸ rfl)
      else isFalse fun equal => same (SyntaxTree.leaf.inj equal)
  | .leaf _, .branch _ _ => isFalse fun equal => SyntaxTree.noConfusion equal
  | .branch _ _, .leaf _ => isFalse fun equal => SyntaxTree.noConfusion equal
  | .branch a as, .branch b bs =>
      if same : a = b then
        match decideEqAll as bs with
        | isTrue all => isTrue (same ▸ all ▸ rfl)
        | isFalse differ => isFalse fun equal => differ (SyntaxTree.branch.inj equal).2
      else isFalse fun equal => same (SyntaxTree.branch.inj equal).1

/-- Decides whether two sequences of trees are equal. -/
def decideEqAll : (left right : List SyntaxTree) → Decidable (left = right)
  | [], [] => isTrue rfl
  | [], _ :: _ => isFalse (List.cons_ne_nil _ _).symm
  | _ :: _, [] => isFalse (List.cons_ne_nil _ _)
  | a :: as, b :: bs =>
      match decideEq a b, decideEqAll as bs with
      | isTrue first, isTrue rest => isTrue (first ▸ rest ▸ rfl)
      | isFalse differ, _ => isFalse fun equal => differ (List.cons.inj equal).1
      | _, isFalse differ => isFalse fun equal => differ (List.cons.inj equal).2
end

instance : DecidableEq SyntaxTree := decideEq

/-- The symbol at the root. -/
def symbol : SyntaxTree → Symbol
  | .leaf token => token.symbol
  | .branch symbol _ => symbol

/-- The children of a branch; a leaf has none. -/
def children : SyntaxTree → List SyntaxTree
  | .leaf _ => []
  | .branch _ children => children

/-- The token of a leaf. -/
def token? : SyntaxTree → Option Token
  | .leaf token => some token
  | .branch _ _ => none

/-! ## The tokens at the leaves -/

theorem sizeOf_append (first second : List SyntaxTree) :
    sizeOf (first ++ second) + 1 = sizeOf first + sizeOf second := by
  induction first with
  | nil => simp only [List.nil_append, List.nil.sizeOf_spec]; omega
  | cons tree rest ih => simp only [List.cons_append, List.cons.sizeOf_spec]; omega

/-- The tokens of the trees on a stack, the top of the stack first. -/
def tokensOfStack : List SyntaxTree → List Token
  | [] => []
  | .leaf token :: rest => token :: tokensOfStack rest
  | .branch _ children :: rest => tokensOfStack (children ++ rest)
termination_by stack => sizeOf stack
decreasing_by
  · simp only [List.cons.sizeOf_spec]
    omega
  · have := sizeOf_append children rest
    simp only [List.cons.sizeOf_spec, SyntaxTree.branch.sizeOf_spec]
    omega

/-- The tokens of a tree from left to right, collected with a stack. -/
def tokens (tree : SyntaxTree) : List Token := tokensOfStack [tree]

mutual
/-- The tokens of a tree from left to right, by recursion over the tree. -/
def leaves : SyntaxTree → List Token
  | .leaf token => [token]
  | .branch _ children => leavesOfAll children

/-- The tokens of a sequence of trees. -/
def leavesOfAll : List SyntaxTree → List Token
  | [] => []
  | tree :: rest => leaves tree ++ leavesOfAll rest
end

theorem leavesOfAll_append (first second : List SyntaxTree) :
    leavesOfAll (first ++ second) = leavesOfAll first ++ leavesOfAll second := by
  induction first with
  | nil => rfl
  | cons tree rest ih => simp [leavesOfAll, ih]

theorem tokensOfStack_eq_leavesOfAll (stack : List SyntaxTree) :
    tokensOfStack stack = leavesOfAll stack := by
  fun_induction tokensOfStack stack with
  | case1 => rfl
  | case2 token rest ih => simp [leavesOfAll, leaves, ih]
  | case3 symbol children rest ih => rw [ih, leavesOfAll_append]; rfl

theorem tokens_eq_leaves (tree : SyntaxTree) : tree.tokens = tree.leaves := by
  simp [tokens, tokensOfStack_eq_leavesOfAll, leavesOfAll]

/-! ## Text -/

/-- The spaces in front of a line. -/
def indent (depth : Nat) : String := String.ofList (List.replicate (4 * depth) ' ')

mutual
/-- The lines of a tree, indented by four spaces for each level. -/
def displayAt (names : SymbolTable) (depth : Nat) : SyntaxTree → String
  | .leaf token => indent depth ++ token.display names ++ "\n"
  | .branch symbol [] => indent depth ++ names.display symbol ++ " \x7b\x7d\n"
  | .branch symbol (first :: rest) =>
      indent depth ++ names.display symbol ++ " \x7b\n" ++
        displayAt names (depth + 1) first ++ displayAllAt names (depth + 1) rest ++
        indent depth ++ "\x7d\n"

/-- The lines of a sequence of trees. -/
def displayAllAt (names : SymbolTable) (depth : Nat) : List SyntaxTree → String
  | [] => ""
  | tree :: rest => displayAt names depth tree ++ displayAllAt names depth rest
end

/-- The indented text of a tree. -/
def display (names : SymbolTable) (tree : SyntaxTree) : String := tree.displayAt names 0

end SyntaxTree

end ParserGenerator
