import ParserGenerator.Rule
import ParserGenerator.SyntaxTree

/-!
# The shape of the tree that a rule builds

A reduction puts one tree in place of the trees of a rule's right-hand side. Each of these is
attached by the option of its position. A chained rule then joins a list that is built from the
left: a first child with the rule's own symbol gives way to its children, so that the elements of
the list stay side by side.
-/

namespace ParserGenerator.Rule

/-- What an option makes of a child. -/
def attach (option : ChildOption) (child : SyntaxTree) : List SyntaxTree :=
  match option, child with
  | .default, .branch _ [only] => [only]
  | .unwrap, .branch _ children => children
  | .discard, _ => []
  | _, child => [child]

/-- Puts the children of a first child with the symbol `lhs` in its place. -/
def flatten (lhs : Symbol) : List SyntaxTree → List SyntaxTree
  | .branch symbol children :: rest =>
      if symbol = lhs then children ++ rest else .branch symbol children :: rest
  | children => children

/-- The children of the tree that a reduction builds from the trees of the right-hand side. -/
def shape (rule : Rule) (trees : List SyntaxTree) : List SyntaxTree :=
  let children := (trees.zip rule.options).flatMap fun (child, option) => attach option child
  if rule.chained then flatten rule.lhs children else children

/-- The tree that a reduction leaves for the trees of the right-hand side: the only one of them
where the rule unwraps a single symbol, and otherwise a branch with their shape. -/
def treeOf (rule : Rule) (trees : List SyntaxTree) : SyntaxTree :=
  match rule.unwrapsSingle, trees with
  | true, [only] => only
  | _, trees => .branch rule.lhs (rule.shape trees)

end ParserGenerator.Rule
