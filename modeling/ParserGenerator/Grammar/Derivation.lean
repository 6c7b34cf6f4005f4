import ParserGenerator.Grammar
import ParserGenerator.SyntaxTree.Shape

/-!
# Derivations

A rule replaces one occurrence of its left-hand side in a string by its right-hand side, and what
is reached by such replacements is derived from the first string. A derivation tree tells
which rule was used at each symbol, down to the tokens at its leaves. A parser reports a derivation
by the syntax tree that the rules build from the leaves up.

Results: `Derives.append`, that parts of a string derive side by side, and
`DerivationTree.Valid.derives`, that the root of a valid derivation tree derives its leaves.
-/

namespace ParserGenerator

/-- The second string has the right-hand side of a rule where the first one has its left-hand
side. -/
inductive DerivesOnce (rules : List Rule) : SymbolString → SymbolString → Prop where
  | intro {rule : Rule} (member : rule ∈ rules) (front back : SymbolString) :
      DerivesOnce rules (front ++ rule.lhs :: back) (front ++ (rule.rhs ++ back))

/-- The second string is reached from the first one by replacements. -/
inductive Derives (rules : List Rule) : SymbolString → SymbolString → Prop where
  | refl (string : SymbolString) : Derives rules string string
  | step {first middle last : SymbolString} (once : DerivesOnce rules first middle)
      (later : Derives rules middle last) : Derives rules first last

namespace Derives

variable {rules : List Rule}

theorem trans {first middle last : SymbolString} (early : Derives rules first middle)
    (late : Derives rules middle last) : Derives rules first last := by
  induction early with
  | refl => exact late
  | step once _ ih => exact .step once (ih late)

theorem of_rule {rule : Rule} (member : rule ∈ rules) : Derives rules [rule.lhs] rule.rhs := by
  have once := DerivesOnce.intro member [] []
  rw [List.append_nil] at once
  exact .step once (.refl _)

/-- A derivation goes on inside a longer string. -/
theorem within {first last : SymbolString} (derived : Derives rules first last)
    (front back : SymbolString) : Derives rules (front ++ first ++ back) (front ++ last ++ back) := by
  induction derived with
  | refl => exact .refl _
  | step once _ ih =>
      obtain ⟨member, before, behind⟩ := once
      refine .step ?_ ih
      have once := DerivesOnce.intro member (front ++ before) (behind ++ back)
      simpa only [List.append_assoc, List.cons_append] using once

/-- The parts of a string derive side by side. -/
theorem append {left left' right right' : SymbolString} (leftDerived : Derives rules left left')
    (rightDerived : Derives rules right right') :
    Derives rules (left ++ right) (left' ++ right') := by
  have first : Derives rules (left ++ right) (left' ++ right) := by
    simpa only [List.nil_append] using leftDerived.within [] right
  have second : Derives rules (left' ++ right) (left' ++ right') := by
    simpa only [List.append_nil] using rightDerived.within left' []
  exact first.trans second

end Derives

/-- A token, or a rule over a derivation tree for each symbol of its right-hand side. -/
inductive DerivationTree where
  | leaf (token : Token)
  | node (rule : Rule) (children : List DerivationTree)

namespace DerivationTree

/-- The symbol at the root. -/
def root : DerivationTree → Symbol
  | leaf token => token.symbol
  | node rule _ => rule.lhs

mutual
/-- The tokens at the leaves from left to right. -/
def leaves : DerivationTree → List Token
  | leaf token => [token]
  | node _ children => leavesOfAll children

/-- The tokens at the leaves of a sequence of trees. -/
def leavesOfAll : List DerivationTree → List Token
  | [] => []
  | tree :: rest => leaves tree ++ leavesOfAll rest
end

mutual
/-- The syntax tree that the rules build from the leaves up. -/
def syntaxTree : DerivationTree → SyntaxTree
  | leaf token => .leaf token
  | node rule children => rule.treeOf (syntaxTrees children)

/-- The syntax trees of a sequence of derivation trees. -/
def syntaxTrees : List DerivationTree → List SyntaxTree
  | [] => []
  | tree :: rest => syntaxTree tree :: syntaxTrees rest
end

/-- The tree uses rules of the grammar other than the start rule, and its leaves are tokens of
terminals. -/
inductive Valid (g : Grammar) : DerivationTree → Prop where
  | leaf (token : Token) (terminal : g.isNonterminal token.symbol = false) : Valid g (leaf token)
  | node (rule : Rule) (children : List DerivationTree) (member : rule ∈ g.userRules)
      (roots : children.map root = rule.rhs) (valid : ∀ child ∈ children, Valid g child) :
      Valid g (node rule children)

theorem derives_leavesOfAll {rules : List Rule} {trees : List DerivationTree}
    (each : ∀ tree ∈ trees, Derives rules [tree.root] (tree.leaves.map Token.symbol)) :
    Derives rules (trees.map root) ((leavesOfAll trees).map Token.symbol) := by
  induction trees with
  | nil => exact .refl _
  | cons tree rest ih =>
      have first := each tree List.mem_cons_self
      have later := ih fun other member => each other (List.mem_cons_of_mem _ member)
      rw [leavesOfAll, List.map_append]
      exact first.append later

/-- The root of a valid tree derives the symbols of its leaves. -/
theorem Valid.derives {g : Grammar} {tree : DerivationTree} (valid : tree.Valid g) :
    Derives g.rules [tree.root] (tree.leaves.map Token.symbol) := by
  induction valid with
  | leaf => exact .refl _
  | node rule children member roots _ ih =>
      have inRules : rule ∈ g.rules := List.mem_cons_of_mem _ member
      have below := derives_leavesOfAll ih
      rw [roots] at below
      exact (Derives.of_rule inRules).trans below

end DerivationTree

end ParserGenerator
