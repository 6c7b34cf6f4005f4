import ParserGenerator.Proofs.Grammar.First

/-!
# Derivation trees and derivations

A derivation to a string of tokens can be read as a sequence of derivation trees, one for each
symbol of the string it starts from. The rules of a tree in post-order, children before their
parent, are the rightmost derivation of its leaves read backwards; they leave no choice.

Results:
1. `DerivationTree.exists_forest`: a derivation to tokens has derivation trees.
2. `DerivationTree.eq_of_postorder`: a valid tree is determined by its root, its leaves and its
   rules in post-order.
3. `Grammar.WellFormed.mem_firstOf_of_derives`: what a part of a right-hand side derives begins
   with a member of FIRST.
-/

namespace ParserGenerator

/-! ## Derivations without the start rule -/

/-- The start rule plays no part in what is derived from a string without the reserved start. -/
theorem Derives.user {g : Grammar} (formed : g.WellFormed) {first last : SymbolString}
    (derived : Derives g.rules first last) (noStart : Symbol.start ∉ first) :
    Derives g.userRules first last := by
  induction derived with
  | refl => exact .refl _
  | step once _ ih =>
      obtain @⟨rule, member, front, back⟩ := once
      simp only [List.mem_append, List.mem_cons, not_or] at noStart
      obtain ⟨notFront, notLhs, notBack⟩ := noStart
      have inUser : rule ∈ g.userRules := by
        rcases Grammar.mem_rules.1 member with equal | inUser
        · rw [equal] at notLhs
          exact absurd rfl notLhs
        · exact inUser
      refine .step (.intro inUser front back) (ih ?_)
      simp only [List.mem_append, not_or]
      exact ⟨notFront, formed.start_not_mem_rhs member, notBack⟩

namespace Grammar

/-- Each symbol of the string stands on some right-hand side. -/
def Used (g : Grammar) (string : SymbolString) : Prop :=
  ∀ symbol ∈ string, ∃ rule ∈ g.rules, symbol ∈ rule.rhs

theorem used_rhs {g : Grammar} {rule : Rule} (member : rule ∈ g.rules) : g.Used rule.rhs :=
  fun _ inRhs => ⟨rule, member, inRhs⟩

theorem Used.drop {g : Grammar} {string : SymbolString} (used : g.Used string) (count : Nat) :
    g.Used (string.drop count) := fun symbol member => used symbol (List.mem_of_mem_drop member)

theorem Used.derives {g : Grammar} {first last : SymbolString} (used : g.Used first)
    (derived : Derives g.rules first last) : g.Used last := by
  induction derived with
  | refl => exact used
  | step once _ ih =>
      obtain ⟨member, front, back⟩ := once
      refine ih fun symbol inMiddle => ?_
      rcases List.mem_append.1 inMiddle with inFront | inRest
      · exact used symbol (List.mem_append.2 (.inl inFront))
      · rcases List.mem_append.1 inRest with inRhs | inBack
        · exact used_rhs member symbol inRhs
        · exact used symbol (List.mem_append.2 (.inr (List.mem_cons_of_mem _ inBack)))

theorem WellFormed.start_not_mem_used {g : Grammar} (formed : g.WellFormed) {string : SymbolString}
    (used : g.Used string) : Symbol.start ∉ string := by
  intro member
  obtain ⟨rule, inRules, inRhs⟩ := used _ member
  exact formed.start_not_mem_rhs inRules inRhs

/-- What is derived from symbols of right-hand sides begins with a member of FIRST. -/
theorem WellFormed.mem_firstOf_of_derives {g : Grammar} (formed : g.WellFormed)
    {string rest : SymbolString} {x : Symbol} (used : g.Used string)
    (derived : Derives g.rules string (x :: rest)) (terminal : g.isNonterminal x = false) :
    x ∈ g.firstOf string :=
  (formed.mem_firstOf_iff
    (mem_terminals.2 (.inr ⟨used.derives derived x List.mem_cons_self, terminal⟩))).2
    ⟨rest, derived⟩

end Grammar

namespace DerivationTree

/-! ## Trees of a derivation -/

theorem leavesOfAll_append (left right : List DerivationTree) :
    leavesOfAll (left ++ right) = leavesOfAll left ++ leavesOfAll right := by
  induction left with
  | nil => rfl
  | cons tree rest ih => rw [List.cons_append, leavesOfAll, leavesOfAll, ih, List.append_assoc]

/-- What holds of the leaves of each tree holds of the leaves of all. -/
theorem forall_mem_leavesOfAll {holds : Token → Prop} {trees : List DerivationTree}
    (each : ∀ tree ∈ trees, ∀ token ∈ tree.leaves, holds token) :
    ∀ token ∈ leavesOfAll trees, holds token := by
  induction trees with
  | nil =>
      intro token member
      cases member
  | cons tree rest ih =>
      intro token member
      rw [leavesOfAll] at member
      rcases List.mem_append.1 member with inTree | inRest
      · exact each tree List.mem_cons_self token inTree
      · exact ih (fun other later => each other (List.mem_cons_of_mem _ later)) token inRest

theorem Valid.terminal_of_mem_leaves {g : Grammar} {tree : DerivationTree} (valid : tree.Valid g) :
    ∀ token ∈ tree.leaves, g.isNonterminal token.symbol = false := by
  induction valid with
  | leaf token terminal =>
      intro other member
      rw [leaves, List.mem_singleton] at member
      exact member ▸ terminal
  | node rule children _ _ _ ih => exact forall_mem_leavesOfAll ih

/-- The leaves of a sequence of trees for tokens are the tokens. -/
theorem leavesOfAll_leaf (tokens : List Token) : leavesOfAll (tokens.map leaf) = tokens := by
  induction tokens with
  | nil => rfl
  | cons token rest ih => rw [List.map_cons, leavesOfAll, leaves, ih, List.singleton_append]

/-- A derivation to tokens of terminals has a derivation tree for each symbol it starts from: a
replacement puts a node over the trees of its right-hand side. -/
theorem exists_forest {g : Grammar} {string : SymbolString} {tokens : List Token}
    (derived : Derives g.userRules string (tokens.map Token.symbol))
    (terminal : ∀ token ∈ tokens, g.isNonterminal token.symbol = false) :
    ∃ trees : List DerivationTree, (∀ tree ∈ trees, tree.Valid g) ∧ trees.map root = string ∧
      leavesOfAll trees = tokens := by
  generalize reached : tokens.map Token.symbol = last at derived
  induction derived with
  | refl =>
      refine ⟨tokens.map leaf, ?_, ?_, leavesOfAll_leaf tokens⟩
      · intro tree member
        obtain ⟨token, inTokens, equal⟩ := List.mem_map.1 member
        exact equal ▸ .leaf token (terminal token inTokens)
      · rw [List.map_map, ← reached]
        rfl
  | step once _ ih =>
      obtain @⟨rule, member, front, back⟩ := once
      obtain ⟨trees, valid, roots, yields⟩ := ih reached
      obtain ⟨left, others, split, leftRoots, otherRoots⟩ := List.map_eq_append_iff.1 roots
      obtain ⟨children, right, split', childRoots, rightRoots⟩ :=
        List.map_eq_append_iff.1 otherRoots
      subst split split'
      refine ⟨left ++ node rule children :: right, ?_, ?_, ?_⟩
      · intro tree inTrees
        rcases List.mem_append.1 inTrees with inLeft | inRest
        · exact valid tree (List.mem_append.2 (.inl inLeft))
        · rcases List.mem_cons.1 inRest with equal | inRight
          · rw [equal]
            refine .node rule children member childRoots fun child inChildren => valid child ?_
            exact List.mem_append.2 (.inr (List.mem_append.2 (.inl inChildren)))
          · exact valid tree (List.mem_append.2 (.inr (List.mem_append.2 (.inr inRight))))
      · rw [List.map_append, List.map_cons, leftRoots, rightRoots]
        rfl
      · rw [← yields, leavesOfAll_append, leavesOfAll_append, leavesOfAll_append, leavesOfAll]
        rfl

/-! ## Post-order -/

mutual
/-- The rules at the nodes, children before their parent. -/
def postorder : DerivationTree → List Rule
  | leaf _ => []
  | node rule children => postorderOfAll children ++ [rule]

/-- The rules at the nodes of a sequence of trees. -/
def postorderOfAll : List DerivationTree → List Rule
  | [] => []
  | tree :: rest => postorder tree ++ postorderOfAll rest
end

/-- Read from the right, rules and leaves tell one tree with a given root from what is in front of
it. -/
def Determined (g : Grammar) (left : DerivationTree) : Prop :=
  ∀ right : DerivationTree, right.Valid g → left.root = right.root →
    ∀ {rules rules' : List Rule} {tokens tokens' : List Token},
      rules ++ left.postorder = rules' ++ right.postorder →
      tokens ++ left.leaves = tokens' ++ right.leaves →
      left = right ∧ rules = rules' ∧ tokens = tokens'

theorem determined_all {g : Grammar} {lefts rights : List DerivationTree}
    (determined : ∀ left ∈ lefts, Determined g left) (valid : ∀ right ∈ rights, right.Valid g)
    (roots : lefts.map root = rights.map root) {rules rules' : List Rule}
    {tokens tokens' : List Token}
    (sameRules : rules ++ postorderOfAll lefts = rules' ++ postorderOfAll rights)
    (sameTokens : tokens ++ leavesOfAll lefts = tokens' ++ leavesOfAll rights) :
    lefts = rights ∧ rules = rules' ∧ tokens = tokens' := by
  induction lefts generalizing rights rules rules' tokens tokens' with
  | nil =>
      cases rights with
      | nil =>
          rw [postorderOfAll, List.append_nil, List.append_nil] at sameRules
          rw [leavesOfAll, List.append_nil, List.append_nil] at sameTokens
          exact ⟨rfl, sameRules, sameTokens⟩
      | cons right rest => cases roots
  | cons left lefts ih =>
      cases rights with
      | nil => cases roots
      | cons right rights =>
          rw [List.map_cons, List.map_cons, List.cons.injEq] at roots
          rw [postorderOfAll, postorderOfAll, ← List.append_assoc, ← List.append_assoc] at sameRules
          rw [leavesOfAll, leavesOfAll, ← List.append_assoc, ← List.append_assoc] at sameTokens
          -- The trees behind come first: what is in front of them ends with the first trees.
          obtain ⟨sameRest, frontRules, frontTokens⟩ :=
            ih (fun other member => determined other (List.mem_cons_of_mem _ member))
              (fun other member => valid other (List.mem_cons_of_mem _ member)) roots.2 sameRules
              sameTokens
          obtain ⟨sameFirst, equalRules, equalTokens⟩ :=
            determined left List.mem_cons_self right (valid right List.mem_cons_self) roots.1
              frontRules frontTokens
          exact ⟨by rw [sameFirst, sameRest], equalRules, equalTokens⟩

theorem Valid.determined {g : Grammar} {left : DerivationTree} (valid : left.Valid g) :
    Determined g left := by
  induction valid with
  | leaf token terminal =>
      intro right rightValid roots rules rules' tokens tokens' sameRules sameTokens
      cases rightValid with
      | leaf other _ =>
          rw [leaves, leaves] at sameTokens
          obtain ⟨front, last⟩ := List.append_inj' sameTokens rfl
          rw [List.cons.injEq] at last
          rw [postorder, postorder, List.append_nil, List.append_nil] at sameRules
          exact ⟨by rw [last.1], sameRules, front⟩
      | node rule children member _ _ =>
          have isLhs := Grammar.isNonterminal_lhs (Grammar.mem_rules.2 (.inr member))
          change token.symbol = rule.lhs at roots
          rw [← roots, terminal] at isLhs
          cases isLhs
  | node rule children member childRoots _ ih =>
      intro right rightValid roots rules rules' tokens tokens' sameRules sameTokens
      cases rightValid with
      | leaf other terminal =>
          have isLhs := Grammar.isNonterminal_lhs (Grammar.mem_rules.2 (.inr member))
          change rule.lhs = other.symbol at roots
          rw [roots, terminal] at isLhs
          cases isLhs
      | node rule' children' _ childRoots' valid' =>
          rw [postorder, postorder, ← List.append_assoc, ← List.append_assoc] at sameRules
          obtain ⟨frontRules, last⟩ := List.append_inj' sameRules rfl
          rw [List.cons.injEq] at last
          obtain ⟨sameRule, _⟩ := last
          subst sameRule
          rw [leaves, leaves] at sameTokens
          obtain ⟨sameChildren, equalRules, equalTokens⟩ :=
            determined_all ih valid' (childRoots.trans childRoots'.symm) frontRules sameTokens
          exact ⟨by rw [sameChildren], equalRules, equalTokens⟩

/-- A valid tree is determined by its root, its leaves and its rules in post-order. -/
theorem eq_of_postorder {g : Grammar} {left right : DerivationTree} (leftValid : left.Valid g)
    (rightValid : right.Valid g) (roots : left.root = right.root)
    (sameLeaves : left.leaves = right.leaves) (sameRules : left.postorder = right.postorder) :
    left = right :=
  (leftValid.determined right rightValid roots (congrArg ([] ++ ·) sameRules)
    (congrArg ([] ++ ·) sameLeaves)).1

end DerivationTree

end ParserGenerator
