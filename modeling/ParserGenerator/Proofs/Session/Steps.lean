import Mathlib
import ParserGenerator.Proofs.Session.Expected

/-!
# How many steps a parse takes

The reductions of a parse have made the trees on its stack, and without conflicts a token that is
refused costs no reduction. So a parse has an outcome as soon as the bound on its steps is larger
than the number of nodes that trees over so many tokens can have.

Weights of symbols bound this number: a rule adds a node and may not weigh more than its left-hand
side with it. The trees on a stack weigh no more than the shares that their roots have of the start
symbol.

Results: `Table.exists_parseTokens` and `Grammar.Weighing.slim`.
-/

namespace ParserGenerator

variable {g : Grammar} {automaton : Automaton} {table : Table}

/-! ## Definitions -/

/-- The trees on a stack have at most `slope` nodes for each leaf and `offset` more. -/
def Automaton.Slim (g : Grammar) (automaton : Automaton) (slope offset : Nat) : Prop :=
  ∀ (session : Session) (trees : List DerivationTree), session.Represents g automaton trees →
    (DerivationTree.history trees).length ≤ slope * (DerivationTree.yield trees).length + offset

/-- Weights of symbols, and a share of the offset for each symbol that bounds its weight. -/
structure Grammar.Weighing (g : Grammar) (slope offset : Nat) where
  /-- How many nodes a tree has beside `slope` for each leaf, by the symbol at its root. -/
  weight : Symbol → Int
  share : Symbol → Nat
  leaf : ∀ symbol, g.isNonterminal symbol = false → 0 ≤ slope + weight symbol
  node : ∀ rule ∈ g.userRules, (rule.rhs.map weight).sum + 1 ≤ weight rule.lhs
  weight_le_share : ∀ symbol, weight symbol ≤ share symbol
  shared : ∀ rule ∈ g.userRules, (rule.rhs.map share).sum ≤ share rule.lhs
  start : share g.startSymbol ≤ offset

namespace Session

/-! ## All tokens -/

theorem exists_takesAll_of_accepted {session : Session} (accepted : session.accepted = true)
    (tokens : List Token) : ∃ outcome, session.TakesAll table tokens [] outcome := by
  cases tokens with
  | nil => exact ⟨_, .nil session⟩
  | cons token rest => exact ⟨_, .finished accepted⟩

/-- Without conflicts, tokens are all taken or there is an error, and all reductions on the way have
made trees that stand on a stack. -/
theorem Represents.exists_takesAll (exact : table.Exact g automaton) (tokens : List Token)
    {session : Session} {trees : List DerivationTree}
    (represents : session.Represents g automaton trees) :
    ∃ log outcome, session.TakesAll table tokens log outcome ∧
      ∃ last : Session, ∃ later, last.Represents g automaton later ∧
        (DerivationTree.yield later).length ≤ (DerivationTree.yield trees).length + tokens.length ∧
        DerivationTree.history later = DerivationTree.history trees ++ log := by
  induction tokens generalizing session trees with
  | nil =>
      exact ⟨[], _, .nil session, session, trees, represents, Nat.le_refl _,
        (List.append_nil _).symm⟩
  | cons token rest ih =>
      have running := represents.running
      rcases represents.takes_or_refuses exact token with
        ⟨_, log, after, takes⟩ | ⟨_, top, below, _, refuses⟩
      · rcases takes.represents_history exact.toGenerated represents with
          ⟨between, shifted, yields, made⟩ | ⟨_, accepted, last, tree, stands, _, yields, made, _⟩
        · obtain ⟨log', outcome, takesRest, last, later, stands, size, made'⟩ := ih shifted
          refine ⟨log ++ log', outcome, .cons running takes takesRest, last, later, stands, ?_, ?_⟩
          · rw [yields, List.length_append, List.length_singleton] at size
            rw [List.length_cons]
            omega
          · rw [made', made, List.append_assoc]
        · obtain ⟨outcome, takesRest⟩ := exists_takesAll_of_accepted accepted rest
          refine ⟨log ++ [], outcome, .cons running takes takesRest, last, [tree], stands, ?_, ?_⟩
          · rw [yields]
            exact Nat.le_add_right _ _
          · rw [made, List.append_nil]
      · exact ⟨[], _, .fail running refuses, session, trees, represents, Nat.le_add_right _ _,
          (List.append_nil _).symm⟩

end Session

/-- A parse has an outcome if its bound on the steps of a token is larger than the number of nodes
that trees over all the tokens can have. -/
theorem Table.exists_parseTokens (exact : table.Exact g automaton) {slope offset : Nat}
    (slim : automaton.Slim g slope offset) {fuel : Nat} {tokens : List Token}
    (enough : slope * tokens.length + offset < fuel) :
    ∃ outcome, table.parseTokens fuel tokens = some outcome := by
  obtain ⟨log, outcome, takes, last, later, stands, size, made⟩ :=
    (Session.represents_start g automaton).exists_takesAll exact tokens
  have nodes := slim last later stands
  have bound : log.length < fuel := by
    have sizes := congrArg List.length made
    rw [List.length_append] at sizes
    have leaves : (DerivationTree.yield later).length ≤ tokens.length := by
      rw [← Nat.zero_add tokens.length]
      exact size
    have scaled := Nat.mul_le_mul_left slope leaves
    omega
  unfold parseTokens
  rw [takes.processAll bound]
  cases outcome with
  | ok session => exact ⟨_, rfl⟩
  | error failure => exact ⟨_, rfl⟩

/-! ## Weights -/

namespace Grammar.Weighing

variable {slope offset : Nat} (weighing : g.Weighing slope offset)

theorem postorderOfAll_le {trees : List DerivationTree}
    (each : ∀ tree ∈ trees,
      (tree.postorder.length : Int) ≤ slope * tree.leaves.length + weighing.weight tree.root) :
    ((DerivationTree.postorderOfAll trees).length : Int) ≤
      slope * (DerivationTree.leavesOfAll trees).length +
        ((trees.map DerivationTree.root).map weighing.weight).sum := by
  induction trees with
  | nil => exact (Int.mul_zero _).symm ▸ Int.le_refl _
  | cons tree rest ih =>
      have first := each tree List.mem_cons_self
      have later := ih fun other member => each other (List.mem_cons_of_mem _ member)
      rw [DerivationTree.postorderOfAll, DerivationTree.leavesOfAll, List.length_append,
        List.length_append, List.map_cons, List.map_cons, List.sum_cons]
      push_cast
      rw [Int.mul_add]
      omega

/-- The nodes of a valid tree are bounded by its leaves and the weight of its root. -/
theorem postorder_le {tree : DerivationTree} (valid : tree.Valid g) :
    (tree.postorder.length : Int) ≤ slope * tree.leaves.length + weighing.weight tree.root := by
  induction valid with
  | leaf token terminal =>
      have enough := weighing.leaf token.symbol terminal
      rw [DerivationTree.postorder, DerivationTree.leaves, DerivationTree.root,
        List.length_singleton, Int.natCast_one, Int.mul_one]
      exact enough
  | node rule children member roots _ ih =>
      have below := weighing.postorderOfAll_le ih
      have above := weighing.node rule member
      rw [roots] at below
      rw [DerivationTree.postorder, DerivationTree.leaves, DerivationTree.root, List.length_append,
        List.length_singleton]
      push_cast
      omega

theorem sum_share_le {first last : SymbolString} (derived : Derives g.userRules first last) :
    (last.map weighing.share).sum ≤ (first.map weighing.share).sum := by
  induction derived with
  | refl => exact Nat.le_refl _
  | step once _ ih =>
      obtain ⟨member, front, back⟩ := once
      have kept := weighing.shared _ member
      simp only [List.map_append, List.map_cons, List.sum_append_nat, List.sum_cons] at ih ⊢
      omega

theorem sum_weight_le (symbols : List Symbol) :
    (symbols.map weighing.weight).sum ≤ ((symbols.map weighing.share).sum : Int) := by
  induction symbols with
  | nil => exact Int.le_refl _
  | cons symbol rest ih =>
      have first := weighing.weight_le_share symbol
      rw [List.map_cons, List.map_cons, List.sum_cons, List.sum_cons, Int.natCast_add]
      omega

include weighing in
/-- What stands on a stack is a part of what is derived from the start symbol, so that its symbols
share the offset. -/
theorem slim (generated : table.Generated g automaton) : automaton.Slim g slope offset := by
  intro session trees represents
  have nodes := weighing.postorderOfAll_le fun tree (member : tree ∈ trees.reverse) =>
    weighing.postorder_le (represents.valid tree (List.mem_reverse.1 member))
  obtain ⟨core, stands⟩ :=
    represents.path.exists_stands generated.formed generated.canonical
  obtain ⟨rule, tail, _, derived⟩ := stands.derives generated.formed
  -- The shares of the roots are a part of those of what is derived, which do not outgrow the start.
  have shares := weighing.sum_share_le derived
  have weights := weighing.sum_weight_le (trees.reverse.map DerivationTree.root)
  have whole := weighing.start
  rw [← List.map_reverse, List.map_append, List.sum_append_nat, List.map_singleton,
    List.sum_singleton] at shares
  unfold DerivationTree.history DerivationTree.yield
  omega

end Grammar.Weighing

end ParserGenerator
