import ParserGenerator.Proofs.Session.Takes
import ParserGenerator.Proofs.Table.Generated

/-!
# What the stacks of a session stand for

As long as nothing is accepted, the states of a session are a path over the roots of derivation
trees, and the nodes are the syntax trees of these derivation trees. A shift adds a leaf, and a
reduction joins the trees of a right-hand side under a node; the leaves stay those tokens that were
taken.

Results: `Table.parseTokens_sound`, that a parse gives the syntax tree of a derivation tree, whether
or not the table has conflicts.
-/

namespace ParserGenerator

/-! ## Definitions -/

/-- The stacks of a session that has not accepted, as derivation trees with the latest one first. -/
structure Session.Represents (g : Grammar) (automaton : Automaton) (session : Session)
    (trees : List DerivationTree) : Prop where
  path : automaton.Path session.states (trees.map DerivationTree.root)
  nodes : session.nodes = trees.map DerivationTree.syntaxTree
  valid : ∀ tree ∈ trees, tree.Valid g
  running : session.accepted = false

namespace DerivationTree

/-- The tokens at the leaves of trees with the latest one first. -/
def yield (trees : List DerivationTree) : List Token := leavesOfAll trees.reverse

/-- The rules of the reductions that have made trees with the latest one first. -/
def history (trees : List DerivationTree) : List Rule := postorderOfAll trees.reverse

theorem syntaxTrees_eq_map (trees : List DerivationTree) :
    syntaxTrees trees = trees.map syntaxTree := by
  induction trees with
  | nil => rfl
  | cons tree rest ih => rw [syntaxTrees, ih, List.map_cons]

theorem yield_leaf (token : Token) (trees : List DerivationTree) :
    yield (leaf token :: trees) = yield trees ++ [token] := by
  unfold yield
  rw [List.reverse_cons, leavesOfAll_append]
  rfl

/-- Joining the latest trees under a node keeps the leaves. -/
theorem yield_node (rule : Rule) (count : Nat) (trees : List DerivationTree) :
    yield (node rule (trees.take count).reverse :: trees.drop count) = yield trees := by
  unfold yield
  rw [List.reverse_cons, leavesOfAll_append, leavesOfAll, leavesOfAll, List.append_nil, leaves,
    ← leavesOfAll_append, ← List.reverse_append, List.take_append_drop]

theorem postorderOfAll_append (left right : List DerivationTree) :
    postorderOfAll (left ++ right) = postorderOfAll left ++ postorderOfAll right := by
  induction left with
  | nil => rfl
  | cons tree rest ih =>
      rw [List.cons_append, postorderOfAll, postorderOfAll, ih, List.append_assoc]

theorem history_leaf (token : Token) (trees : List DerivationTree) :
    history (leaf token :: trees) = history trees := by
  unfold history
  rw [List.reverse_cons, postorderOfAll_append]
  exact List.append_nil _

/-- Joining the latest trees under a node is one more reduction. -/
theorem history_node (rule : Rule) (count : Nat) (trees : List DerivationTree) :
    history (node rule (trees.take count).reverse :: trees.drop count) =
      history trees ++ [rule] := by
  unfold history
  rw [List.reverse_cons, postorderOfAll_append, postorderOfAll, postorderOfAll, List.append_nil,
    postorder, ← List.append_assoc, ← postorderOfAll_append, ← List.reverse_append,
    List.take_append_drop]

end DerivationTree

namespace Session

variable {g : Grammar} {automaton : Automaton} {table : Table} {session after : Session}
  {trees : List DerivationTree} {token : Token} {tokens : List Token} {log : List Rule}

theorem represents_start (g : Grammar) (automaton : Automaton) :
    start.Represents g automaton [] where
  path := .start
  nodes := rfl
  valid := fun _ member => (List.not_mem_nil member).elim
  running := rfl

/-! ## Reductions -/

/-- Where a rule was read, the latest trees are those of its right-hand side, and the state in front
of them is reached by a path. -/
theorem Represents.back (represents : session.Represents g automaton trees) {id : Nat} {rule : Rule}
    (found : g.rule? id = some rule)
    (stands : Stands g (trees.map DerivationTree.root) ⟨id, rule.rhs.length⟩) :
    rule.rhs.length ≤ trees.length ∧
      ((trees.take rule.rhs.length).reverse).map DerivationTree.root = rule.rhs ∧
      automaton.Path (session.states.drop rule.rhs.length)
        ((trees.drop rule.rhs.length).map DerivationTree.root) := by
  have bound := stands.length_le
  have path := represents.path.drop bound
  obtain ⟨other, isOther, _, taken, _⟩ := stands.began
  cases found.symm.trans isOther
  rw [List.length_map] at bound
  rw [← List.map_drop] at path
  refine ⟨bound, ?_, path⟩
  dsimp only at taken
  rw [List.map_reverse, List.map_take, taken, List.reverse_reverse, List.take_length]

/-- A reduction joins the latest trees under a node. -/
theorem Represents.reduce (generated : table.Generated g automaton)
    (represents : session.Represents g automaton trees) {id : Nat} {rule : Rule}
    (member : rule ∈ g.userRules) (found : g.rule? id = some rule)
    (stands : Stands g (trees.map DerivationTree.root) ⟨id, rule.rhs.length⟩)
    (reduced : session.reduce table id = .ok after) :
    after.Represents g automaton
      (.node rule (trees.take rule.rhs.length).reverse :: trees.drop rule.rhs.length) := by
  obtain ⟨enough, roots, path⟩ := represents.back found stands
  obtain ⟨top, below, back⟩ := path.exists_top
  have known := (generated.rule?_eq id).trans found
  obtain ⟨next, cell⟩ := goto_of_reduce known back reduced
  have nodes := represents.nodes
  have enoughNodes : rule.rhs.length ≤ session.nodes.length := by
    rw [nodes, List.length_map]
    exact enough
  rw [reduce_of_goto known back cell enoughNodes] at reduced
  cases reduced
  refine ⟨?_, ?_, ?_, represents.running⟩
  · rw [back] at path
    exact .push path (generated.edge_of_goto cell)
  · dsimp only
    rw [nodes, List.map_cons, DerivationTree.syntaxTree, DerivationTree.syntaxTrees_eq_map,
      List.map_reverse, List.map_take, List.map_drop]
  · intro tree isTree
    rcases List.mem_cons.1 isTree with isNode | old
    · rw [isNode]
      refine .node rule _ member roots fun child isChild => ?_
      exact represents.valid child (List.mem_of_mem_take (List.mem_reverse.1 isChild))
    · exact represents.valid tree (List.mem_of_mem_drop old)

/-! ## Tokens -/

/-- A token that is taken is shifted behind the leaves, or closes the tree of a whole input. The
reductions that this takes have made the trees out of those before. -/
theorem Takes.represents_history (generated : table.Generated g automaton)
    (takes : session.Takes table token log (.ok after))
    (represents : session.Represents g automaton trees) :
    (∃ later, after.Represents g automaton later ∧
      DerivationTree.yield later = DerivationTree.yield trees ++ [token] ∧
      DerivationTree.history later = DerivationTree.history trees ++ log) ∨
    (token.symbol = Symbol.endOfInput ∧ after.accepted = true ∧
      ∃ last : Session, ∃ tree : DerivationTree, last.Represents g automaton [tree] ∧
        tree.root = g.startSymbol ∧ DerivationTree.yield [tree] = DerivationTree.yield trees ∧
        DerivationTree.history [tree] = DerivationTree.history trees ++ log ∧
        after.nodes = [tree.syntaxTree]) := by
  generalize isOk : Except.ok after = outcome at takes
  induction takes generalizing trees with
  | shift cell =>
      cases isOk
      obtain ⟨edge, terminal⟩ := generated.edge_of_shift cell
      refine .inl ⟨.leaf token :: trees, ⟨.push represents.path edge, ?_, ?_, represents.running⟩,
        DerivationTree.yield_leaf token trees, ?_⟩
      · exact congrArg (SyntaxTree.leaf token :: ·) represents.nodes
      · intro tree isTree
        rcases List.mem_cons.1 isTree with isLeaf | old
        · exact isLeaf ▸ .leaf token terminal
        · exact represents.valid tree old
      · rw [DerivationTree.history_leaf, List.append_nil]
  | accept cell =>
      cases isOk
      obtain ⟨isEnd, roots⟩ := generated.read_of_accept represents.path cell
      obtain ⟨tree, rest, isTrees, root, isRest⟩ := List.map_eq_cons_iff.1 roots
      cases List.map_eq_nil_iff.1 isRest
      cases isTrees
      exact .inr ⟨isEnd, rfl, _, tree, represents, root, rfl, (List.append_nil _).symm,
        represents.nodes⟩
  | @reduce top id below nodes accepted rule _ log _ cell known reduced _ ih =>
      obtain ⟨rule', member, found, awaits⟩ := generated.awaits_of_reduce represents.path cell
      cases (known.symm.trans (generated.rule?_eq id)).trans found
      have later := represents.reduce generated member found awaits.stands reduced
      have outcome := ih later isOk
      rw [DerivationTree.yield_node, DerivationTree.history_node, List.append_assoc] at outcome
      exact outcome
  | fail => cases isOk
  | refuse => cases isOk
  | bottom => cases isOk

/-- A token that is taken is shifted behind the leaves, or closes the tree of a whole input. -/
theorem Takes.represents (generated : table.Generated g automaton)
    (takes : session.Takes table token log (.ok after))
    (represents : session.Represents g automaton trees) :
    (∃ later, after.Represents g automaton later ∧
      DerivationTree.yield later = DerivationTree.yield trees ++ [token]) ∨
    (token.symbol = Symbol.endOfInput ∧ after.accepted = true ∧ ∃ tree : DerivationTree,
      tree.Valid g ∧ tree.root = g.startSymbol ∧ tree.leaves = DerivationTree.yield trees ∧
        after.nodes = [tree.syntaxTree]) := by
  rcases takes.represents_history generated represents with
    ⟨later, shifted, yields, _⟩ | ⟨isEnd, accepted, last, tree, stands, root, yields, _, nodes⟩
  · exact .inl ⟨later, shifted, yields⟩
  · refine .inr ⟨isEnd, accepted, tree, stands.valid tree (List.mem_singleton.2 rfl), root, ?_,
      nodes⟩
    rw [← yields]
    exact (List.append_nil _).symm

/-- Tokens that are all taken are leaves, but for a last one that closes the tree of a whole
input. -/
theorem TakesAll.represents (generated : table.Generated g automaton)
    (takes : session.TakesAll table tokens log (.ok after))
    (represents : session.Represents g automaton trees) :
    (∃ later, after.Represents g automaton later ∧
      DerivationTree.yield later = DerivationTree.yield trees ++ tokens) ∨
    (∃ word closing, ∃ tree : DerivationTree, tokens = word ++ [closing] ∧
      closing.symbol = Symbol.endOfInput ∧ tree.Valid g ∧ tree.root = g.startSymbol ∧
        tree.leaves = DerivationTree.yield trees ++ word ∧ after.nodes = [tree.syntaxTree]) := by
  generalize isOk : Except.ok after = outcome at takes
  induction takes generalizing trees with
  | nil =>
      cases isOk
      exact .inl ⟨trees, represents, (List.append_nil _).symm⟩
  | @cons session middle token rest _ _ _ _ takes takesRest ih =>
      rcases takes.represents generated represents with ⟨between, shifted, yields⟩ | closed
      · have outcome := ih shifted isOk
        rw [yields, List.append_assoc] at outcome
        rcases outcome with later | ⟨word, closing, tree, isRest, closed⟩
        · exact .inl later
        · rw [List.append_assoc] at closed
          exact .inr ⟨token :: word, closing, tree, by rw [isRest, List.cons_append], closed⟩
      · obtain ⟨isEnd, accepted, tree, valid, root, leaves, nodes⟩ := closed
        cases takesRest with
        | nil =>
            cases isOk
            exact .inr ⟨[], token, tree, rfl, isEnd, valid, root, by rw [leaves, List.append_nil],
              nodes⟩
        | cons running => cases running.symm.trans accepted
        | fail => cases isOk
        | finished => cases isOk
  | fail => cases isOk
  | finished => cases isOk

end Session

/-! ## Soundness -/

theorem Table.takesAll_of_parseTokens {table : Table} {fuel : Nat} {tokens : List Token}
    {tree : SyntaxTree} (parsed : table.parseTokens fuel tokens = some (.ok tree)) :
    ∃ log session, Session.start.TakesAll table tokens log (.ok session) ∧
      session.accepted = true ∧ session.nodes = [tree] := by
  obtain ⟨outcome, processed, finished⟩ := Option.bind_eq_some_iff.1 parsed
  obtain ⟨log, takes⟩ := Session.takesAll_of_processAll processed
  cases outcome with
  | error failure => cases finished
  | ok session =>
      have isTree : session.finish table = .ok tree := Option.some.inj finished
      unfold Session.finish at isTree
      split at isTree
      · rename_i accepted
        split at isTree
        · rename_i only isNodes
          cases isTree
          exact ⟨log, session, takes, accepted, isNodes⟩
        · cases isTree
      · cases isTree

theorem Table.derivation_of_parseTokens {g : Grammar} {automaton : Automaton} {table : Table}
    (generated : table.Generated g automaton) {fuel : Nat} {tokens : List Token} {tree : SyntaxTree}
    (parsed : table.parseTokens fuel tokens = some (.ok tree)) :
    ∃ word closing, ∃ derivation : DerivationTree, tokens = word ++ [closing] ∧
      closing.symbol = Symbol.endOfInput ∧ derivation.Valid g ∧
      derivation.root = g.startSymbol ∧ derivation.leaves = word ∧
      tree = derivation.syntaxTree := by
  obtain ⟨log, session, takes, isAccepted, isNodes⟩ := takesAll_of_parseTokens parsed
  rcases takes.represents generated (Session.represents_start g automaton) with
    ⟨trees, represents, _⟩ |
    ⟨word, closing, derivation, isTokens, isEnd, valid, root, leaves, nodes⟩
  · rw [represents.running] at isAccepted
    cases isAccepted
  · rw [isNodes] at nodes
    exact ⟨word, closing, derivation, isTokens, isEnd, valid, root, leaves,
      (List.cons.inj nodes).1⟩

/-- A parse gives the syntax tree of a derivation tree of the start symbol over the tokens in front
of the end of the input, whether or not the table has conflicts. -/
theorem Table.parseTokens_sound {rules : List Rule} {start : Option Symbol}
    {names symbols : SymbolTable} {g : Grammar} {limit : Option Nat} {table : Table}
    (accepted : Grammar.ofRules rules start names = .ok g)
    (built : Table.ofGrammar g symbols limit = .ok table) {fuel : Nat} {tokens : List Token}
    {tree : SyntaxTree} (parsed : table.parseTokens fuel tokens = some (.ok tree)) :
    ∃ word closing, ∃ derivation : DerivationTree, tokens = word ++ [closing] ∧
      closing.symbol = Symbol.endOfInput ∧ derivation.Valid g ∧
      derivation.root = g.startSymbol ∧ derivation.leaves = word ∧
      tree = derivation.syntaxTree := by
  obtain ⟨automaton, generated⟩ := Table.generated_of_ofGrammar accepted built
  exact derivation_of_parseTokens generated parsed

/-- The rules of sequences: `3 := 4 3` and `3 :=`. -/
def sequenceRules : List Rule := [Rule.plain ⟨3⟩ [⟨4⟩, ⟨3⟩], Rule.plain ⟨3⟩ []]

/-- An element of a sequence. -/
def sequenceToken : Token := ⟨⟨4⟩, "x", 0, 1⟩

/-- The syntax tree of a sequence of one element. -/
def sequenceSyntaxTree : SyntaxTree := .branch ⟨3⟩ [.leaf sequenceToken, .branch ⟨3⟩ []]

theorem exists_sequenceTable :
    ∃ g table, Grammar.ofRules sequenceRules none SymbolTable.initial = .ok g ∧
      g.startSymbol = ⟨3⟩ ∧ g.isNonterminal sequenceToken.symbol = false ∧
      Table.ofGrammar g SymbolTable.initial none = .ok table ∧
      table.conflicts = [] ∧ table.parseTokens 4 [sequenceToken, Token.endOfInput 1] =
        some (.ok sequenceSyntaxTree) :=
  ⟨_, _, rfl, rfl, rfl, rfl, by decide +kernel, by decide +kernel⟩

theorem parseTokens_sound_sequence :
    ∃ g table, Grammar.ofRules sequenceRules none SymbolTable.initial = .ok g ∧
      Table.ofGrammar g SymbolTable.initial none = .ok table ∧
      table.parseTokens 4 [sequenceToken, Token.endOfInput 1] = some (.ok sequenceSyntaxTree) ∧
      ∃ word closing, ∃ derivation : DerivationTree,
        [sequenceToken, Token.endOfInput 1] = word ++ [closing] ∧
        closing.symbol = Symbol.endOfInput ∧ derivation.Valid g ∧
        derivation.root = g.startSymbol ∧ derivation.leaves = word ∧
        sequenceSyntaxTree = derivation.syntaxTree := by
  obtain ⟨g, table, accepted, _, _, built, _, parsed⟩ := exists_sequenceTable
  exact ⟨g, table, accepted, built, parsed, Table.parseTokens_sound accepted built parsed⟩

end ParserGenerator
