import ParserGenerator.Proofs.Session.Represents

/-!
# Runs over derivation trees

With a table without conflicts, a session that stands where the root of a derivation tree is
expected goes over the tree: it shifts the leaves, reduces by the rules of the tree in post-order,
and ends one state further. The next token has to be one that can stand behind the tree, since it
decides about the last reductions.

Results:
1. `Session.TakesAll.of_derivation` and `Session.TakesAll.of_forest`: runs over trees.
2. `Table.parseTokens_complete`: every derivation tree of the start symbol is found, and no two of
   them have the same leaves.
-/

namespace ParserGenerator

variable {g : Grammar} {automaton : Automaton} {table : Table} {top : Nat} {states : List Nat}
  {nodes : List SyntaxTree} {read : List Symbol} {core : ItemCore} {next : Token}
  {rest : List Token}

namespace Session

/-- Wherever the root of the tree is expected and the next token can stand behind it, a run goes
over the tree to the state behind its root. -/
def RunsOver (g : Grammar) (automaton : Automaton) (table : Table) (tree : DerivationTree) : Prop :=
  ∀ {top target : Nat} {states : List Nat} {nodes : List SyntaxTree} {read : List Symbol}
    {core : ItemCore} {next : Token} {rest : List Token} {log : List Rule}
    {outcome : Except Failure Session},
    automaton.Path (top :: states) read → Stands g read core →
    core.nextSymbol g = some tree.root → Behind g read core next.symbol →
    automaton.Edge top tree.root target →
    TakesAll table ⟨target :: top :: states, tree.syntaxTree :: nodes, false⟩ (next :: rest) log
      outcome →
    TakesAll table ⟨top :: states, nodes, false⟩ (tree.leaves ++ next :: rest)
      (tree.postorder ++ log) outcome

/-! ## Reductions -/

/-- Where a rule was read and the next token is awaited behind it, a run reduces by the rule. -/
theorem TakesAll.of_awaits (exact : table.Exact g automaton)
    (path : automaton.Path (top :: states) read) {id : Nat} {rule : Rule}
    (found : g.rule? id = some rule) (differs : id ≠ Grammar.startRuleId)
    (awaits : Awaits g read ⟨id, rule.rhs.length⟩ next.symbol) {outer target : Nat}
    {below : List Nat} (back : (top :: states).drop rule.rhs.length = outer :: below)
    (edge : automaton.Edge outer rule.lhs target) (enough : rule.rhs.length ≤ nodes.length)
    {log : List Rule} {outcome : Except Failure Session}
    (later : TakesAll table ⟨target :: outer :: below,
      rule.treeOf (nodes.take rule.rhs.length).reverse :: nodes.drop rule.rhs.length, false⟩
      (next :: rest) log outcome) :
    TakesAll table ⟨top :: states, nodes, false⟩ (next :: rest) (rule :: log) outcome := by
  have known := (exact.rule?_eq id).trans found
  have nonterminal := Grammar.isNonterminal_lhs (Grammar.mem_rules_of_rule? found)
  have reduced : reduce table ⟨top :: states, nodes, false⟩ id = .ok _ :=
    reduce_of_goto known back (exact.goto_of_edge edge nonterminal) enough
  exact .of_reduce (exact.reduce_of_awaits path found differs awaits) known reduced later

/-! ## Trees -/

theorem runsOver_leaf (exact : table.Exact g automaton) {token : Token}
    (terminal : g.isNonterminal token.symbol = false) :
    RunsOver g automaton table (.leaf token) := by
  intro top target states nodes read core next rest log outcome path stands expects _ edge later
  obtain ⟨shifted, sameEdge, cell⟩ := exact.shift_of_expects path stands expects terminal
  cases edge.unique sameEdge
  exact .of_shift cell later

/-- The first token behind a tree, of the trees after it or the next one, can stand behind it. -/
theorem behind_of_trees (formed : g.WellFormed) (rest : List Token) {rule : Rule}
    (found : g.rule? core.rule = some rule) {trees : List DerivationTree}
    (valid : ∀ tree ∈ trees, tree.Valid g) (expected : core.rest g = trees.map DerivationTree.root)
    (awaits : Awaits g read core next.symbol) :
    ∃ token more, DerivationTree.leavesOfAll trees ++ next :: rest = token :: more ∧
      Behind g read core token.symbol := by
  have derived := DerivationTree.derives_leavesOfAll fun tree member => (valid tree member).derives
  rw [← expected] at derived
  have terminal : ∀ token ∈ DerivationTree.leavesOfAll trees,
      g.isNonterminal token.symbol = false :=
    DerivationTree.forall_mem_leavesOfAll fun tree member =>
      (valid tree member).terminal_of_mem_leaves
  cases isLeaves : DerivationTree.leavesOfAll trees with
  | nil =>
      rw [isLeaves] at derived
      exact ⟨next, rest, rfl, .of_derives_nil formed derived awaits⟩
  | cons token more =>
      rw [isLeaves] at derived terminal
      exact ⟨token, more ++ next :: rest, rfl,
        .of_derives formed found derived (terminal token List.mem_cons_self)⟩

/-- Where the roots of some trees are all that is expected, a run goes over the trees to a state in
which the rule is at its end. -/
theorem TakesAll.of_forest (exact : table.Exact g automaton) {trees : List DerivationTree}
    (runs : ∀ tree ∈ trees, RunsOver g automaton table tree)
    (valid : ∀ tree ∈ trees, tree.Valid g) (path : automaton.Path (top :: states) read)
    (core : ItemCore) (nodes : List SyntaxTree) (rest : List Token) {rule : Rule}
    (found : g.rule? core.rule = some rule)
    (expected : rule.rhs.drop core.marker = trees.map DerivationTree.root)
    (awaits : Awaits g read core next.symbol) :
    ∃ last later, automaton.Path (last :: later) ((trees.map DerivationTree.root).reverse ++ read) ∧
      (last :: later).drop trees.length = top :: states ∧
      Awaits g ((trees.map DerivationTree.root).reverse ++ read)
        ⟨core.rule, core.marker + trees.length⟩ next.symbol ∧
      ∀ {log : List Rule} {outcome : Except Failure Session},
        TakesAll table
          ⟨last :: later, (trees.map DerivationTree.syntaxTree).reverse ++ nodes, false⟩
          (next :: rest) log outcome →
        TakesAll table ⟨top :: states, nodes, false⟩
          (DerivationTree.leavesOfAll trees ++ next :: rest)
          (DerivationTree.postorderOfAll trees ++ log) outcome := by
  induction trees generalizing top states nodes read core with
  | nil => exact ⟨top, states, path, rfl, awaits, fun later => later⟩
  | cons tree trees ih =>
      obtain ⟨expects, behindRoots⟩ := ItemCore.next_of_drop found expected
      obtain ⟨target, edge⟩ := path.exists_edge exact.formed exact.canonical awaits.stands expects
      have validRest : ∀ other ∈ trees, other.Valid g := fun other member =>
        valid other (List.mem_cons_of_mem _ member)
      obtain ⟨token, more, isMore, behind⟩ :=
        behind_of_trees exact.formed rest found validRest behindRoots awaits
      rw [ItemCore.rest_eq found] at behindRoots
      obtain ⟨last, later, pathRest, back, awaitsRest, runRest⟩ :=
        ih (fun other member => runs other (List.mem_cons_of_mem _ member)) validRest
          (.push path edge) core.shifted (tree.syntaxTree :: nodes) found behindRoots
          (.shift awaits expects)
      refine ⟨last, later, ?_, ?_, ?_, fun {log outcome} final => ?_⟩
      · rw [List.map_cons, List.reverse_cons, List.append_assoc]
        exact pathRest
      · rw [List.length_cons, ← List.drop_drop, back]
        rfl
      · rw [List.map_cons, List.reverse_cons, List.append_assoc, List.length_cons,
          Nat.add_comm trees.length, ← Nat.add_assoc]
        exact awaitsRest
      · rw [List.map_cons, List.reverse_cons, List.append_assoc] at final
        have run := runRest final
        rw [isMore] at run
        have whole := runs tree List.mem_cons_self path awaits.stands expects behind edge run
        rw [← isMore] at whole
        rw [DerivationTree.leavesOfAll, DerivationTree.postorderOfAll, List.append_assoc,
          List.append_assoc]
        exact whole

theorem runsOver_node (exact : table.Exact g automaton) {rule : Rule}
    {children : List DerivationTree} (member : rule ∈ g.userRules)
    (roots : children.map DerivationTree.root = rule.rhs)
    (valid : ∀ child ∈ children, child.Valid g)
    (runs : ∀ child ∈ children, RunsOver g automaton table child) :
    RunsOver g automaton table (.node rule children) := by
  intro top target states nodes read core next rest log outcome path stands expects behind edge
    later
  obtain ⟨id, ofNext⟩ := Grammar.exists_mem_rulesOf (Grammar.mem_rules.2 (.inr member))
  obtain ⟨found, _⟩ := Grammar.mem_rulesOf.1 ofNext
  have differs := (exact.formed.mem_userRules_of_next expects ofNext).2
  obtain ⟨last, between, lastPath, back, awaits, run⟩ :=
    TakesAll.of_forest exact runs valid path ⟨id, 0⟩ nodes rest found roots.symm
      (.of_behind stands behind expects ofNext)
  have count : children.length = rule.rhs.length := by
    rw [← roots, List.length_map]
  rw [Nat.zero_add, count] at awaits
  rw [count] at back
  have size : rule.rhs.length = (children.map DerivationTree.syntaxTree).reverse.length := by
    rw [List.length_reverse, List.length_map, count]
  rw [DerivationTree.leaves, DerivationTree.postorder, List.append_assoc]
  refine run (.of_awaits exact lastPath found differs awaits back edge ?_ ?_)
  · rw [List.length_append, size]
    exact Nat.le_add_right _ _
  · rw [size, List.take_left, List.drop_left, List.reverse_reverse]
    rw [DerivationTree.syntaxTree, DerivationTree.syntaxTrees_eq_map] at later
    exact later

/-- A run goes over every valid tree. -/
theorem runsOver_of_valid (exact : table.Exact g automaton) {tree : DerivationTree}
    (valid : tree.Valid g) : RunsOver g automaton table tree := by
  induction valid with
  | leaf _ terminal => exact runsOver_leaf exact terminal
  | node rule children member roots valid ih => exact runsOver_node exact member roots valid ih

/-- From the start, a run goes over a tree of the start symbol and accepts at the end of the
input. -/
theorem TakesAll.of_derivation (exact : table.Exact g automaton) {tree : DerivationTree}
    (valid : tree.Valid g) (root : tree.root = g.startSymbol) {closing : Token}
    (isEnd : closing.symbol = Symbol.endOfInput) :
    ∃ states, TakesAll table start (tree.leaves ++ [closing]) tree.postorder
      (.ok ⟨states, [tree.syntaxTree], true⟩) := by
  have expects : (⟨Grammar.startRuleId, 0⟩ : ItemCore).nextSymbol g = some tree.root := by
    rw [root]
    rfl
  obtain ⟨target, edge⟩ :=
    Automaton.Path.exists_edge exact.formed exact.canonical .start .start expects
  have behind : Behind g [] ⟨Grammar.startRuleId, 0⟩ closing.symbol := by
    rw [isEnd]
    exact .of_derives_nil exact.formed (.refl _) .start
  have cell := exact.accept_of_stands (.push .start edge) (.shift .start expects)
  rw [← isEnd] at cell
  have closes : TakesAll table ⟨[target, 0], [tree.syntaxTree], false⟩ [closing] []
      (.ok ⟨[target, 0], [tree.syntaxTree], true⟩) := .cons rfl (.accept cell) (.nil _)
  have run := runsOver_of_valid exact valid .start .start expects behind edge closes
  rw [List.append_nil] at run
  exact ⟨[target, 0], run⟩

end Session

/-! ## Completeness -/

theorem Table.parseTokens_of_takesAll {tokens : List Token} {log : List Rule} {states : List Nat}
    {tree : SyntaxTree}
    (takes : Session.start.TakesAll table tokens log (.ok ⟨states, [tree], true⟩)) {fuel : Nat}
    (bound : log.length < fuel) : table.parseTokens fuel tokens = some (.ok tree) := by
  unfold Table.parseTokens
  rw [takes.processAll bound]
  rfl

/-- Without conflicts, the tokens of a derivation tree of the start symbol and the end of the input
are parsed to the syntax tree of the derivation tree, by the reductions of the tree in post-order;
so there is one such tree at most. -/
theorem Table.parseTokens_complete {rules : List Rule} {start : Option Symbol}
    {names symbols : SymbolTable} {g : Grammar} {limit : Option Nat} {table : Table}
    (accepted : Grammar.ofRules rules start names = .ok g)
    (built : Table.ofGrammar g symbols limit = .ok table) (clean : table.conflicts = []) :
    (∀ (tree : DerivationTree) (closing : Token), tree.Valid g → tree.root = g.startSymbol →
      closing.symbol = Symbol.endOfInput →
      (∃ session, Session.start.TakesAll table (tree.leaves ++ [closing]) tree.postorder
        (.ok session) ∧ session.finish table = .ok tree.syntaxTree) ∧
      ∀ fuel, tree.postorder.length < fuel →
        table.parseTokens fuel (tree.leaves ++ [closing]) = some (.ok tree.syntaxTree)) ∧
    ∀ left right : DerivationTree, left.Valid g → right.Valid g → left.root = g.startSymbol →
      right.root = g.startSymbol → left.leaves = right.leaves → left = right := by
  obtain ⟨automaton, exact⟩ := Table.exact_of_ofGrammar accepted built clean
  constructor
  · intro tree closing valid root isEnd
    obtain ⟨states, takes⟩ := Session.TakesAll.of_derivation exact valid root isEnd
    exact ⟨⟨_, takes, rfl⟩, fun fuel bound => parseTokens_of_takesAll takes bound⟩
  · intro left right leftValid rightValid leftRoot rightRoot leaves
    have isEnd : (Token.endOfInput 0).symbol = Symbol.endOfInput := rfl
    obtain ⟨_, takesLeft⟩ := Session.TakesAll.of_derivation exact leftValid leftRoot isEnd
    obtain ⟨_, takesRight⟩ := Session.TakesAll.of_derivation exact rightValid rightRoot isEnd
    rw [leaves] at takesLeft
    exact DerivationTree.eq_of_postorder leftValid rightValid (leftRoot.trans rightRoot.symm) leaves
      (takesLeft.unique takesRight).1

/-- A derivation tree of a sequence of one element. -/
def sequenceTree : DerivationTree :=
  .node (Rule.plain ⟨3⟩ [⟨4⟩, ⟨3⟩]) [.leaf sequenceToken, .node (Rule.plain ⟨3⟩ []) []]

theorem parseTokens_complete_sequence :
    ∃ g table, Grammar.ofRules sequenceRules none SymbolTable.initial = .ok g ∧
      Table.ofGrammar g SymbolTable.initial none = .ok table ∧ table.conflicts = [] ∧
      sequenceTree.Valid g ∧ sequenceTree.root = g.startSymbol ∧
      (∃ session, Session.start.TakesAll table (sequenceTree.leaves ++ [Token.endOfInput 1])
        sequenceTree.postorder (.ok session) ∧
        session.finish table = .ok sequenceTree.syntaxTree) ∧
      ∀ other : DerivationTree, other.Valid g → other.root = g.startSymbol →
        other.leaves = sequenceTree.leaves → other = sequenceTree := by
  obtain ⟨g, table, accepted, isStart, terminal, built, clean, _⟩ := exists_sequenceTable
  have valid : sequenceTree.Valid g := by
    have isRules := Grammar.userRules_of_ofRules accepted
    refine .node _ _ (isRules ▸ List.mem_cons_self) rfl fun child member => ?_
    rcases List.mem_cons.1 member with isLeaf | isNode
    · exact isLeaf ▸ .leaf _ terminal
    · rw [List.mem_singleton.1 isNode]
      exact .node _ _ (isRules ▸ List.mem_cons_of_mem _ List.mem_cons_self) rfl nofun
  obtain ⟨parses, unique⟩ := Table.parseTokens_complete accepted built clean
  exact ⟨g, table, accepted, built, clean, valid, isStart.symm,
    (parses sequenceTree (Token.endOfInput 1) valid isStart.symm rfl).1,
    fun other otherValid root leaves =>
      unique other sequenceTree otherValid valid root isStart.symm leaves⟩

end ParserGenerator
