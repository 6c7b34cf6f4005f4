import ParserGenerator.Proofs.Session.Takes

/-!
# Lists that grow from the left

A chained rule whose right-hand side begins with its own symbol lengthens a list: the elements of
the tree in front of it stay side by side, and what its other options make of the trees behind
follows them. Elements may be lists of the same symbol themselves and stay apart.

One list is an exception. A default option takes the only child of a tree in its place, and where
this child has the symbol of the list, its elements are what the chained rule finds in front. So a
default option loses the borders of a list that is the only element in a list of its symbol, and
only there.

Results:
1. `Rule.shape_of_lengthens`: what a chained rule builds.
2. `Rule.chained_appends`: reductions by chained rules append their elements.
3. `Rule.not_appends_of_only`: the exception.
-/

namespace ParserGenerator

namespace Rule

/-! ## Definitions -/

/-- The rule lengthens the lists of its symbol: it is chained, the symbol stands in front of other
ones in its right-hand side, and the option of the symbol keeps the list. -/
structure Lengthens (rule : Rule) (symbol : Symbol) : Prop where
  chained : rule.chained = true
  lhs : rule.lhs = symbol
  rhs : ∃ more, more ≠ [] ∧ rule.rhs = symbol :: more
  option : rule.options.head? = some .default ∨ rule.options.head? = some .wrap

/-- What the options behind the first one make of trees. -/
def elements (rule : Rule) (trees : List SyntaxTree) : List SyntaxTree :=
  (trees.zip rule.options.tail).flatMap fun (child, option) => attach option child

/-- The list in front has one element, a list of the same symbol, and the first option takes the
element in its place. -/
def Absorbs (rule : Rule) (front : List SyntaxTree) : Prop :=
  rule.options.head? = some .default ∧ ∃ inner, front = [.branch rule.lhs inner]

/-- A rule with the trees of its right-hand side behind the first one. -/
structure Link where
  rule : Rule
  trees : List SyntaxTree

/-- The rule of the link lengthens the lists of the symbol, and there is a tree for each position
behind the first one. -/
structure Link.Fits (link : Link) (symbol : Symbol) : Prop where
  lengthens : link.rule.Lengthens symbol
  length_rhs : link.rule.rhs.length = link.trees.length + 1

def Link.elements (link : Link) : List SyntaxTree := link.rule.elements link.trees

/-- The tree that reductions by the rules of the links leave, one after the other, each with the
tree of the one before in front. -/
def chain (tree : SyntaxTree) (links : List Link) : SyntaxTree :=
  links.foldl (fun tree link => link.rule.treeOf (tree :: link.trees)) tree

/-! ## One reduction -/

variable {rule : Rule} {symbol : Symbol}

/-- A rule that lengthens a list puts its elements behind those of the list, or behind those of the
only element. -/
theorem shape_of_lengthens (lengthens : rule.Lengthens symbol) (front trees : List SyntaxTree) :
    (¬ rule.Absorbs front →
      rule.shape (.branch symbol front :: trees) = front ++ rule.elements trees) ∧
    ∀ inner, rule.options.head? = some .default → front = [.branch symbol inner] →
      rule.shape (.branch symbol front :: trees) = inner ++ rule.elements trees := by
  obtain ⟨chained, rfl, _, option⟩ := lengthens
  obtain ⟨first, later, isOptions⟩ : ∃ first later, rule.options = first :: later := by
    cases isOptions : rule.options with
    | nil => simp [isOptions] at option
    | cons first later => exact ⟨first, later, rfl⟩
  have built : rule.shape (.branch rule.lhs front :: trees) =
      flatten rule.lhs (attach first (.branch rule.lhs front) ++ rule.elements trees) := by
    simp [shape, elements, chained, isOptions]
  rw [built, isOptions]
  constructor
  · intro apart
    rw [isOptions] at option
    rcases option with isDefault | isWrap
    · cases isDefault
      -- Only a list of one element is collapsed, and then the element is no list of the symbol.
      rcases front with _ | ⟨only, _ | ⟨second, rest⟩⟩
      · simp [attach, flatten]
      · cases only with
        | leaf token => simp [attach, flatten]
        | branch other inner =>
            have differs : other ≠ rule.lhs := by
              rintro rfl
              exact apart ⟨by rw [isOptions]; rfl, inner, rfl⟩
            simp [attach, flatten, differs]
      · simp [attach, flatten]
    · cases isWrap
      simp [attach, flatten]
  · rintro inner isDefault rfl
    cases isDefault
    simp [attach, flatten]

/-- With a tree for each position, a rule that lengthens a list leaves a tree of its symbol. -/
theorem treeOf_of_fits {link : Link} (fits : link.Fits symbol) (tree : SyntaxTree) :
    link.rule.treeOf (tree :: link.trees) =
      .branch symbol (link.rule.shape (tree :: link.trees)) := by
  obtain ⟨⟨_, rfl, ⟨more, nonempty, rhs⟩, _⟩, length_rhs⟩ := fits
  cases trees : link.trees with
  | nil =>
      rw [rhs, trees] at length_rhs
      exact absurd (List.eq_nil_of_length_eq_zero (Nat.succ.inj length_rhs)) nonempty
  | cons first rest => simp [treeOf]

theorem treeOf_of_not_absorbs {link : Link} (fits : link.Fits symbol) {front : List SyntaxTree}
    (apart : ¬ link.rule.Absorbs front) :
    link.rule.treeOf (.branch symbol front :: link.trees) =
      .branch symbol (front ++ link.elements) := by
  rw [treeOf_of_fits fits, (shape_of_lengthens fits.lengthens front link.trees).1 apart]
  rfl

/-! ## Successive reductions -/

theorem chain_of_not_absorbs {links : List Link} (fit : ∀ link ∈ links, link.Fits symbol)
    (front : List SyntaxTree)
    (apart : ∀ earlier link later, links = earlier ++ link :: later →
      ¬ link.rule.Absorbs (front ++ earlier.flatMap Link.elements)) :
    chain (.branch symbol front) links =
      .branch symbol (front ++ links.flatMap Link.elements) := by
  induction links generalizing front with
  | nil => simp [chain]
  | cons link rest ih =>
      have first : ¬ link.rule.Absorbs front := by
        have alone := apart [] link rest rfl
        rwa [List.flatMap_nil, List.append_nil] at alone
      have joined := treeOf_of_not_absorbs (fit link List.mem_cons_self) first
      have later := ih (fun other member => fit other (List.mem_cons_of_mem _ member))
        (front ++ link.elements) fun earlier other later split => by
          rw [List.append_assoc, ← List.flatMap_cons]
          exact apart (link :: earlier) other later (split ▸ rfl)
      rw [List.flatMap_cons, ← List.append_assoc, ← later, chain, List.foldl_cons, joined]
      rfl

end Rule

namespace Session

variable {table : Table} {session after : Session} {id : Nat} {rule : Rule}

/-- A reduction that goes through puts the tree of its rule in the place of the trees on top. -/
theorem nodes_of_reduce (known : table.rule? id = some rule) {tree : SyntaxTree}
    {trees below : List SyntaxTree} (length_rhs : rule.rhs.length = trees.length + 1)
    (onTop : session.nodes = trees.reverse ++ tree :: below)
    (reduced : session.reduce table id = .ok after) :
    after.nodes = rule.treeOf (tree :: trees) :: below := by
  have top : session.nodes = (tree :: trees).reverse ++ below := by
    rw [onTop, List.reverse_cons, List.append_assoc]
    rfl
  have count : rule.rhs.length = (tree :: trees).reverse.length := by
    rw [List.length_reverse, List.length_cons, length_rhs]
  have enough : rule.rhs.length ≤ session.nodes.length := by
    rw [top, List.length_append, ← count]
    exact Nat.le_add_right _ _
  cases back : session.states.drop rule.rhs.length with
  | nil => simp [reduce, known, back] at reduced
  | cons outer rest =>
      obtain ⟨next, cell⟩ := goto_of_reduce known back reduced
      rw [reduce_of_goto known back cell enough] at reduced
      cases reduced
      dsimp only
      rw [top, count, List.take_left, List.drop_left, List.reverse_reverse]

end Session

/-- A reduction by a chained rule whose first option keeps the list in front appends: the elements
of the list are followed by what the other options make of the trees behind it, unless the first
option is default and the list has one element that is a list of the same symbol; then the elements
of the inner list take its place. The tree goes on the stack. So reductions by chained rules leave
one flat list with all elements in order, as long as this exception is not met. -/
theorem Rule.chained_appends (symbol : Symbol) :
    (∀ (link : Link) (front : List SyntaxTree), link.Fits symbol →
      (¬ link.rule.Absorbs front → link.rule.shape (.branch symbol front :: link.trees) =
        front ++ link.elements) ∧
      (∀ inner, link.rule.options.head? = some .default → front = [.branch symbol inner] →
        link.rule.shape (.branch symbol front :: link.trees) = inner ++ link.elements) ∧
      ∀ (table : Table) (session after : Session) (id : Nat) (below : List SyntaxTree),
        table.rule? id = some link.rule →
        session.nodes = link.trees.reverse ++ .branch symbol front :: below →
        session.reduce table id = .ok after →
        after.nodes =
          .branch symbol (link.rule.shape (.branch symbol front :: link.trees)) :: below) ∧
    ∀ (links : List Link) (front : List SyntaxTree), (∀ link ∈ links, link.Fits symbol) →
      (∀ earlier link later, links = earlier ++ link :: later →
        ¬ link.rule.Absorbs (front ++ earlier.flatMap Link.elements)) →
      chain (.branch symbol front) links =
        .branch symbol (front ++ links.flatMap Link.elements) := by
  refine ⟨fun link front fits => ?_, fun links front fit => chain_of_not_absorbs fit front⟩
  obtain ⟨apart, absorbed⟩ := shape_of_lengthens fits.lengthens front link.trees
  refine ⟨apart, absorbed, fun table session after id below known onTop reduced => ?_⟩
  rw [Session.nodes_of_reduce known fits.length_rhs onTop reduced, treeOf_of_fits fits]

namespace Rule

/-- A list with one more element. -/
def listRule : Rule := ofOptions ⟨3⟩ [⟨3⟩, ⟨4⟩] [] true

/-- An element, by the offset of its only character. -/
def listToken (offset : Nat) : SyntaxTree := .leaf ⟨⟨4⟩, "x", offset, offset + 1⟩

/-- A list of two elements. -/
def innerList : SyntaxTree := .branch ⟨3⟩ [listToken 1, listToken 2]

theorem lengthens_listRule : listRule.Lengthens ⟨3⟩ :=
  ⟨rfl, rfl, ⟨[⟨4⟩], List.cons_ne_nil _ _, rfl⟩, .inl rfl⟩

/-- A list of elements stays apart behind another element. -/
theorem chained_appends_inner :
    (∀ link ∈ [Link.mk listRule [listToken 0], ⟨listRule, [innerList]⟩], link.Fits ⟨3⟩) ∧
    (∀ earlier link later,
      [Link.mk listRule [listToken 0], ⟨listRule, [innerList]⟩] = earlier ++ link :: later →
      ¬ link.rule.Absorbs ([] ++ earlier.flatMap Link.elements)) ∧
    chain (.branch ⟨3⟩ []) [⟨listRule, [listToken 0]⟩, ⟨listRule, [innerList]⟩] =
      .branch ⟨3⟩ [listToken 0, innerList] := by
  have fit : ∀ link ∈ [Link.mk listRule [listToken 0], ⟨listRule, [innerList]⟩],
      link.Fits ⟨3⟩ := by
    intro link member
    simp only [List.mem_cons, List.not_mem_nil, or_false] at member
    rcases member with rfl | rfl <;> exact ⟨lengthens_listRule, rfl⟩
  have apart : ∀ earlier link later,
      [Link.mk listRule [listToken 0], ⟨listRule, [innerList]⟩] = earlier ++ link :: later →
      ¬ link.rule.Absorbs ([] ++ earlier.flatMap Link.elements) := by
    rintro earlier link later split ⟨_, inner, only⟩
    rcases earlier with _ | ⟨first, _ | ⟨second, rest⟩⟩
    · cases only
    · cases split
      cases only
    · simp at split
  exact ⟨fit, apart, (chained_appends ⟨3⟩).2 _ [] fit apart⟩

/-- In front of another element it gives way to its elements. -/
theorem not_appends_of_only :
    (¬ ∀ (rule : Rule) (symbol : Symbol) (front trees : List SyntaxTree), rule.Lengthens symbol →
      rule.rhs.length = trees.length + 1 →
      rule.shape (.branch symbol front :: trees) = front ++ rule.elements trees) ∧
    ¬ ∀ (symbol : Symbol) (links : List Link) (front : List SyntaxTree),
      (∀ link ∈ links, link.Fits symbol) →
      chain (.branch symbol front) links =
        .branch symbol (front ++ links.flatMap Link.elements) := by
  constructor
  · intro appends
    have flat := appends listRule ⟨3⟩ [innerList] [listToken 4] lengthens_listRule rfl
    exact absurd flat (by decide)
  · intro appends
    have flat := appends ⟨3⟩ [⟨listRule, [innerList]⟩, ⟨listRule, [listToken 4]⟩] [] <| by
      intro link member
      simp only [List.mem_cons, List.not_mem_nil, or_false] at member
      rcases member with rfl | rfl <;> exact ⟨lengthens_listRule, rfl⟩
    exact absurd flat (by decide)

end Rule

end ParserGenerator
