import ParserGenerator.Description
import ParserGenerator.Proofs.Description.Language
import ParserGenerator.Proofs.Grammar.Trees

/-!
# The phrases of descriptions

A description can be written down without a grammar in mind: it names the start symbol and declares
rules, and the body of a declaration is built of items, rows of items and alternatives of rows. Each
way to write a description is one derivation tree of the grammar of descriptions, and there are no
other derivation trees.

Results: `Source.isTreeOf` and `exists_source`.
-/

namespace ParserGenerator.Description

open ParserGenerator.Description.Language (rule grammar?)

/-! ## Definitions -/

/-- A token for one of the words of the description language. -/
structure Word (part : Part) where
  token : Token
  isPart : token.symbol = part.symbol

/-- How a name in a body is attached when a word in front of it says so. -/
inductive Manner where
  | unwrap | wrap | discard

namespace Manner

/-- The word in front of the name. -/
def mark : Manner → Part
  | unwrap => .unwrap
  | wrap => .wrap
  | discard => .discard

/-- The word and the name together. -/
def part : Manner → Part
  | unwrap => .unwrappedItem
  | wrap => .wrappedItem
  | discard => .discardedItem

/-- The option that the name gets. -/
def option : Manner → ChildOption
  | unwrap => .unwrap
  | wrap => .wrap
  | discard => .discard

end Manner

/-- Items, lists of items in a row, and options to choose from. -/
inductive Phrase : Part → Type where
  | name (word : Word .name) : Phrase .item
  | annotated (manner : Manner) (mark : Word manner.mark) (word : Word .name) : Phrase .item
  | epsilon (mark : Word .epsilon) : Phrase .item
  | optional (inner : Phrase .item) (mark : Word .question) : Phrase .item
  | group (left : Word .lparen) (inner : Phrase .options) (right : Word .rparen) : Phrase .item
  | single (last : Phrase .item) : Phrase .list
  | row (front : Phrase .list) (last : Phrase .item) : Phrase .list
  | only (last : Phrase .list) : Phrase .options
  | choice (front : Phrase .options) (bar : Word .or) (last : Phrase .list) : Phrase .options

/-- The rules for one left-hand side. -/
structure Declaration where
  arrow : Word .arrow
  lhs : Word .name
  sep : Word .sep
  body : Phrase .options

/-- A whole description. -/
structure Source where
  accepts : Word .accepts
  start : Word .name
  declarations : List Declaration

/-! ### How they are written -/

/-- The tokens of a phrase from left to right. -/
def Phrase.tokens {part : Part} : Phrase part → List Token
  | .name word => [word.token]
  | .annotated _ mark word => [mark.token, word.token]
  | .epsilon mark => [mark.token]
  | .optional inner mark => inner.tokens ++ [mark.token]
  | .group left inner right => left.token :: inner.tokens ++ [right.token]
  | .single last => last.tokens
  | .row front last => front.tokens ++ last.tokens
  | .only last => last.tokens
  | .choice front bar last => front.tokens ++ bar.token :: last.tokens

def Declaration.tokens (declaration : Declaration) : List Token :=
  declaration.arrow.token :: declaration.lhs.token :: declaration.sep.token ::
    declaration.body.tokens

def Source.tokens (source : Source) : List Token :=
  source.accepts.token :: source.start.token :: source.declarations.flatMap Declaration.tokens

/-! ### How they are derived -/

/-- The right-hand sides of the rules for a part of the language. -/
def rightsOf : Part → List (List (Part × ChildOption))
  | .grammar => [[(.startDeclaration, .wrap), (.ruleDeclarations, .wrap)]]
  | .startDeclaration => [[(.accepts, .discard), (.name, .default)]]
  | .ruleDeclarations => [[], [(.ruleDeclarations, .unwrap), (.ruleDeclaration, .default)]]
  | .ruleDeclaration => [[(.arrow, .default), (.lhs, .wrap), (.sep, .default), (.rhs, .wrap)]]
  | .lhs => [[(.name, .default)]]
  | .rhs => [[(.options, .default)]]
  | .options => [[(.list, .default)], [(.options, .unwrap), (.or, .discard), (.list, .default)]]
  | .list => [[(.item, .default)], [(.list, .unwrap), (.item, .default)]]
  | .item => [[(.lparen, .discard), (.options, .default), (.rparen, .discard)], [(.name, .default)],
      [(.unwrappedItem, .wrap)], [(.wrappedItem, .wrap)], [(.discardedItem, .wrap)],
      [(.optionalItem, .wrap)], [(.epsilon, .default)]]
  | .optionalItem => [[(.item, .default), (.question, .discard)]]
  | .discardedItem => [[(.discard, .discard), (.name, .default)]]
  | .unwrappedItem => [[(.unwrap, .discard), (.name, .default)]]
  | .wrappedItem => [[(.wrap, .discard), (.name, .default)]]
  | _ => []

/-- A rule of the language over derivation trees. -/
def node (left : Part) (right : List (Part × ChildOption)) (children : List DerivationTree) :
    DerivationTree := .node (rule left right) children

def Word.leaf {part : Part} (word : Word part) : DerivationTree := .leaf word.token

def annotatedTree (manner : Manner) (mark : Word manner.mark) (word : Word .name) :
    DerivationTree :=
  node manner.part [(manner.mark, .discard), (.name, .default)] [mark.leaf, word.leaf]

def optionalTree (inner : DerivationTree) (mark : Word .question) : DerivationTree :=
  node .optionalItem [(.item, .default), (.question, .discard)] [inner, mark.leaf]

def Phrase.derivation {part : Part} : Phrase part → DerivationTree
  | .name word => node .item [(.name, .default)] [word.leaf]
  | .annotated manner mark word =>
      node .item [(manner.part, .wrap)] [annotatedTree manner mark word]
  | .epsilon mark => node .item [(.epsilon, .default)] [mark.leaf]
  | .optional inner mark =>
      node .item [(.optionalItem, .wrap)] [optionalTree inner.derivation mark]
  | .group left inner right =>
      node .item [(.lparen, .discard), (.options, .default), (.rparen, .discard)]
        [left.leaf, inner.derivation, right.leaf]
  | .single last => node .list [(.item, .default)] [last.derivation]
  | .row front last =>
      node .list [(.list, .unwrap), (.item, .default)] [front.derivation, last.derivation]
  | .only last => node .options [(.list, .default)] [last.derivation]
  | .choice front bar last =>
      node .options [(.options, .unwrap), (.or, .discard), (.list, .default)]
        [front.derivation, bar.leaf, last.derivation]

def lhsTree (word : Word .name) : DerivationTree := node .lhs [(.name, .default)] [word.leaf]

def rhsTree (body : Phrase .options) : DerivationTree :=
  node .rhs [(.options, .default)] [body.derivation]

def Declaration.derivation (declaration : Declaration) : DerivationTree :=
  node .ruleDeclaration [(.arrow, .default), (.lhs, .wrap), (.sep, .default), (.rhs, .wrap)]
    [declaration.arrow.leaf, lhsTree declaration.lhs, declaration.sep.leaf,
      rhsTree declaration.body]

/-- A declaration behind others. -/
def declareTree (front : DerivationTree) (declaration : Declaration) : DerivationTree :=
  node .ruleDeclarations [(.ruleDeclarations, .unwrap), (.ruleDeclaration, .default)]
    [front, declaration.derivation]

def declarationsTree (declarations : List Declaration) : DerivationTree :=
  declarations.foldl declareTree (node .ruleDeclarations [] [])

def startTree (accepts : Word .accepts) (start : Word .name) : DerivationTree :=
  node .startDeclaration [(.accepts, .discard), (.name, .default)] [accepts.leaf, start.leaf]

def Source.derivation (source : Source) : DerivationTree :=
  node .grammar [(.startDeclaration, .wrap), (.ruleDeclarations, .wrap)]
    [startTree source.accepts source.start, declarationsTree source.declarations]

/-! ## The rules of the language -/

theorem mem_rules_of_mem_rightsOf {left : Part} :
    ∀ right ∈ rightsOf left, rule left right ∈ Language.rules := by
  cases left <;> decide

theorem exists_right_of_mem_rules {left : Part} :
    ∀ used ∈ Language.rules, used.lhs = left.symbol →
      ∃ right ∈ rightsOf left, used = rule left right := by
  cases left <;> decide

/-- Trees that have the roots of a right-hand side stand beside its parts one by one. -/
theorem forall₂_of_roots {holds : DerivationTree → Prop} {left : Part}
    {right : List (Part × ChildOption)} {children : List DerivationTree}
    (roots : children.map DerivationTree.root = (rule left right).rhs)
    (each : ∀ child ∈ children, holds child) :
    List.Forall₂ (fun child part => holds child ∧ child.root = part.1.symbol) children right := by
  change children.map DerivationTree.root = right.map fun part => part.1.symbol at roots
  induction right generalizing children with
  | nil =>
      rw [List.map_eq_nil_iff.1 roots]
      exact .nil
  | cons part right ih =>
      obtain ⟨child, rest, rfl, root, others⟩ := List.map_eq_cons_iff.1 roots
      exact .cons ⟨each child List.mem_cons_self, root⟩
        (ih (fun other member => each other (List.mem_cons_of_mem _ member)) others)

/-! ## What is written is what is derived -/

section Leaves

open DerivationTree (leaves leavesOfAll leavesOfAll_append)

theorem Phrase.leaves_derivation {part : Part} (phrase : Phrase part) :
    phrase.derivation.leaves = phrase.tokens := by
  induction phrase with
  | name | annotated | epsilon => rfl
  | optional _ _ ih | group _ _ _ ih | single _ ih | only _ ih =>
      simp [derivation, tokens, node, optionalTree, Word.leaf, leaves, leavesOfAll, ih]
  | row _ _ ihFront ihLast | choice _ _ _ ihFront ihLast =>
      simp [derivation, tokens, node, Word.leaf, leaves, leavesOfAll, ihFront, ihLast]

theorem Declaration.leaves_derivation (declaration : Declaration) :
    declaration.derivation.leaves = declaration.tokens := by
  simp [derivation, tokens, node, lhsTree, rhsTree, Word.leaf, leaves, leavesOfAll,
    declaration.body.leaves_derivation]

theorem declarationsTree_concat (declarations : List Declaration) (last : Declaration) :
    declarationsTree (declarations ++ [last]) =
      declareTree (declarationsTree declarations) last := by
  unfold declarationsTree
  rw [List.foldl_append]
  rfl

theorem leaves_declarationsTree (declarations : List Declaration) :
    (declarationsTree declarations).leaves = declarations.flatMap Declaration.tokens := by
  induction declarations using List.reverseRecOn with
  | nil => rfl
  | append_singleton front last ih =>
      rw [declarationsTree_concat, List.flatMap_append]
      simp [declareTree, node, leaves, leavesOfAll, ih, last.leaves_derivation]

theorem Source.leaves_derivation (source : Source) : source.derivation.leaves = source.tokens := by
  simp [derivation, tokens, node, startTree, Word.leaf, leaves, leavesOfAll,
    leaves_declarationsTree]

end Leaves

/-! ## Derivation trees of phrases -/

variable {g : Grammar}

/-- The tree is valid and has the part at its root. -/
def IsTreeOf (g : Grammar) (tree : DerivationTree) (part : Part) : Prop :=
  tree.Valid g ∧ tree.root = part.symbol

variable (isGrammar : grammar? = .ok g)
include isGrammar

theorem isNonterminal_symbol (part : Part) :
    g.isNonterminal part.symbol = !(rightsOf part).isEmpty := by
  obtain ⟨_, isRules, isStart⟩ := Language.grammar_eq isGrammar
  unfold Grammar.isNonterminal Grammar.rules
  rw [isRules, isStart]
  cases part <;> decide

theorem isTreeOf_node {left : Part} {right : List (Part × ChildOption)}
    (inRights : right ∈ rightsOf left) {children : List DerivationTree}
    (each : List.Forall₂ (fun child part => IsTreeOf g child part.1) children right) :
    IsTreeOf g (node left right children) left := by
  obtain ⟨_, isRules, _⟩ := Language.grammar_eq isGrammar
  refine ⟨.node _ children (isRules ▸ mem_rules_of_mem_rightsOf right inRights) ?_ ?_, rfl⟩
  · show children.map DerivationTree.root = right.map fun part => part.1.symbol
    clear inRights
    induction each with
    | nil => rfl
    | cons first _ ih => rw [List.map_cons, List.map_cons, first.2, ih]
  · intro child member
    obtain ⟨_, _, valid, _⟩ := exists_mem_of_forall₂ each member
    exact valid

theorem Word.isTreeOf {part : Part} (word : Word part) (terminal : rightsOf part = []) :
    IsTreeOf g word.leaf part := by
  refine ⟨.leaf _ ?_, word.isPart⟩
  rw [word.isPart, isNonterminal_symbol isGrammar, terminal]
  rfl

theorem isTreeOf_annotatedTree (manner : Manner) (mark : Word manner.mark)
    (word : Word .name) : IsTreeOf g (annotatedTree manner mark word) manner.part := by
  have isMark := mark.isTreeOf isGrammar (by cases manner <;> rfl)
  have isName := word.isTreeOf isGrammar rfl
  refine isTreeOf_node isGrammar ?_ (.cons isMark (.cons isName .nil))
  cases manner <;> exact List.mem_singleton.2 rfl

theorem Phrase.isTreeOf {part : Part} (phrase : Phrase part) :
    IsTreeOf g phrase.derivation part := by
  induction phrase with
  | name word =>
      exact isTreeOf_node isGrammar (by decide) (.cons (word.isTreeOf isGrammar rfl) .nil)
  | annotated manner mark word =>
      refine isTreeOf_node isGrammar ?_
        (.cons (isTreeOf_annotatedTree isGrammar manner mark word) .nil)
      cases manner <;> decide
  | epsilon mark =>
      exact isTreeOf_node isGrammar (by decide) (.cons (mark.isTreeOf isGrammar rfl) .nil)
  | optional inner mark ih =>
      have isOptional : IsTreeOf g (optionalTree inner.derivation mark) .optionalItem :=
        isTreeOf_node isGrammar (by decide) (.cons ih (.cons (mark.isTreeOf isGrammar rfl) .nil))
      exact isTreeOf_node isGrammar (by decide) (.cons isOptional .nil)
  | group left inner right ih =>
      exact isTreeOf_node isGrammar (by decide)
        (.cons (left.isTreeOf isGrammar rfl) (.cons ih (.cons (right.isTreeOf isGrammar rfl) .nil)))
  | single last ih => exact isTreeOf_node isGrammar (by decide) (.cons ih .nil)
  | row front last ihFront ihLast =>
      exact isTreeOf_node isGrammar (by decide) (.cons ihFront (.cons ihLast .nil))
  | only last ih => exact isTreeOf_node isGrammar (by decide) (.cons ih .nil)
  | choice front bar last ihFront ihLast =>
      exact isTreeOf_node isGrammar (by decide)
        (.cons ihFront (.cons (bar.isTreeOf isGrammar rfl) (.cons ihLast .nil)))

theorem Declaration.isTreeOf (declaration : Declaration) :
    IsTreeOf g declaration.derivation .ruleDeclaration := by
  have isLhs : IsTreeOf g (lhsTree declaration.lhs) .lhs :=
    isTreeOf_node isGrammar (by decide) (.cons (declaration.lhs.isTreeOf isGrammar rfl) .nil)
  have isRhs : IsTreeOf g (rhsTree declaration.body) .rhs :=
    isTreeOf_node isGrammar (by decide) (.cons (declaration.body.isTreeOf isGrammar) .nil)
  exact isTreeOf_node isGrammar (by decide)
    (.cons (declaration.arrow.isTreeOf isGrammar rfl)
      (.cons isLhs (.cons (declaration.sep.isTreeOf isGrammar rfl) (.cons isRhs .nil))))

theorem isTreeOf_declarationsTree (declarations : List Declaration) :
    IsTreeOf g (declarationsTree declarations) .ruleDeclarations := by
  induction declarations using List.reverseRecOn with
  | nil => exact isTreeOf_node isGrammar (by decide) .nil
  | append_singleton front last ih =>
      rw [declarationsTree_concat]
      exact isTreeOf_node isGrammar (by decide) (.cons ih (.cons (last.isTreeOf isGrammar) .nil))

/-- A description is derived from the symbol for whole descriptions. -/
theorem Source.isTreeOf (source : Source) : IsTreeOf g source.derivation .grammar := by
  have isStart : IsTreeOf g (startTree source.accepts source.start) .startDeclaration :=
    isTreeOf_node isGrammar (by decide)
      (.cons (source.accepts.isTreeOf isGrammar rfl)
        (.cons (source.start.isTreeOf isGrammar rfl) .nil))
  exact isTreeOf_node isGrammar (by decide)
    (.cons isStart (.cons (isTreeOf_declarationsTree isGrammar source.declarations) .nil))

/-! ## There are no other derivation trees -/

theorem exists_word {tree : DerivationTree} {part : Part} (isTree : IsTreeOf g tree part)
    (terminal : rightsOf part = []) : ∃ word : Word part, word.leaf = tree := by
  obtain ⟨valid, root⟩ := isTree
  cases valid with
  | leaf token => exact ⟨⟨token, root⟩, rfl⟩
  | node used children member =>
      have isLhs := Grammar.isNonterminal_lhs (Grammar.mem_rules.2 (.inr member))
      change used.lhs = part.symbol at root
      rw [root, isNonterminal_symbol isGrammar, terminal] at isLhs
      cases isLhs

theorem exists_right {used : Rule} (member : used ∈ g.userRules) {left : Part}
    (root : used.lhs = left.symbol) : ∃ right ∈ rightsOf left, used = rule left right := by
  obtain ⟨_, isRules, _⟩ := Language.grammar_eq isGrammar
  exact exists_right_of_mem_rules used (isRules ▸ member) root

theorem not_nonterminal_leaf {token : Token} (terminal : g.isNonterminal token.symbol = false)
    {part : Part} (root : token.symbol = part.symbol) : rightsOf part = [] := by
  rw [root, isNonterminal_symbol isGrammar, Bool.not_eq_false', List.isEmpty_iff] at terminal
  exact terminal

/-- Under a part of the language that is no word, there is one of its right-hand sides. -/
theorem exists_children {tree : DerivationTree} {left : Part} (isTree : IsTreeOf g tree left)
    (nonterminal : rightsOf left ≠ []) : ∃ right ∈ rightsOf left, ∃ children,
      tree = node left right children ∧
        List.Forall₂ (fun child part => IsTreeOf g child part.1) children right := by
  obtain ⟨valid, root⟩ := isTree
  cases valid with
  | leaf token terminal => exact absurd (not_nonterminal_leaf isGrammar terminal root) nonterminal
  | node used children member roots valid =>
      obtain ⟨right, inRights, rfl⟩ := exists_right isGrammar member root
      exact ⟨right, inRights, children, rfl, forall₂_of_roots roots valid⟩

/-- The tree is that of a phrase, or that of an optional item. -/
structure Phrased (tree : DerivationTree) : Prop where
  phrase : ∀ part, part = .item ∨ part = .list ∨ part = .options → tree.root = part.symbol →
    ∃ phrase : Phrase part, phrase.derivation = tree
  optional : tree.root = Part.optionalItem.symbol →
    ∃ (inner : Phrase .item) (mark : Word .question), optionalTree inner.derivation mark = tree

theorem exists_annotated {manner : Manner} {tree : DerivationTree}
    (isTree : IsTreeOf g tree manner.part) :
    ∃ (mark : Word manner.mark) (word : Word .name), annotatedTree manner mark word = tree := by
  have rights : rightsOf manner.part = [[(manner.mark, .discard), (.name, .default)]] := by
    cases manner <;> rfl
  obtain ⟨right, inRights, children, rfl, each⟩ :=
    exists_children isGrammar isTree (rights ▸ List.cons_ne_nil _ _)
  rw [rights, List.mem_singleton] at inRights
  subst inRights
  obtain _ | ⟨isMark, _ | ⟨isName, _ | _⟩⟩ := each
  obtain ⟨mark, rfl⟩ := exists_word isGrammar isMark (by cases manner <;> rfl)
  obtain ⟨word, rfl⟩ := exists_word isGrammar isName rfl
  exact ⟨mark, word, rfl⟩

theorem exists_annotated_phrase (manner : Manner) {tree : DerivationTree}
    (isTree : IsTreeOf g tree manner.part) : ∃ phrase : Phrase .item,
      phrase.derivation = node .item [(manner.part, .wrap)] [tree] := by
  obtain ⟨mark, word, rfl⟩ := exists_annotated isGrammar isTree
  exact ⟨.annotated manner mark word, rfl⟩

/-- The children of a node stand beside the parts of a right-hand side, and whatever they derive for
an item, a list or options is a phrase. -/
def PhrasedChildren (g : Grammar) (children : List DerivationTree)
    (right : List (Part × ChildOption)) : Prop :=
  List.Forall₂ (fun child part => (child.Valid g ∧ Phrased child) ∧ child.root = part.1.symbol)
    children right

theorem exists_item {right : List (Part × ChildOption)} (inRights : right ∈ rightsOf .item)
    {children : List DerivationTree} (each : PhrasedChildren g children right) :
    ∃ phrase : Phrase .item, phrase.derivation = node .item right children := by
  simp only [rightsOf, List.mem_cons, List.not_mem_nil, or_false] at inRights
  obtain rfl | rfl | rfl | rfl | rfl | rfl | rfl := inRights
  · obtain _ | ⟨left, _ | ⟨inner, _ | ⟨right, _ | _⟩⟩⟩ := each
    obtain ⟨opening, rfl⟩ := exists_word isGrammar ⟨left.1.1, left.2⟩ rfl
    obtain ⟨body, rfl⟩ := inner.1.2.phrase .options (.inr (.inr rfl)) inner.2
    obtain ⟨closing, rfl⟩ := exists_word isGrammar ⟨right.1.1, right.2⟩ rfl
    exact ⟨.group opening body closing, rfl⟩
  · obtain _ | ⟨child, _ | _⟩ := each
    obtain ⟨word, rfl⟩ := exists_word isGrammar ⟨child.1.1, child.2⟩ rfl
    exact ⟨.name word, rfl⟩
  · obtain _ | ⟨child, _ | _⟩ := each
    exact exists_annotated_phrase isGrammar .unwrap ⟨child.1.1, child.2⟩
  · obtain _ | ⟨child, _ | _⟩ := each
    exact exists_annotated_phrase isGrammar .wrap ⟨child.1.1, child.2⟩
  · obtain _ | ⟨child, _ | _⟩ := each
    exact exists_annotated_phrase isGrammar .discard ⟨child.1.1, child.2⟩
  · obtain _ | ⟨child, _ | _⟩ := each
    obtain ⟨inner, mark, rfl⟩ := child.1.2.optional child.2
    exact ⟨.optional inner mark, rfl⟩
  · obtain _ | ⟨child, _ | _⟩ := each
    obtain ⟨word, rfl⟩ := exists_word isGrammar ⟨child.1.1, child.2⟩ rfl
    exact ⟨.epsilon word, rfl⟩

omit isGrammar in
theorem exists_list {right : List (Part × ChildOption)} (inRights : right ∈ rightsOf .list)
    {children : List DerivationTree} (each : PhrasedChildren g children right) :
    ∃ phrase : Phrase .list, phrase.derivation = node .list right children := by
  simp only [rightsOf, List.mem_cons, List.not_mem_nil, or_false] at inRights
  obtain rfl | rfl := inRights
  · obtain _ | ⟨child, _ | _⟩ := each
    obtain ⟨last, rfl⟩ := child.1.2.phrase .item (.inl rfl) child.2
    exact ⟨.single last, rfl⟩
  · obtain _ | ⟨first, _ | ⟨second, _ | _⟩⟩ := each
    obtain ⟨front, rfl⟩ := first.1.2.phrase .list (.inr (.inl rfl)) first.2
    obtain ⟨last, rfl⟩ := second.1.2.phrase .item (.inl rfl) second.2
    exact ⟨.row front last, rfl⟩

theorem exists_options {right : List (Part × ChildOption)} (inRights : right ∈ rightsOf .options)
    {children : List DerivationTree} (each : PhrasedChildren g children right) :
    ∃ phrase : Phrase .options, phrase.derivation = node .options right children := by
  simp only [rightsOf, List.mem_cons, List.not_mem_nil, or_false] at inRights
  obtain rfl | rfl := inRights
  · obtain _ | ⟨child, _ | _⟩ := each
    obtain ⟨last, rfl⟩ := child.1.2.phrase .list (.inr (.inl rfl)) child.2
    exact ⟨.only last, rfl⟩
  · obtain _ | ⟨first, _ | ⟨second, _ | ⟨third, _ | _⟩⟩⟩ := each
    obtain ⟨front, rfl⟩ := first.1.2.phrase .options (.inr (.inr rfl)) first.2
    obtain ⟨bar, rfl⟩ := exists_word isGrammar ⟨second.1.1, second.2⟩ rfl
    obtain ⟨last, rfl⟩ := third.1.2.phrase .list (.inr (.inl rfl)) third.2
    exact ⟨.choice front bar last, rfl⟩

theorem exists_optional {right : List (Part × ChildOption)}
    (inRights : right ∈ rightsOf .optionalItem) {children : List DerivationTree}
    (each : PhrasedChildren g children right) : ∃ (inner : Phrase .item) (mark : Word .question),
      optionalTree inner.derivation mark = node .optionalItem right children := by
  cases List.mem_singleton.1 inRights
  obtain _ | ⟨first, _ | ⟨second, _ | _⟩⟩ := each
  obtain ⟨inner, rfl⟩ := first.1.2.phrase .item (.inl rfl) first.2
  obtain ⟨mark, rfl⟩ := exists_word isGrammar ⟨second.1.1, second.2⟩ rfl
  exact ⟨inner, mark, rfl⟩

/-- What is derived for an item, a list or options is a phrase. -/
theorem phrased_of_valid {tree : DerivationTree} (valid : tree.Valid g) : Phrased tree := by
  induction valid with
  | leaf token terminal =>
      -- A leaf has the symbol of a terminal, and none of these parts is one.
      have never {part : Part} (root : token.symbol = part.symbol) : rightsOf part = [] :=
        not_nonterminal_leaf isGrammar terminal root
      constructor
      · rintro part (rfl | rfl | rfl) root
        all_goals cases never root
      · intro root
        cases never root
  | node used children member roots valid ih =>
      have both : ∀ child ∈ children, child.Valid g ∧ Phrased child := fun child inChildren =>
        ⟨valid child inChildren, ih child inChildren⟩
      have beside {part : Part} (root : used.lhs = part.symbol) : ∃ right ∈ rightsOf part,
          used = rule part right ∧ PhrasedChildren g children right := by
        obtain ⟨right, inRights, rfl⟩ := exists_right isGrammar member root
        exact ⟨right, inRights, rfl, forall₂_of_roots roots both⟩
      constructor
      · rintro part isPart root
        obtain ⟨right, inRights, rfl, each⟩ := beside root
        rcases isPart with rfl | rfl | rfl
        · exact exists_item isGrammar inRights each
        · exact exists_list inRights each
        · exact exists_options isGrammar inRights each
      · intro root
        obtain ⟨right, inRights, rfl, each⟩ := beside root
        exact exists_optional isGrammar inRights each

theorem exists_declaration {tree : DerivationTree} (isTree : IsTreeOf g tree .ruleDeclaration) :
    ∃ declaration : Declaration, declaration.derivation = tree := by
  obtain ⟨right, inRights, children, rfl, each⟩ :=
    exists_children isGrammar isTree (List.cons_ne_nil _ _)
  cases List.mem_singleton.1 inRights
  obtain _ | ⟨first, _ | ⟨isLhs, _ | ⟨third, _ | ⟨isRhs, _ | _⟩⟩⟩⟩ := each
  obtain ⟨arrow, rfl⟩ := exists_word isGrammar first rfl
  obtain ⟨sep, rfl⟩ := exists_word isGrammar third rfl
  obtain ⟨left, inLefts, names, rfl, isName⟩ :=
    exists_children isGrammar isLhs (List.cons_ne_nil _ _)
  cases List.mem_singleton.1 inLefts
  obtain _ | ⟨isName, _ | _⟩ := isName
  obtain ⟨lhs, rfl⟩ := exists_word isGrammar isName rfl
  obtain ⟨right, inRights, bodies, rfl, isBody⟩ :=
    exists_children isGrammar isRhs (List.cons_ne_nil _ _)
  cases List.mem_singleton.1 inRights
  obtain _ | ⟨isBody, _ | _⟩ := isBody
  obtain ⟨body, rfl⟩ :=
    (phrased_of_valid isGrammar isBody.1).phrase .options (.inr (.inr rfl)) isBody.2
  exact ⟨⟨arrow, lhs, sep, body⟩, rfl⟩

theorem exists_declarations {tree : DerivationTree} (isTree : IsTreeOf g tree .ruleDeclarations) :
    ∃ declarations, declarationsTree declarations = tree := by
  obtain ⟨valid, root⟩ := isTree
  induction valid with
  | leaf token terminal => cases not_nonterminal_leaf isGrammar terminal root
  | node used children member roots valid ih =>
      obtain ⟨right, inRights, rfl⟩ := exists_right isGrammar member root
      have each := forall₂_of_roots roots fun child inChildren =>
        And.intro (valid child inChildren) (ih child inChildren)
      simp only [rightsOf, List.mem_cons, List.not_mem_nil, or_false] at inRights
      obtain rfl | rfl := inRights
      · cases each
        exact ⟨[], rfl⟩
      · -- The list grows at its end: its first child is the list of all declarations but the last.
        obtain _ | ⟨first, _ | ⟨second, _ | _⟩⟩ := each
        obtain ⟨front, rfl⟩ := first.1.2 first.2
        obtain ⟨last, rfl⟩ := exists_declaration isGrammar ⟨second.1.1, second.2⟩
        exact ⟨front ++ [last], declarationsTree_concat front last⟩

/-- What is derived from the symbol for whole descriptions is a description. -/
theorem exists_source {tree : DerivationTree} (isTree : IsTreeOf g tree .grammar) :
    ∃ source : Source, source.derivation = tree := by
  obtain ⟨right, inRights, children, rfl, each⟩ :=
    exists_children isGrammar isTree (List.cons_ne_nil _ _)
  cases List.mem_singleton.1 inRights
  obtain _ | ⟨isStart, _ | ⟨areDeclarations, _ | _⟩⟩ := each
  obtain ⟨declarations, rfl⟩ := exists_declarations isGrammar areDeclarations
  obtain ⟨right, inRights, words, rfl, each⟩ :=
    exists_children isGrammar isStart (List.cons_ne_nil _ _)
  cases List.mem_singleton.1 inRights
  obtain _ | ⟨first, _ | ⟨second, _ | _⟩⟩ := each
  obtain ⟨accepts, rfl⟩ := exists_word isGrammar first rfl
  obtain ⟨start, rfl⟩ := exists_word isGrammar second rfl
  exact ⟨⟨accepts, start, declarations⟩, rfl⟩

end ParserGenerator.Description
