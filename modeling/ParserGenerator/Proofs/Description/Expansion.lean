import ParserGenerator.Proofs.Description.Phrases

/-!
# What a body stands for

A body denotes a list of alternatives, and the phrases of a body say which ones. The reader does not
see the phrases: the options of the rules have collapsed the tree of a body, so that a list of one
item or options of one list leave no trace. What is left of a phrase still expands to what it
denotes, unless a name cannot be read.

Results: `settled_singleton` and `fault?_eq`, how a name is read, and `Phrase.exists_attached`, that
what is left of a phrase expands to the alternatives of the phrase.
-/

namespace ParserGenerator.Description

/-! ## Definitions -/

/-- What a name token spells: a quoted name spells what is between its quotes. -/
def spelling (text : String) : String :=
  match text.toList with
  | '"' :: rest => String.ofList (unescape rest.dropLast)
  | _ => text

/-- Whether a text is a quoted name with a blank in it. -/
def hasBlank (text : String) : Bool :=
  text.toList.head? == some '"' && text.toList.any Text.isBlank

/-- The texts of the name tokens among some tokens. -/
def namesOf (tokens : List Token) : List String :=
  (tokens.filter fun token => token.symbol = Part.name.symbol).map Token.text

/-- The error of a name that cannot be read. -/
def fault? (text : String) : Option DescriptionError :=
  match unquote text with
  | .ok _ => none
  | .error error => some error

/-- The value, unless one of the names cannot be read. -/
def settled {α : Type} (texts : List String) (value : α) : Except DescriptionError α :=
  match texts.findSome? fault? with
  | some error => .error error
  | none => .ok value

/-- The alternatives that a phrase denotes, with the spellings of its names. -/
def Phrase.alternatives {part : Part} : Phrase part → List Alternative
  | .name word => [[(spelling word.token.text, .default)]]
  | .annotated manner _ word => [[(spelling word.token.text, manner.option)]]
  | .epsilon _ => [[]]
  | .optional inner _ => inner.alternatives ++ [[]]
  | .group _ inner _ => inner.alternatives
  | .single last => last.alternatives
  | .row front last => juxtapose front.alternatives last.alternatives
  | .only last => last.alternatives
  | .choice front _ last => front.alternatives ++ last.alternatives

/-- How the alternatives of the children of a phrase are put together. -/
def joined (part : Part) (lists : List (List Alternative)) : List Alternative :=
  if part = .options then lists.flatten else lists.foldl juxtapose [[]]

/-- What has become of a phrase: a branch with children that make up its alternatives. -/
structure Collapses {part : Part} (phrase : Phrase part) (children : List SyntaxTree)
    (lists : List (List Alternative)) : Prop where
  tree : phrase.derivation.syntaxTree = .branch part.symbol children
  expands : expandAll children = settled (namesOf phrase.tokens) lists
  joins : joined part lists = phrase.alternatives
  single : part = .item → ∃ child, children = [child]

/-! ## Names -/

theorem any_unescape (text : List Char) :
    (unescape text).any Text.isBlank = text.any Text.isBlank := by
  have notBlank : Text.isBlank '\\' = false := by decide
  fun_induction unescape text with
  | case1 => rfl
  | case2 => simp [notBlank]
  | case3 e rest ih => simp [notBlank, ih]
  | case4 c rest _ ih => simp [ih]

theorem withoutLastQuote?_eq_some_iff {text inner : List Char} :
    withoutLastQuote? text = some inner ↔ text = inner ++ ['"'] := by
  unfold withoutLastQuote?
  split
  · rename_i back isBack
    rw [List.reverse_eq_cons_iff] at isBack
    rw [isBack, Option.some.injEq, List.append_left_inj]
  · rename_i differs
    constructor
    · exact nofun
    · rintro rfl
      exact absurd (List.reverse_concat ..) (differs _)

section Quoted

variable {text : String} {rest : List Char} (quoted : text.toList = '"' :: rest)
include quoted

theorem spelling_of_quoted : spelling text = String.ofList (unescape rest.dropLast) := by
  unfold spelling
  split
  · rename_i other isText
    cases quoted.symm.trans isText
    rfl
  · rename_i differs
    exact absurd quoted (differs rest)

theorem unquote_of_unclosed (unclosed : withoutLastQuote? rest = none) :
    unquote text = .error (.unterminatedName text) := by
  unfold unquote
  split
  · rename_i other isText
    cases quoted.symm.trans isText
    rw [unclosed]
  · rename_i differs
    exact absurd quoted (differs rest)

theorem unquote_of_closed {inner : List Char} (closed : withoutLastQuote? rest = some inner) :
    unquote text = if inner.any Text.isBlank then .error (.blankInName text)
      else .ok (spelling text) := by
  rw [spelling_of_quoted quoted, withoutLastQuote?_eq_some_iff.1 closed, List.dropLast_concat]
  unfold unquote
  split
  · rename_i other isText
    cases quoted.symm.trans isText
    rw [closed]
    dsimp only
    rw [any_unescape]
  · rename_i differs
    exact absurd quoted (differs rest)

end Quoted

theorem spelling_of_bare {text : String} (bare : ¬ ∃ rest, text.toList = '"' :: rest) :
    spelling text = text := by
  unfold spelling
  split
  · rename_i rest quoted
    exact absurd ⟨rest, quoted⟩ bare
  · rfl

theorem unquote_of_bare {text : String} (bare : ¬ ∃ rest, text.toList = '"' :: rest) :
    unquote text = .ok (spelling text) := by
  rw [spelling_of_bare bare]
  unfold unquote
  split
  · rename_i rest quoted
    exact absurd ⟨rest, quoted⟩ bare
  · rfl

/-- What is read of a name is its spelling. -/
theorem eq_spelling_of_unquote {text name : String} (read : unquote text = .ok name) :
    name = spelling text := by
  by_cases quoted : ∃ rest, text.toList = '"' :: rest
  · obtain ⟨rest, quoted⟩ := quoted
    cases found : withoutLastQuote? rest with
    | none => cases (unquote_of_unclosed quoted found).symm.trans read
    | some inner =>
        rw [unquote_of_closed quoted found] at read
        split at read
        · cases read
        · exact (Except.ok.inj read).symm
  · rw [unquote_of_bare quoted] at read
    exact (Except.ok.inj read).symm

theorem settled_singleton (text : String) : settled [text] (spelling text) = unquote text := by
  unfold settled
  rw [List.findSome?_cons, List.findSome?_nil]
  unfold fault?
  cases read : unquote text with
  | ok name => rw [eq_spelling_of_unquote read]
  | error error => rfl

/-- A name that ends with a quote if it begins with one can be read unless it has a blank. -/
theorem fault?_eq {text : String}
    (closed : ∀ rest, text.toList = '"' :: rest → ∃ inner, rest = inner ++ ['"']) :
    fault? text = if hasBlank text then some (.blankInName text) else none := by
  unfold fault? hasBlank
  by_cases quoted : ∃ rest, text.toList = '"' :: rest
  · obtain ⟨rest, quoted⟩ := quoted
    obtain ⟨inner, isRest⟩ := closed rest quoted
    have notBlank : Text.isBlank '"' = false := by decide
    have sameBlanks : text.toList.any Text.isBlank = inner.any Text.isBlank := by
      rw [quoted, isRest]
      simp [notBlank]
    rw [unquote_of_closed quoted (withoutLastQuote?_eq_some_iff.2 isRest), sameBlanks, quoted,
      List.head?_cons, beq_self_eq_true, Bool.true_and]
    cases inner.any Text.isBlank <;> rfl
  · have noQuote : (text.toList.head? == some '"') = false :=
      beq_eq_false_iff_ne.2 fun head => quoted (List.head?_eq_some_iff.1 head)
    rw [unquote_of_bare quoted, noQuote]
    rfl

/-! ## Reading names on the way -/

/-- Names that are read later can fail only where the earlier ones were read. -/
theorem settled_bind {α β : Type} (first second : List String) (value : α)
    {next : α → Except DescriptionError β} {result : β}
    (continues : next value = settled second result) :
    (settled first value >>= next) = settled (first ++ second) result := by
  unfold settled at continues ⊢
  rw [List.findSome?_append]
  cases first.findSome? fault? with
  | none => exact continues
  | some error => rfl

theorem settled_map {α β : Type} (texts : List String) (value : α) (change : α → β) :
    (settled texts value >>= fun value => pure (change value)) = settled texts (change value) := by
  unfold settled
  cases texts.findSome? fault? <;> rfl

theorem namesOf_append (first second : List Token) :
    namesOf (first ++ second) = namesOf first ++ namesOf second := by
  unfold namesOf
  rw [List.filter_append, List.map_append]

theorem Part.symbol_inj {part other : Part} : part.symbol = other.symbol ↔ part = other := by
  cases part <;> cases other <;> decide

theorem namesOf_name (word : Word .name) (rest : List Token) :
    namesOf (word.token :: rest) = word.token.text :: namesOf rest := by
  unfold namesOf
  rw [List.filter_cons, if_pos (decide_eq_true word.isPart), List.map_cons]

theorem namesOf_mark {part : Part} (word : Word part) (differs : part ≠ .name) (rest : List Token) :
    namesOf (word.token :: rest) = namesOf rest := by
  unfold namesOf
  rw [List.filter_cons_of_neg]
  rw [decide_eq_true_iff, word.isPart, Part.symbol_inj]
  exact differs

/-! ## Sequences of trees -/

theorem expandAll_append (front back : List SyntaxTree) :
    expandAll (front ++ back) = (expandAll front >>= fun first =>
      expandAll back >>= fun second => pure (first ++ second)) := by
  induction front with
  | nil =>
      rw [List.nil_append, expandAll]
      cases expandAll back <;> rfl
  | cons tree rest ih =>
      rw [List.cons_append, expandAll, expandAll, ih]
      cases expand tree with
      | error error => rfl
      | ok alternatives =>
          cases expandAll rest with
          | error error => rfl
          | ok lists => cases expandAll back <;> rfl

theorem expandAll_singleton {tree : SyntaxTree} {texts : List String}
    {alternatives : List Alternative} (expands : expand tree = settled texts alternatives) :
    expandAll [tree] = settled texts [alternatives] := by
  rw [expandAll, expands]
  exact settled_map texts alternatives fun first => [first]

theorem expandAll_concat {front : List SyntaxTree} {last : SyntaxTree} {texts texts' : List String}
    {lists : List (List Alternative)} {alternatives : List Alternative}
    (expands : expandAll front = settled texts lists)
    (expandsLast : expand last = settled texts' alternatives) :
    expandAll (front ++ [last]) = settled (texts ++ texts') (lists ++ [alternatives]) := by
  rw [expandAll_append, expands, expandAll_singleton expandsLast]
  exact settled_bind texts texts' lists (settled_map texts' [alternatives] fun second =>
    lists ++ second)

theorem joined_singleton (part : Part) (alternatives : List Alternative) :
    joined part [alternatives] = alternatives := by
  unfold joined
  split
  · exact List.append_nil _
  · simp [juxtapose]

theorem joined_expandAll_singleton (part : Part) (tree : SyntaxTree) :
    (expandAll [tree] >>= fun lists => pure (joined part lists)) = expand tree := by
  rw [expandAll]
  cases expand tree with
  | error error => rfl
  | ok alternatives => exact congrArg Except.ok (joined_singleton part alternatives)

/-! ## Trees after collapsing -/

open Rule (attach)

/-- Where the options of a rule leave the children of a node. -/
theorem syntaxTree_node (left : Part) (right : List (Part × ChildOption))
    (children : List DerivationTree) :
    (node left right children).syntaxTree =
      .branch left.symbol (((children.map DerivationTree.syntaxTree).zip
        (right.map Prod.snd)).flatMap fun (child, option) => attach option child) := by
  unfold node
  rw [DerivationTree.syntaxTree, DerivationTree.syntaxTrees_eq_map]
  have options : (Language.rule left right).options = right.map Prod.snd :=
    ChildOption.fit_eq_self (by rw [List.length_map, List.length_map])
  unfold Rule.treeOf Rule.shape
  rw [options]
  rfl

/-- A child with the default option keeps its branch unless the branch has exactly one child. -/
theorem attach_default_branch {symbol : Symbol} {children : List SyntaxTree}
    (several : ¬ ∃ child, children = [child]) :
    attach .default (.branch symbol children) = [.branch symbol children] := by
  cases children with
  | nil => rfl
  | cons first rest =>
      cases rest with
      | nil => exact absurd ⟨first, rfl⟩ several
      | cons => rfl

theorem attach_discard (child : SyntaxTree) : attach .discard child = [] := by
  cases child <;> rfl

/-- Where a phrase is a child with the default option, a tree is left of it that expands to the
alternatives of the phrase. -/
theorem Collapses.exists_attached {part : Part} {phrase : Phrase part} {children : List SyntaxTree}
    {lists : List (List Alternative)} (collapses : Collapses phrase children lists) :
    ∃ tree, attach .default phrase.derivation.syntaxTree = [tree] ∧
      expand tree = settled (namesOf phrase.tokens) phrase.alternatives := by
  have whole : (expandAll children >>= fun lists => pure (joined part lists)) =
      settled (namesOf phrase.tokens) phrase.alternatives := by
    rw [collapses.expands, settled_map, collapses.joins]
  rw [collapses.tree]
  -- A branch with one child gives way to it, and then its alternatives are those of the child.
  by_cases alone : ∃ child, children = [child]
  · obtain ⟨child, rfl⟩ := alone
    rw [joined_expandAll_singleton] at whole
    exact ⟨child, rfl, whole⟩
  · have isSequence : part = .list ∨ part = .options := by
      cases phrase with
      | name | annotated | epsilon | optional | group => exact absurd (collapses.single rfl) alone
      | single | row => exact .inl rfl
      | only | choice => exact .inr rfl
    refine ⟨.branch part.symbol children, attach_default_branch alone, ?_⟩
    rw [← whole]
    unfold expand
    rcases isSequence with rfl | rfl <;> rfl

theorem collapses_item {phrase : Phrase .item} {tree : SyntaxTree}
    (isTree : phrase.derivation.syntaxTree = .branch Part.item.symbol [tree])
    (expands : expand tree = settled (namesOf phrase.tokens) phrase.alternatives) :
    Collapses phrase [tree] [phrase.alternatives] where
  tree := isTree
  expands := expandAll_singleton expands
  joins := joined_singleton .item phrase.alternatives
  single _ := ⟨tree, rfl⟩

theorem expand_name (word : Word .name) :
    expand (.leaf word.token) =
      settled (namesOf [word.token]) [[(spelling word.token.text, .default)]] := by
  rw [namesOf_name]
  unfold expand
  rw [if_pos word.isPart, ← settled_singleton]
  exact settled_map [word.token.text] _ fun name => [[(name, ChildOption.default)]]

theorem expand_epsilon (mark : Word .epsilon) :
    expand (.leaf mark.token) = settled (namesOf [mark.token]) [[]] := by
  rw [namesOf_mark mark (by decide)]
  unfold expand
  rw [mark.isPart]
  rfl

theorem expand_annotated (manner : Manner) (mark : Word manner.mark)
    (word : Word .name) : expand (.branch manner.part.symbol [.leaf word.token]) =
      settled (namesOf [mark.token, word.token])
        [[(spelling word.token.text, manner.option)]] := by
  rw [namesOf_mark mark (by cases manner <;> decide), namesOf_name]
  have reads : (unquote word.token.text >>= fun name => pure [[(name, manner.option)]]) =
      settled [word.token.text] [[(spelling word.token.text, manner.option)]] := by
    rw [← settled_singleton]
    exact settled_map [word.token.text] _ fun name => [[(name, manner.option)]]
  refine Eq.trans ?_ reads
  unfold expand
  cases manner <;> rfl

theorem expand_optional {tree : SyntaxTree} {texts : List String} {alternatives : List Alternative}
    (expands : expand tree = settled texts alternatives) :
    expand (.branch Part.optionalItem.symbol [tree]) = settled texts (alternatives ++ [[]]) := by
  have whole := settled_map texts alternatives fun alternatives => alternatives ++ [[]]
  rw [← expands] at whole
  rw [← whole]
  conv_lhs => unfold expand
  rfl

theorem syntaxTree_annotatedTree (manner : Manner) (mark : Word manner.mark)
    (word : Word .name) : (annotatedTree manner mark word).syntaxTree =
      .branch manner.part.symbol [.leaf word.token] := by
  unfold annotatedTree
  rw [syntaxTree_node]
  rfl

theorem syntaxTree_optionalTree {inner : DerivationTree} {tree : SyntaxTree}
    (attached : attach .default inner.syntaxTree = [tree]) (mark : Word .question) :
    (optionalTree inner mark).syntaxTree = .branch Part.optionalItem.symbol [tree] := by
  unfold optionalTree
  rw [syntaxTree_node, ← attached]
  simp [attach_discard]

/-- Each phrase collapses. -/
theorem Phrase.exists_collapses {part : Part} (phrase : Phrase part) :
    ∃ children lists, Collapses phrase children lists := by
  induction phrase with
  | name word => exact ⟨_, _, collapses_item (syntaxTree_node ..) (expand_name word)⟩
  | annotated manner mark word =>
      refine ⟨_, _, collapses_item ?_ (expand_annotated manner mark word)⟩
      rw [derivation, syntaxTree_node, List.map_singleton, syntaxTree_annotatedTree]
      rfl
  | epsilon mark => exact ⟨_, _, collapses_item (syntaxTree_node ..) (expand_epsilon mark)⟩
  | optional inner mark ih =>
      obtain ⟨children, lists, collapses⟩ := ih
      obtain ⟨tree, attached, expands⟩ := collapses.exists_attached
      have texts : namesOf (optional inner mark).tokens = namesOf inner.tokens := by
        rw [tokens, namesOf_append, namesOf_mark mark (by decide)]
        exact List.append_nil _
      refine ⟨_, _, collapses_item ?_ (texts ▸ expand_optional expands)⟩
      rw [derivation, syntaxTree_node, List.map_singleton, syntaxTree_optionalTree attached]
      rfl
  | group left inner right ih =>
      obtain ⟨children, lists, collapses⟩ := ih
      obtain ⟨tree, attached, expands⟩ := collapses.exists_attached
      have texts : namesOf (group left inner right).tokens = namesOf inner.tokens := by
        rw [tokens, List.cons_append, namesOf_mark left (by decide), namesOf_append,
          namesOf_mark right (by decide)]
        exact List.append_nil _
      refine ⟨_, _, collapses_item ?_ (texts ▸ expands)⟩
      rw [derivation, syntaxTree_node, ← attached]
      simp [attach_discard]
  | single last ih =>
      obtain ⟨children, lists, collapses⟩ := ih
      obtain ⟨tree, attached, expands⟩ := collapses.exists_attached
      refine ⟨[tree], [last.alternatives], ?_, expandAll_singleton expands,
        joined_singleton .list _, by rintro ⟨⟩⟩
      rw [derivation, syntaxTree_node, ← attached]
      simp
  | row front last ihFront ihLast =>
      -- The list in front gives way to its children, behind which the tree of the last item stands.
      obtain ⟨children, lists, collapses⟩ := ihFront
      obtain ⟨_, _, collapsesLast⟩ := ihLast
      obtain ⟨tree, attached, expands⟩ := collapsesLast.exists_attached
      refine ⟨children ++ [tree], lists ++ [last.alternatives], ?_, ?_, ?_, by rintro ⟨⟩⟩
      · rw [derivation, syntaxTree_node, ← attached]
        simp [collapses.tree, attach]
      · rw [tokens, namesOf_append]
        exact expandAll_concat collapses.expands expands
      · rw [alternatives, ← collapses.joins]
        exact List.foldl_concat ..
  | only last ih =>
      obtain ⟨children, lists, collapses⟩ := ih
      obtain ⟨tree, attached, expands⟩ := collapses.exists_attached
      refine ⟨[tree], [last.alternatives], ?_, expandAll_singleton expands,
        joined_singleton .options _, by rintro ⟨⟩⟩
      rw [derivation, syntaxTree_node, ← attached]
      simp
  | choice front bar last ihFront ihLast =>
      obtain ⟨children, lists, collapses⟩ := ihFront
      obtain ⟨_, _, collapsesLast⟩ := ihLast
      obtain ⟨tree, attached, expands⟩ := collapsesLast.exists_attached
      refine ⟨children ++ [tree], lists ++ [last.alternatives], ?_, ?_, ?_, by rintro ⟨⟩⟩
      · rw [derivation, syntaxTree_node, ← attached]
        simp [collapses.tree, attach]
      · rw [tokens, namesOf_append, namesOf_mark bar (by decide)]
        exact expandAll_concat collapses.expands expands
      · rw [alternatives, ← collapses.joins]
        exact List.flatten_concat ..

/-- Where a body is a child with the default option, a tree is left of it that expands to the
alternatives of the body. -/
theorem Phrase.exists_attached {part : Part} (phrase : Phrase part) :
    ∃ tree, attach .default phrase.derivation.syntaxTree = [tree] ∧
      expand tree = settled (namesOf phrase.tokens) phrase.alternatives := by
  obtain ⟨children, lists, collapses⟩ := phrase.exists_collapses
  exact collapses.exists_attached

end ParserGenerator.Description
