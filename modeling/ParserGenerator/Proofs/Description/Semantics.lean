import ParserGenerator.Proofs.Description.Expansion
import ParserGenerator.Proofs.Naming

/-!
# What descriptions mean

A description means a start symbol and a list of rules: one rule for each alternative of each body,
in the order in which they are written, without repetitions. Reading a description registers the
names on the way, and it stops at the first name that cannot be read.

Results: `Description.parse_exact`.
-/

namespace ParserGenerator.Description

/-! ## Definitions -/

/-- A rule says by symbols what an alternative for a left-hand side says by names. -/
structure Spells (names : SymbolTable) (named : String × Alternative) (rule : Rule) : Prop where
  lhs : names.get? named.1 = some rule.lhs
  rhs : List.Forall₂ (fun position symbol => names.get? position.1 = some symbol) named.2 rule.rhs
  options : rule.options = named.2.map Prod.snd
  notChained : rule.chained = false
  notUnwrapping : rule.unwrapsSingle = false

/-- The alternatives that are declared, each with the left-hand side. -/
def Declaration.namedRules (declaration : Declaration) : List (String × Alternative) :=
  declaration.body.alternatives.map fun alternative =>
    (spelling declaration.lhs.token.text, alternative)

def Source.namedRules (source : Source) : List (String × Alternative) :=
  source.declarations.flatMap Declaration.namedRules

/-- The description has the start symbol that is written and a rule for each alternative that is
written, where a rule that equals an earlier one is dropped. -/
structure Source.Describes (source : Source) (names : SymbolTable) (description : Description) :
    Prop where
  start : names.get? (spelling source.start.token.text) = some description.start
  rules : ∃ all, List.Forall₂ (Spells names) source.namedRules all ∧
    description.rules = all.eraseDups

/-- The text is lexed into the word and the end of the input, and the word is derived by the grammar
of descriptions. -/
structure IsDescription (source : String) (word : List Token) : Prop where
  lexed : ∃ closing, closing.symbol = Symbol.endOfInput ∧
    Language.lexer.lex source = .ok (word ++ [closing])
  derived : Derives Language.rules [Part.grammar.symbol] (word.map Token.symbol)

/-- From a table the reader fails with the error of the first name that cannot be read, or else it
makes a value and registers names. -/
def Settles {α : Type} (names : SymbolTable) (reader : Naming DescriptionError α)
    (texts : List String) (holds : SymbolTable → α → Prop) : Prop :=
  match texts.findSome? fault? with
  | some error => (reader.outcome names).1 = .error error
  | none => ∃ value later, reader.outcome names = (.ok value, later) ∧ later.Extends names ∧
      holds later value

/-! ## Reading on the way -/

section Settles

variable {α β : Type} {names : SymbolTable} {reader : Naming DescriptionError α}
  {next : α → Naming DescriptionError β} {texts texts' : List String}
  {holds : SymbolTable → α → Prop} {wanted : SymbolTable → β → Prop}

theorem settles_pure {value : α} (held : holds names value) :
    Settles names (pure value) [] holds :=
  ⟨value, names, Naming.outcome_pure value names, .refl names, held⟩

theorem Settles.bind (settles : Settles names reader texts holds)
    (continues : ∀ value later, later.Extends names → holds later value →
      Settles later (next value) texts' wanted) :
    Settles names (reader >>= next) (texts ++ texts') wanted := by
  unfold Settles at settles ⊢
  rw [List.findSome?_append]
  cases found : texts.findSome? fault? with
  | some error =>
      rw [found] at settles
      exact Naming.outcome_bind_error settles
  | none =>
      rw [found] at settles
      obtain ⟨value, middle, read, grown, held⟩ := settles
      have settlesOn := continues value middle grown held
      unfold Settles at settlesOn
      rw [Option.none_or, Naming.outcome_bind_ok read]
      split at settlesOn
      · exact settlesOn
      · obtain ⟨result, last, readOn, grownOn, found⟩ := settlesOn
        exact ⟨result, last, readOn, grownOn.trans grown, found⟩

theorem Settles.imp {wanted : SymbolTable → α → Prop} (settles : Settles names reader texts holds)
    (weaker : ∀ value later, later.Extends names → holds later value → wanted later value) :
    Settles names reader texts wanted := by
  unfold Settles at settles ⊢
  split at settles
  · exact settles
  · obtain ⟨value, later, read, grown, held⟩ := settles
    exact ⟨value, later, read, grown, weaker value later grown held⟩

theorem settles_lift {outcome : Except DescriptionError α} {value : α}
    (isOutcome : outcome = settled texts value) (names : SymbolTable) :
    Settles names (liftM outcome : Naming DescriptionError α) texts fun _ found =>
      found = value := by
  unfold Settles
  unfold settled at isOutcome
  split
  · rename_i error found
    rw [found] at isOutcome
    rw [isOutcome]
    rfl
  · rename_i found
    rw [found] at isOutcome
    rw [isOutcome]
    exact ⟨value, names, rfl, .refl names, rfl⟩

theorem settles_intern (name : String) (names : SymbolTable) :
    Settles names (Naming.intern name) [] fun later symbol => later.get? name = some symbol :=
  ⟨_, _, Naming.outcome_intern name names, names.extends_intern name, names.get?_intern name⟩

theorem settles_internName (token : Token) (names : SymbolTable) :
    Settles names (internName token) [token.text] fun later symbol =>
      later.get? (spelling token.text) = some symbol := by
  have reads := settles_lift (settled_singleton token.text).symm names
  refine reads.bind fun name later _ isName => ?_
  rw [isName]
  exact settles_intern (spelling token.text) later

theorem settles_internAll (spelled : List String) (names : SymbolTable) :
    Settles names (Naming.internAll spelled) [] fun later symbols =>
      List.Forall₂ (fun name symbol => later.get? name = some symbol) spelled symbols := by
  induction spelled generalizing names with
  | nil => exact settles_pure .nil
  | cons name rest ih =>
      rw [Naming.internAll]
      refine (settles_intern name names).bind fun first middle _ isFirst => ?_
      refine (ih middle).bind fun others later grown areOthers => ?_
      exact settles_pure (.cons (grown.get? isFirst) areOthers)

end Settles

/-! ## Rules of alternatives -/

theorem Spells.mono {names later : SymbolTable} {named : String × Alternative} {rule : Rule}
    (spells : Spells names named rule) (grown : later.Extends names) : Spells later named rule where
  lhs := grown.get? spells.lhs
  rhs := spells.rhs.imp fun _ _ known => grown.get? known
  options := spells.options
  notChained := spells.notChained
  notUnwrapping := spells.notUnwrapping

theorem spells_ofOptions {names : SymbolTable} {name : String} {lhs : Symbol}
    {alternative : Alternative} {rhs : SymbolString} (isLhs : names.get? name = some lhs)
    (areRhs : List.Forall₂ (fun name symbol => names.get? name = some symbol)
      (alternative.map Prod.fst) rhs) :
    Spells names (name, alternative) (.ofOptions lhs rhs (alternative.map Prod.snd)) where
  lhs := isLhs
  rhs := List.forall₂_map_left_iff.1 areRhs
  options := ChildOption.fit_eq_self (by
    rw [List.length_map, ← List.length_map Prod.fst, areRhs.length_eq])
  notChained := rfl
  notUnwrapping := rfl

/-- Behind the rules so far stand those of the alternatives that are new. -/
def Adds (named : List (String × Alternative)) (rules : List Rule) (names : SymbolTable)
    (result : List Rule) : Prop :=
  ∃ added, List.Forall₂ (Spells names) named added ∧ result = added.foldl withKey rules

theorem adds_singleton {named : String × Alternative} {rule : Rule} {names : SymbolTable}
    (spells : Spells names named rule) (rules : List Rule) :
    Adds [named] rules names (withKey rules rule) := ⟨[rule], .cons spells .nil, rfl⟩

theorem Adds.append {named named' : List (String × Alternative)} {rules middle result : List Rule}
    {names later : SymbolTable} (adds : Adds named rules names middle)
    (grown : later.Extends names) (addsLater : Adds named' middle later result) :
    Adds (named ++ named') rules later result := by
  obtain ⟨added, spell, rfl⟩ := adds
  obtain ⟨added', spell', rfl⟩ := addsLater
  have spellLater := spell.imp fun _ _ spells => spells.mono grown
  exact ⟨added ++ added', List.rel_append spellLater spell', List.foldl_append.symm⟩

theorem settles_addAlternatives {names : SymbolTable} {name : String} {lhs : Symbol}
    (isLhs : names.get? name = some lhs) (rules : List Rule) (alternatives : List Alternative) :
    Settles names (addAlternatives lhs rules alternatives) []
      (Adds (alternatives.map fun alternative => (name, alternative)) rules) := by
  induction alternatives generalizing names rules with
  | nil => exact settles_pure ⟨[], .nil, rfl⟩
  | cons alternative rest ih =>
      rw [addAlternatives]
      refine (settles_internAll _ names).bind fun rhs middle grown areRhs => ?_
      have isLhsLater := grown.get? isLhs
      have adds := adds_singleton (spells_ofOptions isLhsLater areRhs) rules
      exact (ih isLhsLater _).imp fun result later grownLater addsLater =>
        adds.append grownLater addsLater

/-! ## Declarations -/

open Rule (attach)

/-- What is left of the tree of a declaration. -/
def Declaration.Collapses (declaration : Declaration) (tree : SyntaxTree) : Prop :=
  ∃ body, tree = .branch Part.ruleDeclaration.symbol
      [.leaf declaration.arrow.token, .branch Part.lhs.symbol [.leaf declaration.lhs.token],
        .leaf declaration.sep.token, .branch Part.rhs.symbol [body]] ∧
    expand body = settled (namesOf declaration.body.tokens) declaration.body.alternatives

theorem Declaration.exists_tree (declaration : Declaration) :
    declaration.Collapses declaration.derivation.syntaxTree := by
  obtain ⟨body, attached, expands⟩ := declaration.body.exists_attached
  have isRhs : (rhsTree declaration.body).syntaxTree = .branch Part.rhs.symbol [body] := by
    rw [rhsTree, syntaxTree_node, ← attached]
    simp
  refine ⟨body, ?_, expands⟩
  rw [derivation, syntaxTree_node]
  simp only [List.map_cons, List.map_nil, isRhs]
  rfl

theorem exists_declarationsTree (declarations : List Declaration) :
    ∃ trees, (declarationsTree declarations).syntaxTree =
        .branch Part.ruleDeclarations.symbol trees ∧
      List.Forall₂ Declaration.Collapses declarations trees := by
  induction declarations using List.reverseRecOn with
  | nil => exact ⟨[], rfl, .nil⟩
  | append_singleton front last ih =>
      obtain ⟨trees, isFront, declares⟩ := ih
      have declaresLast := last.exists_tree
      obtain ⟨body, isLast, _⟩ := id declaresLast
      refine ⟨trees ++ [last.derivation.syntaxTree], ?_,
        List.rel_append declares (.cons declaresLast .nil)⟩
      rw [declarationsTree_concat, declareTree, syntaxTree_node]
      simp [isFront, isLast, attach]

theorem settles_addDeclarations {declarations : List Declaration} {trees : List SyntaxTree}
    (declares : List.Forall₂ Declaration.Collapses declarations trees) (rules : List Rule)
    (names : SymbolTable) :
    Settles names (addDeclarations rules trees)
      (namesOf (declarations.flatMap Declaration.tokens))
      (Adds (declarations.flatMap Declaration.namedRules) rules) := by
  induction declares generalizing rules names with
  | nil => exact settles_pure ⟨[], .nil, rfl⟩
  | @cons declaration tree declarations trees declared _ ih =>
      obtain ⟨body, rfl, expands⟩ := declared
      have texts : namesOf ((declaration :: declarations).flatMap Declaration.tokens) =
          [declaration.lhs.token.text] ++ (namesOf declaration.body.tokens ++
            ([] ++ namesOf (declarations.flatMap Declaration.tokens))) := by
        rw [List.flatMap_cons, namesOf_append, Declaration.tokens,
          namesOf_mark declaration.arrow (by decide), namesOf_name,
          namesOf_mark declaration.sep (by decide)]
        rfl
      rw [texts, addDeclarations, if_pos rfl]
      refine (settles_internName declaration.lhs.token names).bind fun lhs first _ isLhs => ?_
      refine (settles_lift expands first).bind fun alternatives second grown isAlternatives => ?_
      rw [isAlternatives]
      refine (settles_addAlternatives (grown.get? isLhs) rules _).bind fun more third _ adds => ?_
      exact (ih more third).imp fun result later grownLater addsLater =>
        adds.append grownLater addsLater

/-! ## Whole descriptions -/

theorem settles_ofTree (source : Source) (names : SymbolTable) :
    Settles names (ofTree source.derivation.syntaxTree) (namesOf source.tokens)
      source.Describes := by
  obtain ⟨trees, areDeclarations, collapse⟩ := exists_declarationsTree source.declarations
  have isStart : (startTree source.accepts source.start).syntaxTree =
      .branch Part.startDeclaration.symbol [.leaf source.start.token] := by
    rw [startTree, syntaxTree_node]
    rfl
  have isTree : source.derivation.syntaxTree = .branch Part.grammar.symbol
      [.branch Part.startDeclaration.symbol [.leaf source.start.token],
        .branch Part.ruleDeclarations.symbol trees] := by
    rw [Source.derivation, syntaxTree_node]
    simp only [List.map_cons, List.map_nil, isStart, areDeclarations]
    rfl
  have texts : namesOf source.tokens = [source.start.token.text] ++
      (namesOf (source.declarations.flatMap Declaration.tokens) ++ []) := by
    rw [Source.tokens, namesOf_mark source.accepts (by decide), namesOf_name, List.append_nil]
    rfl
  rw [isTree, texts]
  unfold ofTree
  simp only [SyntaxTree.children, source.start.isPart, if_true]
  refine (settles_internName source.start.token names).bind fun start first _ isStart => ?_
  refine (settles_addDeclarations collapse [] first).bind fun rules second grown adds => ?_
  obtain ⟨all, spell, rfl⟩ := adds
  exact settles_pure ⟨grown.get? isStart, all, spell, foldl_withKey_nil all⟩

/-! ## Parsing -/

/-- A word that is derived is written as a description. -/
theorem IsDescription.exists_source {source : String} {word : List Token}
    (isDescription : IsDescription source word) : ∃ written : Source, written.tokens = word := by
  obtain ⟨⟨closing, isEnd, lexed⟩, derived⟩ := isDescription
  obtain ⟨g, isGrammar⟩ := Language.exists_grammar
  obtain ⟨_, isRules, _⟩ := Language.grammar_eq isGrammar
  rw [← isRules] at derived
  obtain ⟨trees, valid, roots, leaves⟩ := DerivationTree.exists_forest derived
    fun token member => Language.terminal_of_lex isGrammar lexed (List.mem_append_left _ member)
  obtain ⟨tree, rest, rfl, root, isRest⟩ := List.map_eq_cons_iff.1 roots
  cases List.map_eq_nil_iff.1 isRest
  obtain ⟨written, rfl⟩ :=
    Description.exists_source isGrammar ⟨valid tree List.mem_cons_self, root⟩
  refine ⟨written, ?_⟩
  rw [← written.leaves_derivation, ← leaves]
  exact (List.append_nil _).symm

/-- The tokens of a description and the end of the input are parsed to the tree of the description,
within the bound on the steps. -/
theorem parseTokens_source (written : Source) {closing : Token}
    (isEnd : closing.symbol = Symbol.endOfInput) :
    Language.table.parseTokens (stepBound (written.tokens ++ [closing]))
      (written.tokens ++ [closing]) = some (.ok written.derivation.syntaxTree) := by
  obtain ⟨g, automaton, isGrammar, exact⟩ := Language.exists_exact
  obtain ⟨_, _, isStart⟩ := Language.grammar_eq isGrammar
  obtain ⟨valid, root⟩ := written.isTreeOf isGrammar
  obtain ⟨states, takes⟩ :=
    Session.TakesAll.of_derivation exact valid (root.trans isStart.symm) isEnd
  -- A parse makes one reduction for each node of the tree.
  have nodes := (Language.weighing isGrammar).postorder_le valid
  have weight : (Language.weighing isGrammar).weight written.derivation.root = -5 := by
    rw [root]
    rfl
  rw [written.leaves_derivation] at takes nodes
  refine Table.parseTokens_of_takesAll takes ?_
  rw [weight] at nodes
  rw [stepBound, List.length_append]
  omega

theorem parseTree_of_isDescription {source : String} {word : List Token}
    (isDescription : IsDescription source word) {written : Source}
    (tokens : written.tokens = word) : parseTree source = .ok written.derivation.syntaxTree := by
  obtain ⟨⟨closing, isEnd, lexed⟩, _⟩ := isDescription
  subst tokens
  have parsed := parseTokens_source written isEnd
  -- The cases are told apart by what is known of the lexer and the table; rewriting with it would
  -- compute both of them when the proof is checked.
  unfold parseTree
  split
  · rename_i refused
    cases lexed.symm.trans refused
  · rename_i isLexed
    cases lexed.symm.trans isLexed
    split
    · rename_i missing
      cases parsed.symm.trans missing
    · rename_i tree isParsed
      cases parsed.symm.trans isParsed
      rfl
    · rename_i isParsed
      cases parsed.symm.trans isParsed
    · rename_i isParsed
      cases parsed.symm.trans isParsed

theorem isDescription_of_parseTree {source : String} {tree : SyntaxTree}
    (parsed : parseTree source = .ok tree) : ∃ word, IsDescription source word := by
  obtain ⟨g, automaton, isGrammar, exact⟩ := Language.exists_exact
  obtain ⟨formed, isRules, isStart⟩ := Language.grammar_eq isGrammar
  unfold parseTree at parsed
  split at parsed
  · cases parsed
  · rename_i tokens lexed
    split at parsed
    · cases parsed
    · rename_i tree' parsedTokens
      obtain ⟨word, closing, derivation, isTokens, isEnd, valid, root, leaves, _⟩ :=
        Table.derivation_of_parseTokens exact.toGenerated parsedTokens
      have derived := valid.derives
      rw [root, leaves] at derived
      have noStart : Symbol.start ∉ [g.startSymbol] := by
        rw [isStart]
        decide
      have user := derived.user formed noStart
      rw [isRules, isStart] at user
      exact ⟨word, ⟨closing, isEnd, isTokens ▸ lexed⟩, user⟩
    · cases parsed
    · cases parsed

/-- A text without a tree is refused by the lexer or by the table. -/
theorem ne_malformed_of_parseTree {source : String} {error : DescriptionError}
    (failed : parseTree source = .error error) :
    (∀ part, error ≠ .malformed part) ∧ ∀ text, error ≠ .unterminatedName text := by
  obtain ⟨g, automaton, isGrammar, exact⟩ := Language.exists_exact
  unfold parseTree at failed
  split at failed
  · cases failed
    exact ⟨nofun, nofun⟩
  · rename_i tokens _
    have slim := (Language.weighing isGrammar).slim exact.toGenerated
    obtain ⟨outcome, parsed⟩ := Table.exists_parseTokens exact slim
      (show 4 * tokens.length + 1 < stepBound tokens by unfold stepBound; omega)
    rw [parsed] at failed
    split at failed
    · rename_i missing
      cases missing
    · cases failed
    · cases failed
      exact ⟨nofun, nofun⟩
    · cases failed
      exact ⟨nofun, nofun⟩

/-! ## Reading -/

/-- The first quoted name with a blank is the first name that cannot be read. -/
theorem IsDescription.findSome?_fault? {source : String} {word : List Token}
    (isDescription : IsDescription source word) :
    (namesOf word).findSome? fault? = ((namesOf word).find? hasBlank).map .blankInName := by
  obtain ⟨⟨closing, _, lexed⟩, _⟩ := isDescription
  have isFault : ∀ text ∈ namesOf word, fault? text =
      if hasBlank text then some (.blankInName text) else none := by
    intro text member
    obtain ⟨token, isName, rfl⟩ := List.mem_map.1 member
    obtain ⟨inWord, isName⟩ := List.mem_filter.1 isName
    have inTokens := Lexer.mem_tokens_of_lex lexed (List.mem_append_left _ inWord)
    exact fault?_eq fun rest quoted =>
      Language.closed_of_quoted inTokens (of_decide_eq_true isName) quoted
  generalize namesOf word = texts at isFault
  induction texts with
  | nil => rfl
  | cons text rest ih =>
      have later := ih fun other member => isFault other (List.mem_cons_of_mem _ member)
      rw [List.findSome?_cons, isFault text List.mem_cons_self, later, List.find?_cons]
      cases hasBlank text <;> rfl

theorem outcome_parse (source : String) (names : SymbolTable) :
    (parse source).outcome names =
      match parseTree source with
      | .error error => (.error error, names)
      | .ok tree => (ofTree tree).outcome names := by
  unfold parse
  cases parseTree source <;> rfl

/-- Where a text is lexed and derived, all ways to write it are read the same way: up to the first
quoted name with a blank, and else to what is described. -/
theorem settles_parse {source : String} {word : List Token}
    (isDescription : IsDescription source word) {written : Source} (tokens : written.tokens = word)
    (names : SymbolTable) : Settles names (parse source) (namesOf word) written.Describes := by
  have settles := settles_ofTree written names
  unfold Settles at settles ⊢
  rw [outcome_parse, parseTree_of_isDescription isDescription tokens]
  rw [tokens] at settles
  exact settles

theorem isDescription_of_outcome {source : String} {names later : SymbolTable}
    {description : Description} (read : (parse source).outcome names = (.ok description, later)) :
    ∃ word, IsDescription source word := by
  rw [outcome_parse] at read
  split at read
  · cases read
  · rename_i parsed
    exact isDescription_of_parseTree parsed

/-- Where a text is lexed and derived, a quoted name with a blank is reported, or the description is
read. -/
theorem IsDescription.outcome_cases {source : String} {word : List Token}
    (isDescription : IsDescription source word) (names : SymbolTable) :
    (∃ text, (namesOf word).find? hasBlank = some text ∧
      ((parse source).outcome names).1 = .error (.blankInName text)) ∨
    ((∀ text ∈ namesOf word, hasBlank text = false) ∧
      ∃ description later, (parse source).outcome names = (.ok description, later) ∧
        later.Extends names ∧
        ∀ written : Source, written.tokens = word → written.Describes later description) := by
  have settles {written : Source} (tokens : written.tokens = word) :=
    settles_parse isDescription tokens names
  unfold Settles at settles
  rw [isDescription.findSome?_fault?] at settles
  obtain ⟨written, tokens⟩ := isDescription.exists_source
  cases found : (namesOf word).find? hasBlank with
  | some text =>
      rw [found] at settles
      exact .inl ⟨text, rfl, settles tokens⟩
  | none =>
      rw [found] at settles
      obtain ⟨description, later, read, grown, _⟩ := settles tokens
      refine .inr ⟨fun text member => Bool.eq_false_iff.2 (List.find?_eq_none.1 found text member),
        description, later, read, grown, fun other otherTokens => ?_⟩
      obtain ⟨_, _, readOther, _, describes⟩ := settles otherTokens
      cases read.symm.trans readOther
      exact describes

/-- A text that is lexed and derived can be refused for a quoted name with a blank alone. No text is
refused because its tree has a shape that the reader does not know. -/
theorem error_of_outcome {source : String} {names later : SymbolTable} {error : DescriptionError}
    (failed : (parse source).outcome names = (.error error, later)) :
    (∀ part, error ≠ .malformed part) ∧ (∀ text, error ≠ .unterminatedName text) ∧
      ∀ word, IsDescription source word →
        ((namesOf word).find? hasBlank).map .blankInName = some error := by
  by_cases described : ∃ word, IsDescription source word
  · have reported {word : List Token} (isDescription : IsDescription source word) :
        ∃ text, (namesOf word).find? hasBlank = some text ∧ error = .blankInName text := by
      rcases isDescription.outcome_cases names with ⟨text, found, isBlank⟩ | ⟨_, _, _, read, _⟩
      · rw [failed] at isBlank
        exact ⟨text, found, Except.error.inj isBlank⟩
      · cases failed.symm.trans read
    obtain ⟨_, isDescription⟩ := described
    obtain ⟨_, _, isError⟩ := reported isDescription
    refine ⟨isError ▸ nofun, isError ▸ nofun, fun word isDescription => ?_⟩
    obtain ⟨text, found, isError⟩ := reported isDescription
    rw [found, isError]
    rfl
  · rw [outcome_parse] at failed
    split at failed
    · rename_i refused
      cases failed
      obtain ⟨notMalformed, notUnterminated⟩ := ne_malformed_of_parseTree refused
      exact ⟨notMalformed, notUnterminated, fun word isDescription =>
        absurd ⟨word, isDescription⟩ described⟩
    · rename_i parsed
      exact absurd (isDescription_of_parseTree parsed) described

/-- A description is read exactly when its text is lexed and derived by the grammar of descriptions
and no quoted name in it has a blank. What is read is then what the text describes, whichever way
its tokens are taken for a start symbol and declarations. Otherwise the text is refused by the lexer
or by the table, or the first quoted name with a blank is reported; no tree of a text has a shape
that the reader does not know. -/
theorem parse_exact (source : String) (names : SymbolTable) :
    ((∃ description later, (parse source).outcome names = (.ok description, later)) ↔
      ∃ word, IsDescription source word ∧ ∀ text ∈ namesOf word, hasBlank text = false) ∧
    (∀ description later, (parse source).outcome names = (.ok description, later) →
      later.Extends names ∧ ∃ word, IsDescription source word ∧
        (∃ written : Source, written.tokens = word) ∧
        ∀ written : Source, written.tokens = word → written.Describes later description) ∧
    ∀ error later, (parse source).outcome names = (.error error, later) →
      (∀ part, error ≠ .malformed part) ∧ (∀ text, error ≠ .unterminatedName text) ∧
      ∀ word, IsDescription source word →
        ((namesOf word).find? hasBlank).map .blankInName = some error := by
  refine ⟨⟨?_, ?_⟩, ?_, ?_⟩
  · rintro ⟨description, later, read⟩
    obtain ⟨word, isDescription⟩ := isDescription_of_outcome read
    rcases isDescription.outcome_cases names with ⟨_, _, failed⟩ | ⟨noBlank, _⟩
    · rw [read] at failed
      cases failed
    · exact ⟨word, isDescription, noBlank⟩
  · rintro ⟨word, isDescription, noBlank⟩
    rcases isDescription.outcome_cases names with
      ⟨text, found, _⟩ | ⟨_, description, later, read, _⟩
    · have blank := List.find?_some found
      rw [noBlank text (List.mem_of_find?_eq_some found)] at blank
      cases blank
    · exact ⟨description, later, read⟩
  · intro description later read
    obtain ⟨word, isDescription⟩ := isDescription_of_outcome read
    rcases isDescription.outcome_cases names with
      ⟨_, _, failed⟩ | ⟨_, _, _, found, grown, describes⟩
    · rw [read] at failed
      cases failed
    · cases read.symm.trans found
      exact ⟨grown, word, isDescription, isDescription.exists_source, describes⟩
  · exact fun error later failed => error_of_outcome failed

end ParserGenerator.Description
