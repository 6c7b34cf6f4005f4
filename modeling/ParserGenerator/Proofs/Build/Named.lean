import Mathlib.Data.List.Forall2
import ParserGenerator.Build
import ParserGenerator.Proofs.Description.Names
import ParserGenerator.Proofs.Grammar.WellFormed
import ParserGenerator.Proofs.Table.Alike

/-!
# Grammars by names

Which symbols a reader gives to names depends on the names that were registered before. What a text
says by names does not: a text that is read once is read from every table of names, and the grammars
that come out mean the same rules over names. The names are words, in whichever format the text is
written.

Results: `Grammar.exists_named_of_read` and `Table.outcome_build_eq_ok`.
-/

namespace ParserGenerator

/-! ## Definitions -/

/-- A rule over names. -/
structure NamedRule where
  lhs : String
  rhs : List String
  options : List ChildOption
  chained : Bool
  unwrapsSingle : Bool
deriving DecidableEq

namespace NamedRule

/-- The rule says by symbols what the named rule says by names. -/
structure Means (names : SymbolTable) (named : NamedRule) (rule : Rule) : Prop where
  lhs : names.get? named.lhs = some rule.lhs
  rhs : List.Forall₂ (fun name symbol => names.get? name = some symbol) named.rhs rule.rhs
  options_eq : rule.options = named.options
  chained_eq : rule.chained = named.chained
  unwrapsSingle_eq : rule.unwrapsSingle = named.unwrapsSingle

/-- All names of the rule have the property. -/
structure All (holds : String → Prop) (named : NamedRule) : Prop where
  lhs : holds named.lhs
  rhs : ∀ name ∈ named.rhs, holds name

end NamedRule

/-- The rule uses no reserved symbol. -/
def Rule.IsFree (rule : Rule) : Prop :=
  rule.lhs.isReserved = false ∧ ∀ symbol ∈ rule.rhs, symbol.isReserved = false

/-- A start symbol and rules over names. -/
structure NamedGrammar where
  start : String
  rules : List NamedRule

/-- The grammar has the rules and the start symbol that are named, in the order of the names. -/
structure NamedGrammar.Means (names : SymbolTable) (named : NamedGrammar) (g : Grammar) : Prop where
  start : names.get? named.start = some g.startSymbol
  rules : List.Forall₂ (NamedRule.Means names) named.rules g.userRules

/-- The name can be read as a word. -/
def NameIsWord (name : String) : Prop := Text.IsWord name.toList

namespace Naming

variable {ε α β : Type}

/-- From the table the reader makes a value and registers names. -/
def Makes (names : SymbolTable) (reader : Naming ε α) (holds : SymbolTable → α → Prop) : Prop :=
  ∃ value later, reader.outcome names = (.ok value, later) ∧ later.Extends names ∧
    holds later value

end Naming

/-- What a line says by names. -/
def GrammarFile.RuleLine.named (line : RuleLine) : NamedRule :=
  ⟨line.lhs, line.rhs, List.replicate line.rhs.length .default, line.chain, !line.wrap⟩

/-- What an alternative for a left-hand side says by names. -/
def Description.namedRule (named : String × Alternative) : NamedRule :=
  ⟨named.1, named.2.map Prod.fst, named.2.map Prod.snd, false, false⟩

/-! ## Readers -/

namespace Naming

variable {ε δ α β : Type} {names later : SymbolTable} {reader : Naming ε α}
  {next : α → Naming ε β} {holds : SymbolTable → α → Prop}

theorem makes_pure {value : α} (held : holds names value) :
    Makes names (pure value : Naming ε α) holds :=
  ⟨value, names, outcome_pure value names, .refl names, held⟩

theorem Makes.bind {wanted : SymbolTable → β → Prop} (makes : Makes names reader holds)
    (continues : ∀ value later, later.Extends names → holds later value →
      Makes later (next value) wanted) :
    Makes names (reader >>= next) wanted := by
  obtain ⟨value, middle, read, grown, held⟩ := makes
  obtain ⟨result, last, readOn, grownOn, found⟩ := continues value middle grown held
  exact ⟨result, last, (outcome_bind_ok read).trans readOn, grownOn.trans grown, found⟩

theorem Makes.mapError {change : ε → δ} (makes : Makes names reader holds) :
    Makes names (reader.mapError change) holds := by
  obtain ⟨value, later, read, grown, held⟩ := makes
  exact ⟨value, later, outcome_mapError_eq_ok.2 read, grown, held⟩

theorem makes_intern (name : String) (names : SymbolTable) :
    Makes names (intern name : Naming ε Symbol) fun later symbol =>
      later.get? name = some symbol :=
  ⟨_, _, outcome_intern name names, names.extends_intern name, names.get?_intern name⟩

theorem makes_internAll (spelled : List String) (names : SymbolTable) :
    Makes names (internAll spelled : Naming ε (List Symbol)) fun later symbols =>
      List.Forall₂ (fun name symbol => later.get? name = some symbol) spelled symbols := by
  induction spelled generalizing names with
  | nil => exact makes_pure .nil
  | cons name rest ih =>
      refine (makes_intern name names).bind fun symbol first _ isSymbol => ?_
      refine (ih first).bind fun symbols second grown areSymbols => ?_
      exact makes_pure (.cons (grown.get? isSymbol) areSymbols)

end Naming

/-! ## What rules mean -/

namespace NamedRule

variable {names later known : SymbolTable} {named other : NamedRule} {rule rule' : Rule}

theorem Means.mono (means : Means names named rule) (grown : later.Extends names) :
    Means later named rule where
  lhs := grown.get? means.lhs
  rhs := means.rhs.imp fun _ _ isSymbol => grown.get? isSymbol
  options_eq := means.options_eq
  chained_eq := means.chained_eq
  unwrapsSingle_eq := means.unwrapsSingle_eq

/-- Rules that mean one named rule say the same by names. -/
theorem Means.alike (means : Means names named rule) (means' : Means known named rule') :
    RulesAlike names known rule rule' where
  lhs := ⟨named.lhs, SymbolTable.get?_eq_some_iff.1 means.lhs,
    SymbolTable.get?_eq_some_iff.1 means'.lhs⟩
  rhs := by
    have same {spelled : List String} {left right : List Symbol}
        (isLeft : List.Forall₂ (fun name symbol => names.get? name = some symbol) spelled left)
        (isRight : List.Forall₂ (fun name symbol => known.get? name = some symbol) spelled right) :
        List.Forall₂ (SymbolTable.SameName names known) left right := by
      induction isLeft generalizing right with
      | nil => cases isRight; exact .nil
      | cons first _ ih =>
          cases isRight with
          | cons first' rest' =>
              exact .cons ⟨_, SymbolTable.get?_eq_some_iff.1 first,
                SymbolTable.get?_eq_some_iff.1 first'⟩ (ih rest')
    exact same means.rhs means'.rhs
  options_eq := means.options_eq.trans means'.options_eq.symm
  chained_eq := means.chained_eq.trans means'.chained_eq.symm
  unwrapsSingle_eq := means.unwrapsSingle_eq.trans means'.unwrapsSingle_eq.symm

/-- A named rule has one meaning. -/
theorem Means.unique (means : Means names named rule) (means' : Means names named rule') :
    rule = rule' := (means.alike means').eq (.refl names)

/-- A rule is the meaning of one named rule. -/
theorem Means.left_unique (means : Means names named rule) (means' : Means names other rule) :
    named = other := by
  have same {left right : List String} {symbols : List Symbol}
      (isLeft : List.Forall₂ (fun name symbol => names.get? name = some symbol) left symbols)
      (isRight : List.Forall₂ (fun name symbol => names.get? name = some symbol) right symbols) :
      left = right := by
    induction isLeft generalizing right with
    | nil => cases isRight; rfl
    | cons first _ ih =>
        cases isRight with
        | cons first' rest' =>
            have named := SymbolTable.get?_eq_some_iff.1 first
            rw [SymbolTable.get?_eq_some_iff.1 first'] at named
            rw [Option.some.inj named, ih rest']
  have lhs := SymbolTable.get?_eq_some_iff.1 means.lhs
  rw [SymbolTable.get?_eq_some_iff.1 means'.lhs] at lhs
  obtain ⟨_, rhs, options_eq, chained_eq, unwrapsSingle_eq⟩ := means
  obtain ⟨_, rhs', options_eq', chained_eq', unwrapsSingle_eq'⟩ := means'
  cases named
  cases other
  simp only [mk.injEq]
  exact ⟨(Option.some.inj lhs).symm, same rhs rhs', options_eq.symm.trans options_eq',
    chained_eq.symm.trans chained_eq', unwrapsSingle_eq.symm.trans unwrapsSingle_eq'⟩

/-- Equal rules are dropped where equal named rules are. -/
theorem means_eraseDups {listed : List NamedRule} {rules : List Rule}
    (means : List.Forall₂ (Means names) listed rules) :
    List.Forall₂ (Means names) listed.eraseDups rules.eraseDups :=
  forall₂_eraseDups
    ⟨fun _ _ _ left right => left.left_unique right, fun _ _ _ left right => left.unique right⟩
    means

end NamedRule

/-! ## Grammar files -/

namespace GrammarFile

open Naming (Makes)

variable {names later : SymbolTable}

theorem RuleLine.makes_toRule (line : RuleLine) (names : SymbolTable) :
    Makes names line.toRule fun later rule => line.named.Means later rule := by
  refine (Naming.makes_internAll line.rhs names).bind fun rhs first _ areRhs => ?_
  refine (Naming.makes_intern line.lhs first).bind fun lhs second grown isLhs => ?_
  refine Naming.makes_pure ⟨isLhs, areRhs.imp fun _ _ isSymbol => grown.get? isSymbol, ?_, rfl, rfl⟩
  change ([] ++ List.replicate rhs.length ChildOption.default).take rhs.length =
    List.replicate line.rhs.length ChildOption.default
  rw [areRhs.length_eq, List.nil_append]
  exact List.take_of_length_le (Nat.le_of_eq List.length_replicate)

theorem nameIsWord_of_mem {text word : List Char} (member : word ∈ Text.words text) :
    NameIsWord (String.ofList word) := by
  rw [NameIsWord, String.toList_ofList]
  exact Text.isWord_of_mem_words member

theorem mem_of_mem_readMarks {wrap chain : Bool} {words : List (List Char)} {word : List Char}
    (member : word ∈ (readMarks wrap chain words).2.2) : word ∈ words := by
  induction words generalizing wrap chain with
  | nil => exact member
  | cons first rest ih =>
      unfold readMarks at member
      split at member
      · exact List.mem_cons_of_mem _ (ih member)
      · split at member
        · exact List.mem_cons_of_mem _ (ih member)
        · exact member

/-- The names of a rule are words of its line. -/
theorem all_named_of_readWords {holds : String → Prop} {words : List (List Char)}
    (each : ∀ word ∈ words, holds (String.ofList word)) {line : RuleLine}
    (read : readWords words = .ok line) : line.named.All holds := by
  have each {word : List Char} (member : word ∈ (readMarks false false words).2.2) :
      holds (String.ofList word) := each word (mem_of_mem_readMarks member)
  unfold readWords at read
  generalize readMarks false false words = marks at read each
  obtain ⟨wrap, chain, rest⟩ := marks
  cases rest with
  | nil => cases read
  | cons lhs rest =>
      dsimp only at read each
      have isLhs : holds (String.ofList lhs) := each List.mem_cons_self
      split at read
      · split at read
        · cases read
          exact ⟨isLhs, fun name member => absurd member List.not_mem_nil⟩
        · split at read
          · cases read
          · cases read
            refine ⟨isLhs, fun name member => ?_⟩
            obtain ⟨word, inRhs, rfl⟩ := List.mem_map.1 member
            exact each (List.mem_cons_of_mem _ (List.mem_cons_of_mem _ inRhs))
      · cases read

/-- Lines that are read once mean the same rules over names from every table. -/
theorem exists_named_of_readLines {number : Nat} {lines : List (List Char)} {rules : List Rule}
    (read : (readLines number lines).outcome names = (.ok rules, later)) :
    ∃ named : List NamedRule, (∀ rule ∈ named, rule.All NameIsWord) ∧
      ∀ known, Makes known (readLines number lines) fun later rules =>
        List.Forall₂ (NamedRule.Means later) named rules := by
  induction lines generalizing number names later rules with
  | nil =>
      exact ⟨[], fun rule member => absurd member List.not_mem_nil,
        fun known => Naming.makes_pure .nil⟩
  | cons line rest ih =>
      simp only [readLines] at read ⊢
      split
      · rename_i blank
        rw [if_pos blank] at read
        exact ih read
      · rename_i notBlank
        rw [if_neg notBlank] at read
        cases parsed : readWords (Text.words (Text.trim line)) with
        | error fault =>
            rw [parsed] at read
            cases read
        | ok ruleLine =>
            rw [parsed] at read
            obtain ⟨_, _, _, readOn⟩ := Naming.outcome_bind_eq_ok.1 read
            obtain ⟨_, _, readRest, _⟩ := Naming.outcome_bind_eq_ok.1 readOn
            obtain ⟨named, areWords, makes⟩ := ih readRest
            have isWord := all_named_of_readWords (fun word => nameIsWord_of_mem) parsed
            refine ⟨ruleLine.named :: named, List.forall_mem_cons.2 ⟨isWord, areWords⟩,
              fun known => ?_⟩
            refine (ruleLine.makes_toRule known).bind fun rule first _ means => ?_
            refine (makes first).bind fun rules second grown areRules => ?_
            exact Naming.makes_pure (.cons (means.mono grown) areRules)

end GrammarFile

/-! ## Descriptions -/

namespace Description

open Naming (Makes)

variable {names later : SymbolTable}

theorem Spells.means {named : String × Alternative} {rule : Rule}
    (spells : Spells names named rule) : (namedRule named).Means names rule where
  lhs := spells.lhs
  rhs := List.forall₂_map_left_iff.2 spells.rhs
  options_eq := spells.options
  chained_eq := spells.notChained
  unwrapsSingle_eq := spells.notUnwrapping

/-- The names of the alternative are spelled by the texts. -/
def SpelledBy (texts : List String) (alternative : Alternative) : Prop :=
  ∀ position ∈ alternative, ∃ text ∈ texts, position.1 = spelling text

theorem SpelledBy.mono {texts more : List String} {alternative : Alternative}
    (spelled : SpelledBy texts alternative) (within : texts ⊆ more) :
    SpelledBy more alternative := by
  intro position inside
  obtain ⟨text, member, isSpelling⟩ := spelled position inside
  exact ⟨text, within member, isSpelling⟩

/-- The names in the alternatives of a phrase are spelled in its text. -/
theorem Phrase.spelledBy {part : Part} (phrase : Phrase part) {alternative : Alternative}
    (member : alternative ∈ phrase.alternatives) :
    SpelledBy (namesOf phrase.tokens) alternative := by
  induction phrase generalizing alternative with
  | name word =>
      rw [List.mem_singleton.1 member]
      intro position inside
      rw [List.mem_singleton.1 inside, Phrase.tokens, namesOf_name]
      exact ⟨_, List.mem_cons_self, rfl⟩
  | annotated manner mark word =>
      rw [List.mem_singleton.1 member]
      intro position inside
      rw [List.mem_singleton.1 inside, Phrase.tokens,
        namesOf_mark mark (by cases manner <;> decide), namesOf_name]
      exact ⟨_, List.mem_cons_self, rfl⟩
  | epsilon mark =>
      rw [List.mem_singleton.1 member]
      exact fun position inside => absurd inside List.not_mem_nil
  | optional inner mark ih =>
      rw [Phrase.tokens, namesOf_append]
      rcases List.mem_append.1 member with isInner | isEmpty
      · exact (ih isInner).mono (List.subset_append_left _ _)
      · rw [List.mem_singleton.1 isEmpty]
        exact fun position inside => absurd inside List.not_mem_nil
  | group left inner right ih =>
      rw [Phrase.tokens, List.cons_append, namesOf_mark left (by decide), namesOf_append]
      exact (ih member).mono (List.subset_append_left _ _)
  | single last ih => exact ih member
  | only last ih => exact ih member
  | row front last ihFront ihLast =>
      obtain ⟨first, inFront, joined⟩ := List.mem_flatMap.1 member
      obtain ⟨second, inLast, rfl⟩ := List.mem_map.1 joined
      rw [Phrase.tokens, namesOf_append]
      exact List.forall_mem_append.2
        ⟨(ihFront inFront).mono (List.subset_append_left _ _),
          (ihLast inLast).mono (List.subset_append_right _ _)⟩
  | choice front bar last ihFront ihLast =>
      rw [Phrase.tokens, namesOf_append, namesOf_mark bar (by decide)]
      rcases List.mem_append.1 member with inFront | inLast
      · exact (ihFront inFront).mono (List.subset_append_left _ _)
      · exact (ihLast inLast).mono (List.subset_append_right _ _)

/-- All names of a description are spelled in its text. -/
theorem Source.all_namedRules (source : Source) {holds : String → Prop}
    (each : ∀ text ∈ namesOf source.tokens, holds (spelling text)) :
    ∀ named ∈ source.namedRules, (namedRule named).All holds := by
  intro named member
  obtain ⟨declaration, isDeclared, inDeclaration⟩ := List.mem_flatMap.1 member
  obtain ⟨alternative, inBody, rfl⟩ := List.mem_map.1 inDeclaration
  have within {text : String} (inText : text ∈ namesOf declaration.tokens) :
      holds (spelling text) := by
    obtain ⟨token, isName, rfl⟩ := List.mem_map.1 inText
    obtain ⟨inTokens, isName⟩ := List.mem_filter.1 isName
    have inSource : token ∈ source.tokens := List.mem_cons_of_mem _
      (List.mem_cons_of_mem _ (List.mem_flatMap.2 ⟨declaration, isDeclared, inTokens⟩))
    exact each _ (List.mem_map_of_mem (List.mem_filter.2 ⟨inSource, isName⟩))
  have texts : namesOf declaration.tokens =
      declaration.lhs.token.text :: namesOf declaration.body.tokens := by
    rw [Declaration.tokens, namesOf_mark declaration.arrow (by decide), namesOf_name,
      namesOf_mark declaration.sep (by decide)]
  rw [texts] at within
  refine ⟨within List.mem_cons_self, fun name inNames => ?_⟩
  obtain ⟨position, inside, rfl⟩ := List.mem_map.1 inNames
  obtain ⟨text, inBodyText, isSpelling⟩ := declaration.body.spelledBy inBody position inside
  rw [isSpelling]
  exact within (List.mem_cons_of_mem _ inBodyText)

/-- A description that is read once means the same start symbol and the same rules over names from
every table. -/
theorem exists_named_of_parse {source : String} {description : Description}
    (read : (parse source).outcome names = (.ok description, later)) :
    ∃ (start : String) (named : List NamedRule), (∀ rule ∈ named, rule.All NameIsWord) ∧
      ∀ known, Makes known (parse source) fun later description =>
        later.get? start = some description.start ∧
          List.Forall₂ (NamedRule.Means later) named description.rules := by
  obtain ⟨word, isDescription⟩ := isDescription_of_outcome read
  obtain ⟨written, tokens⟩ := isDescription.exists_source
  have noBlank : ∀ text ∈ namesOf word, hasBlank text = false := by
    rcases isDescription.outcome_cases names with ⟨text, _, failed⟩ | ⟨noBlank, _⟩
    · rw [read] at failed
      cases failed
    · exact noBlank
  refine ⟨spelling written.start.token.text, (written.namedRules.map namedRule).eraseDups,
    fun rule member => ?_, fun known => ?_⟩
  · obtain ⟨named, isNamed, rfl⟩ := List.mem_map.1 (List.mem_eraseDups.1 member)
    refine written.all_namedRules (fun text inText => ?_) named isNamed
    rw [tokens] at inText
    exact isWord_spelling isDescription inText (noBlank text inText)
  · rcases isDescription.outcome_cases known with
      ⟨text, found, _⟩ | ⟨_, description, later, readAgain, grown, describes⟩
    · exact absurd (List.find?_some found)
        (Bool.eq_false_iff.1 (noBlank text (List.mem_of_find?_eq_some found)))
    · obtain ⟨start, all, spells, rules⟩ := describes written tokens
      refine ⟨description, later, readAgain, grown, start, ?_⟩
      rw [rules]
      exact NamedRule.means_eraseDups
        (List.forall₂_map_left_iff.2 (spells.imp fun _ _ isRule => isRule.means))

end Description

/-! ## Accepted rules -/

namespace Grammar

variable {names later known : SymbolTable}

/-- The reserved symbols are those with reserved names. -/
theorem isReserved_iff {symbol : Symbol} {name : String} (named : names.get? name = some symbol) :
    symbol.isReserved = true ↔ name ∈ Symbol.reservedNames := by
  have isName := SymbolTable.get?_eq_some_iff.1 named
  rw [Symbol.isReserved, decide_eq_true_iff]
  constructor
  · intro below
    have same := getElem?_of_isPrefix names.reserved (List.getElem?_eq_getElem below)
    rw [← Option.some.inj (same.symm.trans isName)]
    exact List.getElem_mem below
  · intro member
    obtain ⟨id, below, isReserved⟩ := List.mem_iff_getElem.1 member
    have same : names.name? ⟨id⟩ = some name :=
      getElem?_of_isPrefix names.reserved (List.getElem?_eq_some_iff.2 ⟨below, isReserved⟩)
    rw [SymbolTable.eq_of_name? isName same]
    exact below

theorem isReserved_eq_false_iff {symbol : Symbol} {name : String}
    (named : names.get? name = some symbol) :
    symbol.isReserved = false ↔ name ∉ Symbol.reservedNames := by
  rw [← isReserved_iff named, Bool.not_eq_true]

theorem all_free_iff {named : NamedRule} {rule : Rule} (means : named.Means names rule) :
    named.All (· ∉ Symbol.reservedNames) ↔ rule.IsFree := by
  constructor
  · rintro ⟨lhs, rhs⟩
    refine ⟨(isReserved_eq_false_iff means.lhs).2 lhs, fun symbol member => ?_⟩
    obtain ⟨name, inNames, isSymbol⟩ := exists_mem_of_forall₂ means.rhs.flip member
    exact (isReserved_eq_false_iff isSymbol).2 (rhs name inNames)
  · rintro ⟨lhs, rhs⟩
    refine ⟨(isReserved_eq_false_iff means.lhs).1 lhs, fun name inNames => ?_⟩
    obtain ⟨symbol, member, isSymbol⟩ := exists_mem_of_forall₂ means.rhs inNames
    exact (isReserved_eq_false_iff isSymbol).1 (rhs symbol member)

theorem reservedUse?_eq_none {rules : List Rule}
    (free : ∀ rule ∈ rules, rule.IsFree) : reservedUse? names rules = none := by
  induction rules with
  | nil => rfl
  | cons first rest ih =>
      obtain ⟨⟨lhs, rhs⟩, others⟩ := List.forall_mem_cons.1 free
      have clean : first.rhs.find? Symbol.isReserved = none :=
        List.find?_eq_none.2 fun symbol member => Bool.eq_false_iff.1 (rhs symbol member)
      rw [reservedUse?, lhs, clean]
      exact ih others

/-- Rules without reserved symbols are accepted when one of them defines the start symbol. -/
theorem exists_ofRules (names : SymbolTable) {first : Rule} {rest : List Rule}
    {start : Option Symbol} (free : ∀ rule ∈ first :: rest, rule.IsFree)
    (defined : ∃ rule ∈ first :: rest, rule.lhs = start.getD first.lhs) :
    ∃ g, ofRules (first :: rest) start names = .ok g := by
  obtain ⟨rule, member, isStart⟩ := defined
  have some : (first :: rest).any (·.lhs == start.getD first.lhs) = true :=
    List.any_eq_true.2 ⟨rule, member, beq_iff_eq.2 isStart⟩
  simp only [ofRules, reservedUse?_eq_none free, some, if_true]
  exact ⟨_, rfl⟩

theorem startSymbol_eq {first : Rule} {rest : List Rule} {start : Option Symbol} {g : Grammar}
    (accepted : ofRules (first :: rest) start names = .ok g) :
    g.startSymbol = start.getD first.lhs := by
  simp only [ofRules] at accepted
  split at accepted
  · cases accepted
  · split at accepted
    · cases accepted
      rfl
    · cases accepted

/-- When rules are accepted. -/
theorem exists_ofRules_iff {first : Rule} {rest : List Rule} {start : Option Symbol} :
    (∃ g, ofRules (first :: rest) start names = .ok g) ↔
      (∀ rule ∈ first :: rest, rule.IsFree) ∧
        ∃ rule ∈ first :: rest, rule.lhs = start.getD first.lhs := by
  constructor
  · rintro ⟨g, accepted⟩
    have formed := wellFormed_of_ofRules accepted
    rw [← startSymbol_eq accepted, ← userRules_of_ofRules accepted]
    exact ⟨fun rule member =>
      ⟨formed.lhs_not_reserved rule member, formed.rhs_not_reserved rule member⟩,
      formed.start_defined⟩
  · exact fun ⟨free, defined⟩ => exists_ofRules names free defined

/-- The start symbol is named, if there is one. -/
def Starts (names : SymbolTable) : Option String → Option Symbol → Prop :=
  Option.Rel fun name symbol => names.get? name = some symbol

theorem get?_startName {firstNamed : NamedRule} {first : Rule}
    (isFirst : firstNamed.Means names first) {startName : Option String} {start : Option Symbol}
    (starts : Starts names startName start) :
    names.get? (startName.getD firstNamed.lhs) = some (start.getD first.lhs) := by
  cases starts with
  | none => exact isFirst.lhs
  | some isStart => exact isStart

theorem name_eq_of_get? {name other : String} {symbol : Symbol}
    (named : names.get? name = some symbol) (named' : names.get? other = some symbol) :
    name = other :=
  Option.some.inj ((SymbolTable.get?_eq_some_iff.1 named).symm.trans
    (SymbolTable.get?_eq_some_iff.1 named'))

/-- Rules that are accepted once are accepted whatever symbols their names have. -/
theorem exists_named_of_ofRules {named : List NamedRule} {rules : List Rule}
    (means : List.Forall₂ (NamedRule.Means names) named rules) {startName : Option String}
    {start : Option Symbol} (starts : Starts names startName start) {g : Grammar}
    (accepted : ofRules rules start names = .ok g) :
    ∃ whole : NamedGrammar, whole.rules = named ∧ ∀ known again start',
      List.Forall₂ (NamedRule.Means known) named again → Starts known startName start' →
        ∃ g', ofRules again start' known = .ok g' ∧ whole.Means known g' := by
  cases means with
  | nil => cases accepted
  | @cons firstNamed first restNamed rest isFirst areRest =>
      have means := List.Forall₂.cons isFirst areRest
      have formed := wellFormed_of_ofRules accepted
      have isRules := userRules_of_ofRules accepted
      have free : ∀ named ∈ firstNamed :: restNamed, named.All (· ∉ Symbol.reservedNames) := by
        intro named member
        obtain ⟨rule, inRules, isRule⟩ := exists_mem_of_forall₂ means member
        rw [← isRules] at inRules
        exact (all_free_iff isRule).2
          ⟨formed.lhs_not_reserved rule inRules, formed.rhs_not_reserved rule inRules⟩
      obtain ⟨rule, inRules, definesStart⟩ := formed.start_defined
      rw [isRules] at inRules
      obtain ⟨defining, isNamed, isRule⟩ := exists_mem_of_forall₂ means.flip inRules
      have isStart := get?_startName isFirst starts
      rw [← startSymbol_eq accepted, ← definesStart] at isStart
      have sameName := name_eq_of_get? isRule.lhs isStart
      refine ⟨⟨startName.getD firstNamed.lhs, firstNamed :: restNamed⟩, rfl,
        fun known again start' again_means starts' => ?_⟩
      cases again_means with
      | @cons _ first' _ rest' isFirst' areRest' =>
          have means' := List.Forall₂.cons isFirst' areRest'
          have isStart' := get?_startName isFirst' starts'
          obtain ⟨rule', inRules', isRule'⟩ := exists_mem_of_forall₂ means' isNamed
          have defined : rule'.lhs = start'.getD first'.lhs :=
            Option.some.inj (isRule'.lhs.symm.trans (sameName ▸ isStart'))
          have free' : ∀ rule ∈ first' :: rest', rule.IsFree := by
            intro other member
            obtain ⟨named, isNamed, isOther⟩ := exists_mem_of_forall₂ means'.flip member
            exact (all_free_iff isOther).1 (free named isNamed)
          obtain ⟨g', accepted'⟩ := exists_ofRules known free' ⟨rule', inRules', defined⟩
          refine ⟨g', accepted', ?_, ?_⟩
          · rw [startSymbol_eq accepted']
            exact isStart'
          · rw [userRules_of_ofRules accepted']
            exact means'

/-! ## Sources -/

theorem outcome_fromRules (rules : List Rule) (start : Option Symbol) (names : SymbolTable) :
    (fromRules rules start).outcome names =
      ((ofRules rules start names).mapError SourceError.grammar, names) := by
  unfold fromRules
  rw [Naming.outcome_get_bind]
  cases ofRules rules start names <;> rfl

theorem outcome_fromRules_eq_ok {rules : List Rule} {start : Option Symbol} {g : Grammar} :
    (fromRules rules start).outcome names = (.ok g, later) ↔
      ofRules rules start names = .ok g ∧ later = names := by
  rw [outcome_fromRules]
  cases ofRules rules start names <;> simp [Except.mapError, eq_comm]

/-- A text that is read once is read from every table, and what it says by names is the same. -/
theorem exists_named_of_read {format : GrammarFormat} {source : String} {g : Grammar}
    (read : (Grammar.read format source).outcome names = (.ok g, later)) :
    ∃ named : NamedGrammar, (∀ rule ∈ named.rules, rule.All NameIsWord) ∧
      ∀ known, Naming.Makes known (Grammar.read format source) fun later g =>
        g.WellFormed ∧ named.Means later g := by
  cases format with
  | simple =>
      obtain ⟨rules, middle, readRules, accept⟩ := Naming.outcome_bind_eq_ok.1 read
      obtain ⟨accepted, _⟩ := outcome_fromRules_eq_ok.1 accept
      have readRules := Naming.outcome_mapError_eq_ok.1 readRules
      obtain ⟨listed, areWords, makes⟩ := GrammarFile.exists_named_of_readLines readRules
      obtain ⟨_, _, readAgain, _, means⟩ := makes names
      cases readRules.symm.trans readAgain
      obtain ⟨named, isListed, acceptsAll⟩ :=
        exists_named_of_ofRules means (.none : Starts middle none none) accepted
      refine ⟨named, isListed ▸ areWords, fun known => ?_⟩
      refine (makes known).mapError.bind fun again later _ means' => ?_
      obtain ⟨g', accepted', isNamed⟩ := acceptsAll later again none means' .none
      exact ⟨g', later, outcome_fromRules_eq_ok.2 ⟨accepted', rfl⟩, .refl later,
        wellFormed_of_ofRules accepted', isNamed⟩
  | description =>
      obtain ⟨description, middle, readRules, accept⟩ := Naming.outcome_bind_eq_ok.1 read
      obtain ⟨accepted, _⟩ := outcome_fromRules_eq_ok.1 accept
      have readRules := Naming.outcome_mapError_eq_ok.1 readRules
      obtain ⟨startName, listed, areWords, makes⟩ := Description.exists_named_of_parse readRules
      obtain ⟨_, _, readAgain, _, isStart, means⟩ := makes names
      cases readRules.symm.trans readAgain
      obtain ⟨named, isListed, acceptsAll⟩ :=
        exists_named_of_ofRules means
          (.some isStart : Starts middle (some startName) (some description.start)) accepted
      refine ⟨named, isListed ▸ areWords, fun known => ?_⟩
      refine (makes known).mapError.bind fun again later _ holds => ?_
      obtain ⟨g', accepted', isNamed⟩ :=
        acceptsAll later again.rules (some again.start) holds.2 (.some holds.1)
      exact ⟨g', later, outcome_fromRules_eq_ok.2 ⟨accepted', rfl⟩, .refl later,
        wellFormed_of_ofRules accepted', isNamed⟩

end Grammar

namespace Table

variable {names later : SymbolTable} {g : Grammar} {limit : Option Nat}

/-- The reader that makes the table of a grammar. -/
def makeTable (g : Grammar) (limit : Option Nat) (symbols : SymbolTable) :
    Naming SourceError Table :=
  match ofGrammar g symbols limit with
  | .ok table => pure table
  | .error error => throw (.build error)

theorem outcome_makeTable_eq_ok {table : Table} {symbols : SymbolTable} :
    (makeTable g limit symbols).outcome names = (.ok table, later) ↔
      ofGrammar g symbols limit = .ok table ∧ later = names := by
  unfold makeTable
  cases ofGrammar g symbols limit with
  | ok made =>
      dsimp only
      rw [Naming.outcome_pure, Prod.mk.injEq, Except.ok.injEq, Except.ok.injEq,
        eq_comm (a := names)]
  | error error => exact ⟨nofun, nofun⟩

/-- A table is built when a grammar is read and its automaton keeps the limit. -/
theorem outcome_build_eq_ok {format : GrammarFormat} {source : String} {table : Table} :
    (build format limit source).outcome names = (.ok table, later) ↔
      ∃ g, (Grammar.read format source).outcome names = (.ok g, later) ∧
        ofGrammar g later limit = .ok table := by
  have steps : build format limit source =
      Grammar.read format source >>= fun g => get >>= makeTable g limit := by
    unfold build makeTable
    refine congrArg _ (funext fun g => congrArg _ (funext fun symbols => ?_))
    cases ofGrammar g symbols limit <;> rfl
  rw [steps]
  constructor
  · intro built
    obtain ⟨g, middle, read, made⟩ := Naming.outcome_bind_eq_ok.1 built
    rw [Naming.outcome_get_bind] at made
    obtain ⟨made, rfl⟩ := outcome_makeTable_eq_ok.1 made
    exact ⟨g, read, made⟩
  · rintro ⟨g, read, made⟩
    refine Naming.outcome_bind_eq_ok.2 ⟨g, later, read, ?_⟩
    rw [Naming.outcome_get_bind]
    exact outcome_makeTable_eq_ok.2 ⟨made, rfl⟩

end Table

end ParserGenerator
