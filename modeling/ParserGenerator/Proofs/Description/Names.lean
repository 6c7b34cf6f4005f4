import ParserGenerator.Proofs.Description.Semantics
import ParserGenerator.Proofs.Text.Words

/-!
# The names of descriptions

A name of a description that is read is a word: it is not empty and has no blanks. For a row of
letters and hyphens this is a matter of the lexer; a quoted name has something between its quotes,
and a blank there is refused by the reader.

Results: `Description.pattern_of_mem` and `Description.isWord_spelling`.
-/

namespace ParserGenerator.Description

/-! ## The pattern of names -/

/-- A pattern for names: rows of characters that are neither blanks nor quotes, or a text behind a
quote that is not empty and in which a backslash has a character behind it. -/
def isWordPattern : Regex → Bool
  | .alt [.concat [.plus (.leaf first), .star (.concat [.leaf sign, .plus (.leaf later)])],
      .concat [.leaf quote, .plus (.alt [.concat [.leaf plain], .concat [.leaf _, .leaf _]]),
        .leaf _]] =>
      ([first, sign, later].all fun set => set.toList.all fun c => !Text.isBlank c && c != '"') &&
        !plain.contains '\\' && quote == OrderedSet.singleton '"'
  | _ => false

/-- A pattern for names that lets through, between quotes, all characters of the alphabet, the
quote and the backslash behind a backslash. -/
def takesQuoted : Regex → Bool
  | .alt [_, .concat [.leaf first,
      .plus (.alt [.concat [.leaf plain], .concat [.leaf sign, .leaf any]]), .leaf last]] =>
      first.contains '"' && last.contains '"' && sign.contains '\\' &&
        CharSet.all.toList.all fun c =>
          any.contains c && (c == '"' || c == '\\' || plain.contains c)
  | _ => false

/-- A pattern for texts that begin with other characters. -/
def avoids (c : Char) : Regex → Bool
  | .concat (.leaf first :: _) => !first.contains c
  | _ => false

/-- The names that a pattern for names lets through: a row without blanks and quotes, or a text between a
quote and another character that stands for something. -/
def IsName (text : List Char) : Prop :=
  (text ≠ [] ∧ ∀ c ∈ text, Text.isBlank c = false ∧ c ≠ '"') ∨
    ∃ inner last, text = '"' :: (inner ++ [last]) ∧ unescape inner ≠ []

theorem forall_of_star {inner : Regex} {holds : Char → Prop}
    (each : ∀ text, inner.Matches text → ∀ c ∈ text, holds c) {text : List Char}
    (matched : (Regex.star inner).Matches text) : ∀ c ∈ text, holds c := by
  generalize isStar : Regex.star inner = regex at matched
  induction matched with
  | starNil => exact fun c member => absurd member List.not_mem_nil
  | starCons once _ _ ih =>
      cases isStar
      intro c member
      rcases List.mem_append.1 member with inFirst | inRest
      · exact each _ once c inFirst
      · exact ih rfl c inRest
  | leaf | concatNil | concatCons | alt | optionalNone | optionalSome | plus => cases isStar

theorem forall_of_plus {inner : Regex} {holds : Char → Prop}
    (each : ∀ text, inner.Matches text → ∀ c ∈ text, holds c) {text : List Char}
    (matched : (Regex.plus inner).Matches text) : ∀ c ∈ text, holds c := by
  cases matched with
  | plus once again =>
      intro c member
      rcases List.mem_append.1 member with inFirst | inRest
      · exact each _ once c inFirst
      · exact forall_of_star each again c inRest

theorem forall_of_leaf {set : CharSet} {holds : Char → Prop} (each : ∀ c ∈ set, holds c)
    (text : List Char) (matched : (Regex.leaf set).Matches text) : ∀ c ∈ text, holds c := by
  cases matched with
  | leaf inSet =>
      intro c member
      rw [List.mem_singleton.1 member]
      exact each _ inSet

theorem forall_of_concat {items : List Regex} {holds : Char → Prop}
    (each : ∀ item ∈ items, ∀ text, item.Matches text → ∀ c ∈ text, holds c) (text : List Char)
    (matched : (Regex.concat items).Matches text) : ∀ c ∈ text, holds c := by
  induction items generalizing text with
  | nil =>
      cases matched
      exact fun c member => absurd member List.not_mem_nil
  | cons item items ih =>
      cases matched with
      | concatCons head tail =>
          intro c member
          rcases List.mem_append.1 member with inFirst | inRest
          · exact each item List.mem_cons_self _ head c inFirst
          · exact ih (fun other inItems => each other (List.mem_cons_of_mem _ inItems)) _ tail c
              inRest

theorem ne_nil_of_plus_leaf {set : CharSet} {text : List Char}
    (matched : (Regex.plus (.leaf set)).Matches text) : text ≠ [] := by
  cases matched with
  | plus once =>
      cases once
      exact List.cons_ne_nil _ _

/-- What matches characters with escapes in between stands for something. -/
theorem unescape_ne_nil {plain escape any : CharSet} (noEscape : plain.contains '\\' = false)
    {text : List Char} (matched : (Regex.plus
      (.alt [.concat [.leaf plain], .concat [.leaf escape, .leaf any]])).Matches text) :
    unescape text ≠ [] := by
  have begins : ∃ first rest more, text = first :: (rest ++ more) ∧ (first = '\\' → rest ≠ []) := by
    cases matched with
    | @plus _ _ more once =>
        cases once with
        | alt member chosen =>
            rcases List.mem_cons.1 member with rfl | member
            · cases chosen with
              | concatCons head tail =>
                  cases head with
                  | leaf inPlain =>
                      cases tail
                      refine ⟨_, [], more, rfl, fun isEscape => ?_⟩
                      rw [isEscape, ← OrderedSet.contains_iff, noEscape] at inPlain
                      cases inPlain
            · cases List.mem_singleton.1 member
              cases chosen with
              | concatCons head tail =>
                  cases head with
                  | leaf =>
                      cases tail with
                      | concatCons head tail =>
                          cases head with
                          | leaf =>
                              cases tail
                              exact ⟨_, [_], more, rfl, fun _ => List.cons_ne_nil _ _⟩
  obtain ⟨first, rest, more, rfl, escaped⟩ := begins
  unfold unescape
  split
  · rename_i isEscape
    obtain ⟨second, others, rfl⟩ := List.exists_cons_of_ne_nil (escaped isEscape)
    exact List.cons_ne_nil _ _
  · exact List.cons_ne_nil _ _

theorem isName_of_isWordPattern {regex : Regex} (isPattern : isWordPattern regex = true)
    {text : List Char} (matched : regex.Matches text) : IsName text := by
  unfold isWordPattern at isPattern
  split at isPattern
  · rename_i first sign later quote plain _ _ _
    simp only [Bool.and_eq_true, Bool.not_eq_true', List.all_eq_true, bne_iff_ne, beq_iff_eq,
      List.forall_mem_cons, List.not_mem_nil, false_implies, implies_true, and_true] at isPattern
    obtain ⟨⟨⟨visibleFirst, visibleSign, visibleLater⟩, noEscape⟩, isQuote⟩ := isPattern
    cases matched with
    | alt member chosen =>
        rcases List.mem_cons.1 member with rfl | member
        · refine .inl ⟨?_, forall_of_concat ?_ text chosen⟩
          · cases chosen with
            | concatCons head tail =>
                exact fun none => ne_nil_of_plus_leaf head (List.append_eq_nil_iff.1 none).1
          · intro item inItems
            simp only [List.mem_cons, List.not_mem_nil, or_false] at inItems
            rcases inItems with rfl | rfl
            · exact fun _ => forall_of_plus (forall_of_leaf visibleFirst)
            · refine fun _ => forall_of_star (forall_of_concat ?_)
              intro item inItems
              simp only [List.mem_cons, List.not_mem_nil, or_false] at inItems
              rcases inItems with rfl | rfl
              · exact forall_of_leaf visibleSign
              · exact fun _ => forall_of_plus (forall_of_leaf visibleLater)
        · cases List.mem_singleton.1 member
          cases chosen with
          | concatCons head tail =>
              cases head with
              | leaf inQuote =>
                  rw [isQuote, OrderedSet.mem_singleton] at inQuote
                  subst inQuote
                  cases tail with
                  | @concatCons _ _ inner _ inside tail =>
                      cases tail with
                      | concatCons head tail =>
                          cases head with
                          | leaf =>
                              cases tail
                              exact .inr ⟨inner, _, rfl, unescape_ne_nil noEscape inside⟩
  · cases isPattern

/-- The rule for names has a pattern for names, and all other rules begin with other characters than
a quote. This is computed once here for all that is said about patterns. -/
theorem pattern_of_mem {rule : LexerRule} (member : rule ∈ Language.lexerRules) {regex : Regex}
    (parsed : Regex.parse rule.pattern = .ok regex) :
    (rule.name = Part.name.word ∧ rule.ignored = false ∧ isWordPattern regex = true ∧
      takesQuoted regex = true) ∨ rule.name ≠ Part.name.word ∧ avoids '"' regex = true := by
  have all : ∀ rule ∈ Language.lexerRules, (match Regex.parse rule.pattern with
      | .ok regex =>
          if rule.name == Part.name.word then
            !rule.ignored && (isWordPattern regex && takesQuoted regex)
          else avoids '"' regex
      | .error _ => false) = true := by
    decide +kernel
  have holds := all rule member
  rw [parsed] at holds
  by_cases isName : rule.name = Part.name.word
  · simp only [isName, beq_self_eq_true, if_true, Bool.and_eq_true, Bool.not_eq_true'] at holds
    exact .inl ⟨isName, holds⟩
  · simp only [beq_eq_false_iff_ne.2 isName, Bool.false_eq_true, if_false] at holds
    exact .inr ⟨isName, holds⟩

/-! ## Names that are read -/

theorem isName_of_mem_tokens {source : String} {token : Token}
    (member : .ok token ∈ Language.lexer.tokens source)
    (isName : token.symbol = Part.name.symbol) : IsName token.text.toList := by
  rcases Language.exists_rule_of_mem_tokens member with
    isEnd | ⟨rule, inRules, regex, known, parsed, matched⟩
  · rw [isName] at isEnd
    cases isEnd
  · rw [isName] at known
    have named := SymbolTable.get?_eq_some_iff.1 known
    rw [SymbolTable.get?_eq_some_iff.1 (Language.symbols_get? Part.name)] at named
    rcases pattern_of_mem inRules parsed with ⟨_, _, isPattern, _⟩ | ⟨differs, _⟩
    · exact isName_of_isWordPattern isPattern matched
    · exact absurd (Option.some.inj named).symm differs

/-- A name without blanks in it spells a word. -/
theorem IsName.isWord_spelling {text : String} (name : IsName text.toList)
    (noBlank : hasBlank text = false) : Text.IsWord (spelling text).toList := by
  by_cases quoted : ∃ rest, text.toList = '"' :: rest
  · obtain ⟨rest, quoted⟩ := quoted
    rw [spelling_of_quoted quoted, String.toList_ofList]
    rcases name with ⟨_, visible⟩ | ⟨inner, last, isText, nonempty⟩
    · exact absurd rfl (visible '"' (quoted ▸ List.mem_cons_self)).2
    · cases quoted.symm.trans isText
      rw [List.dropLast_concat]
      refine ⟨nonempty, fun c inside => ?_⟩
      have clean : (unescape inner).any Text.isBlank = false := by
        rw [hasBlank, quoted] at noBlank
        rw [any_unescape]
        simp only [List.head?_cons, beq_self_eq_true, Bool.true_and, List.any_cons,
          List.any_append, Bool.or_eq_false_iff] at noBlank
        exact noBlank.2.1
      exact Bool.eq_false_iff.2 (List.any_eq_false.1 clean c inside)
  · rw [spelling_of_bare quoted]
    rcases name with ⟨nonempty, visible⟩ | ⟨_, _, isText, _⟩
    · exact ⟨nonempty, fun c inside => (visible c inside).1⟩
    · exact absurd ⟨_, isText⟩ quoted

/-- The names that a description is read with are words. -/
theorem isWord_spelling {source : String} {word : List Token}
    (isDescription : IsDescription source word) {text : String} (member : text ∈ namesOf word)
    (noBlank : hasBlank text = false) : Text.IsWord (spelling text).toList := by
  obtain ⟨⟨closing, _, lexed⟩, _⟩ := isDescription
  obtain ⟨token, isName, rfl⟩ := List.mem_map.1 member
  obtain ⟨inWord, isName⟩ := List.mem_filter.1 isName
  have inTokens := Lexer.mem_tokens_of_lex lexed (List.mem_append_left _ inWord)
  exact (isName_of_mem_tokens inTokens (of_decide_eq_true isName)).isWord_spelling noBlank

end ParserGenerator.Description
