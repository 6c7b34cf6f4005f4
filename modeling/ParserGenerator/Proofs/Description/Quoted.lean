import ParserGenerator.Proofs.Description.Names

/-!
# Quoted names

A name is quoted by putting a backslash in front of each quote and each backslash and a quote
around it. The pattern of the lexer and the reader of names agree on this: the quoted text is one
token, since no other rule of the lexer begins with a quote, and what is read of it is the name,
unless the name has a blank. Whatever else the pattern lets through is read as a word, or refused
for a blank.

Results: `Description.unquote_quote`, `Description.tokens_quote` and `Description.quoted_exact`.
-/

namespace ParserGenerator.Description

/-! ## Definitions -/

/-- Puts a backslash in front of each quote and each backslash. -/
def escape : List Char → List Char
  | [] => []
  | c :: rest => if c = '"' ∨ c = '\\' then '\\' :: c :: escape rest else c :: escape rest

/-- A name between quotes. -/
def quote (name : String) : String := String.ofList ('"' :: (escape name.toList ++ ['"']))

/-! ## Reading -/

theorem unescape_cons {c : Char} (noEscape : c ≠ '\\') (rest : List Char) :
    unescape (c :: rest) = c :: unescape rest := by
  rw [unescape.eq_def]
  exact if_neg noEscape

theorem unescape_escape (text : List Char) : unescape (escape text) = text := by
  induction text with
  | nil => rfl
  | cons c rest ih =>
      by_cases special : c = '"' ∨ c = '\\'
      · simp only [escape, if_pos special, unescape, reduceIte, ih]
      · have noEscape : c ≠ '\\' := fun isEscape => special (.inr isEscape)
        rw [escape, if_neg special, unescape_cons noEscape, ih]

theorem toList_quote (name : String) :
    (quote name).toList = '"' :: (escape name.toList ++ ['"']) := String.toList_ofList

/-- A quoted name is read as the name, unless it has a blank. -/
theorem unquote_quote (name : String) : unquote (quote name) =
    if name.toList.any Text.isBlank then .error (.blankInName (quote name)) else .ok name := by
  have sameBlanks : (escape name.toList).any Text.isBlank = name.toList.any Text.isBlank := by
    rw [← any_unescape, unescape_escape]
  have isName : spelling (quote name) = name := by
    rw [spelling_of_quoted (toList_quote name), List.dropLast_concat, unescape_escape,
      String.ofList_toList]
  rw [unquote_of_closed (toList_quote name) (withoutLastQuote?_eq_some_iff.2 rfl), sameBlanks,
    isName]

/-! ## Lexing -/

theorem escape_cons (c : Char) (rest : List Char) :
    escape (c :: rest) = escape [c] ++ escape rest := by
  by_cases special : c = '"' ∨ c = '\\'
  · simp only [escape, if_pos special, List.cons_append, List.nil_append]
  · simp only [escape, if_neg special, List.cons_append, List.nil_append]

theorem not_matches_of_avoids {c : Char} {regex : Regex} (avoided : avoids c regex = true)
    (rest : List Char) : ¬ regex.Matches (c :: rest) := by
  unfold avoids at avoided
  split at avoided
  · intro matched
    generalize isText : c :: rest = text at matched
    cases matched with
    | concatCons head _ =>
        cases head with
        | leaf inFirst =>
            cases isText
            rw [OrderedSet.contains_iff.2 inFirst] at avoided
            cases avoided
  · cases avoided

section Plain

variable {plain sign any : CharSet} (isSign : '\\' ∈ sign)
  (inAny : ∀ c ∈ CharSet.all, c ∈ any)
  (inPlain : ∀ c ∈ CharSet.all, c = '"' ∨ c = '\\' ∨ c ∈ plain)
include isSign inAny inPlain

theorem matches_escape_single {c : Char} (inAlphabet : c ∈ CharSet.all) :
    (Regex.alt [.concat [.leaf plain], .concat [.leaf sign, .leaf any]]).Matches (escape [c]) := by
  by_cases special : c = '"' ∨ c = '\\'
  · have isEscaped : escape [c] = ['\\'] ++ ([c] ++ []) := if_pos special
    rw [isEscaped]
    exact .alt (List.mem_cons_of_mem _ List.mem_cons_self)
      (.concatCons (.leaf isSign) (.concatCons (.leaf (inAny c inAlphabet)) .concatNil))
  · have isPlain : escape [c] = [c] ++ [] := if_neg special
    have member : c ∈ plain := by
      rcases inPlain c inAlphabet with isQuote | isEscape | member
      · exact absurd (.inl isQuote) special
      · exact absurd (.inr isEscape) special
      · exact member
    rw [isPlain]
    exact .alt List.mem_cons_self (.concatCons (.leaf member) .concatNil)

theorem matches_escape_star {text : List Char} (inAlphabet : ∀ c ∈ text, c ∈ CharSet.all) :
    (Regex.star (.alt [.concat [.leaf plain], .concat [.leaf sign, .leaf any]])).Matches
      (escape text) := by
  induction text with
  | nil => exact .starNil
  | cons c rest ih =>
      rw [escape_cons]
      exact .starCons (matches_escape_single isSign inAny inPlain (inAlphabet c List.mem_cons_self))
        (ih fun d member => inAlphabet d (List.mem_cons_of_mem _ member))

end Plain

theorem matches_quote {regex : Regex} (takes : takesQuoted regex = true) {name : String}
    (nonempty : name ≠ "") (inAlphabet : ∀ c ∈ name.toList, c ∈ CharSet.all) :
    regex.Matches (quote name).toList := by
  unfold takesQuoted at takes
  split at takes
  · rename_i first plain sign any last
    simp only [Bool.and_eq_true, Bool.or_eq_true, List.all_eq_true, beq_iff_eq,
      OrderedSet.contains_iff] at takes
    obtain ⟨⟨⟨isFirst, isLast⟩, isSign⟩, each⟩ := takes
    have inAny : ∀ c ∈ CharSet.all, c ∈ any := fun c member => (each c member).1
    have inPlain : ∀ c ∈ CharSet.all, c = '"' ∨ c = '\\' ∨ c ∈ plain :=
      fun c member => or_assoc.1 (each c member).2
    rw [toList_quote]
    cases isText : name.toList with
    | nil => exact absurd (String.toList_eq_nil_iff.1 isText) nonempty
    | cons c rest =>
        rw [isText] at inAlphabet
        obtain ⟨inHead, inRest⟩ := List.forall_mem_cons.1 inAlphabet
        have inside := Regex.Matches.plus (matches_escape_single isSign inAny inPlain inHead)
          (matches_escape_star isSign inAny inPlain inRest)
        rw [← escape_cons] at inside
        exact .alt (List.mem_cons_of_mem _ List.mem_cons_self)
          (.concatCons (.leaf isFirst) (.concatCons inside (.concatCons (.leaf isLast) .concatNil)))
  · cases takes

/-- A quoted name over the alphabet is one name token. -/
theorem tokens_quote {name : String} (nonempty : name ≠ "")
    (inAlphabet : ∀ c ∈ name.toList, c ∈ CharSet.all) :
    Language.lexer.tokens (quote name) =
      [.ok ⟨Part.name.symbol, quote name, 0, Lexer.byteLength (quote name).toList⟩,
        .ok (Token.endOfInput (Lexer.byteLength (quote name).toList))] := by
  obtain ⟨declared, declares, accords⟩ := Language.exists_declared
  have known := Language.symbols_get? Part.name
  have exists_written {rule : DeclaredRule} (member : rule ∈ declared) :
      ∃ written ∈ Language.lexerRules, Declares Language.symbols written rule :=
    exists_mem_of_forall₂ (List.Forall₂.flip declares) member
  refine accords.tokens_of_matches ?_ ?matched ?only ?shown
  · rw [toList_quote]
    exact List.cons_ne_nil _ _
  case matched =>
    obtain ⟨written, inRules, isName⟩ :
        ∃ rule ∈ Language.lexerRules, rule.name = Part.name.word := by decide
    obtain ⟨rule, isDeclared, declared⟩ := exists_mem_of_forall₂ declares inRules
    refine ⟨rule, isDeclared, ?_⟩
    rcases pattern_of_mem inRules declared.parsed with ⟨_, _, _, takes⟩ | ⟨differs, _⟩
    · exact matches_quote takes nonempty inAlphabet
    · exact absurd isName differs
  case only =>
    -- All other rules begin with other characters than the quote.
    intro rule isDeclared matched
    obtain ⟨written, inRules, declared⟩ := exists_written isDeclared
    rcases pattern_of_mem inRules declared.parsed with ⟨isName, _⟩ | ⟨_, avoided⟩
    · have named := declared.named
      rw [isName, known] at named
      exact (Option.some.inj named).symm
    · rw [toList_quote] at matched
      exact absurd matched (not_matches_of_avoids avoided _)
  case shown =>
    rintro ⟨rule, isDeclared, isName, isIgnored⟩
    obtain ⟨written, inRules, declared⟩ := exists_written isDeclared
    have named := SymbolTable.get?_eq_some_iff.1 declared.named
    rw [isName, SymbolTable.get?_eq_some_iff.1 known] at named
    rcases pattern_of_mem inRules declared.parsed with ⟨_, shown, _, _⟩ | ⟨differs, _⟩
    · rw [declared.ignored_eq, shown] at isIgnored
      cases isIgnored
    · exact differs (Option.some.inj named).symm

/-! ## Names that are read -/

/-- A name token with a blank in its quotes is refused for it, and any other one is read as a
word. -/
theorem unquote_of_mem_tokens {source : String} {token : Token}
    (member : .ok token ∈ Language.lexer.tokens source)
    (isName : token.symbol = Part.name.symbol) :
    (unquote token.text = .error (.blankInName token.text) ∧
      ∃ c ∈ token.text.toList, Text.isBlank c = true) ∨
    ∃ name, unquote token.text = .ok name ∧ Text.IsWord name.toList := by
  have isFault := fault?_eq fun _ => Language.closed_of_quoted member isName
  unfold fault? at isFault
  cases blank : hasBlank token.text with
  | true =>
      rw [blank, if_pos rfl] at isFault
      rw [hasBlank, Bool.and_eq_true, List.any_eq_true] at blank
      cases read : unquote token.text with
      | ok name =>
          rw [read] at isFault
          cases isFault
      | error error =>
          rw [read] at isFault
          cases isFault
          exact .inl ⟨rfl, blank.2⟩
  | false =>
      rw [blank, if_neg Bool.false_ne_true] at isFault
      cases read : unquote token.text with
      | ok name =>
          refine .inr ⟨name, rfl, ?_⟩
          rw [eq_spelling_of_unquote read]
          exact (isName_of_mem_tokens member isName).isWord_spelling blank
      | error error =>
          rw [read] at isFault
          cases isFault

/-- A name over the alphabet that is not empty is quoted to one name token, which is read as the
name, or refused if the name has a blank. A name token of any source is read as a word, or refused
for a blank. -/
theorem quoted_exact :
    (∀ name : String, name ≠ "" → (∀ c ∈ name.toList, c ∈ CharSet.all) →
      Language.lexer.lex (quote name) =
        .ok [⟨Part.name.symbol, quote name, 0, Lexer.byteLength (quote name).toList⟩,
          Token.endOfInput (Lexer.byteLength (quote name).toList)] ∧
      unquote (quote name) =
        if name.toList.any Text.isBlank then .error (.blankInName (quote name)) else .ok name) ∧
    ∀ (source : String) (token : Token), .ok token ∈ Language.lexer.tokens source →
      token.symbol = Part.name.symbol →
      (unquote token.text = .error (.blankInName token.text) ∧
        ∃ c ∈ token.text.toList, Text.isBlank c = true) ∨
      ∃ name, unquote token.text = .ok name ∧ Text.IsWord name.toList := by
  refine ⟨fun name nonempty inAlphabet => ⟨?_, unquote_quote name⟩,
    fun source token => unquote_of_mem_tokens⟩
  rw [Lexer.lex, tokens_quote nonempty inAlphabet]
  rfl

/-- A name of quotes and backslashes. -/
def quotedName : String := "\\a\"\\\\\""

theorem quoted_exact_backslashes :
    quotedName ≠ "" ∧ (∀ c ∈ quotedName.toList, c ∈ CharSet.all) ∧
    quote quotedName = "\"\\\\a\\\"\\\\\\\\\\\"\"" ∧
    Language.lexer.lex (quote quotedName) =
      .ok [⟨Part.name.symbol, quote quotedName, 0, 13⟩, Token.endOfInput 13] ∧
    unquote (quote quotedName) = .ok quotedName ∧
    (.ok ⟨Part.name.symbol, quote quotedName, 0, 13⟩ ∈
      Language.lexer.tokens (quote quotedName)) ∧
    ((unquote (quote quotedName) = .error (.blankInName (quote quotedName)) ∧
        ∃ c ∈ (quote quotedName).toList, Text.isBlank c = true) ∨
      ∃ name, unquote (quote quotedName) = .ok name ∧ Text.IsWord name.toList) := by
  have nonempty : quotedName ≠ "" := by decide
  have contained : quotedName.toList.all CharSet.all.contains = true := by decide
  have inAlphabet : ∀ c ∈ quotedName.toList, c ∈ CharSet.all := fun c inName =>
    OrderedSet.contains_iff.1 (List.all_eq_true.1 contained c inName)
  obtain ⟨lexed, read⟩ := quoted_exact.1 quotedName nonempty inAlphabet
  have size : Lexer.byteLength (quote quotedName).toList = 13 := by decide
  have visible : quotedName.toList.any Text.isBlank = false := by decide
  rw [size] at lexed
  rw [visible, if_neg Bool.false_ne_true] at read
  have member := Lexer.mem_tokens_of_lex lexed List.mem_cons_self
  have readAsWord := quoted_exact.2 _ _ member rfl
  exact ⟨nonempty, inAlphabet, by decide, lexed, read, member, readAsWord⟩

end ParserGenerator.Description
