import ParserGenerator.Proofs.Lexer.Scan

/-!
# The token that closes the input

A parse ends at the first token with the symbol of the end of the input. The tokens of a text end
with such a token, but the symbol has a name, and nothing keeps a rule of a lexer from being given
that name: then the rule makes tokens with the symbol as well. So a lexer closes all of its inputs
once exactly if no word is made into a token by a rule with that name.

Results: `Lexer.closesOnce_iff`, and `Lexer.closesOnce_of_names` for rules without the name.
-/

namespace ParserGenerator

/-! ## Definitions -/

/-- The pattern of the rule is well-formed and matches the word. -/
def LexerRule.Matches (rule : LexerRule) (word : List Char) : Prop :=
  ∃ regex, Regex.parse rule.pattern = .ok regex ∧ regex.Matches word

/-- The rules make a token with the symbol of the end of the input of a word: the first rule that
matches the word has the name of that symbol, and no rule with the name is ignored. -/
structure TakenForEnd (rules : List LexerRule) (word : List Char) : Prop where
  nonempty : word ≠ []
  first : ∃ earlier rule later, rules = earlier ++ rule :: later ∧ rule.name = "__EOF__" ∧
    rule.Matches word ∧ ∀ other ∈ earlier, ¬ other.Matches word
  shown : ∀ rule ∈ rules, rule.name = "__EOF__" → rule.ignored = false

/-- The last token closes the text, and no other one has its symbol. -/
def ClosesOnce (text : String) (tokens : List Token) : Prop :=
  ∃ front, tokens = front ++ [Token.endOfInput (Lexer.byteLength text.toList)] ∧
    ∀ token ∈ front, token.symbol ≠ Symbol.endOfInput

/-! ## Rules and what they declare -/

variable {names : SymbolTable} {rules : List LexerRule} {declared : List DeclaredRule}
  {word : List Char}

namespace Declares

variable {rule : LexerRule} {made : DeclaredRule} (declares : Declares names rule made)
include declares

theorem matches_iff : rule.Matches word ↔ made.regex.Matches word := by
  constructor
  · rintro ⟨regex, parsed, matched⟩
    cases declares.parsed.symm.trans parsed
    exact matched
  · exact fun matched => ⟨made.regex, declares.parsed, matched⟩

theorem symbol_eq_endOfInput_iff : made.symbol = Symbol.endOfInput ↔ rule.name = "__EOF__" := by
  obtain ⟨name, isName, isReserved⟩ :=
    SymbolTable.sameName_of_isReserved names .initial (rfl : Symbol.endOfInput.isReserved = true)
  obtain rfl : "__EOF__" = name := Option.some.inj isReserved
  have named := SymbolTable.get?_eq_some_iff.1 declares.named
  constructor
  · intro same
    rw [same] at named
    exact Option.some.inj (named.symm.trans isName)
  · intro same
    rw [same] at named
    exact SymbolTable.eq_of_name? named isName

end Declares

theorem isIgnored_endOfInput_iff (isDeclared : List.Forall₂ (Declares names) rules declared) :
    IsIgnored declared Symbol.endOfInput ↔
      ∃ rule ∈ rules, rule.name = "__EOF__" ∧ rule.ignored = true := by
  constructor
  · rintro ⟨made, member, isEnd, ignored⟩
    obtain ⟨rule, inRules, declares⟩ :=
      exists_mem_of_forall₂ (List.Forall₂.flip isDeclared) member
    exact ⟨rule, inRules, declares.symbol_eq_endOfInput_iff.1 isEnd,
      declares.ignored_eq.symm.trans ignored⟩
  · rintro ⟨rule, member, isEnd, ignored⟩
    obtain ⟨made, inDeclared, declares⟩ := exists_mem_of_forall₂ isDeclared member
    exact ⟨made, inDeclared, declares.symbol_eq_endOfInput_iff.2 isEnd,
      declares.ignored_eq.trans ignored⟩

/-- The first rule that matches a word declares the first declared rule that does. -/
theorem takenForEnd_iff (isDeclared : List.Forall₂ (Declares names) rules declared) :
    TakenForEnd rules word ↔ word ≠ [] ∧
      (∃ made, FirstMatches declared word made ∧ made.symbol = Symbol.endOfInput) ∧
      ¬ IsIgnored declared Symbol.endOfInput := by
  constructor
  · rintro ⟨nonempty, ⟨earlier, rule, later, rfl, isEnd, matched, unmatched⟩, shown⟩
    obtain ⟨before, made, behind, rfl, declares, first⟩ := exists_first_of_forall₂
      (fun _ _ other => other.matches_iff.symm) (List.Forall₂.flip isDeclared) unmatched
    refine ⟨nonempty, ⟨made, ⟨declares.matches_iff.1 matched, before, behind, rfl, first⟩,
      declares.symbol_eq_endOfInput_iff.2 isEnd⟩, fun hidden => ?_⟩
    obtain ⟨other, member, isName, ignored⟩ := (isIgnored_endOfInput_iff isDeclared).1 hidden
    exact Bool.false_ne_true ((shown other member isName).symm.trans ignored)
  · rintro ⟨nonempty, ⟨made, ⟨matched, earlier, later, rfl, unmatched⟩, isEnd⟩, shown⟩
    obtain ⟨before, rule, behind, rfl, declares, first⟩ := exists_first_of_forall₂
      (fun _ _ other => other.matches_iff) isDeclared unmatched
    refine ⟨nonempty, ⟨before, rule, behind, rfl, declares.symbol_eq_endOfInput_iff.1 isEnd,
      declares.matches_iff.2 matched, first⟩, fun other member isName => ?_⟩
    refine Bool.eq_false_iff.2 fun ignored => shown ?_
    exact (isIgnored_endOfInput_iff isDeclared).2 ⟨other, member, isName, ignored⟩

/-! ## The tokens of a text -/

namespace Lexer

variable {lexer : Lexer} {text : String} {tokens : List Token}

/-- The tokens in front of the last one are made by rules. -/
theorem Accords.exists_front_of_lex (accords : lexer.Accords declared)
    (lexed : lexer.lex text = .ok tokens) :
    ∃ front, tokens = front ++ [Token.endOfInput (byteLength text.toList)] ∧
      ∀ token ∈ front, MadeBy declared token := by
  have scans := (accords.scans_iff text).2 rfl
  obtain ⟨front, last, isScan, made, isLast⟩ := exists_front_of_scans scans
  rw [tokens_of_lex lexed] at isScan
  rw [List.nil_append] at isLast
  rcases isLast with rfl | ⟨error, rfl⟩
  · have injective : Function.Injective (List.map (Except.ok : Token → Except LexError Token)) :=
      List.map_injective_iff.2 fun _ _ => Except.ok.inj
    refine ⟨front, injective ?_, made⟩
    rw [isScan, List.map_append]
    rfl
  · have member : Except.error error ∈ List.map Except.ok tokens :=
      isScan ▸ List.mem_append_right _ List.mem_cons_self
    obtain ⟨token, _, impossible⟩ := List.mem_map.1 member
    cases impossible

theorem lex_of_takenForEnd (isDeclared : List.Forall₂ (Declares names) rules declared)
    (accords : lexer.Accords declared) (taken : TakenForEnd rules text.toList) :
    lexer.lex text = .ok [⟨Symbol.endOfInput, text, 0, byteLength text.toList⟩,
      Token.endOfInput (byteLength text.toList)] := by
  obtain ⟨nonempty, ⟨made, first, isEnd⟩, shown⟩ := (takenForEnd_iff isDeclared).1 taken
  rw [← isEnd] at shown
  rw [lex, accords.tokens_of_firstMatches nonempty first shown, isEnd]
  rfl

theorem closesOnce_of_lex (isDeclared : List.Forall₂ (Declares names) rules declared)
    (accords : lexer.Accords declared) (never : ∀ word, ¬ TakenForEnd rules word)
    (lexed : lexer.lex text = .ok tokens) : ClosesOnce text tokens := by
  obtain ⟨front, isTokens, made⟩ := accords.exists_front_of_lex lexed
  refine ⟨front, isTokens, fun token member isEnd => ?_⟩
  obtain ⟨nonempty, ⟨rule, first, sameSymbol⟩, shown⟩ := made token member
  refine never token.text.toList ((takenForEnd_iff isDeclared).2 ⟨nonempty, ?_, isEnd ▸ shown⟩)
  exact ⟨rule, first, sameSymbol.trans isEnd⟩

/-- A token with the symbol of the end of the input stands in front of the last token. -/
theorem not_closesOnce {token last : Token} (isEnd : token.symbol = Symbol.endOfInput) :
    ¬ ClosesOnce text [token, last] := by
  rintro ⟨front, isTokens, others⟩
  have isFront : [token] = front := (congrArg List.dropLast isTokens).trans List.dropLast_concat
  exact others token (isFront ▸ List.mem_cons_self) isEnd

/-- The tokens of a text always end with the token that closes it. No other token has its symbol,
whatever the text is and whatever is done with what no rule matches, exactly if the rules make no
token with that symbol of a word. -/
theorem closesOnce_iff {later : SymbolTable}
    (defined : (define rules).outcome names = (.ok lexer, later)) :
    (∀ policy text tokens, (lexer.withPolicy policy).lex text = .ok tokens →
      tokens.getLast? = some (Token.endOfInput (byteLength text.toList))) ∧
    ((∀ policy text tokens, (lexer.withPolicy policy).lex text = .ok tokens →
        ClosesOnce text tokens) ↔
      ∀ word, ¬ TakenForEnd rules word) := by
  obtain ⟨declared, isDeclared, accords⟩ := exists_accords_of_define defined
  refine ⟨fun policy text tokens lexed => ?_, fun once word taken => ?_,
    fun never policy text tokens lexed =>
      closesOnce_of_lex isDeclared (accords.withPolicy policy) never lexed⟩
  · obtain ⟨front, rfl, _⟩ := (accords.withPolicy policy).exists_front_of_lex lexed
    exact List.getLast?_concat
  · have taken : TakenForEnd rules (String.ofList word).toList := by rwa [String.toList_ofList]
    have lexed := lex_of_takenForEnd isDeclared (accords.withPolicy .strict) taken
    exact not_closesOnce rfl (once .strict _ _ lexed)

/-- Blanks, under the name of the end of the input, which make no tokens, and a letter. -/
def hiddenEnd : List LexerRule := [⟨"__EOF__", " +", true⟩, ⟨"letter", "a", false⟩]

theorem closesOnce_hiddenEnd : ∃ lexer later,
    (define hiddenEnd).outcome .initial = (.ok lexer, later) ∧
      ∀ policy text tokens, (lexer.withPolicy policy).lex text = .ok tokens →
        ClosesOnce text tokens := by
  have never (word : List Char) : ¬ TakenForEnd hiddenEnd word := fun taken =>
    Bool.false_ne_true (taken.shown _ List.mem_cons_self rfl).symm
  have parses : ∀ rule ∈ hiddenEnd, rule.Parses := by decide +kernel
  obtain ⟨lexer, later, _, defined, _⟩ := define_of_parsed parses .initial
  exact ⟨lexer, later, defined, (closesOnce_iff defined).2.2 never⟩

/-- A letter under the name of the end of the input. -/
def shownEnd : List LexerRule := [⟨"__EOF__", "a", false⟩]

theorem not_closesOnce_shownEnd : ∃ lexer later tokens,
    (define shownEnd).outcome .initial = (.ok lexer, later) ∧
      (lexer.withPolicy .strict).lex "a" = .ok tokens ∧ ¬ ClosesOnce "a" tokens := by
  have twice : ∃ lexer, ((define shownEnd).outcome .initial).1 = .ok lexer ∧
      (lexer.withPolicy .strict).lex "a" =
        .ok [⟨Symbol.endOfInput, "a", 0, 1⟩, Token.endOfInput 1] := by
    decide +kernel
  obtain ⟨lexer, isLexer, lexed⟩ := twice
  exact ⟨lexer, _, _, Naming.outcome_eq_of_fst isLexer, lexed, not_closesOnce rfl⟩

/-- A lexer whose rules leave the name of the end of the input alone closes its inputs once. -/
theorem closesOnce_of_names {later : SymbolTable}
    (defined : (define rules).outcome names = (.ok lexer, later))
    (free : ∀ rule ∈ rules, rule.name ≠ "__EOF__") {policy : InvalidPolicy}
    (lexed : (lexer.withPolicy policy).lex text = .ok tokens) : ClosesOnce text tokens := by
  obtain ⟨declared, isDeclared, accords⟩ := exists_accords_of_define defined
  refine closesOnce_of_lex isDeclared (accords.withPolicy policy) (fun word taken => ?_) lexed
  obtain ⟨earlier, rule, rest, split, isEnd, _⟩ := taken.first
  exact free rule (split ▸ List.mem_append_right _ List.mem_cons_self) isEnd

end Lexer

end ParserGenerator
