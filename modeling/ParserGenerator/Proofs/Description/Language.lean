import ParserGenerator.Description.Language
import ParserGenerator.Proofs.Automaton.Collection
import ParserGenerator.Proofs.Lexer.Loaded
import ParserGenerator.Proofs.Session.Steps

/-!
# The lexer and the grammar of descriptions

The rules of the description language make a lexer and a grammar, and the table of the grammar has
no conflicts. This is computed once here. All that is said about lexers and tables in general then
holds of the lexer and the table that read descriptions.

Results: `Language.parse_lexerText`, the rules that the file of the lexer gives;
`Language.exists_exact`, that the table does what the grammar says; `Language.weighing`, that the
words of a description bound the steps of a parse; and `Language.closed_of_quoted`, that a name that
begins with a quote ends with another one.
-/

namespace ParserGenerator.Description.Language

/-! ## The lexer -/

/-- The rules of the lexer, in the order of the file. -/
def lexerRules : List LexerRule :=
  [⟨Part.comment.word, "//[^\\n]*", true⟩,
    ⟨Part.space.word, "\\s", true⟩,
    ⟨Part.wrap.word, "__WRAP__", false⟩,
    ⟨Part.unwrap.word, "__UNWRAP__", false⟩,
    ⟨Part.epsilon.word, "__EPSILON__", false⟩,
    ⟨Part.accepts.word, "__ACCEPTS__", false⟩,
    ⟨Part.discard.word, "__DISCARD__", false⟩,
    ⟨Part.name.word, "\\l+(-\\l+)*|\"([^\"\\\\]|\\\\.)+\"", false⟩,
    ⟨Part.sep.word, "\\:\\=", false⟩,
    .literal Part.question.word,
    ⟨Part.or.word, "\\|", false⟩,
    .literal Part.rparen.word,
    .literal Part.lparen.word,
    .literal Part.arrow.word]

theorem parse_lexerText :
    (LexerFile.parse lexerText).map (List.map LexerFile.Declaration.rule) = .ok lexerRules := by
  rw [LexerFile.parse, lexerText, String.toList_ofList]
  decide +kernel

theorem parses_lexerRules : ∀ rule ∈ lexerRules, rule.Parses := by decide +kernel

/-- The words of the lexer are the first ones of the language. -/
theorem names_lexerRules : ((Lexer.define lexerRules).outcome SymbolTable.initial).2.names <+:
    symbols.names := by
  decide +kernel

/-- The lexer of descriptions is the lexer of its rules, whose names have the symbols of the
language. -/
theorem exists_declared :
    ∃ declared, List.Forall₂ (Declares symbols) lexerRules declared ∧ lexer.Accords declared := by
  obtain ⟨made, later, declared, defined, _, declares, accords⟩ :=
    Lexer.define_of_parsed parses_lexerRules SymbolTable.initial
  have known : symbols.Extends later := by
    have first := names_lexerRules
    rw [defined] at first
    exact first
  refine ⟨declared, declares.imp fun _ _ once => once.mono known, ?_⟩
  have isLexer : lexer? = .ok made :=
    congrArg Prod.fst (LexerFile.load_of_define parse_lexerText defined)
  unfold lexer
  rw [isLexer]
  exact accords

/-- A pattern for names: a row that begins with other characters than a quote, or a text between
two characters the second of which is a quote. -/
def isNamePattern : Regex → Bool
  | .alt [.concat [.plus (.leaf first), _], .concat [.leaf _, _, .leaf last]] =>
      !first.contains '"' && last == OrderedSet.singleton '"'
  | _ => false

theorem closed_of_isNamePattern {regex : Regex} (isName : isNamePattern regex = true)
    {rest : List Char} (matched : regex.Matches ('"' :: rest)) :
    ∃ inner, rest = inner ++ ['"'] := by
  unfold isNamePattern at isName
  split at isName
  · rename_i first _ _ _ last
    rw [Bool.and_eq_true, Bool.not_eq_true', beq_iff_eq] at isName
    obtain ⟨noQuote, isQuote⟩ := isName
    generalize isText : '"' :: rest = text at matched
    cases matched with
    | @alt _ branch _ member chosen =>
        rcases List.mem_cons.1 member with isBare | member
        · subst isBare
          cases chosen with
          | concatCons head tail =>
              cases head with
              | plus once again =>
                  cases once with
                  | leaf inFirst =>
                      cases isText
                      rw [OrderedSet.contains_iff.2 inFirst] at noQuote
                      cases noQuote
        · cases List.mem_singleton.1 member
          cases chosen with
          | concatCons head tail =>
              cases head with
              | leaf =>
                  cases tail with
                  | @concatCons _ _ inner _ _ tail =>
                      cases tail with
                      | concatCons head tail =>
                          cases head with
                          | leaf inLast =>
                              cases tail
                              rw [isQuote, OrderedSet.mem_singleton] at inLast
                              cases isText
                              exact ⟨inner, by rw [inLast]; rfl⟩
  · cases isName

/-- The only rule with the word of names has a pattern for names. -/
theorem isNamePattern_of_mem {rule : LexerRule} (member : rule ∈ lexerRules)
    (isName : rule.name = Part.name.word) :
    ∃ regex, Regex.parse rule.pattern = .ok regex ∧ isNamePattern regex = true := by
  have all : ∀ rule ∈ lexerRules, rule.name = Part.name.word →
      (match Regex.parse rule.pattern with
        | .ok regex => isNamePattern regex
        | .error _ => false) = true := by
    decide +kernel
  have holds := all rule member isName
  split at holds
  · rename_i regex parsed
    exact ⟨regex, parsed, holds⟩
  · cases holds

/-- The rules of the lexer have the words of parts of the language. -/
theorem exists_part_of_mem :
    ∀ rule ∈ lexerRules, ∃ part ∈ Part.all, rule.name = part.word ∧
      ∀ other ∈ rules, other.lhs ≠ part.symbol := by
  decide

section Lexed

variable {source : String} {token : Token} (member : .ok token ∈ lexer.tokens source)
include member

/-- A token that does not close the input is a word of the language, and its text matches the rule
of the word. -/
theorem exists_rule_of_mem_tokens : token.symbol = Symbol.endOfInput ∨
    ∃ rule ∈ lexerRules, ∃ regex, symbols.get? rule.name = some token.symbol ∧
      Regex.parse rule.pattern = .ok regex ∧ regex.Matches token.text.toList := by
  obtain ⟨declared, declares, accords⟩ := exists_declared
  rcases accords.matched_of_mem_tokens member with isEnd | ⟨rule, isDeclared, same, matched⟩
  · exact .inl isEnd
  · obtain ⟨written, inRules, declares⟩ :=
      exists_mem_of_forall₂ (List.Forall₂.flip declares) isDeclared
    exact .inr ⟨written, inRules, rule.regex, same ▸ declares.named, declares.parsed, matched⟩

/-- A name token that begins with a quote ends with another quote. -/
theorem closed_of_quoted (isName : token.symbol = Part.name.symbol) {rest : List Char}
    (quoted : token.text.toList = '"' :: rest) : ∃ inner, rest = inner ++ ['"'] := by
  rcases exists_rule_of_mem_tokens member with
    isEnd | ⟨rule, inRules, regex, known, parsed, matched⟩
  · rw [isName] at isEnd
    cases isEnd
  · rw [isName] at known
    have named := SymbolTable.get?_eq_some_iff.1 known
    rw [SymbolTable.get?_eq_some_iff.1 (symbols_get? Part.name)] at named
    obtain ⟨_, isParsed, pattern⟩ := isNamePattern_of_mem inRules (Option.some.inj named).symm
    cases parsed.symm.trans isParsed
    rw [quoted] at matched
    exact closed_of_isNamePattern pattern matched

end Lexed

/-! ## The grammar -/

theorem exists_grammar : ∃ g, grammar? = .ok g := by
  have isOk : grammar?.isOk = true := by decide +kernel
  cases found : grammar? with
  | ok g => exact ⟨g, rfl⟩
  | error error =>
      rw [found] at isOk
      cases isOk

/-- The grammar has the rules of the language and begins with a whole description. -/
theorem grammar_eq {g : Grammar} (isGrammar : grammar? = .ok g) :
    g.WellFormed ∧ g.userRules = rules ∧ g.startSymbol = Part.grammar.symbol :=
  ⟨Grammar.wellFormed_of_ofRules isGrammar, Grammar.userRules_of_ofRules isGrammar,
    Grammar.startSymbol_of_ofRules isGrammar⟩

theorem isNonterminal_eq_false {g : Grammar} (isGrammar : grammar? = .ok g) {symbol : Symbol}
    (notStart : Symbol.start ≠ symbol) (notLhs : ∀ rule ∈ rules, rule.lhs ≠ symbol) :
    g.isNonterminal symbol = false := by
  obtain ⟨_, isRules, _⟩ := grammar_eq isGrammar
  refine List.any_eq_false.2 fun rule member => ?_
  rw [beq_iff_eq]
  rcases Grammar.mem_rules.1 member with isStart | inRules
  · rw [isStart]
    exact notStart
  · exact notLhs rule (isRules ▸ inRules)

/-- No rule of the grammar is for the symbol of a token. -/
theorem terminal_of_lex {g : Grammar} (isGrammar : grammar? = .ok g) {source : String}
    {tokens : List Token} (lexed : lexer.lex source = .ok tokens) {token : Token}
    (member : token ∈ tokens) : g.isNonterminal token.symbol = false := by
  rcases exists_rule_of_mem_tokens (Lexer.mem_tokens_of_lex lexed member) with
    isEnd | ⟨rule, inRules, _, known, _⟩
  · rw [isEnd]
    exact isNonterminal_eq_false isGrammar (by decide) (by decide)
  · obtain ⟨part, _, isPart, notLhs⟩ := exists_part_of_mem rule inRules
    rw [isPart, symbols_get?, Option.some.injEq] at known
    rw [← known]
    exact isNonterminal_eq_false isGrammar (by cases part <;> decide) notLhs

theorem clean_table : table.conflicts = [] := by decide +kernel

/-- The table of descriptions does what the grammar of descriptions says. -/
theorem exists_exact : ∃ g automaton, grammar? = .ok g ∧ table.Exact g automaton := by
  obtain ⟨g, isGrammar⟩ := exists_grammar
  obtain ⟨found, generated⟩ := Automaton.exists_generate (grammar_eq isGrammar).1
  have built : Table.ofGrammar g symbols none = .ok table := by
    unfold table
    rw [isGrammar, Except.toOption, Option.bind_some, Table.ofGrammar_of_generate generated]
    rfl
  obtain ⟨automaton, exact⟩ := Table.exact_of_ofGrammar isGrammar built clean_table
  exact ⟨g, automaton, isGrammar, exact⟩

/-! ## Weights -/

/-- The weights of the symbols that have rules: a word has less than four nodes above it up to the
options it stands in, so that only an empty list of declarations weighs more than nothing. -/
def weights : List (Symbol × Int) :=
  [(Part.grammar, -5), (Part.startDeclaration, -7), (Part.ruleDeclarations, 1),
    (Part.ruleDeclaration, -8), (Part.lhs, -3), (Part.rhs, 0), (Part.options, -1), (Part.list, -2),
    (Part.item, -3), (Part.optionalItem, -4), (Part.discardedItem, -7), (Part.unwrappedItem, -7),
    (Part.wrappedItem, -7)].map fun (part, weight) => (part.symbol, weight)

/-- All other symbols are those of words. -/
def weightOf (symbol : Symbol) : Int := (weights.lookup symbol).getD (-4)

/-- There is one list of declarations at a time. -/
def shareOf (symbol : Symbol) : Nat :=
  if symbol = Part.grammar.symbol ∨ symbol = Part.ruleDeclarations.symbol then 1 else 0

theorem weightOf_cases (symbol : Symbol) :
    weightOf symbol = -4 ∨ (symbol, weightOf symbol) ∈ weights := by
  unfold weightOf
  cases found : weights.lookup symbol with
  | none => exact .inl rfl
  | some weight => exact .inr ((lookup_eq_some_iff_mem (by decide)).1 found)

/-- The trees over words of a description have at most four nodes for each word and one more. -/
def weighing {g : Grammar} (isGrammar : grammar? = .ok g) : g.Weighing 4 1 where
  weight := weightOf
  share := shareOf
  leaf symbol terminal := by
    rcases weightOf_cases symbol with isWord | member
    · rw [isWord]
      decide
    · obtain ⟨_, isRules, _⟩ := grammar_eq isGrammar
      have isLhs : ∀ entry ∈ weights, ∃ rule ∈ rules, rule.lhs = entry.1 := by decide +kernel
      obtain ⟨rule, inRules, lhs⟩ := isLhs _ member
      have nonterminal := Grammar.isNonterminal_lhs (Grammar.mem_rules.2 (.inr (isRules ▸ inRules)))
      rw [lhs, terminal] at nonterminal
      cases nonterminal
  node := by
    rw [(grammar_eq isGrammar).2.1]
    decide +kernel
  weight_le_share symbol := by
    rcases weightOf_cases symbol with isWord | member
    · rw [isWord]
      omega
    · have bounded : ∀ entry ∈ weights, entry.2 ≤ shareOf entry.1 := by decide +kernel
      exact bounded _ member
  shared := by
    rw [(grammar_eq isGrammar).2.1]
    decide +kernel
  start := by
    rw [(grammar_eq isGrammar).2.2]
    decide

end ParserGenerator.Description.Language
