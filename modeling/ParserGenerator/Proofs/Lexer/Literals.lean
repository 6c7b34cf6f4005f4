import ParserGenerator.LexerFile
import ParserGenerator.Proofs.Lexer.Declared
import ParserGenerator.Proofs.Regex.Pattern

/-!
# Literal texts

A literal rule takes its own text and nothing else. Its pattern is the text with a backslash in
front of each character that means something in patterns, and no such character is also the name of
a set behind a backslash. So the pattern is a row of single characters, whatever stands next to each
other in the text. A line of a lexer rule file without the sign `:=` declares such a rule.

Results: `Regex.parse_escape`, `Regex.matchesOnly_escape`, `LexerFile.mem_of_readLines` and
`LexerFile.literals_exact`.
-/

namespace ParserGenerator

/-! ## Definitions -/

namespace Regex

/-- One character. -/
def single (c : Char) : Regex := .leaf (OrderedSet.singleton c)

/-- The characters of a text in a row. -/
def literal (text : List Char) : Regex := .concat (text.map single)

/-- The pattern is well-formed, and its automaton accepts the text and no other one. -/
def MatchesOnly (pattern : String) (text : List Char) : Prop :=
  ∃ regex, parse pattern = .ok regex ∧
    ∀ word, regex.toNfa.accepts? word = some (decide (word = text))

end Regex

/-- The sign between the name and the pattern of a rule occurs in the text. -/
def LexerFile.HasSign (text : List Char) : Prop := [':', '='] <:+: text

/-! ## Escaped texts -/

namespace Regex

theorem escapeChars_append (front back : List Char) :
    escapeChars (front ++ back) = escapeChars front ++ escapeChars back := by
  induction front with
  | nil => rfl
  | cons c rest ih =>
      rw [List.cons_append, escapeChars, escapeChars]
      split
      · rw [ih]
        rfl
      · rw [ih]
        rfl

/-- A character with a meaning of its own stands for itself behind a backslash. -/
theorem escapes_of_metaCharacter {c : Char} (special : c ∈ metaCharacters) :
    Escapes c (OrderedSet.singleton c) := by
  have noName : c ∉ ['w', 'l', 'd', 's', 'n', 't'] := by
    intro named
    simp only [metaCharacters, List.mem_cons, List.not_mem_nil, or_false] at special
    rcases special with rfl | rfl | rfl | rfl | rfl | rfl | rfl | rfl | rfl | rfl <;>
      exact absurd named (by decide)
  exact .itself noName

theorem isFactor_escapeChars (c : Char) : IsFactor (escapeChars [c]) (single c) := by
  by_cases special : c ∈ metaCharacters
  · rw [escapeChars, if_pos special]
    exact .atom (.escape (escapes_of_metaCharacter special))
  · rw [escapeChars, if_neg special]
    exact .atom (.char special)

theorem isBranch_escapeChars (text : List Char) :
    IsBranch (escapeChars text) (text.map single) := by
  induction text using List.reverseRecOn with
  | nil => exact .nil
  | append_singleton front c ih =>
      rw [escapeChars_append, List.map_append]
      exact .snoc ih (isFactor_escapeChars c)

/-- An escaped text is read as its characters in a row. -/
theorem parse_escape (text : String) : parse (escape text) = .ok (literal text.toList) := by
  rw [parse, escape, String.toList_ofList]
  exact (IsChoice.first (isBranch_escapeChars text.toList)).readText

theorem matches_literal {text word : List Char} : (literal text).Matches word ↔ word = text := by
  constructor
  · intro matched
    induction text generalizing word with
    | nil =>
        cases matched
        rfl
    | cons c rest ih =>
        cases matched with
        | concatCons head tail =>
            cases head with
            | leaf member =>
                rw [OrderedSet.mem_singleton.1 member, ih tail]
                rfl
  · rintro rfl
    induction word with
    | nil => exact .concatNil
    | cons c rest ih => exact .concatCons (.leaf (OrderedSet.mem_singleton.2 rfl)) ih

theorem accepts?_literal (text word : List Char) :
    (literal text).toNfa.accepts? word = some (decide (word = text)) := by
  have built : (literal text).toNfa.Embeddable := embeddable_toNfa _
  have same : (literal text).toNfa.accepts word = decide (word = text) := by
    rw [Bool.eq_iff_iff, accepts_toNfa, matches_literal, decide_eq_true_iff]
  rw [Nfa.accepts?_of_closed built.closed built.initial_lt, same]

theorem matchesOnly_escape (text : String) : MatchesOnly (escape text) text.toList :=
  ⟨literal text.toList, parse_escape text, accepts?_literal text.toList⟩

end Regex

/-- A literal rule is declared behind the others, whatever its text is. -/
theorem LexerDraft.declare_literal (draft : LexerDraft) (text : String) (names : SymbolTable) :
    (draft.declare (.literal text)).outcome names =
      (.ok { draft with joint :=
          draft.joint.addRule (names.intern text).1 (Regex.literal text.toList).toNfa },
        (names.intern text).2) := by
  rw [declare, LexerRule.literal, Regex.parse_escape]
  exact (Naming.outcome_bind_ok (Naming.outcome_intern text names)).trans (Naming.outcome_pure _ _)

/-! ## Lines without a sign -/

theorem Text.trim_isInfix (text : List Char) : trim text <:+: text := by
  have front : trim text <+: text.dropWhile isBlank := by
    rw [← List.reverse_suffix, trim, List.reverse_reverse]
    exact List.dropWhile_suffix _
  exact front.isInfix.trans (List.dropWhile_suffix _).isInfix

namespace LexerFile

theorem splitAtSign_of_not_hasSign {text : List Char} (noSign : ¬ HasSign text) :
    splitAtSign text = none := by
  induction text with
  | nil => rfl
  | cons c rest ih =>
      have later : ¬ HasSign rest :=
        fun inRest => noSign (inRest.trans (List.suffix_cons c rest).isInfix)
      unfold splitAtSign
      split
      · exact absurd (List.prefix_append [':', '='] _).isInfix noSign
      · rw [ih later, Option.map_none]

theorem readRule_of_not_hasSign {line : List Char} (noSign : ¬ HasSign line) (number : Nat) :
    readRule number (Text.trim line) = .ok (.literal (String.ofList (Text.trim line))) := by
  have noSign : ¬ HasSign (Text.trim line) :=
    fun inside => noSign (inside.trans (Text.trim_isInfix line))
  rw [readRule, splitAtSign_of_not_hasSign noSign]

/-- A file declares what its lines declare, apart from blank lines and comments. -/
theorem mem_of_readLines {number : Nat} {lines : List (List Char)}
    {declarations : List Declaration} (read : readLines number lines = .ok declarations)
    {rule : LexerRule} {place : Nat} : ⟨rule, place⟩ ∈ declarations ↔
      ∃ index line, lines[index]? = some line ∧ place = number + index ∧
        Text.isBlankOrComment (Text.trim line) = false ∧
        readRule place (Text.trim line) = .ok rule := by
  induction lines generalizing number declarations with
  | nil =>
      cases read
      simp
  | cons first rest ih =>
      -- A place in the whole is the place of the first line or a place behind it.
      have places : (∃ index line, (first :: rest)[index]? = some line ∧ place = number + index ∧
            Text.isBlankOrComment (Text.trim line) = false ∧
            readRule place (Text.trim line) = .ok rule) ↔
          (place = number ∧ Text.isBlankOrComment (Text.trim first) = false ∧
            readRule place (Text.trim first) = .ok rule) ∨
          ∃ index line, rest[index]? = some line ∧ place = number + 1 + index ∧
            Text.isBlankOrComment (Text.trim line) = false ∧
            readRule place (Text.trim line) = .ok rule := by
        constructor
        · rintro ⟨index, line, found, here, declares⟩
          cases index with
          | zero =>
              cases found
              exact .inl ⟨here, declares⟩
          | succ index => exact .inr ⟨index, line, found, by omega, declares⟩
        · rintro (⟨here, declares⟩ | ⟨index, line, found, here, declares⟩)
          · exact ⟨0, first, rfl, here, declares⟩
          · exact ⟨index + 1, line, found, by omega, declares⟩
      rw [places]
      rw [readLines] at read
      split at read
      · rename_i blank
        rw [ih read, blank]
        simp
      · rename_i notBlank
        cases isRule : readRule number (Text.trim first) with
        | error error =>
            rw [isRule] at read
            cases read
        | ok firstRule =>
            cases isLater : readLines (number + 1) rest with
            | error error =>
                rw [isRule, isLater] at read
                cases read
            | ok later =>
                rw [isRule, isLater] at read
                cases read
                rw [List.mem_cons, ih isLater, Declaration.mk.injEq]
                refine or_congr_left ⟨?_, ?_⟩
                · rintro ⟨rfl, rfl⟩
                  exact ⟨rfl, Bool.eq_false_iff.2 notBlank, isRule⟩
                · rintro ⟨rfl, _, same⟩
                  exact ⟨Except.ok.inj (same.symm.trans isRule), rfl⟩

/-- A line without the sign that is neither blank nor a comment declares one rule. -/
theorem mem_parse_of_not_hasSign {source : String} {declarations : List Declaration}
    (parsed : parse source = .ok declarations) {index : Nat} {line : List Char}
    (isLine : (Text.lines source.toList)[index]? = some line) (noSign : ¬ HasSign line)
    (declares : Text.isBlankOrComment (Text.trim line) = false) {rule : LexerRule} :
    ⟨rule, index + 1⟩ ∈ declarations ↔ rule = .literal (String.ofList (Text.trim line)) := by
  rw [mem_of_readLines parsed]
  constructor
  · rintro ⟨other, found, isFound, place, _, isRule⟩
    obtain rfl : index = other := by omega
    cases isLine.symm.trans isFound
    exact Except.ok.inj (isRule.symm.trans (readRule_of_not_hasSign noSign _))
  · rintro rfl
    exact ⟨index, line, isLine, Nat.add_comm _ _, declares, readRule_of_not_hasSign noSign _⟩

/-- An escaped text is a well-formed pattern that matches the text and no other one. So a literal
rule is declared with an automaton for its text alone, and a line of a lexer rule file without the
sign that is neither blank nor a comment declares one rule, which is named after the trimmed line
and matches that alone. -/
theorem literals_exact :
    (∀ text : String, Regex.MatchesOnly (Regex.escape text) text.toList) ∧
    (∀ (draft : LexerDraft) (text : String) (names : SymbolTable), ∃ nfa,
      (draft.declare (.literal text)).outcome names =
        (.ok { draft with joint := draft.joint.addRule (names.intern text).1 nfa },
          (names.intern text).2) ∧
      ∀ word, nfa.accepts? word = some (decide (word = text.toList))) ∧
    ∀ (source : String) (declarations : List Declaration), parse source = .ok declarations →
      ∀ (index : Nat) (line : List Char), (Text.lines source.toList)[index]? = some line →
        ¬ HasSign line → Text.isBlankOrComment (Text.trim line) = false →
        ∃ rule : LexerRule, (∀ other, ⟨other, index + 1⟩ ∈ declarations ↔ other = rule) ∧
          rule.name = String.ofList (Text.trim line) ∧ rule.ignored = false ∧
          Regex.MatchesOnly rule.pattern (Text.trim line) := by
  refine ⟨Regex.matchesOnly_escape, fun draft text names => ?_,
    fun source declarations parsed index line isLine noSign declares => ?_⟩
  · exact ⟨_, draft.declare_literal text names, Regex.accepts?_literal text.toList⟩
  · refine ⟨.literal (String.ofList (Text.trim line)),
      fun other => mem_parse_of_not_hasSign parsed isLine noSign declares, rfl, rfl, ?_⟩
    have only := Regex.matchesOnly_escape (String.ofList (Text.trim line))
    rwa [String.toList_ofList] at only

/-- A comment, a literal of characters that mean something in patterns, and a rule. -/
def literalSource : String := "// literals\n \t\\d.é[^(a|b)]*+? \r\nword := [a-z]+"

/-- The line of the literal, with the blanks around it. -/
def literalLine : List Char := " \t\\d.é[^(a|b)]*+? \r".toList

theorem literals_exact_source :
    ∃ declarations, parse literalSource = .ok declarations ∧
      (Text.lines literalSource.toList)[1]? = some literalLine ∧ ¬ HasSign literalLine ∧
      Text.isBlankOrComment (Text.trim literalLine) = false ∧
      ∃ rule : LexerRule, (∀ other, ⟨other, 2⟩ ∈ declarations ↔ other = rule) ∧
        rule.name = String.ofList (Text.trim literalLine) ∧ rule.ignored = false ∧
        Regex.MatchesOnly rule.pattern (Text.trim literalLine) := by
  have parsed : parse literalSource =
      .ok [⟨.literal "\\d.é[^(a|b)]*+?", 2⟩, ⟨⟨"word", "[a-z]+", false⟩, 3⟩] := by rfl
  have isLine : (Text.lines literalSource.toList)[1]? = some literalLine := by rfl
  have noSign : ¬ HasSign literalLine := by
    unfold HasSign
    decide
  have declares : Text.isBlankOrComment (Text.trim literalLine) = false := by rfl
  exact ⟨_, parsed, isLine, noSign, declares,
    literals_exact.2.2 _ _ parsed 1 _ isLine noSign declares⟩

end LexerFile

end ParserGenerator
