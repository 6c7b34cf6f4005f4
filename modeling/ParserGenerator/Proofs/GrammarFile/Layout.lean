import ParserGenerator.Proofs.GrammarFile.Lines

/-!
# Grammar files that are written and read

A grammar file is laid out line by line: rules in their order and, around them, lines that declare
nothing. It is read as these rules, from every table of names. A file that cannot be read has a
first line that neither declares nothing nor has a rule written on it, and the error is the one of
this line by itself, under its number in the file.

Results: `GrammarFile.makes_readLines`, `GrammarFile.readLines_of_not_isSound` and
`GrammarFile.parse_layout`.
-/

namespace ParserGenerator.GrammarFile

open Naming (Makes)
open Text (IsSilent AreLines joined)

variable {lines earlier later : List (List Char)} {line : List Char} {rules : List RuleLine}
  {names : SymbolTable}

/-- The rules are written on the lines in order, and all other lines declare nothing. -/
inductive Layout : List RuleLine → List (List Char) → Prop
  | nil : Layout [] []
  | silent {rules : List RuleLine} {line : List Char} {later : List (List Char)}
      (isSilent : IsSilent line) (layout : Layout rules later) : Layout rules (line :: later)
  | rule {rule : RuleLine} {rules : List RuleLine} {line : List Char} {later : List (List Char)}
      (isLine : rule.IsLine line) (layout : Layout rules later) :
      Layout (rule :: rules) (line :: later)

/-- What is read says by names what the rules on the lines say. -/
def AreRead (rules : List RuleLine) (names : SymbolTable) (parsed : List Rule) : Prop :=
  List.Forall₂ (fun rule parsed => rule.named.Means names parsed) rules parsed

/-! ## One line -/

theorem readLines_cons_of_isSilent (isSilent : IsSilent line) (number : Nat)
    (later : List (List Char)) :
    readLines number (line :: later) = readLines (number + 1) later := by
  rw [readLines, if_pos (Text.isBlankOrComment_trim_iff.2 isSilent)]

theorem readLines_cons_of_isLine {rule : RuleLine} (isLine : rule.IsLine line) (number : Nat)
    (later : List (List Char)) :
    readLines number (line :: later) = (do
      let parsed ← rule.toRule
      let others ← readLines (number + 1) later
      pure (parsed :: others)) := by
  obtain ⟨notSilent, read⟩ := RuleLine.isLine_iff.1 isLine
  rw [readLines, if_neg fun blank => notSilent (Text.isBlankOrComment_trim_iff.1 blank),
    Text.words_trim, read]

theorem readLines_cons_of_fault (notSilent : ¬ IsSilent line) {fault : Fault}
    (read : readWords (Text.words line) = .error fault) (number : Nat)
    (later : List (List Char)) :
    readLines number (line :: later) = throw ⟨number, fault⟩ := by
  rw [readLines, if_neg fun blank => notSilent (Text.isBlankOrComment_trim_iff.1 blank),
    Text.words_trim, read]

/-! ## All lines -/

theorem makes_readLines (layout : Layout rules lines) (number : Nat) (names : SymbolTable) :
    Makes names (readLines number lines) (AreRead rules) := by
  induction layout generalizing number names with
  | nil => exact Naming.makes_pure .nil
  | silent isSilent _ ih =>
      rw [readLines_cons_of_isSilent isSilent]
      exact ih (number + 1) names
  | @rule rule _ _ _ isLine _ ih =>
      rw [readLines_cons_of_isLine isLine]
      refine (rule.makes_toRule names).bind fun parsed first _ means => ?_
      refine (ih (number + 1) first).bind fun others second grown areRead => ?_
      exact Naming.makes_pure (.cons (means.mono grown) areRead)

/-- The lines are a layout of rules, or one of them is the first that is not sound. -/
theorem exists_layout_or_first (lines : List (List Char)) : (∃ rules, Layout rules lines) ∨
    ∃ earlier line later, lines = earlier ++ line :: later ∧
      (∀ other ∈ earlier, IsSound other) ∧ ¬ IsSound line := by
  induction lines with
  | nil => exact .inl ⟨[], .nil⟩
  | cons line lines ih =>
      by_cases isSound : IsSound line
      · rcases ih with ⟨rules, layout⟩ | ⟨earlier, other, later, rfl, areSound, notSound⟩
        · rcases isSound with isSilent | ⟨rule, isLine⟩
          · exact .inl ⟨rules, .silent isSilent layout⟩
          · exact .inl ⟨rule :: rules, .rule isLine layout⟩
        · exact .inr ⟨line :: earlier, other, later, rfl,
            List.forall_mem_cons.2 ⟨isSound, areSound⟩, notSound⟩
      · exact .inr ⟨[], line, lines, rfl, fun other member => absurd member List.not_mem_nil,
          isSound⟩

/-- The first line that is not sound is where reading fails. -/
theorem readLines_of_fault (areSound : ∀ other ∈ earlier, IsSound other)
    (notSilent : ¬ IsSilent line) {fault : Fault}
    (read : readWords (Text.words line) = .error fault) (later : List (List Char)) (number : Nat)
    (names : SymbolTable) :
    ((readLines number (earlier ++ line :: later)).outcome names).1 =
      .error ⟨number + earlier.length, fault⟩ := by
  induction earlier generalizing number names with
  | nil =>
      rw [List.nil_append, readLines_cons_of_fault notSilent read]
      rfl
  | cons first earlier ih =>
      obtain ⟨isSound, others⟩ := List.forall_mem_cons.1 areSound
      have failed := ih others (number + 1)
      rw [List.length_cons, ← Nat.add_assoc, Nat.add_right_comm, List.cons_append]
      rcases isSound with isSilent | ⟨rule, isLine⟩
      · rw [readLines_cons_of_isSilent isSilent]
        exact failed names
      · rw [readLines_cons_of_isLine isLine]
        obtain ⟨parsed, grown, made, _, _⟩ := rule.makes_toRule names
        rw [Naming.outcome_bind_ok made, Naming.outcome_bind_error (failed grown)]

/-! ## Files -/

/-- The lines that a text is cut into are read like those that it is joined from, although an empty
one at the end is lost. -/
theorem readLines_lines_joined (areLines : AreLines lines) (number : Nat) :
    readLines number (Text.lines (joined lines).toList) = readLines number lines := by
  rw [joined, String.toList_ofList]
  induction lines generalizing number with
  | nil => rfl
  | cons line later ih =>
      obtain ⟨single, others⟩ := List.forall_mem_cons.1 areLines
      cases later with
      | nil =>
          -- No empty line is cut off at the end of a text, but it would declare nothing.
          rw [List.intercalate_singleton]
          by_cases empty : line = []
          · rw [empty, readLines_cons_of_isSilent (.inl fun c member => absurd member
              List.not_mem_nil)]
            rfl
          · rw [Text.lines_eq_singleton single empty]
      | cons next later =>
          rw [List.intercalate_cons_cons, List.append_assoc, List.singleton_append,
            Text.lines_append_newline single, readLines, readLines, ih others]

theorem parse_joined (areLines : AreLines lines) : parse (joined lines) = readLines 1 lines := by
  rw [parse, readLines_lines_joined areLines]

theorem parse_ofList (single : '\n' ∉ line) : parse (String.ofList line) = readLines 1 [line] := by
  have alone : AreLines [line] := List.forall_mem_singleton.2 single
  rw [← parse_joined alone, joined, List.intercalate_singleton]

/-- By itself a line that is not sound fails as the first one. -/
theorem parse_alone (single : '\n' ∉ line) (notSilent : ¬ IsSilent line) {fault : Fault}
    (read : readWords (Text.words line) = .error fault) (names : SymbolTable) :
    ((parse (String.ofList line)).outcome names).1 = .error ⟨1, fault⟩ := by
  have noLines : ∀ other ∈ ([] : List (List Char)), IsSound other :=
    fun other member => absurd member List.not_mem_nil
  rw [parse_ofList single]
  exact readLines_of_fault noLines notSilent read [] 1 names

/-- A file that lays out rules is read as these rules, from every table of names. A file that cannot
be read has a first line that neither declares nothing nor has a rule written on it, and the error
is the one of this line by itself, with its number in the file. -/
theorem parse_layout :
    (∀ (names : SymbolTable) (rules : List RuleLine) (lines : List (List Char)),
      Layout rules lines → AreLines lines →
      ∃ parsed later, (parse (joined lines)).outcome names = (.ok parsed, later) ∧
        later.Extends names ∧ AreRead rules later parsed) ∧
    ∀ (names : SymbolTable) (source : String) (error : Error),
      ((parse source).outcome names).1 = .error error ↔
        ∃ earlier line later, source = joined (earlier ++ line :: later) ∧
          AreLines (earlier ++ line :: later) ∧
          (∀ other ∈ earlier, IsSound other) ∧ ¬ IsSound line ∧
          (∀ known, ((parse (String.ofList line)).outcome known).1 = .error ⟨1, error.fault⟩) ∧
          error.line = earlier.length + 1 ∧
          error.message =
            "line " ++ toString (earlier.length + 1) ++ ": " ++ error.fault.message := by
  refine ⟨fun names rules lines layout areLines => ?_, fun names source error => ⟨?_, ?_⟩⟩
  · rw [parse_joined areLines]
    exact makes_readLines layout 1 names
  · intro failed
    obtain ⟨lines, areLines, rfl⟩ := Text.exists_joined source
    rw [parse_joined areLines] at failed
    rcases exists_layout_or_first lines with
      ⟨rules, layout⟩ | ⟨earlier, line, later, rfl, areSound, notSound⟩
    · obtain ⟨parsed, grown, made, _⟩ := makes_readLines layout 1 names
      rw [made] at failed
      cases failed
    · obtain ⟨notSilent, fault, read⟩ := not_isSound_iff.1 notSound
      have single := areLines line (List.mem_append_right _ List.mem_cons_self)
      rw [readLines_of_fault areSound notSilent read, Nat.add_comm] at failed
      cases failed
      exact ⟨earlier, line, later, rfl, areLines, areSound, notSound,
        parse_alone single notSilent read, rfl, rfl⟩
  · rintro ⟨earlier, line, later, rfl, areLines, areSound, notSound, alone, isLine, _⟩
    obtain ⟨notSilent, fault, read⟩ := not_isSound_iff.1 notSound
    have single := areLines line (List.mem_append_right _ List.mem_cons_self)
    have sameFault := (parse_alone single notSilent read names).symm.trans (alone names)
    obtain ⟨number, fault'⟩ := error
    cases isLine
    cases sameFault
    rw [parse_joined areLines, readLines_of_fault areSound notSilent read, Nat.add_comm]

/-- Rules whose names look like a comment, a sign and a mark. -/
def listRules : List RuleLine :=
  [⟨true, true, "//list", ["//list", ":=", "__WRAP__"]⟩, ⟨false, false, "list", []⟩]

/-- Lines for them, with a comment in front and a blank line in between. -/
def listLines : List (List Char) :=
  ["  // lists".toList, " __CHAIN__ __WRAP__\t//list := //list  := __WRAP__ ".toList, [],
    "list := __EPSILON__".toList]

theorem parse_layout_lists :
    (Layout listRules listLines ∧ AreLines listLines ∧
      ∃ parsed later, (parse (joined listLines)).outcome .initial = (.ok parsed, later) ∧
        later.Extends .initial ∧ AreRead listRules later parsed) ∧
    ((parse (joined [[], "a := b __EPSILON__".toList])).outcome .initial).1 =
      .error ⟨2, .emptyWordAmongOthers⟩ := by
  have layout : Layout listRules listLines :=
    .silent (by decide) (.rule (by decide) (.silent (by decide) (.rule (by decide) .nil)))
  have areLines : AreLines listLines := by decide
  have notSilent : ¬ IsSilent "a := b __EPSILON__".toList := by decide
  have isFault : readWords (Text.words "a := b __EPSILON__".toList) =
      .error .emptyWordAmongOthers := by decide
  refine ⟨⟨layout, areLines, parse_layout.1 .initial listRules listLines layout areLines⟩,
    (parse_layout.2 .initial _ _).2 ⟨[[]], "a := b __EPSILON__".toList, [], rfl, by decide, ?_,
      not_isSound_iff.2 ⟨notSilent, _, isFault⟩, fun known => ?_, rfl, rfl⟩⟩
  · exact List.forall_mem_singleton.2 (.inl (by decide))
  · exact parse_alone (by decide) notSilent isFault known

end ParserGenerator.GrammarFile
