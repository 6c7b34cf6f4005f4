import Mathlib.Data.List.TakeWhile
import ParserGenerator.Proofs.Text.Words

/-!
# How words and lines are laid out

A text has the words that it is put together from by blanks: any number of them in front and at the
end, at least one between neighbours. Trimming changes no words. A line of a rule file declares
nothing if all of it is blank or if two slashes come first behind the blanks, and every text is
lines with a line feed between neighbours.

Results: `Text.words_eq_iff`, `Text.words_trim` and `Text.isBlankOrComment_trim_iff`.
-/

namespace ParserGenerator.Text

variable {text rest gap word : List Char} {written : List (List Char)}

/-! ## Definitions -/

/-- There is nothing but blanks. -/
def IsGap (gap : List Char) : Prop := ∀ c ∈ gap, isBlank c = true

/-- The text is the words with blanks between neighbours and any blanks around them. -/
inductive Spread : List (List Char) → List Char → Prop
  | gap {gap : List Char} (isGap : IsGap gap) : Spread [] gap
  | word {gap word rest : List Char} {later : List (List Char)} (isGap : IsGap gap)
      (isWord : IsWord word) (ends : atWordEnd rest = true) (spread : Spread later rest) :
      Spread (word :: later) (gap ++ (word ++ rest))

/-- Two slashes are in front. -/
def IsComment (text : List Char) : Prop := ['/', '/'] <+: text

/-- The line declares nothing: it is blank, or a comment behind blanks. -/
def IsSilent (line : List Char) : Prop :=
  IsGap line ∨ ∃ gap text, line = gap ++ text ∧ IsGap gap ∧ IsComment text

/-- No line feed is in a line. -/
def AreLines (lines : List (List Char)) : Prop := ∀ line ∈ lines, '\n' ∉ line

instance (lines : List (List Char)) : Decidable (AreLines lines) :=
  inferInstanceAs (Decidable (∀ line ∈ lines, '\n' ∉ line))

/-- Lines with a line feed between neighbours. A line feed at the end is in front of an empty
line. -/
def joined (lines : List (List Char)) : String := String.ofList (['\n'].intercalate lines)

/-! ## Words -/

theorem IsGap.cons {c : Char} (blank : isBlank c = true) (isGap : IsGap gap) : IsGap (c :: gap) :=
  List.forall_mem_cons.2 ⟨blank, isGap⟩

theorem words_gap_append (isGap : IsGap gap) (rest : List Char) :
    words (gap ++ rest) = words rest := by
  induction gap with
  | nil => rfl
  | cons c tail ih =>
      obtain ⟨blank, isTail⟩ := List.forall_mem_cons.1 isGap
      rw [List.cons_append, words, if_pos blank, ih isTail]

theorem Spread.words_eq (spread : Spread written text) : words text = written := by
  induction spread with
  | @gap gap isGap =>
      have behind := words_gap_append isGap []
      rwa [List.append_nil] at behind
  | word isGap isWord ends _ ih => rw [words_gap_append isGap, words_append isWord ends, ih]

theorem Spread.cons_blank {c : Char} (blank : isBlank c = true) (spread : Spread written text) :
    Spread written (c :: text) := by
  cases spread with
  | gap isGap => exact .gap (isGap.cons blank)
  | word isGap isWord ends later => exact .word (isGap.cons blank) isWord ends later

/-- A text that starts with a character that is not blank starts with its first word. -/
theorem Spread.starts (spread : Spread written text) (inside : atWordEnd text = false) :
    ∃ word later rest, written = word :: later ∧ text = word ++ rest ∧ IsWord word ∧
      atWordEnd rest = true ∧ Spread later rest := by
  have noGap {gap rest : List Char} (isGap : IsGap gap) (isText : gap ++ rest = text) :
      gap = [] := by
    cases gap with
    | nil => rfl
    | cons c tail =>
        rw [← isText, List.cons_append, atWordEnd, isGap c List.mem_cons_self] at inside
        cases inside
  cases spread with
  | gap isGap =>
      rw [noGap isGap (List.append_nil _)] at inside
      cases inside
  | @word gap word rest later isGap isWord ends spread =>
      cases noGap isGap rfl
      exact ⟨word, later, rest, rfl, rfl, isWord, ends, spread⟩

theorem spread_words (text : List Char) : Spread (words text) text := by
  induction text with
  | nil => exact .gap fun c member => absurd member List.not_mem_nil
  | cons c rest ih =>
      unfold words
      split
      · rename_i blank
        exact ih.cons_blank blank
      · rename_i notBlank
        have visible : isBlank c = false := Bool.eq_false_iff.2 notBlank
        have noBlanks : IsGap [] := fun d member => absurd member List.not_mem_nil
        split
        · rename_i ends
          have isWord : IsWord [c] :=
            ⟨List.cons_ne_nil _ _, fun d member => List.mem_singleton.1 member ▸ visible⟩
          exact .word noBlanks isWord ends ih
        · rename_i inside
          obtain ⟨word, later, behind, isWords, isRest, isWord, ends, spread⟩ :=
            ih.starts (Bool.eq_false_iff.2 inside)
          have longer : IsWord (c :: word) :=
            ⟨List.cons_ne_nil _ _, List.forall_mem_cons.2 ⟨visible, isWord.2⟩⟩
          rw [isWords, isRest, consFirst]
          exact .word noBlanks longer ends spread

/-- The words of a text are the words that it is spread from. -/
theorem words_eq_iff : words text = written ↔ Spread written text :=
  ⟨fun isWords => isWords ▸ spread_words text, Spread.words_eq⟩

/-! ## Trimming -/

theorem words_append_gap (isGap : IsGap gap) (text : List Char) :
    words (text ++ gap) = words text := by
  induction text with
  | nil => exact (Spread.gap isGap).words_eq
  | cons c rest ih =>
      have sameEnd : atWordEnd (rest ++ gap) = atWordEnd rest := by
        cases rest with
        | nil =>
            cases gap with
            | nil => rfl
            | cons d tail => exact isGap d List.mem_cons_self
        | cons d tail => rfl
      rw [List.cons_append, words, words, ih, sameEnd]

theorem exists_trim (text : List Char) :
    ∃ front back, IsGap front ∧ IsGap back ∧ text = front ++ (trim text ++ back) := by
  have cut {line : List Char} : IsGap (line.takeWhile isBlank) :=
    fun c member => List.mem_takeWhile_imp member
  refine ⟨text.takeWhile isBlank, ((text.dropWhile isBlank).reverse.takeWhile isBlank).reverse,
    cut, fun c member => cut c (List.mem_reverse.1 member), ?_⟩
  rw [trim, ← List.reverse_append, List.takeWhile_append_dropWhile, List.reverse_reverse,
    List.takeWhile_append_dropWhile]

theorem words_trim (text : List Char) : words (trim text) = words text := by
  obtain ⟨front, back, isFront, isBack, isText⟩ := exists_trim text
  have sameWords := congrArg words isText
  rw [words_gap_append isFront, words_append_gap isBack] at sameWords
  exact sameWords.symm

theorem isBlankOrComment_iff : isBlankOrComment text = true ↔ text = [] ∨ IsComment text := by
  unfold isBlankOrComment IsComment
  split
  · simp
  · simp
  · rename_i noComment
    simp only [Bool.false_eq_true, false_iff]
    rintro (isNil | ⟨rest, isText⟩)
    · exact absurd isNil ‹_›
    · exact noComment rest isText.symm

/-- Behind blanks that are cut off, two slashes stay in front. -/
theorem IsComment.trim_gap_append (isComment : IsComment text) (isGap : IsGap gap) :
    IsComment (trim (gap ++ text)) := by
  obtain ⟨rest, rfl⟩ := isComment
  have visible : isBlank '/' = false := by decide
  have kept : trim (gap ++ (['/', '/'] ++ rest)) =
      ((rest.reverse ++ ['/', '/']).dropWhile isBlank).reverse := by
    rw [trim, List.dropWhile_append_of_pos isGap, List.cons_append,
      List.dropWhile_cons_of_neg (by rw [visible]; exact Bool.false_ne_true)]
    simp
  rw [kept, List.dropWhile_append]
  split
  · simp [visible, IsComment]
  · simp [IsComment]

/-- A trimmed line is blank or a comment if the line declares nothing. -/
theorem isBlankOrComment_trim_iff {line : List Char} :
    isBlankOrComment (trim line) = true ↔ IsSilent line := by
  obtain ⟨front, back, isFront, isBack, isLine⟩ := exists_trim line
  rw [isBlankOrComment_iff]
  constructor
  · rintro (isNil | ⟨rest, isComment⟩)
    · rw [isNil, List.nil_append] at isLine
      rw [isLine]
      exact .inl fun c member => (List.mem_append.1 member).elim (isFront c) (isBack c)
    · refine .inr ⟨front, trim line ++ back, isLine, isFront, ?_⟩
      exact ⟨rest ++ back, by rw [← isComment, List.append_assoc]⟩
  · rintro (isGap | ⟨gap, text, rfl, isGap, isComment⟩)
    · exact .inl (by rw [trim, List.dropWhile_eq_nil_iff.2 isGap]; rfl)
    · exact .inr (isComment.trim_gap_append isGap)

instance (line : List Char) : Decidable (IsSilent line) :=
  decidable_of_iff _ isBlankOrComment_trim_iff

/-- The first word of a comment is one by itself. -/
theorem IsComment.starts (isComment : IsComment text) (spread : Spread written text) :
    ∃ word later, written = word :: later ∧ IsComment word := by
  obtain ⟨behind, rfl⟩ := isComment
  have visible : isBlank '/' = false := by decide
  obtain ⟨word, later, rest, rfl, isText, ⟨nonempty, _⟩, ends, _⟩ := spread.starts visible
  refine ⟨word, later, rfl, ?_⟩
  match word with
  | [] => exact absurd rfl nonempty
  | [c] =>
      cases isText
      rw [atWordEnd, visible] at ends
      cases ends
  | c :: d :: tail =>
      cases isText
      exact ⟨tail, rfl⟩

/-- A line declares nothing if it has no words or if its first word is a comment. -/
theorem isSilent_iff_of_spread {line : List Char} (spread : Spread written line) :
    IsSilent line ↔ ∀ first ∈ written.head?, IsComment first := by
  constructor
  · rintro (isGap | ⟨gap, text, rfl, isGap, isComment⟩)
    · cases spread.words_eq.symm.trans (Spread.gap isGap).words_eq
      exact fun first isFirst => by cases isFirst
    · have isWords := spread.words_eq
      rw [words_gap_append isGap, words_eq_iff] at isWords
      obtain ⟨word, later, rfl, isComment⟩ := isComment.starts isWords
      exact fun first isFirst => by cases isFirst; exact isComment
  · intro isFirst
    cases spread with
    | gap isGap => exact .inl isGap
    | word isGap =>
        obtain ⟨tail, isWord⟩ := isFirst _ rfl
        exact .inr ⟨_, _, rfl, isGap, _, by rw [← isWord, List.append_assoc]⟩

/-! ## Lines -/

/-- A last line need not end with a line feed. -/
theorem lines_eq_singleton {line : List Char} (single : '\n' ∉ line) (nonempty : line ≠ []) :
    lines line = [line] := by
  induction line with
  | nil => exact absurd rfl nonempty
  | cons c tail ih =>
      rw [lines, if_neg (Ne.symm (List.ne_of_not_mem_cons single))]
      by_cases last : tail = []
      · rw [last, lines, consFirst]
      · rw [ih (List.not_mem_of_not_mem_cons single) last, consFirst]

/-- Every text is lines with a line feed between neighbours. -/
theorem exists_joined (source : String) : ∃ lines, AreLines lines ∧ source = joined lines := by
  have cut (text : List Char) : ∃ first later,
      AreLines (first :: later) ∧ text = ['\n'].intercalate (first :: later) := by
    -- The first line grows by the characters in front of it, up to a line feed.
    induction text with
    | nil => exact ⟨[], [], List.forall_mem_singleton.2 List.not_mem_nil, rfl⟩
    | cons c rest ih =>
        obtain ⟨first, later, areLines, isRest⟩ := ih
        by_cases isFeed : c = '\n'
        · refine ⟨[], first :: later, List.forall_mem_cons.2 ⟨List.not_mem_nil, areLines⟩, ?_⟩
          rw [List.intercalate_cons_cons, ← isRest, isFeed]
          rfl
        · obtain ⟨single, others⟩ := List.forall_mem_cons.1 areLines
          refine ⟨c :: first, later, List.forall_mem_cons.2 ⟨?_, others⟩, ?_⟩
          · exact List.not_mem_cons_of_ne_of_not_mem (Ne.symm isFeed) single
          · rw [isRest]
            cases later with
            | nil => rw [List.intercalate_singleton, List.intercalate_singleton]
            | cons => rw [List.intercalate_cons_cons, List.intercalate_cons_cons]; rfl
  obtain ⟨first, later, areLines, isText⟩ := cut source.toList
  exact ⟨first :: later, areLines, by rw [joined, ← isText, String.ofList_toList]⟩

end ParserGenerator.Text
