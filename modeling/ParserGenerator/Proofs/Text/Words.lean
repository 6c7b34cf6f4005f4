import ParserGenerator.Text.Blank

/-!
# Lines and words that are written

A text that is put together from lines is cut into these lines again, and a line of words with a
space between neighbours is cut into these words again. Nothing is trimmed from such a line.

Results: `Text.lines_unlines`, `Text.words_spaced` and `Text.trim_spaced`.
-/

namespace ParserGenerator.Text

/-- The text can be read as one word. -/
def IsWord (word : List Char) : Prop := word ≠ [] ∧ ∀ c ∈ word, isBlank c = false

theorem isWord_iff {word : List Char} :
    IsWord word ↔ word ≠ [] ∧ (word.all fun c => !isBlank c) = true := by
  simp only [IsWord, List.all_eq_true, Bool.not_eq_true']

instance (word : List Char) : Decidable (IsWord word) := decidable_of_iff _ isWord_iff.symm

theorem isWord_of_mem_words {text word : List Char} (member : word ∈ words text) : IsWord word :=
  ⟨words_ne_nil member, mem_words_not_blank member⟩

/-- Words with a space between neighbours. -/
def spaced (words : List (List Char)) : List Char := [' '].intercalate words

/-- Lines with a line feed behind each. -/
def unlines (lines : List (List Char)) : List Char := lines.flatMap fun line => line ++ ['\n']

/-! ## Lines -/

theorem lines_append_newline {line : List Char} (single : '\n' ∉ line) (rest : List Char) :
    lines (line ++ '\n' :: rest) = line :: lines rest := by
  induction line with
  | nil => rw [List.nil_append, lines, if_pos rfl]
  | cons c tail ih =>
      rw [List.cons_append, lines, if_neg (Ne.symm (List.ne_of_not_mem_cons single)),
        ih (List.not_mem_of_not_mem_cons single), consFirst]

theorem lines_unlines {written : List (List Char)} (single : ∀ line ∈ written, '\n' ∉ line) :
    lines (unlines written) = written := by
  induction written with
  | nil => rfl
  | cons line rest ih =>
      rw [unlines, List.flatMap_cons, List.append_assoc, List.singleton_append,
        lines_append_newline (single line List.mem_cons_self)]
      exact congrArg _ (ih fun other member => single other (List.mem_cons_of_mem _ member))

/-! ## Words -/

theorem IsWord.atWordEnd_eq_false {word : List Char} (isWord : IsWord word) (rest : List Char) :
    atWordEnd (word ++ rest) = false := by
  obtain ⟨nonempty, visible⟩ := isWord
  cases word with
  | nil => exact absurd rfl nonempty
  | cons c tail => exact visible c List.mem_cons_self

/-- The first word ends where a blank or the end of the text follows it. -/
theorem words_append {word : List Char} (isWord : IsWord word) {rest : List Char}
    (ends : atWordEnd rest = true) : words (word ++ rest) = word :: words rest := by
  obtain ⟨nonempty, visible⟩ := isWord
  induction word with
  | nil => exact absurd rfl nonempty
  | cons c tail ih =>
      have notBlank : ¬ isBlank c = true := by
        rw [visible c List.mem_cons_self]
        exact Bool.false_ne_true
      rw [List.cons_append, words, if_neg notBlank]
      by_cases alone : tail = []
      · rw [alone, List.nil_append, if_pos ends]
      · have later : IsWord tail :=
          ⟨alone, fun d member => visible d (List.mem_cons_of_mem _ member)⟩
        rw [later.atWordEnd_eq_false rest, if_neg Bool.false_ne_true, ih alone later.2, consFirst]

theorem spaced_cons (word : List Char) {rest : List (List Char)} (nonempty : rest ≠ []) :
    spaced (word :: rest) = word ++ ' ' :: spaced rest := by
  rw [spaced, List.intercalate_cons_of_ne_nil nonempty, List.append_assoc]
  rfl

theorem words_spaced {written : List (List Char)} (areWords : ∀ word ∈ written, IsWord word) :
    words (spaced written) = written := by
  induction written with
  | nil => rfl
  | cons word rest ih =>
      have isWord := areWords word List.mem_cons_self
      by_cases last : rest = []
      · have alone : words (word ++ []) = word :: words [] := words_append isWord rfl
        rw [List.append_nil] at alone
        rw [last, spaced, List.intercalate_singleton, alone, words]
      · rw [spaced_cons word last, words_append isWord rfl, words, if_pos (by rfl),
          ih fun other member => areWords other (List.mem_cons_of_mem _ member)]

theorem newline_not_mem_spaced {written : List (List Char)}
    (areWords : ∀ word ∈ written, IsWord word) : '\n' ∉ spaced written := by
  induction written with
  | nil => exact List.not_mem_nil
  | cons word rest ih =>
      have visible : '\n' ∉ word := fun member => by
        have notBlank := (areWords word List.mem_cons_self).2 _ member
        exact absurd notBlank (by decide)
      by_cases last : rest = []
      · rwa [last, spaced, List.intercalate_singleton]
      · rw [spaced_cons word last, List.mem_append, List.mem_cons]
        rintro (inWord | isSpace | inRest)
        · exact visible inWord
        · exact absurd isSpace (by decide)
        · exact ih (fun other member => areWords other (List.mem_cons_of_mem _ member)) inRest

/-- Pieces without blanks are joined to a text without blanks. -/
theorem visible_intercalate {separator : List Char} {pieces : List (List Char)}
    (between : ∀ c ∈ separator, isBlank c = false)
    (visible : ∀ piece ∈ pieces, ∀ c ∈ piece, isBlank c = false) :
    ∀ c ∈ separator.intercalate pieces, isBlank c = false := by
  induction pieces with
  | nil => exact fun c member => absurd member List.not_mem_nil
  | cons piece rest ih =>
      have first := visible piece List.mem_cons_self
      by_cases last : rest = []
      · rwa [last, List.intercalate_singleton]
      · intro c member
        rw [List.intercalate_cons_of_ne_nil last, List.mem_append, List.mem_append] at member
        rcases member with (inFirst | inSeparator) | inRest
        · exact first c inFirst
        · exact between c inSeparator
        · exact ih (fun other inside => visible other (List.mem_cons_of_mem _ inside)) c inRest

/-! ## Trimming -/

theorem trim_eq_self {text : List Char} (starts : ∀ c ∈ text.head?, isBlank c = false)
    (ends : ∀ c ∈ text.getLast?, isBlank c = false) : trim text = text := by
  have keep {line : List Char} (visible : ∀ c ∈ line.head?, isBlank c = false) :
      line.dropWhile isBlank = line := by
    cases line with
    | nil => rfl
    | cons c rest => exact List.dropWhile_cons_of_neg (by simp [visible c rfl])
  rw [trim, keep starts, keep (by rwa [List.head?_reverse]), List.reverse_reverse]

theorem spaced_ne_nil {written : List (List Char)} (areWords : ∀ word ∈ written, IsWord word)
    (nonempty : written ≠ []) : spaced written ≠ [] := by
  intro empty
  have noWords := words_spaced areWords
  rw [empty] at noWords
  exact nonempty noWords.symm

theorem head?_spaced {written : List (List Char)} (areWords : ∀ word ∈ written, IsWord word) :
    ∀ c ∈ (spaced written).head?, isBlank c = false := by
  intro c isHead
  cases written with
  | nil => cases isHead
  | cons word rest =>
      obtain ⟨nonempty, visible⟩ := areWords word List.mem_cons_self
      obtain ⟨first, tail, rfl⟩ := List.exists_cons_of_ne_nil nonempty
      rw [spaced, List.intercalate_cons_cons_left] at isHead
      cases isHead
      exact visible c List.mem_cons_self

theorem getLast?_spaced {written : List (List Char)} (areWords : ∀ word ∈ written, IsWord word) :
    ∀ c ∈ (spaced written).getLast?, isBlank c = false := by
  induction written with
  | nil => exact fun c isLast => by cases isLast
  | cons word rest ih =>
      intro c isLast
      have areLater : ∀ word ∈ rest, IsWord word :=
        fun other member => areWords other (List.mem_cons_of_mem _ member)
      by_cases last : rest = []
      · rw [last, spaced, List.intercalate_singleton] at isLast
        exact (areWords word List.mem_cons_self).2 c (List.mem_of_getLast? isLast)
      · cases found : (spaced rest).getLast? with
        | none =>
            have empty := List.getLast?_eq_none_iff.1 found
            exact absurd empty (spaced_ne_nil areLater last)
        | some d =>
            rw [spaced_cons word last, Option.mem_def, List.getLast?_append, List.getLast?_cons,
              found] at isLast
            cases isLast
            exact ih areLater d found

theorem trim_spaced {written : List (List Char)} (areWords : ∀ word ∈ written, IsWord word) :
    trim (spaced written) = spaced written :=
  trim_eq_self (head?_spaced areWords) (getLast?_spaced areWords)

end ParserGenerator.Text
