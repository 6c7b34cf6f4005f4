/-!
# Blank characters, words and lines

Rule files are read line by line and word by word. A blank is a character with the Unicode
property White_Space. Words are the maximal runs of characters that are no blanks; lines end with
a line feed, and a last line need not. A carriage return before the line feed stays at the end of
its line, where it is a blank like any other.

Results: `mem_words_not_blank` and `words_ne_nil`, that a word is not empty and holds no blank.
-/

namespace ParserGenerator.Text

/-- The characters with the property White_Space. -/
def isBlank (c : Char) : Bool :=
  let code := c.toNat
  (9 ≤ code && code ≤ 13) || code == 0x20 || code == 0x85 || code == 0xA0 || code == 0x1680 ||
  (0x2000 ≤ code && code ≤ 0x200A) || code == 0x2028 || code == 0x2029 || code == 0x202F ||
  code == 0x205F || code == 0x3000

/-- Puts a character in front of the first piece, or opens one. -/
def consFirst (c : Char) : List (List Char) → List (List Char)
  | [] => [[c]]
  | piece :: pieces => (c :: piece) :: pieces

/-- The lines of a text, without their line feeds. -/
def lines : List Char → List (List Char)
  | [] => []
  | c :: rest => if c = '\n' then [] :: lines rest else consFirst c (lines rest)

/-- Whether a text is at a word's end: it is empty or starts with a blank. -/
def atWordEnd : List Char → Bool
  | [] => true
  | c :: _ => isBlank c

/-- The words of a text. -/
def words : List Char → List (List Char)
  | [] => []
  | c :: rest =>
      if isBlank c then words rest
      else if atWordEnd rest then [c] :: words rest
      else consFirst c (words rest)

/-- Cuts the blanks off both ends. -/
def trim (text : List Char) : List Char :=
  ((text.dropWhile isBlank).reverse.dropWhile isBlank).reverse

/-- Whether a trimmed line of a rule file declares nothing: it is empty or a comment. -/
def isBlankOrComment : List Char → Bool
  | [] => true
  | '/' :: '/' :: _ => true
  | _ => false

theorem mem_words_not_blank {text word : List Char} (member : word ∈ words text) :
    ∀ c ∈ word, isBlank c = false := by
  induction text generalizing word with
  | nil => simp [words] at member
  | cons c rest ih =>
      by_cases blank : isBlank c = true
      · simp only [words, blank, if_true] at member
        exact ih member
      have notBlank : isBlank c = false := by simpa using blank
      by_cases alone : atWordEnd rest = true
      · simp only [words, notBlank, alone, if_true, Bool.false_eq_true, if_false] at member
        rcases List.mem_cons.1 member with equal | inRest
        · simp [equal, notBlank]
        · exact ih inRest
      · simp only [words, notBlank, alone, Bool.false_eq_true, if_false] at member
        cases rests : words rest with
        | nil =>
            rw [rests] at member
            simp [List.mem_singleton.1 member, notBlank]
        | cons first later =>
            rw [rests] at member ih
            rcases List.mem_cons.1 member with equal | inRest
            · subst equal
              simpa [notBlank] using ih List.mem_cons_self
            · exact ih (List.mem_cons_of_mem _ inRest)

theorem words_ne_nil {text word : List Char} (member : word ∈ words text) : word ≠ [] := by
  induction text generalizing word with
  | nil => simp [words] at member
  | cons c rest ih =>
      simp only [words] at member
      split at member
      · exact ih member
      · split at member
        · rcases List.mem_cons.1 member with equal | inRest
          · simp [equal]
          · exact ih inRest
        · cases rests : words rest with
          | nil => simp_all [consFirst]
          | cons first later =>
              rw [rests] at member
              rcases List.mem_cons.1 member with equal | inRest
              · simp [equal]
              · exact ih (rests ▸ List.mem_cons_of_mem _ inRest)

example : lines "a\n\nb".toList = ["a".toList, [], "b".toList] := by decide

example : words " ab  c ".toList = ["ab".toList, "c".toList] := by decide

end ParserGenerator.Text
