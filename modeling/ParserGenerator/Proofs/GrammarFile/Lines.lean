import ParserGenerator.Proofs.Build.Named
import ParserGenerator.Proofs.Text.Layout

/-!
# The lines of grammar files

A rule over names is written on a line by its marks in any order, the left-hand side, the sign and
the right-hand side. The words stand for what they are by their places alone, so that a name may
look like a mark behind the first name, or like the sign. What is read is the rule if three kinds of
names are avoided: a mark as the left-hand side, two slashes in front of one that comes first on its
line, and the word for the empty right-hand side among others. No other lines are read as rules.

Results: `GrammarFile.readWords_eq_ok_iff` and `GrammarFile.RuleLine.isLine_iff`.
-/

namespace ParserGenerator.GrammarFile

open Text (IsSilent IsComment Spread)

variable {marks words rest : List (List Char)} {line : List Char} {rule : RuleLine}

/-! ## Definitions -/

/-- The word is one of the marks in front of a rule. -/
def IsMark (word : List Char) : Prop := word = wrapMark ∨ word = chainMark

namespace RuleLine

/-- The rule can be written on a line: its names are words, and none is taken for something else. -/
structure Writable (rule : RuleLine) : Prop where
  lhs : NameIsWord rule.lhs
  rhs : ∀ name ∈ rule.rhs, NameIsWord name
  lhs_not_mark : ¬ IsMark rule.lhs.toList
  lhs_not_comment : rule.wrap = false → rule.chain = false → ¬ IsComment rule.lhs.toList
  rhs_not_empty : ∀ name ∈ rule.rhs, name.toList ≠ emptyWord

/-- The words are the marks of the rule, its left-hand side, the sign and its right-hand side. For
one that is empty its word may stand. -/
inductive IsSpelled (rule : RuleLine) : List (List Char) → Prop
  | intro {marks right : List (List Char)} (areMarks : ∀ mark ∈ marks, IsMark mark)
      (wrap : wrapMark ∈ marks ↔ rule.wrap = true) (chain : chainMark ∈ marks ↔ rule.chain = true)
      (isRight : right = rule.rhs.map String.toList ∨ rule.rhs = [] ∧ right = [emptyWord]) :
      rule.IsSpelled (marks ++ rule.lhs.toList :: [':', '='] :: right)

/-- The rule is written on the line, with blanks between the words and around them. -/
def IsLine (rule : RuleLine) (line : List Char) : Prop :=
  rule.Writable ∧ ∃ words, rule.IsSpelled words ∧ Spread words line

end RuleLine

/-- The line declares nothing, or a rule is written on it. -/
def IsSound (line : List Char) : Prop := IsSilent line ∨ ∃ rule : RuleLine, rule.IsLine line

/-! ## Marks -/

theorem readMarks_append (areMarks : ∀ mark ∈ marks, IsMark mark)
    (ends : ∀ word ∈ rest.head?, ¬ IsMark word) (wrap chain : Bool) :
    readMarks wrap chain (marks ++ rest) =
      (wrap || decide (wrapMark ∈ marks), chain || decide (chainMark ∈ marks), rest) := by
  have differ : chainMark ≠ wrapMark := by decide
  induction marks generalizing wrap chain with
  | nil =>
      simp only [List.nil_append, List.not_mem_nil, decide_false, Bool.or_false]
      cases rest with
      | nil => rfl
      | cons word later =>
          obtain ⟨noWrap, noChain⟩ := not_or.1 (ends word rfl)
          rw [readMarks, if_neg noWrap, if_neg noChain]
  | cons mark marks ih =>
      obtain ⟨isMark, others⟩ := List.forall_mem_cons.1 areMarks
      rcases isMark with rfl | rfl
      · rw [List.cons_append, readMarks, if_pos rfl, ih others]
        simp [differ]
      · rw [List.cons_append, readMarks, if_neg differ, if_pos rfl, ih others]
        simp [differ.symm]

theorem exists_marks (words : List (List Char)) : ∃ marks rest, words = marks ++ rest ∧
    (∀ mark ∈ marks, IsMark mark) ∧ ∀ word ∈ rest.head?, ¬ IsMark word := by
  induction words with
  | nil => exact ⟨[], [], rfl, fun mark member => absurd member List.not_mem_nil,
      fun word isFirst => by cases isFirst⟩
  | cons word words ih =>
      by_cases isMark : IsMark word
      · obtain ⟨marks, rest, rfl, areMarks, ends⟩ := ih
        exact ⟨word :: marks, rest, rfl, List.forall_mem_cons.2 ⟨isMark, areMarks⟩, ends⟩
      · exact ⟨[], word :: words, rfl, fun mark member => absurd member List.not_mem_nil,
          fun first isFirst => by cases isFirst; exact isMark⟩

/-! ## Words -/

theorem map_ofList_toList (names : List String) :
    (names.map String.toList).map String.ofList = names := by
  rw [List.map_map]
  exact List.map_id'' (fun name => String.ofList_toList) names

theorem map_toList_ofList (words : List (List Char)) :
    (words.map String.ofList).map String.toList = words := by
  rw [List.map_map]
  exact List.map_id'' (fun word => String.toList_ofList) words

/-- What the words behind the marks are read as. -/
theorem readWords_append (areMarks : ∀ mark ∈ marks, IsMark mark) {lhs : String}
    (noMark : ¬ IsMark lhs.toList) (right : List (List Char)) :
    readWords (marks ++ lhs.toList :: [':', '='] :: right) =
      if right = [emptyWord] then
        .ok ⟨decide (wrapMark ∈ marks), decide (chainMark ∈ marks), lhs, []⟩
      else if emptyWord ∈ right then .error .emptyWordAmongOthers
      else .ok ⟨decide (wrapMark ∈ marks), decide (chainMark ∈ marks), lhs,
        right.map String.ofList⟩ := by
  have ends : ∀ word ∈ (lhs.toList :: [':', '='] :: right).head?, ¬ IsMark word :=
    fun word isFirst => by cases isFirst; exact noMark
  rw [readWords, readMarks_append areMarks ends]
  simp only [Bool.false_or, String.ofList_toList]

theorem sign_of_readWords (areMarks : ∀ mark ∈ marks, IsMark mark)
    (ends : ∀ word ∈ rest.head?, ¬ IsMark word) (read : readWords (marks ++ rest) = .ok rule) :
    ∃ (lhs : String) (right : List (List Char)), rest = lhs.toList :: [':', '='] :: right := by
  rw [readWords, readMarks_append areMarks ends] at read
  cases rest with
  | nil => cases read
  | cons lhs behind =>
      dsimp only at read
      split at read
      · exact ⟨String.ofList lhs, _, by rw [String.toList_ofList]⟩
      · cases read

/-- Words are read as a rule if it is spelled by them, no mark is its left-hand side and the word for
the empty right-hand side is not among its names. -/
theorem readWords_eq_ok_iff : readWords words = .ok rule ↔
    rule.IsSpelled words ∧ ¬ IsMark rule.lhs.toList ∧
      ∀ name ∈ rule.rhs, name.toList ≠ emptyWord := by
  constructor
  · intro read
    obtain ⟨marks, rest, rfl, areMarks, ends⟩ := exists_marks words
    obtain ⟨lhs, right, rfl⟩ := sign_of_readWords areMarks ends read
    have noMark : ¬ IsMark lhs.toList := ends _ rfl
    have marked {mark : List Char} : mark ∈ marks ↔ decide (mark ∈ marks) = true :=
      decide_eq_true_iff.symm
    rw [readWords_append areMarks noMark] at read
    split at read
    · rename_i isEmpty
      cases read
      exact ⟨.intro areMarks marked marked (.inr ⟨rfl, isEmpty⟩), noMark,
        fun name member => absurd member List.not_mem_nil⟩
    · split at read
      · cases read
      · rename_i noEmpty
        cases read
        refine ⟨.intro areMarks marked marked (.inl (map_toList_ofList right).symm), noMark, ?_⟩
        intro name member isEmpty
        obtain ⟨word, inRight, rfl⟩ := List.mem_map.1 member
        rw [String.toList_ofList] at isEmpty
        exact noEmpty (isEmpty ▸ inRight)
  · rintro ⟨@⟨marks, right, areMarks, isWrap, isChain, isRight⟩, noMark, noEmpty⟩
    have sameWrap : decide (wrapMark ∈ marks) = rule.wrap :=
      Bool.eq_iff_iff.2 (decide_eq_true_iff.trans isWrap)
    have sameChain : decide (chainMark ∈ marks) = rule.chain :=
      Bool.eq_iff_iff.2 (decide_eq_true_iff.trans isChain)
    rw [readWords_append areMarks noMark, sameWrap, sameChain]
    rcases isRight with rfl | ⟨isEmpty, rfl⟩
    · have absent : emptyWord ∉ rule.rhs.map String.toList := fun member => by
        obtain ⟨name, inRhs, isEmpty⟩ := List.mem_map.1 member
        exact noEmpty name inRhs isEmpty
      have others : rule.rhs.map String.toList ≠ [emptyWord] := fun same =>
        absent (same ▸ List.mem_cons_self)
      rw [if_neg others, if_neg absent, map_ofList_toList]
    · rw [if_pos rfl, ← isEmpty]

/-! ## Lines -/

namespace RuleLine

theorem IsSpelled.lhs_mem (spelled : rule.IsSpelled words) : rule.lhs.toList ∈ words := by
  cases spelled
  exact List.mem_append_right _ List.mem_cons_self

theorem IsSpelled.rhs_mem (spelled : rule.IsSpelled words) {name : String}
    (member : name ∈ rule.rhs) : name.toList ∈ words := by
  obtain ⟨_, _, _, isRight | ⟨isEmpty, _⟩⟩ := spelled
  · refine List.mem_append_right _ (List.mem_cons_of_mem _ (List.mem_cons_of_mem _ ?_))
    rw [isRight]
    exact List.mem_map_of_mem member
  · rw [isEmpty] at member
    exact absurd member List.not_mem_nil

theorem not_isComment_of_isMark {mark : List Char} (isMark : IsMark mark) : ¬ IsComment mark := by
  unfold IsComment
  rcases isMark with rfl | rfl <;> decide

/-- The words of a rule look like a comment if no mark is in front of a left-hand side that does. -/
theorem IsSpelled.isComment_iff (spelled : rule.IsSpelled words) :
    (∀ first ∈ words.head?, IsComment first) ↔
      rule.wrap = false ∧ rule.chain = false ∧ IsComment rule.lhs.toList := by
  obtain @⟨marks, right, areMarks, isWrap, isChain, _⟩ := spelled
  cases marks with
  | nil =>
      have noWrap : rule.wrap = false := Bool.eq_false_iff.2 fun set => by cases isWrap.2 set
      have noChain : rule.chain = false := Bool.eq_false_iff.2 fun set => by cases isChain.2 set
      simp [noWrap, noChain]
  | cons mark marks =>
      have isMark := areMarks mark List.mem_cons_self
      have marked : ¬ (rule.wrap = false ∧ rule.chain = false) := by
        rintro ⟨noWrap, noChain⟩
        rw [noWrap] at isWrap
        rw [noChain] at isChain
        rcases isMark with rfl | rfl
        · cases isWrap.1 List.mem_cons_self
        · cases isChain.1 List.mem_cons_self
      constructor
      · exact fun isFirst => absurd (isFirst mark rfl) (not_isComment_of_isMark isMark)
      · exact fun ⟨noWrap, noChain, _⟩ => absurd ⟨noWrap, noChain⟩ marked

/-- A rule is written on the line if the line declares something and its words are read as the
rule. -/
theorem isLine_iff :
    rule.IsLine line ↔ ¬ IsSilent line ∧ readWords (Text.words line) = .ok rule := by
  constructor
  · rintro ⟨writable, words, spelled, spread⟩
    rw [Text.isSilent_iff_of_spread spread, spelled.isComment_iff, spread.words_eq,
      readWords_eq_ok_iff]
    exact ⟨fun ⟨noWrap, noChain, isComment⟩ => writable.lhs_not_comment noWrap noChain isComment,
      spelled, writable.lhs_not_mark, writable.rhs_not_empty⟩
  · rintro ⟨notSilent, read⟩
    have spread := Text.spread_words line
    obtain ⟨spelled, noMark, noEmpty⟩ := readWords_eq_ok_iff.1 read
    rw [Text.isSilent_iff_of_spread spread, spelled.isComment_iff] at notSilent
    exact ⟨{
      lhs := Text.isWord_of_mem_words spelled.lhs_mem
      rhs := fun name member => Text.isWord_of_mem_words (spelled.rhs_mem member)
      lhs_not_mark := noMark
      lhs_not_comment := fun noWrap noChain isComment => notSilent ⟨noWrap, noChain, isComment⟩
      rhs_not_empty := noEmpty }, _, spelled, spread⟩

instance (rule : RuleLine) (line : List Char) : Decidable (rule.IsLine line) :=
  decidable_of_iff _ isLine_iff.symm

end RuleLine

/-- A line is not sound if it declares something and its words are read with a fault. -/
theorem not_isSound_iff : ¬ IsSound line ↔
    ¬ IsSilent line ∧ ∃ fault, readWords (Text.words line) = .error fault := by
  unfold IsSound
  by_cases isSilent : IsSilent line
  · simp [isSilent]
  · cases read : readWords (Text.words line) with
    | ok rule => simpa [isSilent] using ⟨rule, RuleLine.isLine_iff.2 ⟨isSilent, read⟩⟩
    | error fault => simp [isSilent, RuleLine.isLine_iff, read]

end ParserGenerator.GrammarFile
