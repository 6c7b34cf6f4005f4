import ParserGenerator.Lexer
import ParserGenerator.Proofs.Regex.Stacks

/-!
# The grammar of patterns

A pattern is a choice between branches, a branch is a row of factors, and a factor is an atom with
the repetitions behind it. `Regex.IsPattern` says which texts are patterns and which regular
expression each of them stands for, with no regard to how they are read. `Regex.Offends` says what
the first offence in a text is: the text in front of it is clean, which means that it only lacks
the ends of some groups.

The reader goes over a text from left to right, and its stacks hold the groups that are open. On a
clean text it comes to the groups that are open there (`IsClean.readText`), a text that goes on
behind a clean one either keeps it clean or offends, and so each text is a pattern or offends
(`pattern_or_offends`).

Results: `Regex.parse_eq_iff`.
-/

namespace ParserGenerator.Regex

open Lexer (byteLength byteLength_append)

/-! ## Definitions -/

/-- What a backslash and a character stand for. -/
inductive Escapes : Char → CharSet → Prop
  | word : Escapes 'w' CharSet.word
  | letter : Escapes 'l' CharSet.letter
  | digit : Escapes 'd' CharSet.digit
  | space : Escapes 's' CharSet.space
  | newline : Escapes 'n' (OrderedSet.singleton '\n')
  | tab : Escapes 't' (OrderedSet.singleton '\t')
  | itself {c : Char} (noName : c ∉ ['w', 'l', 'd', 's', 'n', 't']) :
      Escapes c (OrderedSet.singleton c)

/-- The text of a member of a class and the characters that it adds. -/
inductive IsMember : List Char → CharSet → Prop
  | escape {c : Char} {set : CharSet} (means : Escapes c set) : IsMember ['\\', c] set
  | char {c : Char} (notEnd : c ≠ ']') (notEscape : c ≠ '\\') :
      IsMember [c] (OrderedSet.singleton c)

/-- The text of some members of a class, one after the other. -/
inductive AreMembers : List Char → List CharSet → Prop
  | nil : AreMembers [] []
  | cons {text more : List Char} {set : CharSet} {sets : List CharSet} (first : IsMember text set)
      (rest : AreMembers more sets) : AreMembers (text ++ more) (set :: sets)

/-- The text behind the bracket that opens a class, with whether it negates the class and with its
members. A caret in front always negates. -/
inductive IsClass : List Char → Bool → List CharSet → Prop
  | positive {text : List Char} {sets : List CharSet} (members : AreMembers text sets)
      (noCaret : text.head? ≠ some '^') : IsClass text false sets
  | negative {text : List Char} {sets : List CharSet} (members : AreMembers text sets) :
      IsClass ('^' :: text) true sets

/-- The character is in the union of the sets, or in the complement of the union. -/
def ClassHas (negated : Bool) (sets : List CharSet) (c : Char) : Prop :=
  if negated then c ∈ CharSet.all ∧ ∀ set ∈ sets, c ∉ set else ∃ set ∈ sets, c ∈ set

/-- The signs of repetition. -/
inductive Repeats : Char → (Regex → Regex) → Prop
  | star : Repeats '*' Regex.star
  | plus : Repeats '+' Regex.plus
  | optional : Repeats '?' Regex.optional

mutual
/-- The text of a branch or of several branches with bars between them. -/
inductive IsChoice : List Char → List Regex → Prop
  | first {text : List Char} {factors : List Regex} (branch : IsBranch text factors) :
      IsChoice text [.concat factors]
  | more {text last : List Char} {branches factors : List Regex} (before : IsChoice text branches)
      (branch : IsBranch last factors) :
      IsChoice (text ++ '|' :: last) (branches ++ [.concat factors])

/-- The text of factors in a row. -/
inductive IsBranch : List Char → List Regex → Prop
  | nil : IsBranch [] []
  | snoc {text last : List Char} {factors : List Regex} {factor : Regex}
      (before : IsBranch text factors) (repeated : IsFactor last factor) :
      IsBranch (text ++ last) (factors ++ [factor])

/-- The text of an atom with the repetitions behind it. -/
inductive IsFactor : List Char → Regex → Prop
  | atom {text : List Char} {regex : Regex} (atom : IsAtom text regex) : IsFactor text regex
  | repeated {text : List Char} {regex : Regex} {sign : Char} {repetition : Regex → Regex}
      (once : IsFactor text regex) (repeats : Repeats sign repetition) :
      IsFactor (text ++ [sign]) (repetition regex)

/-- The text of a group or of a set of characters. -/
inductive IsAtom : List Char → Regex → Prop
  | group {text : List Char} {branches : List Regex} (inside : IsChoice text branches) :
      IsAtom ('(' :: text ++ [')']) (choice branches)
  | any : IsAtom ['.'] (.leaf CharSet.all)
  | escape {c : Char} {set : CharSet} (means : Escapes c set) : IsAtom ['\\', c] (.leaf set)
  | chars {text : List Char} {negated : Bool} {sets : List CharSet} {set : CharSet}
      (members : IsClass text negated sets) (nonempty : sets ≠ [])
      (has : ∀ c, c ∈ set ↔ ClassHas negated sets c) : IsAtom ('[' :: text ++ [']']) (.leaf set)
  | char {c : Char} (plain : c ∉ metaCharacters) : IsAtom [c] (.leaf (OrderedSet.singleton c))
end

/-- The text is a pattern for the regular expression. -/
def IsPattern (text : List Char) (regex : Regex) : Prop :=
  ∃ branches, IsChoice text branches ∧ regex = choice branches

/-- A text that only lacks the ends of groups: derived texts with an open parenthesis between them.
The offsets are those of the open parentheses, the innermost first. -/
inductive IsClean : List Char → List Nat → Prop
  | outside {text : List Char} {branches : List Regex} (inside : IsChoice text branches) :
      IsClean text []
  | group {front text : List Char} {opened : List Nat} {branches : List Regex}
      (before : IsClean front opened) (inside : IsChoice text branches) :
      IsClean (front ++ '(' :: text) (byteLength front :: opened)

/-- A branch begins at the end of the text: there is no factor in front of it to repeat. -/
inductive BeginsBranch : List Char → Prop
  | start : BeginsBranch []
  | group {front : List Char} {opened : List Nat} (clean : IsClean front opened) :
      BeginsBranch (front ++ ['('])
  | bar {front : List Char} {opened : List Nat} (clean : IsClean front opened) :
      BeginsBranch (front ++ ['|'])

/-- The first offence of a text that is no pattern. -/
inductive Offends : List Char → PatternError → Prop
  | unmatchedParen {front rest : List Char} (clean : IsClean front []) :
      Offends (front ++ ')' :: rest) ⟨.unmatchedParen, byteLength front⟩
  | unclosedGroup {text : List Char} {position : Nat} {opened : List Nat}
      (clean : IsClean text (position :: opened)) : Offends text ⟨.unclosedGroup, position⟩
  | nothingToRepeat {front rest : List Char} {sign : Char} {repetition : Regex → Regex}
      (begins : BeginsBranch front) (repeats : Repeats sign repetition) :
      Offends (front ++ sign :: rest) ⟨.nothingToRepeat, byteLength front⟩
  | danglingEscape {front : List Char} {opened : List Nat} (clean : IsClean front opened) :
      Offends (front ++ ['\\']) ⟨.danglingEscape, byteLength front⟩
  | unmatchedBracket {front rest : List Char} {opened : List Nat} (clean : IsClean front opened) :
      Offends (front ++ ']' :: rest) ⟨.unmatchedBracket, byteLength front⟩
  | emptyClass {front text rest : List Char} {opened : List Nat} {negated : Bool}
      (clean : IsClean front opened) (empty : IsClass text negated []) :
      Offends (front ++ '[' :: (text ++ ']' :: rest)) ⟨.emptyClass, byteLength front⟩
  | unterminatedClass {front text : List Char} {opened : List Nat} {negated : Bool}
      {sets : List CharSet} (clean : IsClean front opened) (members : IsClass text negated sets) :
      Offends (front ++ '[' :: text) ⟨.unterminatedClass, byteLength front⟩
  | danglingInClass {front text : List Char} {opened : List Nat} {negated : Bool}
      {sets : List CharSet} (clean : IsClean front opened) (members : IsClass text negated sets) :
      Offends (front ++ '[' :: (text ++ ['\\']))
        ⟨.danglingEscape, byteLength (front ++ '[' :: text)⟩

/-! ## Steps of the reader -/

theorem readClass_nil (opened : Nat) (negated : Bool) (read : CharSet) (position : Nat) :
    readClass opened negated false read position [] = .error ⟨.unterminatedClass, opened⟩ := rfl

theorem readClass_dangling (opened : Nat) (negated : Bool) (read : CharSet) (position : Nat) :
    readClass opened negated false read position ['\\'] = .error ⟨.danglingEscape, position⟩ := rfl

theorem readClass_escape (opened : Nat) (negated : Bool) (read : CharSet) (position : Nat)
    (c : Char) (rest : List Char) :
    readClass opened negated false read position ('\\' :: c :: rest) =
      readClass opened negated false (read ∪ escapedSet c) (position + 1 + c.utf8Size) rest := rfl

theorem readClass_end (opened : Nat) (negated : Bool) (read : CharSet) (position : Nat)
    (rest : List Char) :
    readClass opened negated false read position (']' :: rest) =
      if read.isEmpty then .error ⟨.emptyClass, opened⟩
      else .ok (if negated then read.complement else read, position + 1, rest) := by
  rw [readClass.eq_def]
  rfl

theorem readClass_char (opened : Nat) (negated : Bool) (read : CharSet) (position : Nat)
    {c : Char} (rest : List Char) (notEnd : c ≠ ']') (notEscape : c ≠ '\\') :
    readClass opened negated false read position (c :: rest) =
      readClass opened negated false (read.insert c) (position + c.utf8Size) rest := by
  rw [readClass.eq_def]
  dsimp only
  rw [if_neg (fun both => Bool.false_ne_true both.2), if_neg notEnd, if_neg notEscape]

theorem readClass_caret (opened : Nat) (read : CharSet) (position : Nat) (rest : List Char) :
    readClass opened false true read position ('^' :: rest) =
      readClass opened true false read (position + 1) rest := by
  rw [readClass.eq_def]
  rfl

/-- Only a caret is read in another way when it comes first. -/
theorem readClass_first (opened : Nat) (negated : Bool) (read : CharSet) (position : Nat)
    {text : List Char} (noCaret : text.head? ≠ some '^') :
    readClass opened negated true read position text =
      readClass opened negated false read position text := by
  cases text with
  | nil => rfl
  | cons c rest =>
      have other : c ≠ '^' := fun same => noCaret (same ▸ rfl)
      rw [readClass.eq_def opened negated true, readClass.eq_def opened negated false]
      dsimp only
      rw [if_neg fun both : c = '^' ∧ true = true => other both.1,
        if_neg fun both : c = '^' ∧ false = true => other both.1]

section

variable (state : Stacks) (position : Nat)

theorem readText_nil : readText state position [] = state.finish := by rw [readText]

theorem readText_class (rest : List Char) :
    readText state position ('[' :: rest) =
      match readClass position false true ∅ (position + 1) rest with
      | .error error => .error error
      | .ok (set, past, behind) => readText (state.append (.leaf set)) past behind := by
  rw [readText.eq_def]
  dsimp only
  rw [if_neg (by decide), if_pos rfl]
  split <;> rename_i isClass <;> rw [isClass]

theorem readText_escape (c : Char) (rest : List Char) :
    readText state position ('\\' :: c :: rest) =
      readText (state.append (.leaf (escapedSet c))) (position + 1 + c.utf8Size) rest := by
  rw [readText.eq_def]
  rfl

theorem readText_dangling :
    readText state position ['\\'] = .error ⟨.danglingEscape, position⟩ := by
  rw [readText.eq_def]
  rfl

theorem readText_char {c : Char} (rest : List Char) (notEscape : c ≠ '\\') (noClass : c ≠ '[') :
    readText state position (c :: rest) =
      match state.read position c with
      | .error error => .error error
      | .ok state => readText state (position + c.utf8Size) rest := by
  refine (readText.eq_def state position (c :: rest)).trans ?_
  exact (if_neg notEscape).trans (if_neg noClass)

end

/-! ## Escapes and classes -/

theorem escapes_escapedSet (c : Char) : Escapes c (escapedSet c) := by
  unfold escapedSet
  split
  · exact .word
  · exact .letter
  · exact .digit
  · exact .space
  · exact .newline
  · exact .tab
  · exact .itself (by simp_all)

theorem Escapes.eq {c : Char} {set : CharSet} (means : Escapes c set) : set = escapedSet c := by
  cases means with
  | word | letter | digit | space | newline | tab => rfl
  | itself noName =>
      unfold escapedSet
      split <;> simp_all

theorem Escapes.exists_mem {c : Char} {set : CharSet} (means : Escapes c set) : ∃ x, x ∈ set := by
  cases means with
  | word => exact ⟨'_', OrderedSet.contains_iff.1 (by decide)⟩
  | letter => exact ⟨'a', OrderedSet.contains_iff.1 (by decide)⟩
  | digit => exact ⟨'0', OrderedSet.contains_iff.1 (by decide)⟩
  | space => exact ⟨' ', OrderedSet.contains_iff.1 (by decide)⟩
  | newline | tab | itself => exact ⟨_, OrderedSet.mem_singleton.2 rfl⟩

theorem IsMember.exists_mem {text : List Char} {set : CharSet} (member : IsMember text set) :
    ∃ x, x ∈ set := by
  cases member with
  | escape means => exact means.exists_mem
  | char => exact ⟨_, OrderedSet.mem_singleton.2 rfl⟩

/-- The reader of a class comes behind a member with the characters of the member. -/
theorem IsMember.readClass {text : List Char} {set : CharSet} (member : IsMember text set)
    (opened : Nat) (negated : Bool) (read : CharSet) (position : Nat) (rest : List Char) :
    ∃ next, (∀ c, c ∈ next ↔ c ∈ read ∨ c ∈ set) ∧
      readClass opened negated false read position (text ++ rest) =
        readClass opened negated false next (position + byteLength text) rest := by
  cases member with
  | escape means =>
      refine ⟨read ∪ set, fun c => OrderedSet.mem_union, ?_⟩
      cases means.eq
      rw [List.cons_append, List.singleton_append, readClass_escape, Nat.add_assoc]
      rfl
  | @char c notEnd notEscape =>
      refine ⟨read.insert c, fun x => ?_, ?_⟩
      · rw [OrderedSet.mem_insert, OrderedSet.mem_singleton, or_comm]
      · exact readClass_char opened negated read position rest notEnd notEscape

theorem AreMembers.readClass {text : List Char} {sets : List CharSet}
    (members : AreMembers text sets) (opened : Nat) (negated : Bool) (read : CharSet)
    (position : Nat) (rest : List Char) :
    ∃ next, (∀ c, c ∈ next ↔ c ∈ read ∨ ∃ set ∈ sets, c ∈ set) ∧
      readClass opened negated false read position (text ++ rest) =
        readClass opened negated false next (position + byteLength text) rest := by
  induction members generalizing read position with
  | nil => exact ⟨read, by simp, rfl⟩
  | @cons text more set sets first _ ih =>
      obtain ⟨next, has, readFirst⟩ :=
        first.readClass opened negated read position (more ++ rest)
      obtain ⟨last, hasAll, readRest⟩ := ih next (position + byteLength text)
      refine ⟨last, fun c => ?_, ?_⟩
      · rw [hasAll, has]
        simp [or_assoc]
      · rw [List.append_assoc, readFirst, readRest, byteLength_append, Nat.add_assoc]

/-- The reader comes behind the text of a class with the characters of its members. -/
theorem IsClass.readClass {text : List Char} {negated : Bool} {sets : List CharSet}
    (members : IsClass text negated sets) (opened : Nat) (rest : List Char)
    (noCaret : rest.head? ≠ some '^') :
    ∃ read, (∀ c, c ∈ read ↔ ∃ set ∈ sets, c ∈ set) ∧
      readClass opened false true ∅ (opened + 1) (text ++ rest) =
        readClass opened negated false read (opened + byteLength ('[' :: text)) rest := by
  cases members with
  | positive members noFirstCaret =>
      obtain ⟨read, has, isRead⟩ := members.readClass opened false ∅ (opened + 1) rest
      refine ⟨read, by simpa using has, ?_⟩
      have noSign : (text ++ rest).head? ≠ some '^' := by
        cases text with
        | nil => exact noCaret
        | cons c text => exact noFirstCaret
      rw [readClass_first opened false ∅ _ noSign, isRead, Nat.add_assoc]
      rfl
  | @negative text sets members =>
      obtain ⟨read, has, isRead⟩ := members.readClass opened true ∅ (opened + 1 + 1) rest
      refine ⟨read, by simpa using has, ?_⟩
      rw [List.cons_append, readClass_caret, isRead, Nat.add_assoc, Nat.add_assoc]
      rfl

/-- A class with members ends with its set. -/
theorem readClass_of_has {negated : Bool} {sets : List CharSet} {read set : CharSet}
    (union : ∀ c, c ∈ read ↔ ∃ set ∈ sets, c ∈ set) (has : ∀ c, c ∈ set ↔ ClassHas negated sets c)
    (nonempty : ∃ c, c ∈ read) (opened position : Nat) (rest : List Char) :
    readClass opened negated false read position (']' :: rest) =
      .ok (set, position + 1, rest) := by
  obtain ⟨c, member⟩ := nonempty
  have some : read.isEmpty = false := by
    rw [OrderedSet.isEmpty, List.isEmpty_eq_false_iff]
    exact List.ne_nil_of_mem member
  have isSet : (if negated then read.complement else read) = set := by
    apply OrderedSet.ext_mem
    intro x
    rw [has, ClassHas]
    cases negated with
    | false => exact union x
    | true =>
        rw [if_pos rfl, if_pos rfl, CharSet.mem_complement, union]
        simp
  rw [readClass_end, some, if_neg Bool.false_ne_true, isSet]

/-- The set of a class with the given members. -/
theorem exists_classSet (negated : Bool) (sets : List CharSet) :
    ∃ set : CharSet, ∀ c, c ∈ set ↔ ClassHas negated sets c := by
  have union : ∃ all : CharSet, ∀ c, c ∈ all ↔ ∃ set ∈ sets, c ∈ set := by
    induction sets with
    | nil => exact ⟨∅, by simp⟩
    | cons set sets ih =>
        obtain ⟨all, has⟩ := ih
        exact ⟨set ∪ all, fun c => by rw [OrderedSet.mem_union, has]; simp⟩
  obtain ⟨all, has⟩ := union
  cases negated with
  | false => exact ⟨all, has⟩
  | true =>
      refine ⟨all.complement, fun c => ?_⟩
      rw [CharSet.mem_complement, has, ClassHas, if_pos rfl]
      simp

theorem IsClass.exists_mem {text : List Char} {negated : Bool} {sets : List CharSet}
    (members : IsClass text negated sets) (nonempty : sets ≠ []) : ∃ c, ∃ set ∈ sets, c ∈ set := by
  have some : ∀ text, AreMembers text sets → ∃ c, ∃ set ∈ sets, c ∈ set := by
    intro text members
    cases members with
    | nil => exact absurd rfl nonempty
    | cons first =>
        obtain ⟨c, member⟩ := first.exists_mem
        exact ⟨c, _, List.mem_cons_self, member⟩
  cases members with
  | positive members => exact some _ members
  | negative members => exact some _ members

/-! ## Derived texts are read -/

theorem Repeats.read {sign : Char} {repetition : Regex → Regex}
    (repeats : Repeats sign repetition) :
    sign ≠ '\\' ∧ sign ≠ '[' ∧ ∀ (state : Stacks) (position : Nat),
      state.read position sign = state.repeatLast position repetition := by
  cases repeats <;> exact ⟨by decide, by decide, fun _ _ => rfl⟩

theorem read_plain {c : Char} (plain : c ∉ metaCharacters) :
    c ≠ '\\' ∧ c ≠ '[' ∧ ∀ (state : Stacks) (position : Nat),
      state.read position c = .ok (state.append (.leaf (OrderedSet.singleton c))) := by
  simp only [metaCharacters, List.mem_cons, List.not_mem_nil, or_false, not_or] at plain
  refine ⟨by simp [plain], by simp [plain], fun state position => ?_⟩
  unfold Stacks.read
  split <;> simp_all

/-- The reader comes behind the text with a change to the group that it is in. -/
def ReadAs (text : List Char) (change : Group → Group) : Prop :=
  ∀ (group : Group) (outer : List (Nat × Group)) (position : Nat) (rest : List Char),
    readText (.holding group outer) position (text ++ rest) =
      readText (.holding (change group) outer) (position + byteLength text) rest

/-- From the beginning of a group, the reader comes behind the text with the branches, the last of
which can go on. -/
def ReadAsBranches (text : List Char) (branches : List Regex) : Prop :=
  ∃ finished factors, branches = (finished ++ [factors]).map .concat ∧
    ∀ (outer : List (Nat × Group)) (position : Nat) (rest : List Char),
      readText (.holding .empty outer) position (text ++ rest) =
        readText (.holding ⟨finished, factors.reverse⟩ outer) (position + byteLength text) rest

/-- Adds factors to the last branch. -/
def Group.addAll (group : Group) (factors : List Regex) : Group :=
  { group with factors := factors.reverse ++ group.factors }

/-! One lemma for each way to derive a text. -/

theorem readAsBranches_first {text : List Char} {factors : List Regex}
    (branch : ReadAs text (·.addAll factors)) : ReadAsBranches text [.concat factors] := by
  refine ⟨[], factors, rfl, fun outer position rest => ?_⟩
  rw [branch]
  simp [Group.addAll, Group.empty]

theorem ReadAsBranches.more {text last : List Char} {branches factors : List Regex}
    (before : ReadAsBranches text branches) (branch : ReadAs last (·.addAll factors)) :
    ReadAsBranches (text ++ '|' :: last) (branches ++ [.concat factors]) := by
  obtain ⟨finished, earlier, rfl, read⟩ := before
  refine ⟨finished ++ [earlier], factors, by simp, fun outer position rest => ?_⟩
  have isSplit : (Group.split ⟨finished, earlier.reverse⟩).addAll factors =
      ⟨finished ++ [earlier], factors.reverse⟩ := by
    simp [Group.split, Group.addAll]
  have isLength : byteLength (text ++ '|' :: last) = byteLength text + (1 + byteLength last) :=
    byteLength_append _ _
  rw [List.append_assoc, read, List.cons_append,
    readText_char _ _ _ (by decide) (by decide), Stacks.read]
  dsimp only
  rw [Stacks.alternation_holding, branch]
  dsimp only
  rw [isSplit, isLength, ← Nat.add_assoc, ← Nat.add_assoc]
  rfl

theorem readAs_nil : ReadAs [] (·.addAll []) := fun _ _ _ _ => rfl

theorem ReadAs.snoc {text last : List Char} {factors : List Regex} {factor : Regex}
    (before : ReadAs text (·.addAll factors)) (after : ReadAs last (·.add factor)) :
    ReadAs (text ++ last) (·.addAll (factors ++ [factor])) := by
  intro group outer position rest
  rw [List.append_assoc, before, after, byteLength_append, Nat.add_assoc]
  simp [Group.addAll, Group.add]

theorem ReadAs.repeated {text : List Char} {regex : Regex} {sign : Char}
    {repetition : Regex → Regex} (once : ReadAs text (·.add regex))
    (repeats : Repeats sign repetition) :
    ReadAs (text ++ [sign]) (·.add (repetition regex)) := by
  intro group outer position rest
  obtain ⟨notEscape, noClass, isRead⟩ := repeats.read
  rw [List.append_assoc, once, List.singleton_append, readText_char _ _ rest notEscape noClass,
    isRead, Stacks.repeatLast_holding, byteLength_append, ← Nat.add_assoc]
  rfl

theorem ReadAsBranches.group {text : List Char} {branches : List Regex}
    (inside : ReadAsBranches text branches) :
    ReadAs ('(' :: text ++ [')']) (·.add (choice branches)) := by
  intro group outer position rest
  obtain ⟨finished, factors, rfl, read⟩ := inside
  have isClosed : Group.close ⟨finished, factors.reverse⟩ =
      choice ((finished ++ [factors]).map .concat) := by
    rw [Group.close, List.reverse_reverse]
  have isLength : byteLength ('(' :: text ++ [')']) = 1 + byteLength text + 1 := by
    rw [byteLength_append]
    rfl
  rw [List.append_assoc, List.cons_append, readText_char _ _ _ (by decide) (by decide),
    Stacks.read_open]
  dsimp only
  rw [read, List.singleton_append, readText_char _ _ rest (by decide) (by decide),
    Stacks.read_close, isLength, ← Nat.add_assoc, ← Nat.add_assoc, ← isClosed]
  rfl

theorem readAs_any : ReadAs ['.'] (·.add (.leaf CharSet.all)) := by
  intro group outer position rest
  rw [List.singleton_append, readText_char _ _ rest (by decide) (by decide),
    ← Stacks.append_holding]
  rfl

theorem Escapes.readAs {c : Char} {set : CharSet} (means : Escapes c set) :
    ReadAs ['\\', c] (·.add (.leaf set)) := by
  intro group outer position rest
  cases means.eq
  rw [List.cons_append, List.singleton_append, readText_escape, Stacks.append_holding,
    Nat.add_assoc]
  rfl

theorem IsClass.readAs {text : List Char} {negated : Bool} {sets : List CharSet} {set : CharSet}
    (members : IsClass text negated sets) (nonempty : sets ≠ [])
    (has : ∀ c, c ∈ set ↔ ClassHas negated sets c) :
    ReadAs ('[' :: text ++ [']']) (·.add (.leaf set)) := by
  intro group outer position rest
  obtain ⟨read, union, isRead⟩ := members.readClass position (']' :: rest) (by simp)
  obtain ⟨c, member⟩ := members.exists_mem nonempty
  rw [List.append_assoc, List.cons_append, List.singleton_append, readText_class, isRead,
    readClass_of_has union has ⟨c, (union c).2 member⟩]
  dsimp only
  rw [Stacks.append_holding, byteLength_append, ← Nat.add_assoc]
  rfl

theorem readAs_char {c : Char} (plain : c ∉ metaCharacters) :
    ReadAs [c] (·.add (.leaf (OrderedSet.singleton c))) := by
  intro group outer position rest
  obtain ⟨notEscape, noClass, isRead⟩ := read_plain plain
  rw [List.singleton_append, readText_char _ _ rest notEscape noClass, isRead]
  dsimp only
  rw [Stacks.append_holding]
  rfl

/-- The reader comes behind a derived text with its branches. -/
theorem IsChoice.readAsBranches {text : List Char} {branches : List Regex}
    (choice : IsChoice text branches) : ReadAsBranches text branches :=
  @IsChoice.rec (fun text branches _ => ReadAsBranches text branches)
    (fun text factors _ => ReadAs text (·.addAll factors))
    (fun text factor _ => ReadAs text (·.add factor))
    (fun text regex _ => ReadAs text (·.add regex))
    (fun _ branch => readAsBranches_first branch) (fun _ _ before branch => before.more branch)
    readAs_nil (fun _ _ before factor => before.snoc factor)
    (fun _ atom => atom) (fun _ repeats once => once.repeated repeats)
    (fun _ inside => inside.group) readAs_any (fun means => means.readAs)
    (fun members nonempty has => members.readAs nonempty has) (fun plain => readAs_char plain)
    text branches choice

/-! ## Patterns and offences are read -/

theorem IsChoice.readText {text : List Char} {branches : List Regex}
    (whole : IsChoice text branches) :
    readText (.holding .empty []) 0 text = .ok (choice branches) := by
  obtain ⟨finished, factors, rfl, read⟩ := whole.readAsBranches
  have atEnd := read [] 0 []
  rw [List.append_nil, readText_nil, Stacks.finish_holding, Group.close, List.reverse_reverse]
    at atEnd
  exact atEnd

/-- From the beginning of the pattern, the reader comes behind the text inside of some groups. -/
def ReadsTo (front : List Char) (group : Group) (outer : List (Nat × Group)) : Prop :=
  ∀ rest, readText (.holding .empty []) 0 (front ++ rest) =
    readText (.holding group outer) (byteLength front) rest

/-- The reader comes behind a clean text with the groups that are open there. -/
theorem IsClean.readText {front : List Char} {opened : List Nat} (clean : IsClean front opened) :
    ∃ group outer, outer.map Prod.fst = opened ∧ ReadsTo front group outer := by
  induction clean with
  | outside inside =>
      obtain ⟨finished, factors, _, read⟩ := inside.readAsBranches
      refine ⟨⟨finished, factors.reverse⟩, [], rfl, fun rest => ?_⟩
      rw [read, Nat.zero_add]
  | @group front text opened branches _ inside ih =>
      obtain ⟨around, outer, isOpened, readFront⟩ := ih
      obtain ⟨finished, factors, _, read⟩ := inside.readAsBranches
      refine ⟨⟨finished, factors.reverse⟩, (byteLength front, around) :: outer,
        by rw [List.map_cons, isOpened], fun rest => ?_⟩
      have isLength : byteLength (front ++ '(' :: text) =
          byteLength front + (1 + byteLength text) := byteLength_append _ _
      rw [List.append_assoc, List.cons_append, readFront,
        readText_char _ _ _ (by decide) (by decide), Stacks.read_open]
      dsimp only
      rw [read, isLength, Nat.add_assoc]
      rfl

theorem BeginsBranch.readText {front : List Char} (begins : BeginsBranch front) :
    ∃ group outer, group.factors = [] ∧ ReadsTo front group outer := by
  cases begins with
  | start => exact ⟨.empty, [], rfl, fun _ => rfl⟩
  | @group front _ clean =>
      obtain ⟨group, outer, _, read⟩ := clean.readText
      refine ⟨.empty, (byteLength front, group) :: outer, rfl, fun rest => ?_⟩
      rw [List.append_assoc, read, List.singleton_append,
        readText_char _ _ rest (by decide) (by decide), Stacks.read_open, byteLength_append]
      rfl
  | @bar front _ clean =>
      obtain ⟨group, outer, _, read⟩ := clean.readText
      refine ⟨group.split, outer, rfl, fun rest => ?_⟩
      rw [List.append_assoc, read, List.singleton_append,
        readText_char _ _ rest (by decide) (by decide), byteLength_append,
        ← Stacks.alternation_holding]
      rfl

/-- The reader stops at the first offence. -/
theorem Offends.readText {text : List Char} {error : PatternError} (offends : Offends text error) :
    readText (.holding .empty []) 0 text = .error error := by
  cases offends with
  | @unmatchedParen front rest clean =>
      obtain ⟨group, outer, isOpened, read⟩ := clean.readText
      cases List.map_eq_nil_iff.1 isOpened
      rw [read, readText_char _ _ rest (by decide) (by decide), Stacks.read_close]
  | unclosedGroup clean =>
      obtain ⟨group, outer, isOpened, read⟩ := clean.readText
      obtain ⟨⟨_, around⟩, further, rfl, rfl, _⟩ := List.map_eq_cons_iff.1 isOpened
      have atEnd := read []
      rw [List.append_nil, readText_nil, Stacks.finish_holding] at atEnd
      exact atEnd
  | @nothingToRepeat front rest sign repetition begins repeats =>
      obtain ⟨⟨branches, factors⟩, outer, rfl, read⟩ := begins.readText
      obtain ⟨notEscape, noClass, isRead⟩ := repeats.read
      rw [read, readText_char _ _ rest notEscape noClass, isRead, Stacks.repeatLast_holding]
  | danglingEscape clean =>
      obtain ⟨group, outer, _, read⟩ := clean.readText
      rw [read, readText_dangling]
  | @unmatchedBracket front rest _ clean =>
      obtain ⟨group, outer, _, read⟩ := clean.readText
      rw [read, readText_char _ _ rest (by decide) (by decide), Stacks.read]
  | @emptyClass front text rest _ negated clean empty =>
      obtain ⟨group, outer, _, read⟩ := clean.readText
      obtain ⟨members, union, isRead⟩ :=
        empty.readClass (byteLength front) (']' :: rest) (by simp)
      have isEmpty : members = ∅ := OrderedSet.ext_mem fun c => by rw [union]; simp
      rw [read, readText_class, isRead, isEmpty, readClass_end]
      rfl
  | @unterminatedClass front text _ negated sets clean members =>
      obtain ⟨group, outer, _, read⟩ := clean.readText
      obtain ⟨_, _, isRead⟩ := members.readClass (byteLength front) [] (by simp)
      rw [List.append_nil] at isRead
      rw [read, readText_class, isRead, readClass_nil]
  | @danglingInClass front text _ negated sets clean members =>
      obtain ⟨group, outer, _, read⟩ := clean.readText
      obtain ⟨_, _, isRead⟩ := members.readClass (byteLength front) ['\\'] (by simp)
      rw [read, readText_class, isRead, readClass_dangling, byteLength_append]

/-! ## Each text is a pattern or offends -/

/-- A text is the beginning of a class that goes on, ends the pattern or ends in front of an
escape. -/
theorem members_cases (text : List Char) :
    (∃ inside sets rest, text = inside ++ ']' :: rest ∧ AreMembers inside sets) ∨
      (∃ sets, AreMembers text sets) ∨
      ∃ inside sets, text = inside ++ ['\\'] ∧ AreMembers inside sets := by
  match text with
  | [] => exact .inr (.inl ⟨[], .nil⟩)
  | [c] =>
      by_cases isEscape : c = '\\'
      · exact .inr (.inr ⟨[], [], by rw [isEscape]; rfl, .nil⟩)
      · by_cases isEnd : c = ']'
        · exact .inl ⟨[], [], [], by rw [isEnd]; rfl, .nil⟩
        · exact .inr (.inl ⟨_, .cons (.char isEnd isEscape) .nil⟩)
  | c :: second :: rest =>
      by_cases isEnd : c = ']'
      · exact .inl ⟨[], [], second :: rest, by rw [isEnd]; rfl, .nil⟩
      · -- The first member takes an escaped character with it.
        obtain ⟨member, set, more, isText, shorter, first⟩ : ∃ member set more,
            c :: second :: rest = member ++ more ∧ more.length < (c :: second :: rest).length ∧
              IsMember member set := by
          by_cases isEscape : c = '\\'
          · refine ⟨['\\', second], _, rest, by rw [isEscape]; rfl, ?_,
              .escape (escapes_escapedSet second)⟩
            rw [List.length_cons, List.length_cons]
            omega
          · exact ⟨[c], _, second :: rest, rfl, by simp, .char isEnd isEscape⟩
        rcases members_cases more with ⟨inside, sets, later, rfl, members⟩ | ⟨sets, members⟩ |
          ⟨inside, sets, rfl, members⟩
        · exact .inl ⟨_, _, later, by rw [isText, List.append_assoc], .cons first members⟩
        · rw [isText]
          exact .inr (.inl ⟨_, .cons first members⟩)
        · exact .inr (.inr ⟨_, _, by rw [isText, List.append_assoc], .cons first members⟩)
termination_by text.length
decreasing_by exact shorter

theorem class_cases (text : List Char) :
    (∃ inside negated sets rest, text = inside ++ ']' :: rest ∧ IsClass inside negated sets) ∨
      (∃ negated sets, IsClass text negated sets) ∨
      ∃ inside negated sets, text = inside ++ ['\\'] ∧ IsClass inside negated sets := by
  by_cases caret : text.head? = some '^'
  · obtain ⟨text, rfl⟩ := List.head?_eq_some_iff.1 caret
    rcases members_cases text with ⟨inside, sets, rest, rfl, members⟩ | ⟨sets, members⟩ |
      ⟨inside, sets, rfl, members⟩
    · exact .inl ⟨_, _, _, rest, rfl, .negative members⟩
    · exact .inr (.inl ⟨_, _, .negative members⟩)
    · exact .inr (.inr ⟨_, _, _, rfl, .negative members⟩)
  · have inFront {inside rest : List Char} (isText : text = inside ++ rest) :
        inside.head? ≠ some '^' := by
      intro isCaret
      apply caret
      rw [isText, List.head?_append, isCaret]
      rfl
    rcases members_cases text with ⟨inside, sets, rest, isText, members⟩ | ⟨sets, members⟩ |
      ⟨inside, sets, isText, members⟩
    · exact .inl ⟨_, _, _, rest, isText, .positive members (inFront isText)⟩
    · exact .inr (.inl ⟨_, _, .positive members caret⟩)
    · exact .inr (.inr ⟨_, _, _, isText, .positive members (inFront isText)⟩)

theorem IsChoice.append {text more : List Char} {branches : List Regex} {factor : Regex}
    (choice : IsChoice text branches) (last : IsFactor more factor) :
    ∃ branches, IsChoice (text ++ more) branches := by
  cases choice with
  | first branch => exact ⟨_, .first (branch.snoc last)⟩
  | more before branch =>
      rw [List.append_assoc]
      exact ⟨_, .more before (branch.snoc last)⟩

/-- A clean text stays clean with another factor. -/
theorem IsClean.append {front more : List Char} {opened : List Nat} {factor : Regex}
    (clean : IsClean front opened) (last : IsFactor more factor) :
    IsClean (front ++ more) opened := by
  cases clean with
  | outside inside =>
      obtain ⟨_, longer⟩ := inside.append last
      exact .outside longer
  | group before inside =>
      obtain ⟨_, longer⟩ := inside.append last
      rw [List.append_assoc]
      exact .group before longer

theorem IsClean.bar {front : List Char} {opened : List Nat} (clean : IsClean front opened) :
    IsClean (front ++ ['|']) opened := by
  cases clean with
  | outside inside => exact .outside (.more inside .nil)
  | group before inside =>
      rw [List.append_assoc]
      exact .group before (.more inside .nil)

/-- A branch that is not empty ends with a factor, which can be repeated. -/
theorem IsBranch.repeat_cases {text : List Char} {factors : List Regex}
    (branch : IsBranch text factors) :
    text = [] ∨ ∀ sign repetition, Repeats sign repetition →
      ∃ factors, IsBranch (text ++ [sign]) factors := by
  cases branch with
  | nil => exact .inl rfl
  | snoc before last =>
      refine .inr fun sign repetition repeats => ?_
      rw [List.append_assoc]
      exact ⟨_, .snoc before (.repeated last repeats)⟩

theorem IsChoice.repeat_cases {text : List Char} {branches : List Regex}
    (choice : IsChoice text branches) :
    text = [] ∨ (∃ before branches, text = before ++ ['|'] ∧ IsChoice before branches) ∨
      ∀ sign repetition, Repeats sign repetition →
        ∃ branches, IsChoice (text ++ [sign]) branches := by
  cases choice with
  | first branch =>
      rcases branch.repeat_cases with empty | longer
      · exact .inl empty
      · refine .inr (.inr fun sign repetition repeats => ?_)
        obtain ⟨factors, more⟩ := longer sign repetition repeats
        exact ⟨_, .first more⟩
  | more before branch =>
      rcases branch.repeat_cases with rfl | longer
      · exact .inr (.inl ⟨_, _, rfl, before⟩)
      · refine .inr (.inr fun sign repetition repeats => ?_)
        obtain ⟨factors, more⟩ := longer sign repetition repeats
        rw [List.append_assoc]
        exact ⟨_, .more before more⟩

theorem IsClean.repeat_cases {front : List Char} {opened : List Nat}
    (clean : IsClean front opened) :
    BeginsBranch front ∨ ∀ sign repetition, Repeats sign repetition →
      IsClean (front ++ [sign]) opened := by
  cases clean with
  | outside inside =>
      rcases inside.repeat_cases with rfl | ⟨before, _, rfl, earlier⟩ | longer
      · exact .inl .start
      · exact .inl (.bar (.outside earlier))
      · refine .inr fun sign repetition repeats => ?_
        obtain ⟨branches, more⟩ := longer sign repetition repeats
        exact .outside more
  | @group front text _ _ outer inside =>
      rcases inside.repeat_cases with rfl | ⟨before, _, rfl, earlier⟩ | longer
      · exact .inl (.group outer)
      · have bar := BeginsBranch.bar (.group outer earlier)
        rw [List.append_assoc] at bar
        exact .inl bar
      · refine .inr fun sign repetition repeats => ?_
        obtain ⟨branches, more⟩ := longer sign repetition repeats
        rw [List.append_assoc]
        exact .group outer more

theorem metaCharacter_cases (c : Char) :
    c ∉ metaCharacters ∨ c = '(' ∨ c = ')' ∨ c = '|' ∨ c = '[' ∨ c = ']' ∨ c = '\\' ∨ c = '.' ∨
      ∃ repetition, Repeats c repetition := by
  by_cases isMeta : c ∈ metaCharacters
  · have plus : ∃ repetition, Repeats '+' repetition := ⟨_, .plus⟩
    have star : ∃ repetition, Repeats '*' repetition := ⟨_, .star⟩
    have optional : ∃ repetition, Repeats '?' repetition := ⟨_, .optional⟩
    simp only [metaCharacters, List.mem_cons, List.not_mem_nil, or_false] at isMeta
    rcases isMeta with rfl | rfl | rfl | rfl | rfl | rfl | rfl | rfl | rfl | rfl <;>
      simp [plus, star, optional]
  · exact .inl isMeta

/-- Whatever stands behind a clean text, the whole is a pattern or offends. -/
theorem IsClean.pattern_or_offends {front : List Char} {opened : List Nat}
    (clean : IsClean front opened) (rest : List Char) :
    (∃ regex, IsPattern (front ++ rest) regex) ∨ ∃ error, Offends (front ++ rest) error := by
  -- What keeps the text clean is joined to it, so that the rest gets shorter.
  have goOn (text more : List Char) {opened : List Nat} (isRest : rest = text ++ more)
      (shorter : more.length < rest.length) (longer : IsClean (front ++ text) opened) :
      (∃ regex, IsPattern (front ++ rest) regex) ∨ ∃ error, Offends (front ++ rest) error := by
    have := longer.pattern_or_offends more
    rw [List.append_assoc, ← isRest] at this
    exact this
  match rest with
  | [] =>
      rw [List.append_nil]
      cases clean with
      | outside inside => exact .inl ⟨_, _, inside, rfl⟩
      | group before inside => exact .inr ⟨_, .unclosedGroup (.group before inside)⟩
  | c :: more =>
      have shorter : more.length < (c :: more).length := Nat.lt_succ_self _
      rcases metaCharacter_cases c with plain | rfl | rfl | rfl | rfl | rfl | rfl | rfl |
        ⟨repetition, repeats⟩
      · exact goOn [c] more rfl shorter (clean.append (.atom (.char plain)))
      · exact goOn ['('] more rfl shorter (.group clean (.first .nil))
      · cases clean with
        | outside inside => exact .inr ⟨_, .unmatchedParen (.outside inside)⟩
        | group before inside =>
            have closed := before.append (.atom (.group inside))
            rw [← List.append_assoc] at closed
            exact goOn [')'] more rfl shorter closed
      · exact goOn ['|'] more rfl shorter clean.bar
      · rcases class_cases more with ⟨inside, negated, sets, later, rfl, members⟩ |
          ⟨negated, sets, members⟩ | ⟨inside, negated, sets, rfl, members⟩
        · by_cases empty : sets = []
          · cases empty
            exact .inr ⟨_, .emptyClass clean members⟩
          · obtain ⟨set, has⟩ := exists_classSet negated sets
            refine goOn ('[' :: inside ++ [']']) later (by simp) ?_
              (clean.append (.atom (.chars members empty has)))
            rw [List.length_cons, List.length_append, List.length_cons]
            omega
        · exact .inr ⟨_, .unterminatedClass clean members⟩
        · exact .inr ⟨_, .danglingInClass clean members⟩
      · exact .inr ⟨_, .unmatchedBracket clean⟩
      · cases more with
        | nil => exact .inr ⟨_, .danglingEscape clean⟩
        | cons e more =>
            refine goOn ['\\', e] more rfl ?_ (clean.append (.atom (.escape (escapes_escapedSet e))))
            rw [List.length_cons, List.length_cons]
            omega
      · exact goOn ['.'] more rfl shorter (clean.append (.atom .any))
      · rcases clean.repeat_cases with begins | longer
        · exact .inr ⟨_, .nothingToRepeat begins repeats⟩
        · exact goOn [c] more rfl shorter (longer c repetition repeats)
termination_by rest.length

theorem pattern_or_offends (text : List Char) :
    (∃ regex, IsPattern text regex) ∨ ∃ error, Offends text error :=
  IsClean.pattern_or_offends (.outside (.first .nil)) text

/-- A pattern is read as the regular expression that it stands for, and any other text is refused
with its first offence. -/
theorem parse_eq_iff (pattern : String) :
    (∀ regex, parse pattern = .ok regex ↔ IsPattern pattern.toList regex) ∧
      ∀ error, parse pattern = .error error ↔ Offends pattern.toList error := by
  have accepted (regex : Regex) (isPattern : IsPattern pattern.toList regex) :
      parse pattern = .ok regex := by
    obtain ⟨branches, whole, rfl⟩ := isPattern
    exact whole.readText
  have refused (error : PatternError) (offends : Offends pattern.toList error) :
      parse pattern = .error error := offends.readText
  rcases pattern_or_offends pattern.toList with ⟨known, isPattern⟩ | ⟨known, offends⟩
  · have isOk := accepted known isPattern
    refine ⟨fun regex => ⟨fun parsed => ?_, accepted regex⟩, fun error => ⟨fun parsed => ?_,
      refused error⟩⟩
    · cases isOk.symm.trans parsed
      exact isPattern
    · cases isOk.symm.trans parsed
  · have isError := refused known offends
    refine ⟨fun regex => ⟨fun parsed => ?_, accepted regex⟩, fun error => ⟨fun parsed => ?_,
      refused error⟩⟩
    · cases isError.symm.trans parsed
    · cases isError.symm.trans parsed
      exact offends

end ParserGenerator.Regex
