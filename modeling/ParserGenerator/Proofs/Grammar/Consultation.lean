import Mathlib.Data.List.Forall2
import ParserGenerator.Grammar.Consultation
import ParserGenerator.Proofs.Grammar.Following
import ParserGenerator.Proofs.Grammar.Settled

/-!
# What is remembered has no influence

A grammar that is asked for FIRST and FOLLOW of strings, and to pass over its rules once more,
answers each time as if it were asked for the first time. It can do so because its tables are
stable: another pass changes nothing, and a set that was remembered before it is right after it.

* Every set that is remembered is the one that the tables give (`Consultation.Sound`). A question
  keeps this, also where FOLLOW of a string goes through the strings in front of it.
* What the tables give is exact: `GrammarSets.mem_followOf` takes FOLLOW of a string apart, and for
  FIRST this is `Grammar.WellFormed.mem_firstOf_iff`.

Results: `Consultation.answers_exact`.
-/

namespace ParserGenerator

variable {g : Grammar}

/-! ## Definitions -/

/-- The set has the terminals that begin what is derived from the string, and epsilon if the string
derives the empty one. -/
structure FirstExact (g : Grammar) (string : SymbolString) (set : SymbolSet) : Prop where
  epsilon : Symbol.epsilon ∈ set ↔ Derives g.rules string []
  terminal : ∀ x, g.isTerminal x = true → (x ∈ set ↔ ∃ rest, Derives g.rules string (x :: rest))
  only : ∀ x ∈ set, x = Symbol.epsilon ∨ g.isTerminal x = true

/-- The string has the symbol at its end or with nothing but nullable symbols behind it. -/
def MayEndIn (g : Grammar) (string : SymbolString) (symbol : Symbol) : Prop :=
  ∃ front back, string = front ++ symbol :: back ∧
    ∀ other ∈ back, Derives g.rules [other] []

/-- The set joins FOLLOW of the symbols in which the string may end, and has epsilon if all symbols
of the string are nullable. -/
structure FollowExact (g : Grammar) (string : SymbolString) (set : SymbolSet) : Prop where
  epsilon : Symbol.epsilon ∈ set ↔ ∀ symbol ∈ string, Derives g.rules [symbol] []
  other : ∀ x, x ≠ Symbol.epsilon → (x ∈ set ↔
    ∃ symbol following, MayEndIn g string symbol ∧ g.follow? symbol = some following ∧
      x ∈ following)

/-- A right answer. The tables of a grammar are stable, so that no pass changes them. -/
inductive Answers (g : Grammar) : Question → Answer → Prop where
  | first {string : SymbolString} {set : SymbolSet} (exact : FirstExact g string set) :
      Answers g (.first string) (.set set)
  | follow {string : SymbolString} {set : SymbolSet} (exact : FollowExact g string set) :
      Answers g (.follow string) (.set set)
  | update : Answers g .update (.changed false)

/-- The answer of a grammar that remembers nothing. -/
def Grammar.answer (g : Grammar) : Question → Answer
  | .first string => .set (g.firstOf string)
  | .follow string => .set (g.followOf string)
  | .update => .changed g.update.1

/-! ## Members of FOLLOW of a string -/

theorem SetsBySymbol.mem_get {table : SetsBySymbol} {symbol x : Symbol} :
    x ∈ table.get symbol ↔ ∃ set, table.get? symbol = some set ∧ x ∈ set := by
  unfold get
  cases table.get? symbol <;> simp

namespace GrammarSets

variable {sets : GrammarSets} {x : Symbol}

theorem mem_followOfReversed_cons {last : Symbol} {earlier : SymbolString} :
    x ∈ sets.followOfReversed (last :: earlier) ↔
      x ∈ sets.follow.get last ∨ (last ∈ sets.nullable ∧ x ∈ sets.followOfReversed earlier) := by
  have nullableIff : last ∈ sets.nullable ↔ sets.nullable.contains last = true :=
    OrderedSet.contains_iff.symm
  rw [followOfReversed, nullableIff]
  split
  · rename_i nullable
    simp [nullable]
  · rename_i notNullable
    simp [notNullable]

/-- The walk over a reversed string reaches a symbol if it passes over all that stand behind it, and
comes out at the front if it passes over all symbols. -/
theorem mem_followOfReversed {reversed : SymbolString} :
    x ∈ sets.followOfReversed reversed ↔
      (∃ behind symbol front, reversed = behind ++ symbol :: front ∧
        (∀ other ∈ behind, other ∈ sets.nullable) ∧ x ∈ sets.follow.get symbol) ∨
      (x = Symbol.epsilon ∧ ∀ symbol ∈ reversed, symbol ∈ sets.nullable) := by
  induction reversed with
  | nil => simp [followOfReversed]
  | cons last earlier ih =>
      rw [mem_followOfReversed_cons, ih]
      constructor
      · rintro (own | ⟨nullable, ⟨behind, symbol, front, rfl, passed, inFollow⟩ | ⟨rfl, all⟩⟩)
        · exact .inl ⟨[], last, earlier, rfl, nofun, own⟩
        · exact .inl ⟨last :: behind, symbol, front, rfl,
            List.forall_mem_cons.2 ⟨nullable, passed⟩, inFollow⟩
        · exact .inr ⟨rfl, List.forall_mem_cons.2 ⟨nullable, all⟩⟩
      · rintro (⟨behind, symbol, front, split, passed, inFollow⟩ | ⟨rfl, all⟩)
        · cases behind with
          | nil =>
              cases split
              exact .inl inFollow
          | cons first behind =>
              cases split
              obtain ⟨nullable, passed⟩ := List.forall_mem_cons.1 passed
              exact .inr ⟨nullable, .inl ⟨behind, symbol, front, rfl, passed, inFollow⟩⟩
        · obtain ⟨nullable, all⟩ := List.forall_mem_cons.1 all
          exact .inr ⟨nullable, .inr ⟨rfl, all⟩⟩

theorem mem_followOf {string : SymbolString} :
    x ∈ sets.followOf string ↔
      (∃ front symbol back, string = front ++ symbol :: back ∧
        (∀ other ∈ back, other ∈ sets.nullable) ∧ x ∈ sets.follow.get symbol) ∨
      (x = Symbol.epsilon ∧ ∀ symbol ∈ string, symbol ∈ sets.nullable) := by
  unfold followOf
  rw [mem_followOfReversed]
  simp only [List.mem_reverse]
  refine or_congr_left ⟨?_, ?_⟩
  · rintro ⟨behind, symbol, front, split, passed, inFollow⟩
    refine ⟨front.reverse, symbol, behind.reverse, ?_, ?_, inFollow⟩
    · rw [← List.reverse_reverse string, split]
      simp
    · exact fun other member => passed other (List.mem_reverse.1 member)
  · rintro ⟨front, symbol, back, rfl, passed, inFollow⟩
    refine ⟨back.reverse, symbol, front.reverse, by simp, ?_, inFollow⟩
    exact fun other member => passed other (List.mem_reverse.1 member)

end GrammarSets

/-! ## The answers of a grammar that remembers nothing -/

namespace Grammar.WellFormed

theorem nullable_iff (formed : g.WellFormed) {symbol : Symbol} :
    symbol ∈ g.sets.nullable ↔ Derives g.rules [symbol] [] := by
  rw [← formed.epsilon_mem_firstOf_iff]
  exact (GrammarSets.epsilon_mem_firstOf.trans List.forall_mem_singleton).symm

theorem firstExact (formed : g.WellFormed) (string : SymbolString) :
    FirstExact g string (g.firstOf string) := by
  refine ⟨formed.epsilon_mem_firstOf_iff, fun x terminal => ?_, fun x member => ?_⟩
  · exact formed.mem_firstOf_iff ((isTerminal_iff formed).1 terminal)
  · exact (formed.firstOf_subset member).symm.imp_right (isTerminal_iff formed).2

theorem followExact (formed : g.WellFormed) (string : SymbolString) :
    FollowExact g string (g.followOf string) := by
  constructor
  · rw [followOf, GrammarSets.mem_followOf]
    simp only [formed.nullable_iff, true_and]
    refine or_iff_right ?_
    rintro ⟨front, symbol, back, _, _, inFollow⟩
    exact formed.epsilon_not_mem_terminals (formed.within.follow_get inFollow)
  · intro x differs
    rw [followOf, GrammarSets.mem_followOf]
    simp only [formed.nullable_iff, SetsBySymbol.mem_get, differs, false_and, or_false]
    constructor
    · rintro ⟨front, symbol, back, split, passed, following, isFollow, member⟩
      exact ⟨symbol, following, ⟨front, back, split, passed⟩, isFollow, member⟩
    · rintro ⟨symbol, following, ⟨front, back, split, passed⟩, isFollow, member⟩
      exact ⟨front, symbol, back, split, passed, following, isFollow, member⟩

theorem update (formed : g.WellFormed) : g.update = (false, g) :=
  Grammar.update_of_stable formed.stable

theorem answers (formed : g.WellFormed) (question : Question) :
    Answers g question (g.answer question) := by
  cases question with
  | first string => exact .first (formed.firstExact string)
  | follow string => exact .follow (formed.followExact string)
  | update =>
      rw [answer, formed.update]
      exact .update

end Grammar.WellFormed

/-! ## The answers of a grammar that remembers -/

/-- Every remembered set is the one that belongs to its string. -/
def KnownSets.Sound (setOf : SymbolString → SymbolSet) (known : KnownSets) : Prop :=
  ∀ string set, known.lookup string = some set → set = setOf string

namespace KnownSets.Sound

variable {setOf : SymbolString → SymbolSet} {known : KnownSets}

theorem nil : Sound setOf [] := nofun

theorem cons (sound : Sound setOf known) {string : SymbolString} {set : SymbolSet}
    (right : set = setOf string) : Sound setOf ((string, set) :: known) := by
  intro other found isKnown
  rw [List.lookup_cons] at isKnown
  split at isKnown
  · rename_i same
    rw [beq_iff_eq] at same
    cases isKnown
    rw [right, same]
  · exact sound other found isKnown

end KnownSets.Sound

namespace Consultation

variable {consulted : Consultation}

/-- The grammar is the one that was given, and all remembered sets are those of its tables. -/
structure Sound (g : Grammar) (consulted : Consultation) : Prop where
  grammar : consulted.grammar = g
  first : consulted.first.Sound g.firstOf
  follow : consulted.follow.Sound g.followOf

theorem sound_ofGrammar (g : Grammar) : (ofGrammar g).Sound g := ⟨rfl, .nil, .nil⟩

theorem Sound.rememberFirst (sound : consulted.Sound g) {string : SymbolString} {set : SymbolSet}
    (right : set = g.firstOf string) :
    Sound g { consulted with first := (string, set) :: consulted.first } :=
  ⟨sound.grammar, sound.first.cons right, sound.follow⟩

theorem Sound.rememberFollow (sound : consulted.Sound g) {string : SymbolString} {set : SymbolSet}
    (right : set = g.followOf string) :
    Sound g { consulted with follow := (string, set) :: consulted.follow } :=
  ⟨sound.grammar, sound.first, sound.follow.cons right⟩

theorem firstOf_spec (sound : consulted.Sound g) (string : SymbolString) :
    (consulted.firstOf string).1 = g.firstOf string ∧ (consulted.firstOf string).2.Sound g := by
  unfold firstOf
  cases known : consulted.first.lookup string with
  | some set => exact ⟨sound.first string set known, sound⟩
  | none =>
      have right : consulted.grammar.firstOf string = g.firstOf string := by rw [sound.grammar]
      exact ⟨right, sound.rememberFirst right⟩

theorem followOfReversed_spec (sound : consulted.Sound g) (reversed : SymbolString) :
    (consulted.followOfReversed reversed).1 = g.sets.followOfReversed reversed ∧
      (consulted.followOfReversed reversed).2.Sound g := by
  induction reversed generalizing consulted with
  | nil => exact ⟨rfl, sound⟩
  | cons last earlier ih =>
      -- A remembered set is one of a string in its own order, and the walk goes backwards.
      have forwards : g.followOf (last :: earlier).reverse =
          g.sets.followOfReversed (last :: earlier) := by
        rw [Grammar.followOf, GrammarSets.followOf, List.reverse_reverse]
      rw [followOfReversed]
      dsimp only
      cases known : consulted.follow.lookup (last :: earlier).reverse with
      | some set => exact ⟨(sound.follow _ set known).trans forwards, sound⟩
      | none =>
          rw [sound.grammar]
          dsimp only
          split
          · rename_i nullable
            obtain ⟨same, later⟩ := ih sound
            have right : g.sets.follow.get last ∪ (consulted.followOfReversed earlier).1 =
                g.followOf (last :: earlier).reverse := by
              rw [forwards, same]
              exact (if_pos nullable).symm
            exact ⟨right.trans forwards, later.rememberFollow right⟩
          · rename_i notNullable
            have right : g.sets.follow.get last = g.followOf (last :: earlier).reverse := by
              rw [forwards]
              exact (if_neg notNullable).symm
            exact ⟨right.trans forwards, sound.rememberFollow right⟩

theorem followOf_spec (sound : consulted.Sound g) (string : SymbolString) :
    (consulted.followOf string).1 = g.followOf string ∧ (consulted.followOf string).2.Sound g :=
  followOfReversed_spec sound string.reverse

/-- A question is answered from the tables of the grammar, and what is remembered stays right. -/
theorem ask_spec (formed : g.WellFormed) (sound : consulted.Sound g) (question : Question) :
    (consulted.ask question).1 = g.answer question ∧ (consulted.ask question).2.Sound g := by
  cases question with
  | first string =>
      obtain ⟨same, later⟩ := firstOf_spec sound string
      exact ⟨congrArg Answer.set same, later⟩
  | follow string =>
      obtain ⟨same, later⟩ := followOf_spec sound string
      exact ⟨congrArg Answer.set same, later⟩
  | update =>
      have unchanged : consulted.grammar.update = (false, g) := by
        rw [sound.grammar, formed.update]
      refine ⟨?_, ?_⟩
      · rw [ask, update, unchanged, Grammar.answer, formed.update]
      · rw [ask, update, unchanged]
        exact ⟨rfl, sound.first, sound.follow⟩

theorem askAll_spec (formed : g.WellFormed) (sound : consulted.Sound g)
    (questions : List Question) :
    (consulted.askAll questions).1 = questions.map g.answer ∧
      (consulted.askAll questions).2.Sound g := by
  induction questions generalizing consulted with
  | nil => exact ⟨rfl, sound⟩
  | cons question rest ih =>
      obtain ⟨same, next⟩ := ask_spec formed sound question
      obtain ⟨later, last⟩ := ih next
      refine ⟨?_, last⟩
      rw [askAll, List.map_cons, ← same, ← later]

/-- Whatever an accepted grammar is asked, in whatever order, all of its answers are right, and each
is the one that it would give to its first question. -/
theorem answers_exact {rules : List Rule} {start : Option Symbol} {names : SymbolTable}
    (accepted : Grammar.ofRules rules start names = .ok g) (questions : List Question) :
    List.Forall₂ (Answers g) questions ((ofGrammar g).askAll questions).1 ∧
      ∀ question, (((ofGrammar g).askAll questions).2.ask question).1 =
        ((ofGrammar g).ask question).1 := by
  have formed := Grammar.wellFormed_of_ofRules accepted
  have unasked := sound_ofGrammar g
  obtain ⟨answers, asked⟩ := askAll_spec formed unasked questions
  constructor
  · rw [answers, List.forall₂_map_right_iff]
    exact List.forall₂_same.2 fun question _ => formed.answers question
  · intro question
    rw [(ask_spec formed asked question).1, (ask_spec formed unasked question).1]

/-- The rules `3 := 4 5 6`, `4 := 7`, `4 :=`, `5 := 8` and `5 :=`: a `6` with up to two optional
symbols in front of it. -/
def optionalRules : List Rule :=
  [Rule.plain ⟨3⟩ [⟨4⟩, ⟨5⟩, ⟨6⟩], Rule.plain ⟨4⟩ [⟨7⟩], Rule.plain ⟨4⟩ [], Rule.plain ⟨5⟩ [⟨8⟩],
    Rule.plain ⟨5⟩ []]

/-- FOLLOW of `4 5` is asked for after that of `4`, which it rests on, and again after a pass. -/
def optionalQuestions : List Question :=
  [.first [⟨4⟩, ⟨5⟩], .follow [⟨4⟩], .follow [⟨4⟩, ⟨5⟩], .update, .follow [⟨4⟩, ⟨5⟩]]

theorem answers_exact_optional :
    ∃ g, Grammar.ofRules optionalRules none SymbolTable.initial = .ok g ∧
      ((ofGrammar g).askAll optionalQuestions).1 =
        [.set (OrderedSet.ofList [Symbol.epsilon, ⟨7⟩, ⟨8⟩]),
          .set (OrderedSet.ofList [Symbol.epsilon, ⟨6⟩, ⟨8⟩]),
          .set (OrderedSet.ofList [Symbol.epsilon, ⟨6⟩, ⟨8⟩]), .changed false,
          .set (OrderedSet.ofList [Symbol.epsilon, ⟨6⟩, ⟨8⟩])] ∧
      List.Forall₂ (Answers g) optionalQuestions ((ofGrammar g).askAll optionalQuestions).1 ∧
      (((ofGrammar g).askAll optionalQuestions).2.ask (.follow [⟨5⟩])).1 =
        ((ofGrammar g).ask (.follow [⟨5⟩])).1 := by
  have accepted : ∃ g, Grammar.ofRules optionalRules none SymbolTable.initial = .ok g ∧
      ((ofGrammar g).askAll optionalQuestions).1 =
        [.set (OrderedSet.ofList [Symbol.epsilon, ⟨7⟩, ⟨8⟩]),
          .set (OrderedSet.ofList [Symbol.epsilon, ⟨6⟩, ⟨8⟩]),
          .set (OrderedSet.ofList [Symbol.epsilon, ⟨6⟩, ⟨8⟩]), .changed false,
          .set (OrderedSet.ofList [Symbol.epsilon, ⟨6⟩, ⟨8⟩])] := ⟨_, rfl, by decide +kernel⟩
  obtain ⟨g, accepted, answers⟩ := accepted
  obtain ⟨exact, same⟩ := answers_exact accepted optionalQuestions
  exact ⟨g, accepted, answers, exact, same _⟩

end Consultation

end ParserGenerator
