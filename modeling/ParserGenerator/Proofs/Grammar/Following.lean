import ParserGenerator.Proofs.Grammar.First
import ParserGenerator.Proofs.Grammar.Follow

/-!
# FOLLOW sets and derivations

FOLLOW of a nonterminal has the terminals that stand right behind it in something derived from a
nonterminal, and the end of the input if the nonterminal ends something derived from the reserved
start.

* Soundness: going over a right-hand side from its end, a pass hands on what can stand behind the
  part that it has gone over: the first symbols of that part and, if it can be empty, what follows
  the left-hand side.
* Completeness: in stable tables nothing is left to hand on. A replacement in a string leaves every
  nonterminal with its neighbours in its FOLLOW set, those across the borders of the right-hand side
  included.

Results: `Grammar.WellFormed.mem_follow_iff`, and `Grammar.exactSets_of_ofRules` for all three
tables.
-/

namespace ParserGenerator

/-! ## Definitions -/

/-- The terminal can stand right behind the symbol in something derived from a nonterminal, or it is
the end of the input and the symbol can end something derived from the reserved start. -/
def Follows (g : Grammar) (symbol x : Symbol) : Prop :=
  (∃ nonterminal front back, g.isNonterminal nonterminal = true ∧
    Derives g.rules [nonterminal] (front ++ symbol :: x :: back)) ∨
  (x = Symbol.endOfInput ∧ ∃ front, Derives g.rules [Symbol.start] (front ++ [symbol]))

/-- The three tables say exactly what can be derived: a symbol is nullable when it derives the empty
string, FIRST has the terminals that begin something derived from a symbol, and FOLLOW those that
follow a nonterminal. -/
structure Grammar.ExactSets (g : Grammar) : Prop where
  nullable : ∀ symbol, g.isNullable symbol = true ↔ Derives g.rules [symbol] []
  first : ∀ symbol, g.isTerminal symbol = true ∨ g.isNonterminal symbol = true →
    ∃ set, g.first? symbol = some set ∧
      (Symbol.epsilon ∈ set ↔ g.isNullable symbol = true) ∧
      (∀ x ∈ set, x = Symbol.epsilon ∨ g.isTerminal x = true) ∧
      ∀ x, g.isTerminal x = true → (x ∈ set ↔ ∃ rest, Derives g.rules [symbol] (x :: rest))
  follow : ∀ symbol, g.isNonterminal symbol = true → ∃ set, g.follow? symbol = some set ∧
    (∀ x ∈ set, g.isTerminal x = true) ∧ Symbol.epsilon ∉ set ∧
    ∀ x, g.isTerminal x = true → (x ∈ set ↔ Follows g symbol x)
  follow_terminal : ∀ symbol, g.isTerminal symbol = true → g.follow? symbol = some ∅

namespace GrammarSets

/-- What is in FOLLOW of a symbol can follow it. -/
def FollowSound (g : Grammar) (sets : GrammarSets) : Prop :=
  ∀ symbol x, x ∈ sets.follow.get symbol → Follows g symbol x

/-- Each nonterminal of a string has in its FOLLOW set what the string has behind it and, if that
can be empty, what is behind the string. -/
def Accounted (g : Grammar) (sets : GrammarSets) (behind : SymbolSet) (string : SymbolString) :
    Prop :=
  ∀ front symbol rest, string = front ++ symbol :: rest → g.isNonterminal symbol = true →
    (∀ x ∈ sets.firstOf rest, x ≠ Symbol.epsilon → x ∈ sets.follow.get symbol) ∧
    (Symbol.epsilon ∈ sets.firstOf rest → ∀ x ∈ behind, x ∈ sets.follow.get symbol)

/-- No rule has anything to add to the FOLLOW sets. -/
def FollowClosed (g : Grammar) (sets : GrammarSets) : Prop :=
  ∀ rule ∈ g.rules, sets.Accounted g (sets.follow.get rule.lhs) rule.rhs

end GrammarSets

variable {g : Grammar} {sets : GrammarSets} {isNonterminal : Symbol → Bool}
  {behind trailer : SymbolSet} {string front rest : SymbolString} {x symbol : Symbol} {rule : Rule}

/-! ## Going over a right-hand side -/

/-- What is handed on to the symbol in front of a string: what the string begins with, and what is
behind the string if it can be empty. -/
theorem GrammarSets.mem_growFollow :
    x ∈ (growFollow isNonterminal trailer sets string).1 ↔
      (x ≠ Symbol.epsilon ∧ x ∈ sets.firstOf string) ∨
        (Symbol.epsilon ∈ sets.firstOf string ∧ x ∈ trailer) := by
  rw [epsilon_mem_firstOf]
  induction string with
  | nil =>
      rw [mem_firstOf_nil]
      exact ⟨fun member => .inr ⟨nofun, member⟩, fun either =>
        either.elim (fun both => absurd both.2 both.1) And.right⟩
  | cons symbol rest ih =>
      obtain ⟨sameFirst, sameNullable⟩ := growFollow_first isNonterminal trailer sets rest
      have own : x ∈ ((growFollow isNonterminal trailer sets rest).2.first.get symbol).erase
          Symbol.epsilon ↔ x ≠ Symbol.epsilon ∧ x ∈ sets.first.get symbol := by
        rw [OrderedSet.mem_erase, sameFirst]
        exact and_comm
      simp only [growFollow]
      rw [sameNullable, mem_firstOf_cons, List.forall_mem_cons]
      by_cases nullable : symbol ∈ sets.nullable
      · rw [if_pos (OrderedSet.contains_iff.2 nullable), OrderedSet.mem_union, ih, own]
        simp only [nullable, true_and]
        constructor
        · rintro ((⟨differs, inRest⟩ | inTrailer) | ⟨differs, inOwn⟩)
          · exact .inl ⟨differs, .inr inRest⟩
          · exact .inr inTrailer
          · exact .inl ⟨differs, .inl ⟨differs, inOwn⟩⟩
        · rintro (⟨differs, ⟨_, inOwn⟩ | inRest⟩ | inTrailer)
          · exact .inr ⟨differs, inOwn⟩
          · exact .inl (.inl ⟨differs, inRest⟩)
          · exact .inl (.inr inTrailer)
      · rw [if_neg fun contained => nullable (OrderedSet.contains_iff.1 contained), own]
        simp only [nullable, false_and, or_false, and_self_left]

/-- What is derived from a symbol is the symbol itself or derived by one of its rules. -/
theorem Derives.of_singleton {rules : List Rule} {last : SymbolString}
    (derived : Derives rules [symbol] last) :
    last = [symbol] ∨ ∃ rule ∈ rules, rule.lhs = symbol ∧ Derives rules rule.rhs last := by
  generalize isFirst : [symbol] = first at derived
  cases derived with
  | refl => exact .inl rfl
  | step once later =>
      obtain @⟨rule, member, front, back⟩ := once
      rcases List.singleton_eq_append_iff.1 isFirst with ⟨rfl, isRest⟩ | ⟨_, isNil⟩
      · obtain ⟨rfl, rfl⟩ := List.cons.inj isRest
        rw [List.nil_append, List.append_nil] at later
        exact .inr ⟨rule, member, rfl, later⟩
      · cases isNil

/-! ## Soundness -/

/-- What follows a symbol follows the last symbol of each string derived from it. -/
theorem Follows.last (follows : Follows g symbol x) {last : Symbol}
    (derived : Derives g.rules [symbol] (front ++ [last])) : Follows g last x := by
  rcases follows with ⟨nonterminal, before, back, isLhs, whole⟩ | ⟨isEnd, before, whole⟩
  · refine .inl ⟨nonterminal, before ++ front, back, isLhs, ?_⟩
    have inside := derived.within before (x :: back)
    simp only [List.append_assoc, List.singleton_append] at inside
    rw [List.append_assoc]
    exact whole.trans inside
  · refine .inr ⟨isEnd, before ++ front, ?_⟩
    have inside := derived.within before []
    simp only [List.append_nil] at inside
    rw [List.append_assoc]
    exact whole.trans inside

namespace GrammarSets

/-- What is handed on to a symbol of a right-hand side can follow it. -/
theorem Sound.follows (sound : sets.Sound g.rules) (member : rule ∈ g.rules)
    (split : rule.rhs = front ++ symbol :: rest) (behindRule : ∀ x ∈ trailer, Follows g rule.lhs x)
    (handed : x ∈ (GrammarSets.growFollow isNonterminal trailer sets rest).1) :
    Follows g symbol x := by
  have read : Derives g.rules [rule.lhs] (front ++ symbol :: rest) := split ▸ .of_rule member
  rcases mem_growFollow.1 handed with ⟨differs, begins⟩ | ⟨nullable, inTrailer⟩
  · obtain ⟨back, derived⟩ := sound.firstOf begins differs
    have inside := derived.within (front ++ [symbol]) []
    simp only [List.append_assoc, List.singleton_append, List.append_nil] at inside
    exact .inl ⟨rule.lhs, front, back, Grammar.isNonterminal_lhs member, read.trans inside⟩
  · have isEmpty := sound.derives_nil (epsilon_mem_firstOf.1 nullable)
    have inside := isEmpty.within (front ++ [symbol]) []
    simp only [List.append_assoc, List.singleton_append, List.append_nil] at inside
    exact (behindRule x inTrailer).last (read.trans inside)

/-- Going over the right-hand side of a rule, from `string` on, keeps the FOLLOW sets sound. -/
theorem FollowSound.growFollow (follows : sets.FollowSound g) (sound : sets.Sound g.rules)
    (member : rule ∈ g.rules) (behindRule : ∀ x ∈ trailer, Follows g rule.lhs x)
    (split : rule.rhs = front ++ string) :
    (GrammarSets.growFollow isNonterminal trailer sets string).2.FollowSound g := by
  induction string generalizing front with
  | nil => exact follows
  | cons symbol rest ih =>
      have later := ih (split.trans (List.append_cons front symbol rest))
      simp only [GrammarSets.growFollow]
      split
      · intro key x inSet
        rcases SetsBySymbol.of_mem_get_grow inSet with old | ⟨rfl, handed⟩
        · exact later key x old
        · exact sound.follows member ‹rule.rhs = _› behindRule handed
      · exact later

theorem FollowSound.applyRule (follows : sets.FollowSound g) (sound : sets.Sound g.rules)
    (member : rule ∈ g.rules) : (GrammarSets.applyRule isNonterminal sets rule).FollowSound g := by
  have grown : (sets.growFirst rule).FollowSound g := follows
  exact grown.growFollow (sound.growFirst member) member (grown rule.lhs) (List.nil_append _).symm

/-- Before the first pass, only the reserved start is followed by something. -/
theorem eq_of_mem_initial_follow {terminals nonterminals : List Symbol}
    (member : x ∈ (initial terminals nonterminals).follow.get symbol) :
    symbol = Symbol.start ∧ x = Symbol.endOfInput := by
  unfold SetsBySymbol.get SetsBySymbol.get? at member
  cases found : (initial terminals nonterminals).follow.lookup symbol with
  | none => simp [found] at member
  | some set =>
      rw [found] at member
      obtain ⟨before, after, equal, _⟩ := List.lookup_eq_some_iff.1 found
      have inTable : (symbol, set) ∈ (initial terminals nonterminals).follow := by
        rw [equal]
        simp
      rcases List.mem_append.1 inTable with isTerminal | isNonterminal
      · obtain ⟨terminal, _, same⟩ := List.mem_map.1 isTerminal
        cases same
        exact absurd member OrderedSet.not_mem_empty
      · obtain ⟨nonterminal, _, same⟩ := List.mem_map.1 isNonterminal
        cases same
        split at member
        · rename_i isStart
          exact ⟨isStart, OrderedSet.mem_singleton.1 member⟩
        · exact absurd member OrderedSet.not_mem_empty

theorem followSound_ofRules (terminals nonterminals : List Symbol) :
    (ofRules g.rules terminals nonterminals).FollowSound g := by
  -- What can follow is read off first symbols, so the two are kept together.
  refine (@ofRules_induction _ _ _ (fun sets => sets.Sound g.rules ∧ sets.FollowSound g)
    (fun rule member sets before => ?_) ?_).2
  · exact ⟨(before.1.growFirst member).growFollow _ _ _, before.2.applyRule before.1 member⟩
  · refine ⟨sound_initial g.rules terminals nonterminals, fun symbol x inSet => ?_⟩
    obtain ⟨rfl, rfl⟩ := eq_of_mem_initial_follow inSet
    exact .inr ⟨rfl, [], .refl _⟩

/-- Only nonterminals gain in FOLLOW. -/
theorem mem_get_of_growFollow (terminal : isNonterminal symbol = false)
    (member : x ∈ (growFollow isNonterminal trailer sets string).2.follow.get symbol) :
    x ∈ sets.follow.get symbol := by
  induction string with
  | nil => exact member
  | cons first rest ih =>
      simp only [growFollow] at member
      split at member
      · rename_i nonterminal
        rcases SetsBySymbol.of_mem_get_grow member with old | ⟨rfl, _⟩
        · exact ih old
        · exact absurd nonterminal (Bool.eq_false_iff.1 terminal)
      · exact ih member

theorem mem_get_of_applyRule (terminal : isNonterminal symbol = false)
    (member : x ∈ (applyRule isNonterminal sets rule).follow.get symbol) :
    x ∈ sets.follow.get symbol :=
  @mem_get_of_growFollow (sets.growFirst rule) _ _ _ _ _ terminal member

/-! ## Completeness -/

/-- A nonterminal of a right-hand side has in its FOLLOW set what is handed on to it. -/
theorem mem_get_growFollow (known : symbol ∈ sets.follow.map Prod.fst)
    (nonterminal : isNonterminal symbol = true) (front : SymbolString)
    (handed : x ∈ (growFollow isNonterminal trailer sets rest).1) :
    x ∈ (growFollow isNonterminal trailer sets (front ++ symbol :: rest)).2.follow.get symbol := by
  induction front with
  | nil =>
      have keys := (below_growFollow isNonterminal trailer sets rest).follow.keys_eq
      simp only [List.nil_append, growFollow]
      rw [if_pos nonterminal]
      exact SetsBySymbol.mem_get_grow (keys ▸ known) handed
  | cons first front ih =>
      simp only [List.cons_append, growFollow]
      split
      · exact mem_get_of_below (SetsBySymbol.below_grow _ _ _) ih
      · exact ih

theorem followClosed_of_stable (stable : sets.pass g.rules = sets)
    (known : ∀ symbol, g.isNonterminal symbol = true → symbol ∈ sets.follow.map Prod.fst) :
    sets.FollowClosed g := by
  intro rule member front symbol rest split nonterminal
  have unchanged :
      (growFollow g.isNonterminal (sets.follow.get rule.lhs) sets rule.rhs).2 = sets := by
    have whole := applyRule_of_stable stable member
    unfold applyRule at whole
    rw [growFirst_of_stable stable member] at whole
    exact whole
  have handed {x : Symbol}
      (isHanded : x ∈ (growFollow g.isNonterminal (sets.follow.get rule.lhs) sets rest).1) :
      x ∈ sets.follow.get symbol := by
    have grown := mem_get_growFollow (known symbol nonterminal) nonterminal front isHanded
    rw [← split, unchanged] at grown
    exact grown
  constructor
  · exact fun x begins differs => handed (mem_growFollow.2 (.inl ⟨differs, begins⟩))
  · exact fun nullable x inFollow => handed (mem_growFollow.2 (.inr ⟨nullable, inFollow⟩))

/-- A symbol of a string in two parts is in one of the parts. -/
theorem split_append {left right : SymbolString}
    (split : left ++ right = front ++ symbol :: rest) :
    (∃ inner, left = front ++ symbol :: inner ∧ rest = inner ++ right) ∨
      ∃ inner, right = inner ++ symbol :: rest ∧ front = left ++ inner := by
  induction left generalizing front with
  | nil => exact .inr ⟨front, split, rfl⟩
  | cons first left ih =>
      cases front with
      | nil =>
          obtain ⟨rfl, rfl⟩ := List.cons.inj split
          exact .inl ⟨left, rfl, rfl⟩
      | cons other front =>
          obtain ⟨rfl, later⟩ := List.cons.inj split
          rcases ih later with ⟨inner, rfl, inRest⟩ | ⟨inner, inRight, rfl⟩
          · exact .inl ⟨inner, rfl, inRest⟩
          · exact .inr ⟨inner, inRight, rfl⟩

/-- A replacement leaves every nonterminal accounted for. -/
theorem Accounted.once (closed : sets.Closed g.rules) (followClosed : sets.FollowClosed g)
    {first last : SymbolString} (accounted : sets.Accounted g behind first)
    (once : DerivesOnce g.rules first last) : sets.Accounted g behind last := by
  obtain @⟨rule, member, left, right⟩ := once
  intro front symbol rest split nonterminal
  obtain ⟨neighbours, inherits⟩ :=
    accounted left rule.lhs right rfl (Grammar.isNonterminal_lhs member)
  rcases split_append split with ⟨inner, rfl, rfl⟩ | ⟨outer, inRest, rfl⟩
  · -- In front of the replaced symbol, what is behind begins as it did before.
    have before := DerivesOnce.intro member inner right
    obtain ⟨neighbours, inherits⟩ := accounted front symbol (inner ++ rule.lhs :: right)
      (by rw [List.append_assoc, List.cons_append]) nonterminal
    exact ⟨fun x begins => neighbours x (closed.firstOf_once before begins),
      fun nullable => inherits (closed.firstOf_once before nullable)⟩
  rcases split_append inRest with ⟨inner, inRhs, rfl⟩ | ⟨inner, rfl, rfl⟩
  · -- Inside the right-hand side, what is behind may reach over its end.
    obtain ⟨ownNeighbours, ownInherits⟩ :=
      followClosed rule member outer symbol inner inRhs nonterminal
    constructor
    · intro x begins differs
      rcases mem_firstOf_append.1 begins with ⟨_, inInner⟩ | ⟨empty, inRight⟩
      · exact ownNeighbours x inInner differs
      · exact ownInherits (epsilon_mem_firstOf.2 empty) x (neighbours x inRight differs)
    · intro nullable x isBehind
      rcases mem_firstOf_append.1 nullable with ⟨differs, _⟩ | ⟨empty, rightEmpty⟩
      · exact absurd rfl differs
      · exact ownInherits (epsilon_mem_firstOf.2 empty) x (inherits rightEmpty x isBehind)
  · exact accounted (left ++ rule.lhs :: inner) symbol rest
      (by rw [List.append_assoc, List.cons_append]) nonterminal

theorem Accounted.derives (closed : sets.Closed g.rules) (followClosed : sets.FollowClosed g)
    {first last : SymbolString} (accounted : sets.Accounted g behind first)
    (derived : Derives g.rules first last) : sets.Accounted g behind last := by
  induction derived with
  | refl => exact accounted
  | step once _ ih => exact ih (accounted.once closed followClosed once)

theorem accounted_singleton (symbol : Symbol) :
    sets.Accounted g (sets.follow.get symbol) [symbol] := by
  intro front other rest split _
  rcases List.singleton_eq_append_iff.1 split with ⟨_, isRest⟩ | ⟨_, isNil⟩
  · obtain ⟨rfl, rfl⟩ := List.cons.inj isRest
    exact ⟨fun x begins differs => absurd (mem_firstOf_nil.1 begins) differs,
      fun _ x inFollow => inFollow⟩
  · cases isNil

end GrammarSets

/-! ## The FOLLOW sets of a well-formed grammar -/

namespace Grammar.WellFormed

variable (formed : g.WellFormed)
include formed

theorem followClosed : g.sets.FollowClosed g := by
  refine GrammarSets.followClosed_of_stable formed.stable fun symbol nonterminal => ?_
  rw [formed.within.follow_keys]
  exact List.mem_append.2 (.inr (mem_nonterminals.2 nonterminal))

/-- FOLLOW of a nonterminal has the terminals that can follow it. -/
theorem mem_follow_iff (nonterminal : g.isNonterminal symbol = true) (terminal : x ∈ g.terminals) :
    x ∈ g.sets.follow.get symbol ↔ Follows g symbol x := by
  constructor
  · rw [formed.sets_eq]
    exact GrammarSets.followSound_ofRules _ _ symbol x
  · rintro (⟨outer, front, back, _, derived⟩ | ⟨rfl, front, derived⟩)
    · have accounted :=
        (GrammarSets.accounted_singleton outer).derives formed.closed formed.followClosed derived
      have begins := (formed.mem_firstOf_iff terminal).2 ⟨back, .refl (x :: back)⟩
      refine (accounted front symbol (x :: back) rfl nonterminal).1 x begins fun isEpsilon => ?_
      exact formed.epsilon_not_mem_terminals (isEpsilon ▸ terminal)
    · have accounted := (GrammarSets.accounted_singleton Symbol.start).derives formed.closed
        formed.followClosed derived
      refine (accounted front symbol [] rfl nonterminal).2 (GrammarSets.mem_firstOf_nil.2 rfl) _ ?_
      show Symbol.endOfInput ∈ (g.follow? Symbol.start).getD ∅
      rw [formed.follow?_start]
      exact OrderedSet.mem_singleton.2 rfl

/-- FOLLOW of a symbol without rules stays empty. -/
theorem not_mem_follow_of_terminal (terminal : g.isNonterminal symbol = false) :
    x ∉ g.sets.follow.get symbol := by
  rw [formed.sets_eq]
  refine @GrammarSets.ofRules_induction _ _ _ (fun sets => x ∉ sets.follow.get symbol)
    (fun rule _ sets before member => ?_) fun member => ?_
  · exact before (GrammarSets.mem_get_of_applyRule terminal member)
  · rw [(GrammarSets.eq_of_mem_initial_follow member).1] at terminal
    exact absurd (isNonterminal_lhs (mem_rules.2 (.inl rfl))) (Bool.eq_false_iff.1 terminal)

/-- FIRST of a symbol holds epsilon exactly when the symbol is nullable. -/
theorem epsilon_mem_first_iff :
    Symbol.epsilon ∈ g.sets.first.get symbol ↔ symbol ∈ g.sets.nullable := by
  constructor
  · rw [formed.sets_eq]
    refine @GrammarSets.ofRules_induction _ _ _
      (fun sets => Symbol.epsilon ∈ sets.first.get symbol → symbol ∈ sets.nullable)
      (fun rule _ sets before member => ?_) fun member => ?_
    · obtain ⟨sameFirst, sameNullable⟩ := GrammarSets.applyRule_first g.isNonterminal sets rule
      change Symbol.epsilon ∈ (GrammarSets.applyRule g.isNonterminal sets rule).first.get symbol
        at member
      change symbol ∈ (GrammarSets.applyRule g.isNonterminal sets rule).nullable
      rw [sameFirst] at member
      rw [sameNullable]
      rcases SetsBySymbol.of_mem_get_grow member with old | ⟨rfl, inHead⟩
      · exact (GrammarSets.below_growFirst sets rule).nullable symbol (before old)
      · have empty := GrammarSets.firstWalk_snd.2 (GrammarSets.epsilon_mem_firstOf.1 inHead)
        unfold GrammarSets.growFirst
        dsimp only
        rw [if_pos empty]
        exact OrderedSet.mem_insert.2 (.inl rfl)
    · exact absurd (GrammarSets.eq_of_mem_initial_first member).2 formed.epsilon_not_mem_terminals
  · intro nullable
    rcases (formed.sound.nullable symbol nullable).of_singleton with
      impossible | ⟨rule, member, rfl, empty⟩
    · cases impossible
    · exact formed.closed.first rule member _ (formed.epsilon_mem_firstOf_iff.2 empty)

end Grammar.WellFormed

/-! ## All tables -/

theorem Grammar.isTerminal_iff (formed : g.WellFormed) :
    g.isTerminal symbol = true ↔ symbol ∈ g.terminals := by
  unfold isTerminal
  rw [mem_terminals, Bool.and_eq_true, Bool.or_eq_true, Bool.not_eq_true', beq_iff_eq,
    List.any_eq_true]
  simp only [List.contains_iff_mem]
  constructor
  · rintro ⟨notDefined, isEnd | used⟩
    · exact .inl isEnd
    · exact .inr ⟨used, notDefined⟩
  · rintro (rfl | ⟨used, notDefined⟩)
    · exact ⟨formed.endOfInput_terminal, .inl rfl⟩
    · exact ⟨notDefined, .inr used⟩

/-- The tables of an accepted grammar say exactly what its rules derive, the start rule included. -/
theorem Grammar.exactSets_of_ofRules {rules : List Rule} {start : Option Symbol}
    {names : SymbolTable} (accepted : ofRules rules start names = .ok g) : g.ExactSets := by
  have formed := wellFormed_of_ofRules accepted
  have terminalIff {symbol : Symbol} : g.isTerminal symbol = true ↔ symbol ∈ g.terminals :=
    isTerminal_iff formed
  have nullableIff (symbol : Symbol) : g.isNullable symbol = true ↔ symbol ∈ g.sets.nullable :=
    OrderedSet.contains_iff
  have known {symbol : Symbol} (used : g.isTerminal symbol = true ∨ g.isNonterminal symbol = true) :
      symbol ∈ g.terminals ++ g.nonterminals :=
    List.mem_append.2 (used.imp terminalIff.1 mem_nonterminals.2)
  refine ⟨fun symbol => ?_, fun symbol used => ?_, fun symbol nonterminal => ?_,
    fun symbol terminal => ?_⟩
  · rw [nullableIff, ← formed.epsilon_mem_firstOf_iff]
    exact (GrammarSets.epsilon_mem_firstOf.trans List.forall_mem_singleton).symm
  · have isKey : symbol ∈ g.sets.first.map Prod.fst := formed.within.first_keys ▸ known used
    refine ⟨_, SetsBySymbol.get?_eq_some_get isKey, ?_, fun x member => ?_, fun x terminal => ?_⟩
    · rw [nullableIff, formed.epsilon_mem_first_iff]
    · exact (formed.within.first_get member).elim (.inr ∘ terminalIff.2) .inl
    · have inTerminals := terminalIff.1 terminal
      have differs : x ≠ Symbol.epsilon := fun equal =>
        formed.epsilon_not_mem_terminals (equal ▸ inTerminals)
      rw [← formed.mem_firstOf_iff inTerminals]
      show _ ↔ x ∈ g.sets.firstOf [symbol]
      rw [GrammarSets.mem_firstOf_cons, GrammarSets.mem_firstOf_nil]
      simp only [differs, ne_eq, not_false_eq_true, true_and, and_false, or_false]
  · have isKey : symbol ∈ g.sets.follow.map Prod.fst :=
      formed.within.follow_keys ▸ known (.inr nonterminal)
    refine ⟨_, SetsBySymbol.get?_eq_some_get isKey,
      fun x member => terminalIff.2 (formed.within.follow_get member),
      fun member => formed.epsilon_not_mem_terminals (formed.within.follow_get member),
      fun x terminal => formed.mem_follow_iff nonterminal (terminalIff.1 terminal)⟩
  · have isKey : symbol ∈ g.sets.follow.map Prod.fst :=
      formed.within.follow_keys ▸ known (.inl terminal)
    refine (SetsBySymbol.get?_eq_some_get isKey).trans (congrArg some (OrderedSet.ext_mem ?_))
    have notDefined := formed.isNonterminal_of_mem_terminals (terminalIff.1 terminal)
    exact fun x => ⟨fun member => absurd member (formed.not_mem_follow_of_terminal notDefined),
      fun impossible => absurd impossible OrderedSet.not_mem_empty⟩

/-- The rules `3 := 4 3 5`, `3 :=`, `4 := 6` and `4 :=`, where each symbol may stand first. -/
def nestedRules : List Rule :=
  [Rule.plain ⟨3⟩ [⟨4⟩, ⟨3⟩, ⟨5⟩], Rule.plain ⟨3⟩ [], Rule.plain ⟨4⟩ [⟨6⟩], Rule.plain ⟨4⟩ []]

theorem exactSets_nestedRules :
    ∃ g, Grammar.ofRules nestedRules none SymbolTable.initial = .ok g ∧ g.ExactSets := by
  have accepted : ∃ g, Grammar.ofRules nestedRules none SymbolTable.initial = .ok g := ⟨_, rfl⟩
  obtain ⟨g, isGrammar⟩ := accepted
  exact ⟨g, isGrammar, Grammar.exactSets_of_ofRules isGrammar⟩

end ParserGenerator
