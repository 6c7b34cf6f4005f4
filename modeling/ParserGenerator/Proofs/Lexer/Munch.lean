import ParserGenerator.Lexer
import ParserGenerator.Proofs.JointNfa.Subsets
import ParserGenerator.Proofs.Regex.Thompson

/-!
# The longest match

At each position the automaton is run once, and the last state that accepted is remembered. It was
entered behind the longest text in front that is recognized, and the symbol is that of the first
declared rule that matches this text.

Results: `Lexer.Accords.longestMatch_of_munch` and `Lexer.Accords.longestMatch_cases`, that the
longest match is the munch of the declared rules, or none if there is none.
-/

namespace ParserGenerator

/-! ## Definitions -/

/-- A declared rule of a lexer: its symbol, its pattern, and whether its matches make no tokens. -/
structure DeclaredRule where
  symbol : Symbol
  regex : Regex
  ignored : Bool

/-- Some rule matches the text. -/
def SomeMatches (rules : List DeclaredRule) (text : List Char) : Prop :=
  ∃ rule ∈ rules, rule.regex.Matches text

/-- The rule is the first one that matches the text. -/
def FirstMatches (rules : List DeclaredRule) (text : List Char) (rule : DeclaredRule) : Prop :=
  rule.regex.Matches text ∧ ∃ earlier later, rules = earlier ++ rule :: later ∧
    ∀ other ∈ earlier, ¬ other.regex.Matches text

/-- What is taken from the front of a text: the longest text in front that some rule matches and
that is not empty, with the first rule that matches it. -/
structure Munch (rules : List DeclaredRule) (text taken : List Char) (rule : DeclaredRule) :
    Prop where
  nonempty : taken ≠ []
  front : taken <+: text
  first : FirstMatches rules taken rule
  longest : ∀ longer, longer <+: text → taken.length < longer.length → ¬ SomeMatches rules longer

/-- No text in front that is not empty matches. -/
def NoMunch (rules : List DeclaredRule) (text : List Char) : Prop :=
  ∀ taken, taken ≠ [] → taken <+: text → ¬ SomeMatches rules taken

/-- Some rule with the symbol was declared to be ignored. -/
def IsIgnored (rules : List DeclaredRule) (symbol : Symbol) : Prop :=
  ∃ rule ∈ rules, rule.symbol = symbol ∧ rule.ignored = true

/-- The rules as they are added to the joint automaton. -/
def ruleNfas (rules : List DeclaredRule) : List (Symbol × Nfa) :=
  rules.map fun rule => (rule.symbol, rule.regex.toNfa)

/-- The lexer was compiled from the rules. -/
structure Lexer.Accords (lexer : Lexer) (rules : List DeclaredRule) : Prop where
  recognize_eq : ∀ text, lexer.dfa.recognize text = if text = [] then none else
    ((ruleNfas rules).find? fun rule => rule.2.accepts text).map (·.1)
  ignored_iff : ∀ symbol, lexer.ignored.contains symbol = true ↔ IsIgnored rules symbol

/-! ## Uniqueness -/

section Uniqueness

variable {rules : List DeclaredRule} {text taken taken' : List Char} {rule other : DeclaredRule}

theorem FirstMatches.mem (first : FirstMatches rules text rule) : rule ∈ rules := by
  obtain ⟨_, earlier, later, rfl, _⟩ := first
  exact List.mem_append_right _ List.mem_cons_self

theorem FirstMatches.someMatches (first : FirstMatches rules text rule) :
    SomeMatches rules text := ⟨rule, first.mem, first.1⟩

theorem SomeMatches.exists_first (matched : SomeMatches rules text) :
    ∃ rule, FirstMatches rules text rule := by
  induction rules with
  | nil =>
      obtain ⟨_, member, _⟩ := matched
      cases member
  | cons head rest ih =>
      by_cases isHead : head.regex.Matches text
      · exact ⟨head, isHead, [], rest, rfl, fun _ impossible => absurd impossible List.not_mem_nil⟩
      · have inRest : SomeMatches rest text := by
          obtain ⟨other, member, otherMatches⟩ := matched
          rcases List.mem_cons.1 member with rfl | later
          · exact absurd otherMatches isHead
          · exact ⟨other, later, otherMatches⟩
        obtain ⟨rule, ruleMatches, earlier, later, split, unmatched⟩ := ih inRest
        exact ⟨rule, ruleMatches, head :: earlier, later, congrArg (head :: ·) split,
          List.forall_mem_cons.2 ⟨isHead, unmatched⟩⟩

/-- Only one rule is the first one that matches. -/
theorem FirstMatches.unique (first : FirstMatches rules text rule)
    (second : FirstMatches rules text other) : rule = other := by
  obtain ⟨matched, earlier, later, split, unmatched⟩ := first
  obtain ⟨matched', earlier', later', split', unmatched'⟩ := second
  rcases List.append_eq_append_iff.1 (split.symm.trans split') with
    ⟨between, isEarlier, isLater⟩ | ⟨between, isEarlier, isLater⟩
  · cases between with
    | nil => exact (List.cons.inj isLater).1
    | cons head rest =>
        cases (List.cons.inj isLater).1
        have member : rule ∈ earlier' := isEarlier ▸ List.mem_append_right _ List.mem_cons_self
        exact absurd matched (unmatched' rule member)
  · cases between with
    | nil => exact (List.cons.inj isLater).1.symm
    | cons head rest =>
        cases (List.cons.inj isLater).1
        have member : other ∈ earlier := isEarlier ▸ List.mem_append_right _ List.mem_cons_self
        exact absurd matched' (unmatched other member)

/-- At most one text is taken from the front of a text, with one rule. -/
theorem Munch.unique (munch : Munch rules text taken rule)
    (munch' : Munch rules text taken' other) : taken = taken' ∧ rule = other := by
  have notShorter : ¬ taken.length < taken'.length := fun shorter =>
    munch.longest taken' munch'.front shorter munch'.first.someMatches
  have notLonger : ¬ taken'.length < taken.length := fun longer =>
    munch'.longest taken munch.front longer munch.first.someMatches
  have same : taken = taken' :=
    (List.prefix_of_prefix_length_le munch.front munch'.front (by omega)).eq_of_length (by omega)
  subst same
  exact ⟨rfl, munch.first.unique munch'.first⟩

end Uniqueness

/-! ## The last accepting state -/

namespace Lexer

variable {dfa : Dfa} {state next : Nat} {c : Char} {rest text taken inner : List Char}
  {symbol : Symbol}

/-- The symbol that is accepted behind a text that is read from a state. -/
def acceptedBehind (dfa : Dfa) (state : Nat) (text : List Char) : Option Symbol :=
  (dfa.run state text).bind dfa.accepted

/-- No text in front that is not empty is accepted from the state. -/
def AcceptsNothing (dfa : Dfa) (state : Nat) (text : List Char) : Prop :=
  ∀ taken, taken ≠ [] → taken <+: text → acceptedBehind dfa state taken = none

/-- The longest text in front that is accepted from the state. -/
structure AcceptsLast (dfa : Dfa) (state : Nat) (text taken : List Char) (symbol : Symbol) :
    Prop where
  nonempty : taken ≠ []
  front : taken <+: text
  accepted : acceptedBehind dfa state taken = some symbol
  beyond : ∀ longer, longer <+: text → taken.length < longer.length →
    acceptedBehind dfa state longer = none

theorem acceptedBehind_nil : acceptedBehind dfa state [] = dfa.accepted state := rfl

theorem acceptedBehind_cons (step : dfa.step state c = some next) :
    acceptedBehind dfa state (c :: rest) = acceptedBehind dfa next rest := by
  rw [acceptedBehind, Dfa.run, step]
  rfl

theorem acceptsNothing_of_stuck (stuck : dfa.step state c = none) :
    AcceptsNothing dfa state (c :: rest) := by
  intro taken nonempty front
  rcases List.prefix_cons_iff.1 front with rfl | ⟨inner, rfl, _⟩
  · exact absurd rfl nonempty
  · rw [acceptedBehind, Dfa.run, stuck]
    rfl

theorem AcceptsNothing.cons (nothing : AcceptsNothing dfa next rest)
    (step : dfa.step state c = some next) (refuses : dfa.accepted next = none) :
    AcceptsNothing dfa state (c :: rest) := by
  intro taken nonempty front
  rcases List.prefix_cons_iff.1 front with rfl | ⟨inner, rfl, inside⟩
  · exact absurd rfl nonempty
  rw [acceptedBehind_cons step]
  by_cases empty : inner = []
  · rw [empty, acceptedBehind_nil, refuses]
  · exact nothing inner empty inside

theorem AcceptsNothing.acceptsLast (nothing : AcceptsNothing dfa next rest)
    (step : dfa.step state c = some next) (accepts : dfa.accepted next = some symbol) :
    AcceptsLast dfa state (c :: rest) [c] symbol where
  nonempty := List.cons_ne_nil _ _
  front := ⟨rest, rfl⟩
  accepted := by rw [acceptedBehind_cons step, acceptedBehind_nil, accepts]
  beyond := by
    intro longer front long
    rcases List.prefix_cons_iff.1 front with rfl | ⟨inner, rfl, inside⟩
    · cases long
    rw [acceptedBehind_cons step]
    exact nothing inner (by rintro rfl; exact Nat.lt_irrefl _ long) inside

theorem AcceptsLast.cons (last : AcceptsLast dfa next rest inner symbol)
    (step : dfa.step state c = some next) :
    AcceptsLast dfa state (c :: rest) (c :: inner) symbol where
  nonempty := List.cons_ne_nil _ _
  front := List.cons_prefix_cons.2 ⟨rfl, last.front⟩
  accepted := by rw [acceptedBehind_cons step, last.accepted]
  beyond := by
    intro longer front long
    rcases List.prefix_cons_iff.1 front with rfl | ⟨tail, rfl, inside⟩
    · cases long
    rw [acceptedBehind_cons step]
    exact last.beyond tail inside (Nat.lt_of_succ_lt_succ long)

/-- What is remembered in the end is the longest text in front that is accepted, and what was
remembered before if there is none. -/
theorem lastAccepted_cases (dfa : Dfa) (state count : Nat) (last : Option (Symbol × Nat))
    (text : List Char) :
    (lastAccepted dfa state count last text = last ∧ AcceptsNothing dfa state text) ∨
    ∃ taken symbol, AcceptsLast dfa state text taken symbol ∧
      lastAccepted dfa state count last text = some (symbol, count + taken.length) := by
  induction text generalizing state count last with
  | nil => exact .inl ⟨rfl, fun taken nonempty front => absurd (List.prefix_nil.1 front) nonempty⟩
  | cons c rest ih =>
      rw [lastAccepted]
      cases step : dfa.step state c with
      | none => exact .inl ⟨rfl, acceptsNothing_of_stuck step⟩
      | some next =>
          have later (inner : List Char) :
              count + 1 + inner.length = count + (c :: inner).length := by
            rw [List.length_cons, Nat.add_right_comm, Nat.add_assoc]
          dsimp only
          cases accepts : dfa.accepted next with
          | none =>
              rcases ih next (count + 1) last with ⟨kept, nothing⟩ | ⟨inner, symbol, last, found⟩
              · exact .inl ⟨kept, nothing.cons step accepts⟩
              · exact .inr ⟨c :: inner, symbol, last.cons step, later inner ▸ found⟩
          | some symbol =>
              rcases ih next (count + 1) (some (symbol, count + 1)) with
                ⟨kept, nothing⟩ | ⟨inner, symbol, last, found⟩
              · exact .inr ⟨[c], symbol, nothing.acceptsLast step accepts, kept⟩
              · exact .inr ⟨c :: inner, symbol, last.cons step, later inner ▸ found⟩

/-! ## The longest match -/

variable {lexer : Lexer} {rules : List DeclaredRule} {rule : DeclaredRule}

theorem find?_ruleNfas (rules : List DeclaredRule) (text : List Char) :
    ((ruleNfas rules).find? fun rule => rule.2.accepts text).map (·.1) =
      (rules.find? fun rule => rule.regex.toNfa.accepts text).map (·.symbol) := by
  rw [ruleNfas, List.find?_map, Option.map_map]
  rfl

theorem Accords.recognize_some (accords : lexer.Accords rules) {symbol : Symbol}
    (nonempty : taken ≠ []) (recognized : lexer.dfa.recognize taken = some symbol) :
    ∃ rule, FirstMatches rules taken rule ∧ rule.symbol = symbol := by
  rw [accords.recognize_eq, if_neg nonempty, find?_ruleNfas] at recognized
  obtain ⟨rule, found, isSymbol⟩ := Option.map_eq_some_iff.1 recognized
  obtain ⟨accepts, earlier, later, split, refused⟩ := List.find?_eq_some_iff_append.1 found
  refine ⟨rule, ⟨(rule.regex.accepts_toNfa taken).1 accepts, earlier, later, split, ?_⟩, isSymbol⟩
  intro other member matched
  have refuses := refused other member
  rw [(other.regex.accepts_toNfa taken).2 matched] at refuses
  cases refuses

theorem Accords.recognize_none (accords : lexer.Accords rules) (nonempty : taken ≠ [])
    (recognized : lexer.dfa.recognize taken = none) : ¬ SomeMatches rules taken := by
  rw [accords.recognize_eq, if_neg nonempty, find?_ruleNfas, Option.map_eq_none_iff,
    List.find?_eq_none] at recognized
  rintro ⟨rule, member, matched⟩
  exact recognized rule member ((rule.regex.accepts_toNfa taken).2 matched)

/-- The longest match is a munch of the declared rules, or there is no munch. -/
theorem Accords.longestMatch_cases (accords : lexer.Accords rules) (text : List Char) :
    (lexer.longestMatch text = none ∧ NoMunch rules text) ∨
    ∃ taken rule, Munch rules text taken rule ∧
      lexer.longestMatch text = some (rule.symbol, taken.length) := by
  rcases lastAccepted_cases lexer.dfa Dfa.initial 0 none text with
    ⟨missing, nothing⟩ | ⟨taken, symbol, last, result⟩
  · exact .inl ⟨missing, fun taken nonempty front =>
      accords.recognize_none nonempty (nothing taken nonempty front)⟩
  · obtain ⟨rule, first, rfl⟩ := accords.recognize_some last.nonempty last.accepted
    rw [Nat.zero_add] at result
    refine .inr ⟨taken, rule, ⟨last.nonempty, last.front, first, ?_⟩, result⟩
    intro longer front long
    exact accords.recognize_none (by rintro rfl; cases long) (last.beyond longer front long)

theorem Accords.longestMatch_of_munch (accords : lexer.Accords rules)
    (munch : Munch rules text taken rule) :
    lexer.longestMatch text = some (rule.symbol, taken.length) := by
  rcases accords.longestMatch_cases text with ⟨_, nothing⟩ | ⟨taken', other, munch', result⟩
  · exact absurd munch.first.someMatches (nothing taken munch.nonempty munch.front)
  · obtain ⟨rfl, rfl⟩ := munch.unique munch'
    exact result

theorem Accords.longestMatch_of_noMunch (accords : lexer.Accords rules)
    (nothing : NoMunch rules text) : lexer.longestMatch text = none := by
  rcases accords.longestMatch_cases text with ⟨missing, _⟩ | ⟨taken, rule, munch, _⟩
  · exact missing
  · exact absurd munch.first.someMatches (nothing taken munch.nonempty munch.front)

end Lexer

end ParserGenerator
