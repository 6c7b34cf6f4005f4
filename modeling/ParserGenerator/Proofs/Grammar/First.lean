import ParserGenerator.Grammar.Derivation
import ParserGenerator.Proofs.Grammar.Stable
import ParserGenerator.Proofs.Grammar.WellFormed

/-!
# FIRST sets and derivations

The sets of a well-formed grammar say exactly what can be derived: FIRST of a string has a terminal
if and only if the string derives some string that begins with the terminal, and epsilon if and
only if it derives the empty string.

* Soundness: every pass keeps the sets sound, for a rule adds to its left-hand side what its
  right-hand side derives.
* Completeness: the sets are closed under the rules, so that a replacement in a string never adds
  to FIRST of the string.

Results: `Grammar.WellFormed.epsilon_mem_firstOf_iff`, `Grammar.WellFormed.mem_firstOf_iff`.
-/

namespace ParserGenerator

namespace GrammarSets

variable {rules : List Rule} {sets : GrammarSets}

/-! ## Soundness -/

/-- Nullable symbols derive the empty string, and members of FIRST other than epsilon begin derived
strings. -/
structure Sound (rules : List Rule) (sets : GrammarSets) : Prop where
  nullable : ∀ symbol ∈ sets.nullable, Derives rules [symbol] []
  first : ∀ symbol x, x ∈ sets.first.get symbol → x ≠ Symbol.epsilon →
    ∃ rest, Derives rules [symbol] (x :: rest)

theorem Sound.derives_nil (sound : sets.Sound rules) {string : SymbolString}
    (nullable : ∀ symbol ∈ string, symbol ∈ sets.nullable) : Derives rules string [] := by
  induction string with
  | nil => exact .refl _
  | cons symbol rest ih =>
      have head := sound.nullable symbol (nullable symbol List.mem_cons_self)
      have tail := ih fun other member => nullable other (List.mem_cons_of_mem _ member)
      exact head.append tail

theorem Sound.firstOf (sound : sets.Sound rules) {string : SymbolString} {x : Symbol}
    (member : x ∈ sets.firstOf string) (differs : x ≠ Symbol.epsilon) :
    ∃ rest, Derives rules string (x :: rest) := by
  induction string with
  | nil => exact absurd (mem_firstOf_nil.1 member) differs
  | cons symbol rest ih =>
      rcases mem_firstOf_cons.1 member with ⟨_, inFirst⟩ | ⟨nullable, inRest⟩
      · obtain ⟨behind, derived⟩ := sound.first symbol x inFirst differs
        exact ⟨behind ++ rest, derived.append (.refl rest)⟩
      · obtain ⟨behind, derived⟩ := ih inRest
        exact ⟨behind, (sound.nullable symbol nullable).append derived⟩

theorem Sound.growFirst (sound : sets.Sound rules) {rule : Rule} (member : rule ∈ rules) :
    (sets.growFirst rule).Sound rules := by
  have once := Derives.of_rule member
  constructor
  · intro symbol nullable
    unfold GrammarSets.growFirst at nullable
    dsimp only at nullable
    split at nullable
    · rename_i allNullable
      rcases OrderedSet.mem_insert.1 nullable with equal | old
      · rw [equal]
        exact once.trans (sound.derives_nil (firstWalk_snd.1 allNullable))
      · exact sound.nullable symbol old
    · exact sound.nullable symbol nullable
  · intro symbol x inFirst differs
    rcases SetsBySymbol.of_mem_get_grow inFirst with old | ⟨equal, inHead⟩
    · exact sound.first symbol x old differs
    · obtain ⟨behind, derived⟩ := sound.firstOf inHead differs
      rw [equal]
      exact ⟨behind, once.trans derived⟩

/-- FOLLOW sets do not matter for soundness. -/
theorem Sound.growFollow (sound : sets.Sound rules) (isNonterminal : Symbol → Bool)
    (trailer : SymbolSet) (string : SymbolString) :
    (GrammarSets.growFollow isNonterminal trailer sets string).2.Sound rules := by
  obtain ⟨sameFirst, sameNullable⟩ := growFollow_first isNonterminal trailer sets string
  constructor
  · rw [sameNullable]
    exact sound.nullable
  · rw [sameFirst]
    exact sound.first

/-- Before the first pass, only terminals begin something, each with itself. -/
theorem eq_of_mem_initial_first {terminals nonterminals : List Symbol} {symbol x : Symbol}
    (member : x ∈ (initial terminals nonterminals).first.get symbol) :
    x = symbol ∧ x ∈ terminals := by
  unfold SetsBySymbol.get SetsBySymbol.get? at member
  cases found : (initial terminals nonterminals).first.lookup symbol with
  | none => simp [found] at member
  | some set =>
      rw [found] at member
      obtain ⟨before, after, equal, _⟩ := List.lookup_eq_some_iff.1 found
      have inTable : (symbol, set) ∈ (initial terminals nonterminals).first := by
        rw [equal]
        simp
      rcases List.mem_append.1 inTable with isTerminal | isNonterminal
      · obtain ⟨terminal, inList, same⟩ := List.mem_map.1 isTerminal
        cases same
        have isX := OrderedSet.mem_singleton.1 member
        exact ⟨isX, isX ▸ inList⟩
      · obtain ⟨nonterminal, _, same⟩ := List.mem_map.1 isNonterminal
        cases same
        exact absurd member OrderedSet.not_mem_empty

theorem sound_initial (rules : List Rule) (terminals nonterminals : List Symbol) :
    (initial terminals nonterminals).Sound rules := by
  refine ⟨fun symbol nullable => absurd nullable OrderedSet.not_mem_empty, ?_⟩
  intro symbol x inFirst _
  rw [(eq_of_mem_initial_first inFirst).1]
  exact ⟨[], .refl _⟩

theorem sound_ofRules (rules : List Rule) (terminals nonterminals : List Symbol) :
    (ofRules rules terminals nonterminals).Sound rules := by
  refine ofRules_induction (fun rule member sets before => ?_) ?_
  · exact (before.growFirst member).growFollow _ _ _
  · exact sound_initial rules terminals nonterminals

/-! ## Completeness -/

/-- No rule has anything to add to the nullable symbols and the FIRST sets. -/
structure Closed (rules : List Rule) (sets : GrammarSets) : Prop where
  nullable : ∀ rule ∈ rules, (∀ symbol ∈ rule.rhs, symbol ∈ sets.nullable) →
    rule.lhs ∈ sets.nullable
  first : ∀ rule ∈ rules, ∀ x ∈ sets.firstOf rule.rhs, x ∈ sets.first.get rule.lhs

theorem closed_of_stable (stable : sets.pass rules = sets)
    (known : ∀ rule ∈ rules, rule.lhs ∈ sets.first.map Prod.fst) : sets.Closed rules := by
  constructor
  · intro rule member allNullable
    have unchanged := growFirst_of_stable stable member
    rw [← unchanged]
    unfold growFirst
    dsimp only
    rw [if_pos (firstWalk_snd.2 allNullable)]
    exact OrderedSet.mem_insert.2 (.inl rfl)
  · intro rule member x inHead
    have unchanged := growFirst_of_stable stable member
    rw [← unchanged]
    exact SetsBySymbol.mem_get_grow (known rule member) inHead

/-- A replacement adds nothing to FIRST of a string: what the right-hand side contributes, its
left-hand side contributed before. -/
theorem Closed.firstOf_once (closed : sets.Closed rules) {first last : SymbolString}
    (once : DerivesOnce rules first last) {x : Symbol} (member : x ∈ sets.firstOf last) :
    x ∈ sets.firstOf first := by
  obtain @⟨rule, inRules, front, back⟩ := once
  rcases mem_firstOf_append.1 member with inFront | ⟨frontNullable, inRest⟩
  · exact mem_firstOf_append.2 (.inl inFront)
  · refine mem_firstOf_append.2 (.inr ⟨frontNullable, mem_firstOf_cons.2 ?_⟩)
    rcases mem_firstOf_append.1 inRest with ⟨differs, inRhs⟩ | ⟨rhsNullable, inBack⟩
    · exact .inl ⟨differs, closed.first rule inRules x inRhs⟩
    · exact .inr ⟨closed.nullable rule inRules rhsNullable, inBack⟩

theorem Closed.firstOf_derives (closed : sets.Closed rules) {first last : SymbolString}
    (derived : Derives rules first last) {x : Symbol} (member : x ∈ sets.firstOf last) :
    x ∈ sets.firstOf first := by
  induction derived with
  | refl => exact member
  | step once _ ih => exact closed.firstOf_once once (ih member)

theorem mem_get_of_below {left right : SetsBySymbol} (below : SetsBySymbol.Below left right)
    {symbol x : Symbol} (member : x ∈ left.get symbol) : x ∈ right.get symbol := by
  induction below with
  | nil => exact member
  | @cons key small large left right within _ ih =>
      unfold SetsBySymbol.get SetsBySymbol.get? at member ih ⊢
      rw [List.lookup_cons] at member ⊢
      split at member
      · exact within x member
      · exact ih member

theorem mem_initial_first {terminals nonterminals : List Symbol} {symbol : Symbol}
    (terminal : symbol ∈ terminals) :
    symbol ∈ (initial terminals nonterminals).first.get symbol := by
  unfold SetsBySymbol.get SetsBySymbol.get? initial
  induction terminals with
  | nil => cases terminal
  | cons first rest ih =>
      rw [List.map_cons, List.cons_append, List.lookup_cons]
      split
      · rename_i same
        rw [beq_iff_eq] at same
        exact OrderedSet.mem_singleton.2 same
      · rename_i differs
        rcases List.mem_cons.1 terminal with equal | inRest
        · rw [equal] at differs
          simp at differs
        · exact ih inRest

/-- A terminal begins with itself from the first pass on. -/
theorem mem_first_ofRules {terminals nonterminals : List Symbol} {symbol : Symbol}
    (terminal : symbol ∈ terminals) :
    symbol ∈ (ofRules rules terminals nonterminals).first.get symbol := by
  have later : Below (initial terminals nonterminals) (ofRules rules terminals nonterminals) :=
    ofRules_induction (fun rule _ sets before => before.trans (below_applyRule _ sets rule))
      (.refl _)
  exact mem_get_of_below later.first (mem_initial_first terminal)

end GrammarSets

/-! ## The sets of a well-formed grammar -/

namespace Grammar.WellFormed

variable {g : Grammar} (formed : g.WellFormed)
include formed

theorem within : g.sets.Within (g.terminals ++ g.nonterminals) g.terminals := by
  rw [formed.sets_eq]
  exact GrammarSets.within_ofRules
    (fun rule member => mem_nonterminals.2 (isNonterminal_lhs member))
    (mem_terminals.2 (.inl rfl))

theorem sound : g.sets.Sound g.rules := by
  rw [formed.sets_eq]
  exact GrammarSets.sound_ofRules _ _ _

/-- One more pass changes nothing. -/
theorem stable : g.sets.pass g.rules = g.sets := by
  rw [formed.sets_eq]
  exact GrammarSets.pass_ofRules
    (fun rule member => mem_nonterminals.2 (isNonterminal_lhs member))
    (mem_terminals.2 (.inl rfl))

theorem closed : g.sets.Closed g.rules := by
  refine GrammarSets.closed_of_stable formed.stable fun rule member => ?_
  rw [formed.within.first_keys]
  exact List.mem_append.2 (.inr (mem_nonterminals.2 (isNonterminal_lhs member)))

/-- FIRST of a string holds terminals and epsilon only. -/
theorem firstOf_subset {string : SymbolString} {x : Symbol} (member : x ∈ g.firstOf string) :
    x ∈ g.terminals ∨ x = Symbol.epsilon := formed.within.firstOf member

theorem epsilon_mem_firstOf_iff {string : SymbolString} :
    Symbol.epsilon ∈ g.firstOf string ↔ Derives g.rules string [] := by
  constructor
  · exact fun member => formed.sound.derives_nil (GrammarSets.epsilon_mem_firstOf.1 member)
  · exact fun derived => formed.closed.firstOf_derives derived (GrammarSets.mem_firstOf_nil.2 rfl)

theorem mem_firstOf_iff {string : SymbolString} {x : Symbol} (terminal : x ∈ g.terminals) :
    x ∈ g.firstOf string ↔ ∃ rest, Derives g.rules string (x :: rest) := by
  have differs : x ≠ Symbol.epsilon := fun equal =>
    formed.epsilon_not_mem_terminals (equal ▸ terminal)
  constructor
  · exact fun member => formed.sound.firstOf member differs
  · rintro ⟨rest, derived⟩
    have head : x ∈ g.sets.first.get x := by
      rw [formed.sets_eq]
      exact GrammarSets.mem_first_ofRules terminal
    exact formed.closed.firstOf_derives derived
      (GrammarSets.mem_firstOf_cons.2 (.inl ⟨differs, head⟩))

end Grammar.WellFormed

end ParserGenerator
