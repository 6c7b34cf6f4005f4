import ParserGenerator.Proofs.Grammar.Members
import ParserGenerator.Proofs.OrderedSetSize

/-!
# The passes over the rules reach a stable point

A pass only adds members, and all members come from a fixed finite list of symbols. So the total
number of members grows with every pass that changes something, and the number of passes that
`GrammarSets.ofRules` allows is enough.

Results:
1. `pass_ofRules`: one more pass over the tables of a list of rules changes nothing.
2. `applyRule_of_stable`: then no single rule has anything to add either.
3. `ofRules_induction`: what holds before the first pass and is kept by every rule holds of the
   tables.
-/

namespace ParserGenerator

namespace SetsBySymbol

/-! ## Tables with more members -/

/-- The tables have the same symbols in the same order, and each set of the second one has all
members of that of the first. -/
inductive Below : SetsBySymbol → SetsBySymbol → Prop
  | nil : Below [] []
  | cons {symbol : Symbol} {small large : SymbolSet} {left right : SetsBySymbol}
      (within : ∀ x ∈ small, x ∈ large) (rest : Below left right) :
      Below ((symbol, small) :: left) ((symbol, large) :: right)

/-- The number of members in all sets. -/
def weight : SetsBySymbol → Nat
  | [] => 0
  | entry :: rest => entry.2.size + weight rest

theorem Below.refl (table : SetsBySymbol) : Below table table := by
  induction table with
  | nil => exact .nil
  | cons entry rest ih => exact .cons (fun _ member => member) ih

theorem Below.trans {first middle last : SetsBySymbol} (early : Below first middle)
    (late : Below middle last) : Below first last := by
  induction early generalizing last with
  | nil => exact late
  | cons within _ ih =>
      cases late with
      | cons later rest => exact .cons (fun x member => later x (within x member)) (ih rest)

theorem Below.keys_eq {left right : SetsBySymbol} (below : Below left right) :
    left.map Prod.fst = right.map Prod.fst := by
  induction below with
  | nil => rfl
  | cons _ _ ih => rw [List.map_cons, List.map_cons, ih]

theorem Below.weight_le {left right : SetsBySymbol} (below : Below left right) :
    left.weight ≤ right.weight := by
  induction below with
  | nil => exact Nat.le_refl _
  | cons within _ ih =>
      have head := OrderedSet.size_le_size within
      simp only [weight] at ih ⊢
      omega

/-- A table below another one of no greater weight is the other one. -/
theorem Below.eq_of_weight_le {left right : SetsBySymbol} (below : Below left right)
    (notHeavier : right.weight ≤ left.weight) : left = right := by
  induction below with
  | nil => rfl
  | cons within rest ih =>
      have head := OrderedSet.size_le_size within
      have tail := rest.weight_le
      simp only [weight] at ih tail notHeavier
      rw [OrderedSet.eq_of_size_le within (by omega), ih (by omega)]

theorem below_grow (table : SetsBySymbol) (symbol : Symbol) (added : SymbolSet) :
    Below table (table.grow symbol added) := by
  induction table with
  | nil => exact .nil
  | cons entry rest ih =>
      obtain ⟨key, set⟩ := entry
      by_cases grown : key = symbol
      · simp only [grow, List.map_cons, grown, if_true]
        exact .cons (fun x member => OrderedSet.mem_union.2 (.inl member)) ih
      · simp only [grow, List.map_cons, grown, if_false]
        exact .cons (fun _ member => member) ih

theorem keys_grow (table : SetsBySymbol) (symbol : Symbol) (added : SymbolSet) :
    (table.grow symbol added).map Prod.fst = table.map Prod.fst := by
  rw [grow, List.map_map]
  refine List.map_congr_left fun entry _ => ?_
  obtain ⟨key, set⟩ := entry
  by_cases grown : key = symbol <;> simp [grown]

end SetsBySymbol

namespace GrammarSets

/-! ## Passes only add members -/

/-- The tables of the second one have all members of those of the first. -/
structure Below (left right : GrammarSets) : Prop where
  nullable : ∀ x ∈ left.nullable, x ∈ right.nullable
  first : SetsBySymbol.Below left.first right.first
  follow : SetsBySymbol.Below left.follow right.follow

/-- The number of members in all tables. -/
def weight (sets : GrammarSets) : Nat :=
  sets.nullable.size + sets.first.weight + sets.follow.weight

theorem Below.refl (sets : GrammarSets) : Below sets sets :=
  ⟨fun _ member => member, .refl _, .refl _⟩

theorem Below.trans {first middle last : GrammarSets} (early : Below first middle)
    (late : Below middle last) : Below first last :=
  ⟨fun x member => late.nullable x (early.nullable x member), early.first.trans late.first,
    early.follow.trans late.follow⟩

theorem Below.eq_of_weight_le {left right : GrammarSets} (below : Below left right)
    (notHeavier : right.weight ≤ left.weight) : left = right := by
  have nullableSize := OrderedSet.size_le_size below.nullable
  have firstWeight := below.first.weight_le
  have followWeight := below.follow.weight_le
  unfold weight at notHeavier
  have nullableEq := OrderedSet.eq_of_size_le below.nullable (by omega)
  have firstEq := below.first.eq_of_weight_le (by omega)
  have followEq := below.follow.eq_of_weight_le (by omega)
  cases left
  cases right
  cases nullableEq
  cases firstEq
  cases followEq
  rfl

theorem Below.weight_le {left right : GrammarSets} (below : Below left right) :
    left.weight ≤ right.weight := by
  have nullableSize := OrderedSet.size_le_size below.nullable
  have firstWeight := below.first.weight_le
  have followWeight := below.follow.weight_le
  unfold weight
  omega

theorem Below.antisymm {left right : GrammarSets} (forth : Below left right)
    (back : Below right left) : left = right := forth.eq_of_weight_le back.weight_le

theorem below_growFirst (sets : GrammarSets) (rule : Rule) : Below sets (sets.growFirst rule) := by
  refine ⟨fun x member => ?_, SetsBySymbol.below_grow _ _ _, .refl _⟩
  unfold growFirst
  dsimp only
  split
  · exact OrderedSet.mem_insert.2 (.inr member)
  · exact member

theorem growFollow_first (isNonterminal : Symbol → Bool) (trailer : SymbolSet) (sets : GrammarSets)
    (string : SymbolString) :
    (growFollow isNonterminal trailer sets string).2.first = sets.first ∧
      (growFollow isNonterminal trailer sets string).2.nullable = sets.nullable := by
  induction string with
  | nil => exact ⟨rfl, rfl⟩
  | cons symbol rest ih =>
      simp only [growFollow]
      split <;> exact ih

/-- The nullable symbols and the FIRST sets are done before a rule comes to the FOLLOW sets. -/
theorem applyRule_first (isNonterminal : Symbol → Bool) (sets : GrammarSets) (rule : Rule) :
    (applyRule isNonterminal sets rule).first = (sets.growFirst rule).first ∧
      (applyRule isNonterminal sets rule).nullable = (sets.growFirst rule).nullable :=
  growFollow_first isNonterminal _ (sets.growFirst rule) rule.rhs

theorem below_growFollow (isNonterminal : Symbol → Bool) (trailer : SymbolSet) (sets : GrammarSets)
    (string : SymbolString) : Below sets (growFollow isNonterminal trailer sets string).2 := by
  induction string with
  | nil => exact .refl _
  | cons symbol rest ih =>
      simp only [growFollow]
      split
      · exact ih.trans ⟨fun _ member => member, .refl _, SetsBySymbol.below_grow _ _ _⟩
      · exact ih

theorem below_applyRule (isNonterminal : Symbol → Bool) (sets : GrammarSets) (rule : Rule) :
    Below sets (applyRule isNonterminal sets rule) :=
  (below_growFirst sets rule).trans (below_growFollow _ _ _ _)

theorem below_foldl_applyRule (isNonterminal : Symbol → Bool) (rules : List Rule)
    (sets : GrammarSets) : Below sets (rules.foldl (applyRule isNonterminal) sets) := by
  induction rules generalizing sets with
  | nil => exact .refl _
  | cons rule rest ih => exact (below_applyRule isNonterminal sets rule).trans (ih _)

theorem below_pass (rules : List Rule) (sets : GrammarSets) : Below sets (sets.pass rules) :=
  below_foldl_applyRule _ rules sets

/-- Rules that together change nothing change nothing one by one: each step lies between the
tables before the first of them and those after the last. -/
theorem applyRule_of_foldl_eq {isNonterminal : Symbol → Bool} {rules : List Rule}
    {sets : GrammarSets} (stable : rules.foldl (applyRule isNonterminal) sets = sets) {rule : Rule}
    (member : rule ∈ rules) : applyRule isNonterminal sets rule = sets := by
  induction rules with
  | nil => simp at member
  | cons first rest ih =>
      rw [List.foldl_cons] at stable
      have unchanged : applyRule isNonterminal sets first = sets := by
        have later := below_foldl_applyRule isNonterminal rest (applyRule isNonterminal sets first)
        rw [stable] at later
        exact later.antisymm (below_applyRule isNonterminal sets first)
      rw [unchanged] at stable
      rcases List.mem_cons.1 member with equal | inRest
      · exact equal ▸ unchanged
      · exact ih stable inRest

theorem applyRule_of_stable {rules : List Rule} {sets : GrammarSets}
    (stable : sets.pass rules = sets) {rule : Rule} (member : rule ∈ rules) :
    applyRule (fun symbol => rules.any (·.lhs == symbol)) sets rule = sets :=
  applyRule_of_foldl_eq stable member

theorem growFirst_of_stable {rules : List Rule} {sets : GrammarSets}
    (stable : sets.pass rules = sets) {rule : Rule} (member : rule ∈ rules) :
    sets.growFirst rule = sets := by
  have whole := applyRule_of_stable stable member
  have later := below_growFollow (fun symbol => rules.any (·.lhs == symbol))
    ((sets.growFirst rule).follow.get rule.lhs) (sets.growFirst rule) rule.rhs
  unfold applyRule at whole
  rw [whole] at later
  exact later.antisymm (below_growFirst sets rule)

/-! ## All members come from a finite list -/

/-- The tables have a set for each of the symbols `keys`; nullable symbols are among these, first
symbols are terminals or epsilon, and following symbols are terminals. -/
structure Within (keys terminals : List Symbol) (sets : GrammarSets) : Prop where
  nullable : ∀ x ∈ sets.nullable, x ∈ keys
  first_keys : sets.first.map Prod.fst = keys
  follow_keys : sets.follow.map Prod.fst = keys
  first : ∀ entry ∈ sets.first, ∀ x ∈ entry.2, x ∈ terminals ∨ x = Symbol.epsilon
  follow : ∀ entry ∈ sets.follow, ∀ x ∈ entry.2, x ∈ terminals

variable {keys terminals : List Symbol} {sets : GrammarSets}

theorem Within.first_get (within : sets.Within keys terminals) {symbol x : Symbol}
    (member : x ∈ sets.first.get symbol) : x ∈ terminals ∨ x = Symbol.epsilon := by
  obtain ⟨entry, inTable, inSet⟩ := SetsBySymbol.exists_mem_of_mem_get member
  exact within.first entry inTable x inSet

theorem Within.follow_get (within : sets.Within keys terminals) {symbol x : Symbol}
    (member : x ∈ sets.follow.get symbol) : x ∈ terminals := by
  obtain ⟨entry, inTable, inSet⟩ := SetsBySymbol.exists_mem_of_mem_get member
  exact within.follow entry inTable x inSet

theorem Within.firstOf (within : sets.Within keys terminals) {string : SymbolString} {x : Symbol}
    (member : x ∈ sets.firstOf string) : x ∈ terminals ∨ x = Symbol.epsilon := by
  induction string with
  | nil => exact .inr (mem_firstOf_nil.1 member)
  | cons symbol rest ih =>
      rcases mem_firstOf_cons.1 member with ⟨_, inFirst⟩ | ⟨_, inRest⟩
      · exact within.first_get inFirst
      · exact ih inRest

theorem Within.growFirst (within : sets.Within keys terminals) {rule : Rule}
    (known : rule.lhs ∈ keys) : (sets.growFirst rule).Within keys terminals := by
  refine ⟨fun x member => ?_, ?_, within.follow_keys, ?_, within.follow⟩
  · unfold GrammarSets.growFirst at member
    dsimp only at member
    split at member
    · rcases OrderedSet.mem_insert.1 member with equal | old
      · exact equal ▸ known
      · exact within.nullable x old
    · exact within.nullable x member
  · exact (SetsBySymbol.keys_grow _ _ _).trans within.first_keys
  · exact SetsBySymbol.forall_mem_grow within.first fun x member => within.firstOf member

theorem Within.growFollow (within : sets.Within keys terminals) {isNonterminal : Symbol → Bool}
    {trailer : SymbolSet} (trailerWithin : ∀ x ∈ trailer, x ∈ terminals) (string : SymbolString) :
    (∀ x ∈ (growFollow isNonterminal trailer sets string).1, x ∈ terminals) ∧
      (growFollow isNonterminal trailer sets string).2.Within keys terminals := by
  induction string with
  | nil => exact ⟨trailerWithin, within⟩
  | cons symbol rest ih =>
      obtain ⟨behindWithin, laterWithin⟩ := ih
      have ownWithin : ∀ x ∈ ((GrammarSets.growFollow isNonterminal trailer sets rest).2.first.get
          symbol).erase Symbol.epsilon, x ∈ terminals := by
        intro x member
        obtain ⟨inFirst, differs⟩ := OrderedSet.mem_erase.1 member
        exact (laterWithin.first_get inFirst).resolve_right differs
      simp only [GrammarSets.growFollow]
      constructor
      · intro x member
        split at member
        · exact (OrderedSet.mem_union.1 member).elim (behindWithin x) (ownWithin x)
        · exact ownWithin x member
      · split
        · exact { laterWithin with
            follow_keys := (SetsBySymbol.keys_grow _ _ _).trans laterWithin.follow_keys
            follow := SetsBySymbol.forall_mem_grow laterWithin.follow behindWithin }
        · exact laterWithin

theorem Within.applyRule (within : sets.Within keys terminals) {isNonterminal : Symbol → Bool}
    {rule : Rule} (known : rule.lhs ∈ keys) :
    (GrammarSets.applyRule isNonterminal sets rule).Within keys terminals :=
  ((within.growFirst known).growFollow
    (fun _ member => (within.growFirst known).follow_get member) rule.rhs).2

/-! ## The number of passes is enough -/

theorem weight_le_of_forall_size_le {table : SetsBySymbol} {bound : Nat}
    (small : ∀ entry ∈ table, entry.2.size ≤ bound) : table.weight ≤ table.length * bound := by
  induction table with
  | nil => simp [SetsBySymbol.weight]
  | cons entry rest ih =>
      have head := small entry List.mem_cons_self
      have tail := ih fun other member => small other (List.mem_cons_of_mem _ member)
      simp only [SetsBySymbol.weight, List.length_cons, Nat.succ_mul] at tail ⊢
      omega

theorem Within.weight_le (within : sets.Within keys terminals)
    (fewer : terminals.length ≤ keys.length) : sets.weight ≤ capacity keys.length := by
  have nullableSize : sets.nullable.size ≤ keys.length :=
    OrderedSet.size_le_of_forall_mem within.nullable
  have firstWeight : sets.first.weight ≤ sets.first.length * (keys.length + 1) := by
    refine weight_le_of_forall_size_le fun entry member => ?_
    have small : entry.2.size ≤ (Symbol.epsilon :: terminals).length := by
      refine OrderedSet.size_le_of_forall_mem fun x inSet => ?_
      rcases within.first entry member x inSet with isTerminal | isEpsilon
      · exact List.mem_cons_of_mem _ isTerminal
      · exact isEpsilon ▸ List.mem_cons_self
    rw [List.length_cons] at small
    omega
  have followWeight : sets.follow.weight ≤ sets.follow.length * (keys.length + 1) := by
    refine weight_le_of_forall_size_le fun entry member => ?_
    have small := OrderedSet.size_le_of_forall_mem (within.follow entry member)
    omega
  have firstLength : sets.first.length = keys.length := by
    rw [← within.first_keys, List.length_map]
  have followLength : sets.follow.length = keys.length := by
    rw [← within.follow_keys, List.length_map]
  rw [firstLength] at firstWeight
  rw [followLength] at followWeight
  unfold weight capacity
  omega

/-- A property of the tables that every rule keeps is kept by a pass. -/
theorem pass_induction {rules : List Rule} {holds : GrammarSets → Prop}
    (keeps : ∀ rule ∈ rules, ∀ sets, holds sets →
      holds (applyRule (fun symbol => rules.any (·.lhs == symbol)) sets rule))
    (before : holds sets) : holds (sets.pass rules) := by
  unfold pass
  generalize (fun symbol => rules.any (·.lhs == symbol)) = isNonterminal at keeps ⊢
  induction rules generalizing sets with
  | nil => exact before
  | cons rule rest ih =>
      exact ih (keeps rule List.mem_cons_self sets before)
        fun other member => keeps other (List.mem_cons_of_mem _ member)

theorem stabilize_induction {rules : List Rule} {holds : GrammarSets → Prop}
    (keeps : ∀ sets, holds sets → holds (sets.pass rules)) (fuel : Nat) (before : holds sets) :
    holds (stabilize rules fuel sets) := by
  induction fuel generalizing sets with
  | zero => exact before
  | succ fuel ih =>
      unfold stabilize
      dsimp only
      split
      · exact before
      · exact ih (keeps sets before)

/-- With as many passes as members can still be added, the tables become stable: a pass that
changes something adds a member. -/
theorem pass_stabilize {rules : List Rule} (known : ∀ rule ∈ rules, rule.lhs ∈ keys)
    (fewer : terminals.length ≤ keys.length) {fuel : Nat} (within : sets.Within keys terminals)
    (enough : capacity keys.length ≤ sets.weight + fuel) :
    (stabilize rules fuel sets).pass rules = stabilize rules fuel sets := by
  induction fuel generalizing sets with
  | zero =>
      have later : (sets.pass rules).Within keys terminals :=
        pass_induction (fun rule member _ before => before.applyRule (known rule member)) within
      have bounded := later.weight_le fewer
      exact ((below_pass rules sets).eq_of_weight_le (by omega)).symm
  | succ fuel ih =>
      unfold stabilize
      dsimp only
      split
      · assumption
      · rename_i changed
        have later : (sets.pass rules).Within keys terminals :=
          pass_induction (fun rule member _ before => before.applyRule (known rule member)) within
        refine ih later ?_
        by_cases heavier : sets.weight < (sets.pass rules).weight
        · omega
        · exact absurd ((below_pass rules sets).eq_of_weight_le (by omega)).symm changed

theorem within_initial (terminals nonterminals : List Symbol)
    (endKnown : Symbol.endOfInput ∈ terminals) :
    (initial terminals nonterminals).Within (terminals ++ nonterminals) terminals := by
  refine ⟨fun x member => by simp [initial] at member, ?_, ?_, ?_, ?_⟩
  · simp [initial, Function.comp_def]
  · simp [initial, Function.comp_def]
  · intro entry member x inSet
    rcases List.mem_append.1 member with isTerminal | isNonterminal
    · obtain ⟨symbol, inList, equal⟩ := List.mem_map.1 isTerminal
      rw [← equal, OrderedSet.mem_singleton] at inSet
      exact .inl (inSet ▸ inList)
    · obtain ⟨symbol, _, equal⟩ := List.mem_map.1 isNonterminal
      rw [← equal] at inSet
      exact absurd inSet OrderedSet.not_mem_empty
  · intro entry member x inSet
    rcases List.mem_append.1 member with isTerminal | isNonterminal
    · obtain ⟨symbol, _, equal⟩ := List.mem_map.1 isTerminal
      rw [← equal] at inSet
      exact absurd inSet OrderedSet.not_mem_empty
    · obtain ⟨symbol, _, equal⟩ := List.mem_map.1 isNonterminal
      rw [← equal] at inSet
      split at inSet
      · rw [OrderedSet.mem_singleton] at inSet
        exact inSet ▸ endKnown
      · exact absurd inSet OrderedSet.not_mem_empty

variable {rules : List Rule} {nonterminals : List Symbol}

/-- What holds before the first pass and is kept by every rule holds of the tables. -/
theorem ofRules_induction {holds : GrammarSets → Prop}
    (keeps : ∀ rule ∈ rules, ∀ sets, holds sets →
      holds (applyRule (fun symbol => rules.any (·.lhs == symbol)) sets rule))
    (before : holds (initial terminals nonterminals)) :
    holds (ofRules rules terminals nonterminals) :=
  stabilize_induction (fun _ reached => pass_induction keeps reached) _ before

theorem within_ofRules (known : ∀ rule ∈ rules, rule.lhs ∈ nonterminals)
    (endKnown : Symbol.endOfInput ∈ terminals) :
    (ofRules rules terminals nonterminals).Within (terminals ++ nonterminals) terminals :=
  ofRules_induction
    (fun rule member _ before =>
      before.applyRule (List.mem_append.2 (.inr (known rule member))))
    (within_initial terminals nonterminals endKnown)

/-- One more pass over the tables of a list of rules changes nothing. -/
theorem pass_ofRules (known : ∀ rule ∈ rules, rule.lhs ∈ nonterminals)
    (endKnown : Symbol.endOfInput ∈ terminals) :
    (ofRules rules terminals nonterminals).pass rules = ofRules rules terminals nonterminals := by
  have within := within_initial terminals nonterminals endKnown
  refine pass_stabilize (fun rule member => List.mem_append.2 (.inr (known rule member))) ?_
    within ?_
  · simp
  · simp

end GrammarSets

end ParserGenerator
