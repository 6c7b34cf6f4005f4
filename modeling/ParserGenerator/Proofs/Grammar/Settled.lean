import ParserGenerator.Proofs.Grammar.First

/-!
# The report of a pass, and the loop that goes by it

The tables of a grammar are found by a loop that passes over the rules until a pass reports that it
has changed nothing. The report is true: every step of a pass only adds members, so a change that
one step has made is not undone by a later one, and the steps that were reported are those that make
the tables other than they were. A loop that goes by such reports neither stops early nor goes on
for ever.

Results:
1. `GrammarSets.Progress.changed_reportedPass_iff`: a pass reports a change exactly when it has
   changed a table.
2. `Grammar.settles_of_checked`: the loop ends, and no later pass changes or reports anything.
-/

namespace ParserGenerator

/-! ## Definitions -/

namespace GrammarSets

/-- The step from one point of a pass to another adds members alone, and it notes a change exactly
when there is one. -/
structure Progress.Reports (progress next : Progress) : Prop where
  below : progress.sets.Below next.sets
  changed_iff : next.changed = true ↔ progress.changed = true ∨ next.sets ≠ progress.sets

/-- The loop that passes over the rules until a pass reports no change ends, with the tables
`last`. -/
inductive Settles (rules : List Rule) : GrammarSets → (last : GrammarSets) → Prop where
  | done {sets : GrammarSets} (unchanged : (sets.reportedPass rules).changed = false) :
      Settles rules sets (sets.reportedPass rules).sets
  | again {sets last : GrammarSets} (changed : (sets.reportedPass rules).changed = true)
      (later : Settles rules (sets.reportedPass rules).sets last) : Settles rules sets last

end GrammarSets

/-- The reports of passes one after the other, and the grammar that they leave. -/
def Grammar.updates : (calls : Nat) → Grammar → List Bool × Grammar
  | 0, g => ([], g)
  | calls + 1, g =>
      let (changed, next) := g.update
      let (reports, last) := updates calls next
      (changed :: reports, last)

/-! ## Additions -/

theorem OrderedSet.size_union_ne_iff {α : Type} [Numbered α] {set added : OrderedSet α} :
    (set ∪ added).size ≠ set.size ↔ set ∪ added ≠ set := by
  refine not_congr ⟨fun same => ?_, congrArg size⟩
  exact (eq_of_size_le (fun x member => mem_union.2 (.inl member)) (Nat.le_of_eq same)).symm

theorem SetsBySymbol.grows_iff {table : SetsBySymbol} {symbol : Symbol} {added : SymbolSet} :
    table.grows symbol added = true ↔ table.grow symbol added ≠ table := by
  induction table with
  | nil => exact ⟨nofun, fun differs => absurd rfl differs⟩
  | cons entry rest ih =>
      obtain ⟨key, set⟩ := entry
      show (key == symbol && (set ∪ added).size != set.size || grows rest symbol added) = true ↔
        (if key = symbol then (key, set ∪ added) else (key, set)) :: grow rest symbol added ≠
          (key, set) :: rest
      rw [Bool.or_eq_true, ih, Bool.and_eq_true, beq_iff_eq, bne_iff_ne,
        OrderedSet.size_union_ne_iff]
      by_cases here : key = symbol
      · simp only [here, if_true, ne_eq, List.cons.injEq, Prod.mk.injEq, true_and]
        exact Decidable.not_and_iff_not_or_not.symm
      · simp only [here, if_false, ne_eq, List.cons.injEq, false_and, false_or, true_and]

namespace GrammarSets

namespace Progress

variable {progress next : Progress} {isNonterminal : Symbol → Bool} {rules : List Rule}

/-! ## Steps -/

theorem Reports.refl (progress : Progress) : Reports progress progress :=
  ⟨.refl _, (or_iff_left fun differs => differs rfl).symm⟩

/-- Two steps change something exactly when one of them does, since the second one takes nothing
back. -/
theorem Reports.trans {last : Progress} (early : Reports progress next)
    (late : Reports next last) : Reports progress last := by
  refine ⟨early.below.trans late.below, ?_⟩
  rw [late.changed_iff, early.changed_iff, or_assoc]
  refine or_congr_right ⟨?_, fun differs => ?_⟩
  · rintro (first | second) same
    · exact first ((same ▸ late.below).antisymm early.below)
    · exact second (late.below.antisymm (same ▸ early.below)).symm
  · by_cases first : next.sets = progress.sets
    · exact .inr (first ▸ differs)
    · exact .inl first

theorem reports_markNullable (progress : Progress) (symbol : Symbol) :
    Reports progress (progress.markNullable symbol) := by
  unfold markNullable
  split
  · exact .refl _
  · rename_i unknown
    refine ⟨⟨fun x member => OrderedSet.mem_insert.2 (.inr member), .refl _, .refl _⟩, ?_⟩
    refine iff_of_true rfl (.inr fun same => unknown ?_)
    have nullable := congrArg GrammarSets.nullable same
    dsimp only at nullable
    rw [← nullable]
    exact OrderedSet.contains_iff.2 (OrderedSet.mem_insert.2 (.inl rfl))

theorem reports_growFirst (progress : Progress) (symbol : Symbol) (added : SymbolSet) :
    Reports progress (progress.growFirst symbol added) := by
  refine ⟨⟨fun _ member => member, SetsBySymbol.below_grow _ _ _, .refl _⟩, ?_⟩
  unfold growFirst
  rw [Bool.or_eq_true, SetsBySymbol.grows_iff]
  refine or_congr_right (not_congr ⟨fun same => ?_, congrArg GrammarSets.first⟩)
  dsimp only
  rw [same]

theorem reports_growFollow (progress : Progress) (symbol : Symbol) (added : SymbolSet) :
    Reports progress (progress.growFollow symbol added) := by
  refine ⟨⟨fun _ member => member, .refl _, SetsBySymbol.below_grow _ _ _⟩, ?_⟩
  unfold growFollow
  rw [Bool.or_eq_true, SetsBySymbol.grows_iff]
  refine or_congr_right (not_congr ⟨fun same => ?_, congrArg GrammarSets.follow⟩)
  dsimp only
  rw [same]

theorem reports_derive (progress : Progress) (rule : Rule) :
    Reports progress (progress.derive rule) := by
  unfold derive
  dsimp only
  split
  · exact (reports_markNullable progress rule.lhs).trans (reports_growFirst _ _ _)
  · exact reports_growFirst _ _ _

theorem reports_followBack (trailer : SymbolSet) (progress : Progress) (string : SymbolString) :
    Reports progress (followBack isNonterminal trailer progress string).2 := by
  induction string with
  | nil => exact .refl _
  | cons symbol rest ih =>
      simp only [followBack]
      split
      · exact ih.trans (reports_growFollow _ _ _)
      · exact ih

theorem reports_applyRule (progress : Progress) (rule : Rule) :
    Reports progress (applyRule isNonterminal progress rule) :=
  (reports_derive progress rule).trans (reports_followBack _ _ _)

theorem reports_foldl (progress : Progress) (rules : List Rule) :
    Reports progress (rules.foldl (applyRule isNonterminal) progress) := by
  induction rules generalizing progress with
  | nil => exact .refl _
  | cons rule rest ih => exact (reports_applyRule progress rule).trans (ih _)

/-! ## The tables of a pass -/

theorem sets_markNullable (progress : Progress) (symbol : Symbol) :
    (progress.markNullable symbol).sets =
      { progress.sets with nullable := progress.sets.nullable.insert symbol } := by
  unfold markNullable
  split
  · rename_i known
    have same : progress.sets.nullable.insert symbol = progress.sets.nullable :=
      OrderedSet.ext_mem fun x => OrderedSet.mem_insert.trans
        (or_iff_right_of_imp fun equal => equal ▸ OrderedSet.contains_iff.1 known)
    rw [same]
  · rfl

theorem sets_derive (progress : Progress) (rule : Rule) :
    (progress.derive rule).sets = progress.sets.growFirst rule := by
  unfold derive growFirst GrammarSets.growFirst
  dsimp only
  split
  · rw [sets_markNullable]
  · rfl

theorem sets_followBack (trailer : SymbolSet) (progress : Progress) (string : SymbolString) :
    (followBack isNonterminal trailer progress string).1 =
        (GrammarSets.growFollow isNonterminal trailer progress.sets string).1 ∧
      (followBack isNonterminal trailer progress string).2.sets =
        (GrammarSets.growFollow isNonterminal trailer progress.sets string).2 := by
  induction string with
  | nil => exact ⟨rfl, rfl⟩
  | cons symbol rest ih =>
      obtain ⟨behind, sets⟩ := ih
      simp only [followBack, GrammarSets.growFollow]
      rw [← behind, ← sets]
      split <;> exact ⟨rfl, rfl⟩

theorem sets_applyRule (progress : Progress) (rule : Rule) :
    (applyRule isNonterminal progress rule).sets =
      GrammarSets.applyRule isNonterminal progress.sets rule := by
  unfold applyRule GrammarSets.applyRule
  dsimp only
  rw [(sets_followBack _ _ _).2, sets_derive]

theorem sets_foldl (progress : Progress) (rules : List Rule) :
    (rules.foldl (applyRule isNonterminal) progress).sets =
      rules.foldl (GrammarSets.applyRule isNonterminal) progress.sets := by
  induction rules generalizing progress with
  | nil => rfl
  | cons rule rest ih => rw [List.foldl_cons, List.foldl_cons, ih, sets_applyRule]

/-- The reported pass leaves the tables of the pass. -/
theorem sets_reportedPass (rules : List Rule) (sets : GrammarSets) :
    (sets.reportedPass rules).sets = sets.pass rules := sets_foldl ⟨sets, false⟩ rules

/-- A pass reports a change exactly when it has changed a table. -/
theorem changed_reportedPass_iff (rules : List Rule) (sets : GrammarSets) :
    (sets.reportedPass rules).changed = true ↔ sets.pass rules ≠ sets := by
  rw [← sets_reportedPass]
  exact (reports_foldl ⟨sets, false⟩ rules).changed_iff.trans (or_iff_right nofun)

theorem reportedPass_of_stable {sets : GrammarSets} (stable : sets.pass rules = sets) :
    sets.reportedPass rules = ⟨sets, false⟩ := by
  have left := sets_reportedPass rules sets
  have quiet : (sets.reportedPass rules).changed = false := by
    rw [Bool.eq_false_iff]
    exact fun changed => (changed_reportedPass_iff rules sets).1 changed stable
  rw [stable] at left
  generalize sets.reportedPass rules = progress at left quiet
  cases progress
  cases left
  cases quiet
  rfl

end Progress

/-! ## The loop -/

variable {rules : List Rule} {sets last : GrammarSets}

theorem ne_iff {other : GrammarSets} :
    sets ≠ other ↔ sets.nullable ≠ other.nullable ∨ sets.first ≠ other.first ∨
      sets.follow ≠ other.follow := by
  cases sets
  cases other
  simp only [ne_eq, GrammarSets.mk.injEq, Decidable.not_and_iff_not_or_not]

/-- Passes leave no choice, so the loop ends in one way at most. -/
theorem Settles.unique {other : GrammarSets} (settles : Settles rules sets last)
    (settlesToo : Settles rules sets other) : last = other := by
  induction settles with
  | done unchanged =>
      cases settlesToo with
      | done _ => rfl
      | again changed _ => cases unchanged.symm.trans changed
  | again changed _ ih =>
      cases settlesToo with
      | done unchanged => cases unchanged.symm.trans changed
      | again _ later => exact ih later

theorem settles_of_stable (stable : sets.pass rules = sets) : Settles rules sets sets := by
  have settled := Progress.reportedPass_of_stable stable
  have ends := @Settles.done rules sets (settled ▸ rfl)
  rwa [settled] at ends

/-- A bounded number of passes that comes to a stable point takes the turns of the loop. -/
theorem settles_stabilize {fuel : Nat}
    (stable : (stabilize rules fuel sets).pass rules = stabilize rules fuel sets) :
    Settles rules sets (stabilize rules fuel sets) := by
  induction fuel generalizing sets with
  | zero => exact settles_of_stable stable
  | succ fuel ih =>
      unfold stabilize at stable ⊢
      dsimp only at stable ⊢
      split
      · rename_i unchanged
        exact settles_of_stable unchanged
      · rename_i changed
        rw [if_neg changed] at stable
        refine .again ((Progress.changed_reportedPass_iff rules sets).2 changed) ?_
        rw [Progress.sets_reportedPass]
        exact ih stable

end GrammarSets

/-! ## Grammars -/

namespace Grammar

open GrammarSets

variable {g : Grammar}

theorem update_eq (g : Grammar) :
    g.update = ((g.sets.reportedPass g.rules).changed, { g with sets := g.sets.pass g.rules }) := by
  unfold update
  dsimp only
  rw [Progress.sets_reportedPass]

theorem update_of_stable (stable : g.sets.pass g.rules = g.sets) : g.update = (false, g) := by
  rw [update_eq, Progress.reportedPass_of_stable stable, stable]

theorem updates_of_stable (stable : g.sets.pass g.rules = g.sets) (calls : Nat) :
    g.updates calls = (List.replicate calls false, g) := by
  induction calls with
  | zero => rfl
  | succ calls ih =>
      rw [updates, update_of_stable stable, List.replicate_succ]
      dsimp only
      rw [ih]

theorem WellFormed.settles (formed : g.WellFormed) :
    Settles g.rules (initial g.terminals g.nonterminals) g.sets := by
  have stable := formed.stable
  rw [formed.sets_eq] at stable ⊢
  exact settles_stabilize stable

/-- For every list of rules that uses no reserved symbol and defines its start symbol: the loop that
passes over the rules until a pass reports no change ends with the tables of the grammar. From then
on, however often it is asked for, a pass reports no change and changes nothing; and a pass over any
tables reports a change exactly when it has changed one of them. -/
theorem settles_of_checked {rules : List Rule} {first : Rule} {start : Option Symbol}
    {names : SymbolTable} (nonempty : rules.head? = some first)
    (free : reservedUse? names rules = none)
    (defined : ∃ rule ∈ rules, rule.lhs = start.getD first.lhs) :
    ∃ g, ofRules rules start names = .ok g ∧
      (∀ last, Settles g.rules (initial g.terminals g.nonterminals) last ↔ last = g.sets) ∧
      (∀ calls, g.updates calls = (List.replicate calls false, g)) ∧
      ∀ sets : GrammarSets, let after := update { g with sets }
        after.1 = true ↔ after.2.sets.nullable ≠ sets.nullable ∨
          after.2.sets.first ≠ sets.first ∨ after.2.sets.follow ≠ sets.follow := by
  obtain ⟨rest, rfl⟩ := List.head?_eq_some_iff.1 nonempty
  obtain ⟨rule, member, isStart⟩ := defined
  have known : (first :: rest).any (·.lhs == start.getD first.lhs) = true :=
    List.any_eq_true.2 ⟨rule, member, beq_iff_eq.2 isStart⟩
  obtain ⟨g, accepted⟩ : ∃ g, ofRules (first :: rest) start names = .ok g := by
    simp only [ofRules, free, known, if_true]
    exact ⟨_, rfl⟩
  have formed := wellFormed_of_ofRules accepted
  refine ⟨g, accepted, fun last => ⟨fun ends => ends.unique formed.settles, ?_⟩,
    updates_of_stable formed.stable, fun sets => ?_⟩
  · exact fun same => same ▸ formed.settles
  · rw [update_eq]
    exact (Progress.changed_reportedPass_iff _ sets).trans GrammarSets.ne_iff

/-- The rules `3 := 4 5`, `4 := 6`, `6 := 3` and `6 :=`. That `6` derives the empty string, and so
`4` does, is found behind the rule of `3`, where it matters. -/
def backwardRules : List Rule :=
  [Rule.plain ⟨3⟩ [⟨4⟩, ⟨5⟩], Rule.plain ⟨4⟩ [⟨6⟩], Rule.plain ⟨6⟩ [⟨3⟩], Rule.plain ⟨6⟩ []]

theorem settles_of_checked_backward :
    backwardRules.head? = some (Rule.plain ⟨3⟩ [⟨4⟩, ⟨5⟩]) ∧
    reservedUse? SymbolTable.initial backwardRules = none ∧
    (∃ rule ∈ backwardRules, rule.lhs = (none : Option Symbol).getD ⟨3⟩) ∧
    ∃ g, ofRules backwardRules none SymbolTable.initial = .ok g ∧
      (∀ last, Settles g.rules (initial g.terminals g.nonterminals) last ↔ last = g.sets) ∧
      (∀ calls, g.updates calls = (List.replicate calls false, g)) ∧
      ∀ sets : GrammarSets, let after := update { g with sets }
        after.1 = true ↔ after.2.sets.nullable ≠ sets.nullable ∨
          after.2.sets.first ≠ sets.first ∨ after.2.sets.follow ≠ sets.follow := by
  have nonempty : backwardRules.head? = some (Rule.plain ⟨3⟩ [⟨4⟩, ⟨5⟩]) := rfl
  have free : reservedUse? SymbolTable.initial backwardRules = none := by decide
  have defined : ∃ rule ∈ backwardRules, rule.lhs = (none : Option Symbol).getD ⟨3⟩ :=
    ⟨_, List.mem_cons_self, rfl⟩
  exact ⟨nonempty, free, defined, settles_of_checked nonempty free defined⟩

end Grammar

end ParserGenerator
