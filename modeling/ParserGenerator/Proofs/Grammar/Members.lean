import ParserGenerator.Grammar.Sets

/-!
# Members of the symbol tables

Membership in a grown table, and membership in FIRST of a string in terms of its parts. Later
proofs use these and do not open `SetsBySymbol.grow` or `GrammarSets.firstWalk`.

Results: `GrammarSets.mem_firstOf_cons` and `GrammarSets.mem_firstOf_append`, that FIRST of a string
comes from its first part and, if that is nullable, from the rest.
-/

namespace ParserGenerator

namespace SetsBySymbol

/-- What holds of all members of a table and of the added ones holds of all members of the grown
table. -/
theorem forall_mem_grow {allowed : Symbol → Prop} {table : SetsBySymbol} {symbol : Symbol}
    {added : SymbolSet} (old : ∀ entry ∈ table, ∀ x ∈ entry.2, allowed x)
    (new : ∀ x ∈ added, allowed x) :
    ∀ entry ∈ table.grow symbol added, ∀ x ∈ entry.2, allowed x := by
  intro entry member x inSet
  obtain ⟨before, isOld, same⟩ := List.mem_map.1 member
  obtain ⟨key, set⟩ := before
  by_cases grown : key = symbol
  · simp only [grown, if_true] at same
    rw [← same] at inSet
    rcases OrderedSet.mem_union.1 inSet with inOld | inAdded
    · exact old _ isOld x inOld
    · exact new x inAdded
  · simp only [grown, if_false] at same
    rw [← same] at inSet
    exact old _ isOld x inSet

theorem exists_mem_of_mem_get {table : SetsBySymbol} {symbol x : Symbol}
    (member : x ∈ table.get symbol) : ∃ entry ∈ table, x ∈ entry.2 := by
  unfold get get? at member
  cases found : table.lookup symbol with
  | none => simp [found] at member
  | some set =>
      obtain ⟨before, after, equal, _⟩ := List.lookup_eq_some_iff.1 found
      refine ⟨(symbol, set), ?_, by simpa [found] using member⟩
      rw [equal]
      simp

theorem of_mem_get_grow {table : SetsBySymbol} {symbol key x : Symbol} {added : SymbolSet}
    (member : x ∈ (table.grow symbol added).get key) :
    x ∈ table.get key ∨ (key = symbol ∧ x ∈ added) := by
  unfold get at member ⊢
  rw [get?_grow] at member
  cases found : table.get? key with
  | none => simp [found] at member
  | some set =>
      simp only [found, Option.map_some, Option.getD_some] at member ⊢
      split at member
      · rename_i same
        exact (OrderedSet.mem_union.1 member).imp id fun inAdded => ⟨same, inAdded⟩
      · exact .inl member

theorem get?_eq_some_get {table : SetsBySymbol} {symbol : Symbol}
    (known : symbol ∈ table.map Prod.fst) : table.get? symbol = some (table.get symbol) := by
  unfold get
  cases found : table.get? symbol with
  | some set => rfl
  | none =>
      obtain ⟨entry, member, key⟩ := List.mem_map.1 known
      have absent := List.lookup_eq_none_iff.1 found entry member
      simp [key] at absent

/-- Members that are added to a symbol of the table are in its set. -/
theorem mem_get_grow {table : SetsBySymbol} {symbol x : Symbol} {added : SymbolSet}
    (known : symbol ∈ table.map Prod.fst) (isAdded : x ∈ added) :
    x ∈ (table.grow symbol added).get symbol := by
  rw [get, get?_grow, get?_eq_some_get known]
  simp [isAdded]

end SetsBySymbol

namespace GrammarSets

/-! ## Members of FIRST of a string -/

theorem firstWalk_snd {sets : GrammarSets} {string : SymbolString} :
    (sets.firstWalk string).2 = true ↔ ∀ symbol ∈ string, symbol ∈ sets.nullable := by
  induction string with
  | nil => simp [firstWalk]
  | cons symbol rest ih =>
      by_cases nullable : symbol ∈ sets.nullable
      · simp [firstWalk, OrderedSet.contains_iff.2 nullable, nullable, ih]
      · have notContained : sets.nullable.contains symbol = false := by
          rw [Bool.eq_false_iff]
          exact fun contained => nullable (OrderedSet.contains_iff.1 contained)
        simp [firstWalk, notContained, nullable]

theorem mem_firstWalk_cons {sets : GrammarSets} {x symbol : Symbol} {rest : SymbolString} :
    x ∈ (sets.firstWalk (symbol :: rest)).1 ↔
      x ∈ sets.first.get symbol ∨ (symbol ∈ sets.nullable ∧ x ∈ (sets.firstWalk rest).1) := by
  by_cases nullable : symbol ∈ sets.nullable
  · simp [firstWalk, OrderedSet.contains_iff.2 nullable, nullable]
  · have notContained : sets.nullable.contains symbol = false := by
      rw [Bool.eq_false_iff]
      exact fun contained => nullable (OrderedSet.contains_iff.1 contained)
    simp [firstWalk, notContained, nullable]

theorem mem_firstOf {sets : GrammarSets} {x : Symbol} {string : SymbolString} :
    x ∈ sets.firstOf string ↔ (x ≠ Symbol.epsilon ∧ x ∈ (sets.firstWalk string).1) ∨
      (x = Symbol.epsilon ∧ ∀ symbol ∈ string, symbol ∈ sets.nullable) := by
  unfold firstOf
  rw [← firstWalk_snd]
  dsimp only
  split <;> rename_i allNullable
  · simp only [OrderedSet.mem_insert, OrderedSet.mem_erase, allNullable, and_true]
    constructor
    · rintro (isEpsilon | ⟨inWalk, differs⟩)
      · exact .inr isEpsilon
      · exact .inl ⟨differs, inWalk⟩
    · rintro (⟨differs, inWalk⟩ | isEpsilon)
      · exact .inr ⟨inWalk, differs⟩
      · exact .inl isEpsilon
  · simp only [OrderedSet.mem_erase, allNullable, Bool.false_eq_true, and_false, or_false]
    exact and_comm

@[simp] theorem mem_firstOf_nil {sets : GrammarSets} {x : Symbol} :
    x ∈ sets.firstOf [] ↔ x = Symbol.epsilon := by
  simp [mem_firstOf, firstWalk]

theorem epsilon_mem_firstOf {sets : GrammarSets} {string : SymbolString} :
    Symbol.epsilon ∈ sets.firstOf string ↔ ∀ symbol ∈ string, symbol ∈ sets.nullable := by
  simp [mem_firstOf]

theorem mem_firstOf_cons {sets : GrammarSets} {x symbol : Symbol} {rest : SymbolString} :
    x ∈ sets.firstOf (symbol :: rest) ↔ (x ≠ Symbol.epsilon ∧ x ∈ sets.first.get symbol) ∨
      (symbol ∈ sets.nullable ∧ x ∈ sets.firstOf rest) := by
  simp only [mem_firstOf, mem_firstWalk_cons, List.forall_mem_cons]
  by_cases isEpsilon : x = Symbol.epsilon
  · simp [isEpsilon]
  · simp [isEpsilon]

theorem mem_firstOf_append {sets : GrammarSets} {x : Symbol} {left right : SymbolString} :
    x ∈ sets.firstOf (left ++ right) ↔ (x ≠ Symbol.epsilon ∧ x ∈ sets.firstOf left) ∨
      ((∀ symbol ∈ left, symbol ∈ sets.nullable) ∧ x ∈ sets.firstOf right) := by
  induction left with
  | nil => simp
  | cons symbol rest ih =>
      rw [List.cons_append, mem_firstOf_cons, mem_firstOf_cons, ih, List.forall_mem_cons]
      constructor
      · rintro (⟨differs, inHead⟩ | ⟨nullable, ⟨differs, inRest⟩ | ⟨all, inRight⟩⟩)
        · exact .inl ⟨differs, .inl ⟨differs, inHead⟩⟩
        · exact .inl ⟨differs, .inr ⟨nullable, inRest⟩⟩
        · exact .inr ⟨⟨nullable, all⟩, inRight⟩
      · rintro (⟨differs, ⟨_, inHead⟩ | ⟨nullable, inRest⟩⟩ | ⟨⟨nullable, all⟩, inRight⟩)
        · exact .inl ⟨differs, inHead⟩
        · exact .inr ⟨nullable, .inl ⟨differs, inRest⟩⟩
        · exact .inr ⟨nullable, .inr ⟨all, inRight⟩⟩

end GrammarSets

end ParserGenerator
