import ParserGenerator.Item
import ParserGenerator.Proofs.OrderedSetSize

/-!
# What item sets hold

An item set is seen from outside through two relations: which cores it has, and which symbols are
in the lookahead of a core. All operations on item sets are joins in both relations.

Results: `ItemSet.has_union`, `ItemSet.mem_lookahead_union`, and `ItemSet.ext_has`, that the two
relations determine an item set.
-/

namespace ParserGenerator

namespace ItemCore

variable {g : Grammar} {core : ItemCore}

theorem nextSymbol_eq_some {symbol : Symbol} :
    core.nextSymbol g = some symbol ↔
      ∃ rule, g.rule? core.rule = some rule ∧ rule.rhs[core.marker]? = some symbol := by
  unfold nextSymbol
  cases found : g.rule? core.rule with
  | none => simp
  | some rule => simp

theorem nextSymbol_eq {rule : Rule} (found : g.rule? core.rule = some rule) :
    core.nextSymbol g = rule.rhs[core.marker]? := by
  unfold nextSymbol
  rw [found]
  rfl

theorem rest_eq {rule : Rule} (found : g.rule? core.rule = some rule) :
    core.rest g = rule.rhs.drop (core.marker + 1) := by
  unfold rest
  rw [found]

/-- What is behind the marker is the next symbol and the rest. -/
theorem drop_eq_cons {rule : Rule} (found : g.rule? core.rule = some rule) {symbol : Symbol}
    (next : core.nextSymbol g = some symbol) :
    rule.rhs.drop core.marker = symbol :: core.rest g := by
  rw [nextSymbol_eq found] at next
  obtain ⟨bound, isNext⟩ := List.getElem?_eq_some_iff.1 next
  rw [rest_eq found, List.drop_eq_getElem_cons bound, isNext]

end ItemCore

namespace ItemSet

/-! ## Definitions -/

/-- Whether some item of the set has the core. -/
def Has (set : ItemSet) (core : ItemCore) : Prop := ∃ lookahead, set.get? core = some lookahead

/-- The lookahead of a core, which is empty if the set does not have the core. -/
def lookahead (set : ItemSet) (core : ItemCore) : SymbolSet := (set.get? core).getD ∅

/-! ## Membership -/

variable {set left right : ItemSet} {core : ItemCore} {x : Symbol}

theorem has_of_mem_lookahead (member : x ∈ set.lookahead core) : set.Has core := by
  unfold lookahead at member
  cases found : set.get? core with
  | none => simp [found] at member
  | some known => exact ⟨known, found⟩

theorem has_iff : set.Has core ↔ ∃ item ∈ set.items, item.core = core := by
  constructor
  · rintro ⟨known, found⟩
    exact ⟨⟨core, known⟩, mem_items_iff.2 found, rfl⟩
  · rintro ⟨item, member, equal⟩
    exact ⟨item.lookahead, equal ▸ mem_items_iff.1 member⟩

theorem mem_lookahead_iff :
    x ∈ set.lookahead core ↔ ∃ item ∈ set.items, item.core = core ∧ x ∈ item.lookahead := by
  constructor
  · intro member
    obtain ⟨known, found⟩ := has_of_mem_lookahead member
    unfold lookahead at member
    rw [found] at member
    exact ⟨⟨core, known⟩, mem_items_iff.2 found, rfl, member⟩
  · rintro ⟨item, member, equal, inSet⟩
    unfold lookahead
    rw [← equal, mem_items_iff.1 member]
    exact inSet

@[simp] theorem not_has_empty : ¬ (∅ : ItemSet).Has core := by
  rintro ⟨known, found⟩
  cases found

@[simp] theorem not_mem_lookahead_empty : x ∉ (∅ : ItemSet).lookahead core := fun member =>
  not_has_empty (has_of_mem_lookahead member)

theorem has_insert {added : Item} :
    (set.insert added).Has core ↔ core = added.core ∨ set.Has core := by
  unfold Has
  rw [get?_insert]
  by_cases same : core = added.core
  · simp [same]
  · simp [same]

theorem mem_lookahead_insert {added : Item} :
    x ∈ (set.insert added).lookahead core ↔
      (core = added.core ∧ x ∈ added.lookahead) ∨ x ∈ set.lookahead core := by
  unfold lookahead
  rw [get?_insert]
  by_cases same : core = added.core
  · simp [same, or_comm]
  · simp [same]

theorem has_foldl_insert {items : List Item} :
    (items.foldl insert set).Has core ↔ set.Has core ∨ ∃ item ∈ items, item.core = core := by
  induction items generalizing set with
  | nil => simp
  | cons first rest ih =>
      simp only [List.foldl_cons, ih, has_insert, List.mem_cons, or_and_right, exists_or,
        exists_eq_left]
      constructor
      · rintro ((equal | old) | later)
        · exact .inr (.inl equal.symm)
        · exact .inl old
        · exact .inr (.inr later)
      · rintro (old | equal | later)
        · exact .inl (.inr old)
        · exact .inl (.inl equal.symm)
        · exact .inr later

theorem mem_lookahead_foldl_insert {items : List Item} :
    x ∈ (items.foldl insert set).lookahead core ↔
      x ∈ set.lookahead core ∨ ∃ item ∈ items, item.core = core ∧ x ∈ item.lookahead := by
  induction items generalizing set with
  | nil => simp
  | cons first rest ih =>
      simp only [List.foldl_cons, ih, mem_lookahead_insert, List.mem_cons, or_and_right, exists_or,
        exists_eq_left]
      constructor
      · rintro ((⟨equal, inFirst⟩ | old) | later)
        · exact .inr (.inl ⟨equal.symm, inFirst⟩)
        · exact .inl old
        · exact .inr (.inr later)
      · rintro (old | ⟨equal, inFirst⟩ | later)
        · exact .inl (.inr old)
        · exact .inl (.inl ⟨equal.symm, inFirst⟩)
        · exact .inr later

theorem has_union : (left ∪ right).Has core ↔ left.Has core ∨ right.Has core := by
  have members : right.Has core ↔ ∃ item ∈ right.items, item.core = core := has_iff
  rw [members]
  exact has_foldl_insert

theorem mem_lookahead_union :
    x ∈ (left ∪ right).lookahead core ↔ x ∈ left.lookahead core ∨ x ∈ right.lookahead core := by
  have members : x ∈ right.lookahead core ↔
      ∃ item ∈ right.items, item.core = core ∧ x ∈ item.lookahead := mem_lookahead_iff
  rw [members]
  exact mem_lookahead_foldl_insert

theorem has_ofList {items : List Item} :
    (ofList items).Has core ↔ ∃ item ∈ items, item.core = core := by
  unfold ofList
  rw [has_foldl_insert]
  simp

theorem mem_lookahead_ofList {items : List Item} :
    x ∈ (ofList items).lookahead core ↔
      ∃ item ∈ items, item.core = core ∧ x ∈ item.lookahead := by
  unfold ofList
  rw [mem_lookahead_foldl_insert]
  simp

/-- The cores and their lookaheads determine an item set. -/
theorem ext_has (sameCores : ∀ core, left.Has core ↔ right.Has core)
    (sameLookahead : ∀ core x, x ∈ left.lookahead core ↔ x ∈ right.lookahead core) :
    left = right := by
  refine ext_get? fun core => ?_
  have same := OrderedSet.ext_mem (sameLookahead core)
  unfold lookahead at same
  cases inLeft : left.get? core with
  | none =>
      cases inRight : right.get? core with
      | none => rfl
      | some known =>
          obtain ⟨other, found⟩ := (sameCores core).2 ⟨known, inRight⟩
          rw [inLeft] at found
          cases found
  | some known =>
      obtain ⟨other, found⟩ := (sameCores core).1 ⟨known, inLeft⟩
      rw [inLeft, found] at same
      rw [found]
      exact congrArg some same

/-! ## Weights -/

/-- One for the item of a rule with its marker in front, and one for each symbol of its
lookahead. -/
def weightOfRule (set : ItemSet) (id : Nat) : Nat :=
  match set.get? ⟨id, 0⟩ with
  | none => 0
  | some known => 1 + known.size

/-- The weight of the items of the first `count` rules with their markers in front. -/
def weight (set : ItemSet) : (count : Nat) → Nat
  | 0 => 0
  | count + 1 => set.weight count + set.weightOfRule count

theorem weight_le_mul {count bound : Nat}
    (small : ∀ id < count, set.weightOfRule id ≤ bound) : set.weight count ≤ count * bound := by
  induction count with
  | zero => exact Nat.zero_le _
  | succ count ih =>
      have front := ih fun id below => small id (Nat.lt_succ_of_lt below)
      have last := small count (Nat.lt_succ_self count)
      rw [weight, Nat.succ_mul]
      exact Nat.add_le_add front last

theorem weight_le_weight {count : Nat}
    (grows : ∀ id, left.weightOfRule id ≤ right.weightOfRule id) :
    left.weight count ≤ right.weight count := by
  induction count with
  | zero => exact Nat.le_refl _
  | succ count ih => exact Nat.add_le_add ih (grows count)

theorem weight_lt_weight {count id : Nat}
    (grows : ∀ id, left.weightOfRule id ≤ right.weightOfRule id) (bound : id < count)
    (grown : left.weightOfRule id < right.weightOfRule id) :
    left.weight count < right.weight count := by
  induction count with
  | zero => cases bound
  | succ count ih =>
      rcases Nat.lt_succ_iff_lt_or_eq.1 bound with below | equal
      · exact Nat.add_lt_add_of_lt_of_le (ih below) (grows count)
      · subst equal
        exact Nat.add_lt_add_of_le_of_lt (weight_le_weight grows) grown

theorem weightOfRule_insert_le {added : Item} (id : Nat) :
    set.weightOfRule id ≤ (set.insert added).weightOfRule id := by
  unfold weightOfRule
  rw [get?_insert]
  cases found : set.get? ⟨id, 0⟩ with
  | none => exact Nat.zero_le _
  | some known =>
      by_cases same : (⟨id, 0⟩ : ItemCore) = added.core
      · rw [if_pos same]
        show 1 + known.size ≤ 1 + (known ∪ added.lookahead).size
        have grows : known.size ≤ (known ∪ added.lookahead).size :=
          OrderedSet.size_le_size fun x member => OrderedSet.mem_union.2 (.inl member)
        exact Nat.add_le_add_left grows 1
      · exact Nat.le_of_eq (by rw [if_neg same])

/-- Adding an item of a rule with its marker in front makes the set heavier, unless it changes
nothing. -/
theorem weightOfRule_insert_lt {id : Nat} {added : SymbolSet}
    (changed : set.insert ⟨⟨id, 0⟩, added⟩ ≠ set) :
    set.weightOfRule id < (set.insert ⟨⟨id, 0⟩, added⟩).weightOfRule id := by
  unfold weightOfRule
  rw [get?_insert, if_pos rfl]
  cases found : set.get? ⟨id, 0⟩ with
  | none =>
      show 0 < 1 + _
      exact Nat.lt_of_lt_of_le Nat.zero_lt_one (Nat.le_add_right 1 _)
  | some known =>
      show 1 + known.size < 1 + (known ∪ added).size
      by_cases larger : known.size < (known ∪ added).size
      · exact Nat.add_lt_add_left larger 1
      · have same : known = known ∪ added :=
          OrderedSet.eq_of_size_le (fun x member => OrderedSet.mem_union.2 (.inl member))
            (Nat.le_of_not_lt larger)
        refine absurd (ext_get? fun core => ?_) changed
        rw [get?_insert]
        split
        · rename_i equal
          rw [equal, found]
          exact congrArg some same.symm
        · rfl

end ItemSet

end ParserGenerator
