import ParserGenerator.OrderedSet

/-!
# Sizes of ordered sets

The fixpoints over symbol sets stop because their sets grow inside a finite universe. This module
counts: a set is no larger than a list that has all its members, and a set that is properly inside
another one is smaller.
-/

namespace ParserGenerator.OrderedSet

variable {α : Type} [Numbered α] {left right : OrderedSet α}

theorem nodup_toList (set : OrderedSet α) : set.toList.Nodup := by
  refine set.ascending.imp fun below equal => ?_
  rw [equal] at below
  exact Nat.lt_irrefl _ below

/-- A set whose members are all on a list is no longer than the list. -/
theorem size_le_of_forall_mem {set : OrderedSet α} {list : List α}
    (within : ∀ x ∈ set, x ∈ list) : set.size ≤ list.length :=
  set.nodup_toList.length_le_of_subset within

theorem size_le_size (within : ∀ x ∈ left, x ∈ right) : left.size ≤ right.size :=
  size_le_of_forall_mem within

/-- A set inside another one that is not larger is the other one. -/
theorem eq_of_size_le (within : ∀ x ∈ left, x ∈ right) (notLarger : right.size ≤ left.size) :
    left = right := by
  refine ext_mem fun x => ⟨within x, fun member => ?_⟩
  by_cases known : x ∈ left
  · exact known
  · have distinct : (x :: left.toList).Nodup := List.nodup_cons.2 ⟨known, left.nodup_toList⟩
    have inside : ∀ y ∈ x :: left.toList, y ∈ right.toList := by
      intro y inList
      rcases List.mem_cons.1 inList with equal | inLeft
      · exact equal ▸ member
      · exact within y inLeft
    have longer := distinct.length_le_of_subset inside
    simp only [List.length_cons] at longer
    unfold size at notLarger
    omega

end ParserGenerator.OrderedSet
