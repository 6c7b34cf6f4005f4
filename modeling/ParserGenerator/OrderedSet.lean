/-!
# Sets in ascending order

Symbols, characters and automaton states are values counted by natural numbers. A finite set
of such values is the list of its members in ascending order, so that two sets with the same
members are one value and every listing of a set is in the order of the numbers.

Results: membership after each operation, and `OrderedSet.ext_mem`, which says that a set is
determined by its members.
-/

namespace ParserGenerator

/-- Values counted by natural numbers: different values have different numbers. -/
class Numbered (α : Type) where
  number : α → Nat
  number_inj : ∀ {a b : α}, number a = number b → a = b

export Numbered (number number_inj)

instance : Numbered Nat where
  number := id
  number_inj := id

instance : Numbered Char where
  number := Char.toNat
  number_inj := Char.toNat_inj.1

variable {α : Type} [Numbered α]

/-- A finite set, listed by ascending numbers. -/
structure OrderedSet (α : Type) [Numbered α] where
  toList : List α
  ascending : toList.Pairwise (number · < number ·)

instance [DecidableEq α] : DecidableEq (OrderedSet α) := fun s t =>
  if equal : s.toList = t.toList then
    isTrue (by cases s; cases t; cases equal; rfl)
  else
    isFalse (fun same => equal (same ▸ rfl))

/-! ## Ascending lists -/

/-- Puts `x` at its place in an ascending list, unless it is there already. -/
def insertAscending (x : α) : List α → List α
  | [] => [x]
  | y :: rest =>
      if number x < number y then x :: y :: rest
      else if number y < number x then y :: insertAscending x rest
      else y :: rest

theorem mem_insertAscending {x z : α} {list : List α} :
    z ∈ insertAscending x list ↔ z = x ∨ z ∈ list := by
  induction list with
  | nil => simp [insertAscending]
  | cons y rest ih =>
      by_cases below : number x < number y
      · simp [insertAscending, below]
      · by_cases above : number y < number x
        · simp only [insertAscending, below, above, if_true, if_false, List.mem_cons, ih]
          exact or_left_comm
        · have same : x = y := number_inj (by omega)
          simp [insertAscending, same]

theorem insertAscending_ascending {x : α} {list : List α}
    (ascending : list.Pairwise (number · < number ·)) :
    (insertAscending x list).Pairwise (number · < number ·) := by
  induction list with
  | nil => simp [insertAscending]
  | cons y rest ih =>
      rw [List.pairwise_cons] at ascending
      obtain ⟨first, later⟩ := ascending
      by_cases below : number x < number y
      · simp only [insertAscending, below, if_true, List.pairwise_cons]
        refine ⟨fun z member => ?_, first, later⟩
        rcases List.mem_cons.1 member with equal | inRest
        · exact equal ▸ below
        · have := first z inRest
          omega
      · by_cases above : number y < number x
        · simp only [insertAscending, below, above, if_true, if_false, List.pairwise_cons]
          refine ⟨fun z member => ?_, ih later⟩
          rcases mem_insertAscending.1 member with equal | inRest
          · exact equal ▸ above
          · exact first z inRest
        · simp only [insertAscending, below, above, if_false, List.pairwise_cons]
          exact ⟨first, later⟩

/-- Two ascending lists with the same members are the same list. -/
theorem ascending_unique {left right : List α}
    (leftAscending : left.Pairwise (number · < number ·))
    (rightAscending : right.Pairwise (number · < number ·))
    (same : ∀ x, x ∈ left ↔ x ∈ right) : left = right := by
  induction left generalizing right with
  | nil =>
      cases right with
      | nil => rfl
      | cons y rest => exact absurd ((same y).2 List.mem_cons_self) List.not_mem_nil
  | cons x left ih =>
      cases right with
      | nil => exact absurd ((same x).1 List.mem_cons_self) List.not_mem_nil
      | cons y right =>
          rw [List.pairwise_cons] at leftAscending rightAscending
          have heads : x = y := by
            rcases List.mem_cons.1 ((same x).1 List.mem_cons_self) with equal | inRight
            · exact equal
            rcases List.mem_cons.1 ((same y).2 List.mem_cons_self) with equal | inLeft
            · exact equal.symm
            have := leftAscending.1 y inLeft
            have := rightAscending.1 x inRight
            omega
          subst heads
          congr 1
          refine ih leftAscending.2 rightAscending.2 fun z => ⟨fun member => ?_, fun member => ?_⟩
          · rcases List.mem_cons.1 ((same z).1 (List.mem_cons_of_mem _ member)) with equal | inRight
            · have := leftAscending.1 z member
              rw [equal] at this
              omega
            · exact inRight
          · rcases List.mem_cons.1 ((same z).2 (List.mem_cons_of_mem _ member)) with equal | inLeft
            · have := rightAscending.1 z member
              rw [equal] at this
              omega
            · exact inLeft

namespace OrderedSet

/-! ## Operations -/

instance : Membership α (OrderedSet α) where
  mem set x := x ∈ set.toList

theorem mem_def {x : α} {set : OrderedSet α} : x ∈ set ↔ x ∈ set.toList := Iff.rfl

/-- A set is determined by its members. -/
theorem ext_mem {s t : OrderedSet α} (same : ∀ x, x ∈ s ↔ x ∈ t) : s = t := by
  have lists := ascending_unique s.ascending t.ascending same
  cases s
  cases t
  cases lists
  rfl

/-- Whether `x` is a member. -/
def contains (set : OrderedSet α) (x : α) : Bool :=
  set.toList.any fun y => number y == number x

theorem contains_iff {x : α} {set : OrderedSet α} : set.contains x = true ↔ x ∈ set := by
  simp only [contains, List.any_eq_true, beq_iff_eq]
  constructor
  · rintro ⟨y, member, equal⟩
    exact number_inj equal ▸ member
  · exact fun member => ⟨x, member, rfl⟩

instance (x : α) (set : OrderedSet α) : Decidable (x ∈ set) :=
  decidable_of_iff _ contains_iff

def empty : OrderedSet α := ⟨[], List.Pairwise.nil⟩

instance : EmptyCollection (OrderedSet α) := ⟨empty⟩

instance : Inhabited (OrderedSet α) := ⟨∅⟩

@[simp] theorem toList_empty : (∅ : OrderedSet α).toList = [] := rfl

@[simp] theorem not_mem_empty {x : α} : ¬ x ∈ (∅ : OrderedSet α) := List.not_mem_nil

/-- Adds one member. -/
def insert (set : OrderedSet α) (x : α) : OrderedSet α :=
  ⟨insertAscending x set.toList, insertAscending_ascending set.ascending⟩

@[simp] theorem mem_insert {x z : α} {set : OrderedSet α} :
    z ∈ set.insert x ↔ z = x ∨ z ∈ set := mem_insertAscending

/-- The members that pass a test. -/
def filter (keep : α → Bool) (set : OrderedSet α) : OrderedSet α :=
  ⟨set.toList.filter keep, set.ascending.filter _⟩

@[simp] theorem mem_filter {keep : α → Bool} {x : α} {set : OrderedSet α} :
    x ∈ set.filter keep ↔ x ∈ set ∧ keep x = true := List.mem_filter

/-- Takes one member away. -/
def erase (set : OrderedSet α) (x : α) : OrderedSet α :=
  set.filter fun y => !(number y == number x)

@[simp] theorem mem_erase {x z : α} {set : OrderedSet α} :
    z ∈ set.erase x ↔ z ∈ set ∧ z ≠ x := by
  simp only [erase, mem_filter, Bool.not_eq_true', beq_eq_false_iff_ne]
  exact and_congr_right fun _ =>
    ⟨fun differ equal => differ (equal ▸ rfl), fun differ equal => differ (number_inj equal)⟩

/-- The set of the values of a list. -/
def ofList (list : List α) : OrderedSet α :=
  list.foldl insert ∅

/-- The members of either set. -/
def union (left right : OrderedSet α) : OrderedSet α :=
  right.toList.foldl insert left

instance : Union (OrderedSet α) := ⟨union⟩

theorem mem_foldl_insert {x : α} {list : List α} {set : OrderedSet α} :
    x ∈ list.foldl insert set ↔ x ∈ set ∨ x ∈ list := by
  induction list generalizing set with
  | nil => simp
  | cons y rest ih =>
      rw [List.foldl_cons, ih, mem_insert, List.mem_cons, or_assoc, or_left_comm]

@[simp] theorem mem_union {x : α} {left right : OrderedSet α} :
    x ∈ left ∪ right ↔ x ∈ left ∨ x ∈ right := mem_foldl_insert

@[simp] theorem mem_ofList {x : α} {list : List α} : x ∈ ofList list ↔ x ∈ list := by
  simp [ofList, mem_foldl_insert]

/-- The set with one member. -/
def singleton (x : α) : OrderedSet α := ⟨[x], List.pairwise_singleton _ _⟩

@[simp] theorem mem_singleton {x z : α} : z ∈ singleton x ↔ z = x := List.mem_singleton

def size (set : OrderedSet α) : Nat := set.toList.length

def isEmpty (set : OrderedSet α) : Bool := set.toList.isEmpty

/-- Sets are compared as the ascending lists of their numbers, word by word. -/
def order (left right : OrderedSet α) : Ordering :=
  compare (left.toList.map number) (right.toList.map number)

end OrderedSet

end ParserGenerator
