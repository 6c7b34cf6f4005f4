import Mathlib.Data.List.Forall2

/-!
# Looking up in association lists

Rows of a table, edges of a state and kernels are lists of keys with values. With a value for each
key at most, what is found under a key is what stands beside it.
-/

namespace ParserGenerator

variable {κ α β : Type} [DecidableEq κ]

theorem lookup_map (change : α → β) (entries : List (κ × α)) (key : κ) :
    (entries.map fun (key, value) => (key, change value)).lookup key =
      (entries.lookup key).map change := by
  induction entries with
  | nil => rfl
  | cons entry rest ih =>
      rw [List.map_cons, List.lookup_cons, List.lookup_cons]
      split
      · rfl
      · exact ih

theorem lookup_eq_some_iff_mem {entries : List (κ × α)} (distinct : (entries.map Prod.fst).Nodup)
    {key : κ} {value : α} : entries.lookup key = some value ↔ (key, value) ∈ entries := by
  induction entries with
  | nil => exact ⟨fun found => (by cases found), fun member => (by cases member)⟩
  | cons entry rest ih =>
      obtain ⟨first, stored⟩ := entry
      rw [List.map_cons, List.nodup_cons] at distinct
      obtain ⟨fresh, nodup⟩ := distinct
      rw [List.lookup_cons, List.mem_cons]
      by_cases same : key = first
      · rw [same, beq_self_eq_true]
        constructor
        · intro found
          cases found
          exact .inl rfl
        · rintro (equal | later)
          · cases equal
            rfl
          · exact absurd (List.mem_map.2 ⟨_, later, rfl⟩) fresh
      · rw [beq_eq_false_iff_ne.2 same]
        refine (ih nodup).trans ⟨.inr, fun member => member.resolve_left ?_⟩
        exact fun equal => same (congrArg Prod.fst equal)

/-! ## Places in lists -/

/-- What has a place in a list keeps it in a longer one. -/
theorem getElem?_of_isPrefix {list longer : List α} (grown : list <+: longer) {index : Nat}
    {value : α} (found : list[index]? = some value) : longer[index]? = some value := by
  obtain ⟨added, equal⟩ := grown
  obtain ⟨bound, _⟩ := List.getElem?_eq_some_iff.1 found
  rw [← equal, List.getElem?_append_left bound]
  exact found

/-! ## Lists side by side -/

/-- An element of a list has one that it is related to. -/
theorem exists_mem_of_forall₂ {relates : α → β → Prop} {left : List α}
    {right : List β} (related : List.Forall₂ relates left right) {a : α} (member : a ∈ left) :
    ∃ b ∈ right, relates a b := by
  induction related with
  | nil => cases member
  | cons first _ ih =>
      rcases List.mem_cons.1 member with rfl | later
      · exact ⟨_, List.mem_cons_self, first⟩
      · obtain ⟨b, inRest, relate⟩ := ih later
        exact ⟨b, List.mem_cons_of_mem _ inRest, relate⟩

/-- The first element with a property stands beside the first one with the property there. -/
theorem exists_first_of_forall₂ {relates : α → β → Prop} {p : α → Prop} {q : β → Prop}
    (same : ∀ a b, relates a b → (p a ↔ q b)) {left : List α} {front back : List β} {b : β}
    (related : List.Forall₂ relates left (front ++ b :: back))
    (earlier : ∀ other ∈ front, ¬ q other) :
    ∃ front' a back', left = front' ++ a :: back' ∧ relates a b ∧ ∀ other ∈ front', ¬ p other := by
  have fronts := List.forall₂_take_append left front (b :: back) related
  have backs := List.forall₂_drop_append left front (b :: back) related
  obtain ⟨a, back', relate, _, isBack⟩ := List.forall₂_cons_right_iff.1 backs
  refine ⟨left.take front.length, a, back', ?_, relate, fun other member holds => ?_⟩
  · rw [← isBack, List.take_append_drop]
  · obtain ⟨target, inFront, relateOther⟩ := exists_mem_of_forall₂ fronts member
    exact earlier target inFront ((same other target relateOther).1 holds)

/-- An element of a list is related to the one in its place. -/
theorem exists_getElem?_of_forall₂ {relates : α → β → Prop} {left : List α} {right : List β}
    (related : List.Forall₂ relates left right) {index : Nat} {a : α}
    (found : left[index]? = some a) : ∃ b, right[index]? = some b ∧ relates a b := by
  induction related generalizing index with
  | nil => cases found
  | cons first _ ih =>
      cases index with
      | zero =>
          cases found
          exact ⟨_, rfl, first⟩
      | succ index => exact ih found

/-! ## Keys in the order in which they come -/

/-- The keys after one of them was written: a new one goes to the end. -/
def withKey (keys : List κ) (key : κ) : List κ := if key ∈ keys then keys else keys ++ [key]

theorem withKey_cons {first key : κ} (differs : first ≠ key) (keys : List κ) :
    withKey (first :: keys) key = first :: withKey keys key := by
  unfold withKey
  by_cases known : key ∈ keys
  · rw [if_pos known, if_pos (List.mem_cons_of_mem _ known)]
  · rw [if_neg known, if_neg fun member => known (List.mem_of_ne_of_mem (Ne.symm differs) member)]
    rfl

theorem nodup_withKey {keys : List κ} (distinct : keys.Nodup) (key : κ) :
    (withKey keys key).Nodup := by
  unfold withKey
  split
  · exact distinct
  · rename_i fresh
    rw [List.nodup_append]
    refine ⟨distinct, List.pairwise_singleton _ _, fun other member same single => ?_⟩
    rw [List.mem_singleton.1 single]
    exact fun equal => fresh (equal ▸ member)

/-- Writing keys one after another keeps the first of equal ones. -/
theorem foldl_withKey_nil (keys : List κ) : keys.foldl withKey [] = keys.eraseDups := by
  -- The loop behind `eraseDups` carries the keys so far in reverse.
  have loop (later earlier : List κ) : List.eraseDupsBy.loop (· == ·) later earlier =
      later.foldl withKey earlier.reverse := by
    induction later generalizing earlier with
    | nil => rfl
    | cons key rest ih =>
        rw [List.eraseDupsBy.loop, List.foldl_cons]
        unfold withKey
        by_cases known : key ∈ earlier
        · have found : (earlier.any fun old => key == old) = true :=
            List.any_eq_true.2 ⟨key, known, beq_self_eq_true key⟩
          rw [found, if_pos (List.mem_reverse.2 known)]
          exact ih earlier
        · have missing : (earlier.any fun old => key == old) = false :=
            List.any_eq_false.2 fun old member same => known (eq_of_beq same ▸ member)
          rw [missing, if_neg fun member => known (List.mem_reverse.1 member), ← List.reverse_cons]
          exact ih (key :: earlier)
  exact (loop keys []).symm

/-- Where keys are related to one key each, a key is new where its counterpart is. -/
theorem forall₂_withKey [DecidableEq α] {relates : κ → α → Prop} (unique : Relator.BiUnique relates)
    {keys : List κ} {keys' : List α} (related : List.Forall₂ relates keys keys') {key : κ}
    {key' : α} (same : relates key key') :
    List.Forall₂ relates (withKey keys key) (withKey keys' key') := by
  have inKeys : key ∈ keys ↔ key' ∈ keys' := List.rel_mem unique same related
  unfold withKey
  by_cases member : key ∈ keys
  · rw [if_pos member, if_pos (inKeys.1 member)]
    exact related
  · rw [if_neg member, if_neg fun member' => member (inKeys.2 member')]
    exact List.rel_append related (.cons same .nil)

theorem forall₂_eraseDups [DecidableEq α] {relates : κ → α → Prop}
    (unique : Relator.BiUnique relates) {keys : List κ} {keys' : List α}
    (related : List.Forall₂ relates keys keys') :
    List.Forall₂ relates keys.eraseDups keys'.eraseDups := by
  have step : ∀ {rest : List κ} {rest' : List α}, List.Forall₂ relates rest rest' →
      ∀ {front : List κ} {front' : List α}, List.Forall₂ relates front front' →
        List.Forall₂ relates (rest.foldl withKey front) (rest'.foldl withKey front') := by
    intro rest rest' areRest
    induction areRest with
    | nil => exact id
    | cons same _ ih => exact fun areFront => ih (forall₂_withKey unique areFront same)
  rw [← foldl_withKey_nil, ← foldl_withKey_nil]
  exact step related .nil

end ParserGenerator
