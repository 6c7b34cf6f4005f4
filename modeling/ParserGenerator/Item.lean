import ParserGenerator.Grammar

/-!
# Items and item sets

An item is a rule with a marker in its right-hand side and a set of lookahead symbols: what is in
front of the marker has been read, what is behind it is expected, and the lookahead says what may
stand behind the whole rule. An item set has one item for each rule and marker in it, listed by
rules and markers; adding an item that is there already joins the lookaheads.

Results: `ItemSet.get?_insert`, what an item set holds after an item is added, and
`ItemSet.ext_get?`, that an item set is determined by what it holds.
-/

namespace ParserGenerator

/-- A rule's number and a position in its right-hand side. -/
structure ItemCore where
  rule : Nat
  marker : Nat
deriving DecidableEq, Repr, Inhabited

namespace ItemCore

/-- The order of item sets: by rules, then by markers. -/
def Before (left right : ItemCore) : Prop :=
  left.rule < right.rule ∨ (left.rule = right.rule ∧ left.marker < right.marker)

instance (left right : ItemCore) : Decidable (left.Before right) :=
  inferInstanceAs (Decidable (_ ∨ _))

theorem Before.trans {first second third : ItemCore}
    (early : first.Before second) (late : second.Before third) : first.Before third := by
  unfold Before at *
  omega

theorem Before.irrefl (core : ItemCore) : ¬ core.Before core := by
  unfold Before
  omega

theorem eq_of_not_before {left right : ItemCore}
    (notLess : ¬ left.Before right) (notMore : ¬ right.Before left) : left = right := by
  obtain ⟨leftRule, leftMarker⟩ := left
  obtain ⟨rightRule, rightMarker⟩ := right
  simp only [Before, mk.injEq] at *
  omega

/-- The order of two cores. -/
def order (left right : ItemCore) : Ordering :=
  if left.Before right then .lt else if right.Before left then .gt else .eq

/-- The symbol right behind the marker. -/
def nextSymbol (g : Grammar) (core : ItemCore) : Option Symbol := do
  (← g.rule? core.rule).rhs[core.marker]?

/-- The symbols behind the next symbol. -/
def rest (g : Grammar) (core : ItemCore) : SymbolString :=
  match g.rule? core.rule with
  | some rule => rule.rhs.drop (core.marker + 1)
  | none => []

/-- Whether no symbol is behind the marker. -/
def isFinished (g : Grammar) (core : ItemCore) : Bool :=
  match g.rule? core.rule with
  | some rule => rule.rhs.length ≤ core.marker
  | none => true

/-- The core with its marker moved over the next symbol. -/
def shifted (core : ItemCore) : ItemCore := { core with marker := core.marker + 1 }

/-- The rule with a dot at the marker, if the rule exists. A marker behind the end is shown at the
end. -/
def display? (names : SymbolTable) (g : Grammar) (core : ItemCore) : Option String := do
  let rule ← g.rule? core.rule
  let word (symbol : Symbol) : String := " " ++ names.display symbol
  pure ("(" ++ names.display rule.lhs ++ " :=" ++
    String.join ((rule.rhs.take core.marker).map word) ++ " ." ++
    String.join ((rule.rhs.drop core.marker).map word) ++ ")")

end ItemCore

/-- A core with its lookahead. -/
structure Item where
  core : ItemCore
  lookahead : SymbolSet
deriving DecidableEq

/-- Items by ascending cores, each core once. -/
structure ItemSet where
  items : List Item
  ascending : items.Pairwise fun left right => left.core.Before right.core
deriving DecidableEq

namespace ItemSet

/-- Puts an item at its place in a list of items, or joins its lookahead to the item with the same
core. -/
def insertItem (added : Item) : List Item → List Item
  | [] => [added]
  | item :: rest =>
      if added.core.Before item.core then added :: item :: rest
      else if item.core.Before added.core then item :: insertItem added rest
      else { item with lookahead := item.lookahead ∪ added.lookahead } :: rest

theorem core_of_mem_insertItem {added item : Item} {items : List Item}
    (member : item ∈ insertItem added items) :
    item.core = added.core ∨ ∃ old ∈ items, old.core = item.core := by
  induction items with
  | nil => simp_all [insertItem]
  | cons first rest ih =>
      simp only [insertItem] at member
      split at member
      · rcases List.mem_cons.1 member with equal | old
        · exact .inl (equal ▸ rfl)
        · exact .inr ⟨item, old, rfl⟩
      · split at member
        · rcases List.mem_cons.1 member with equal | later
          · exact .inr ⟨first, List.mem_cons_self, equal ▸ rfl⟩
          · rcases ih later with equal | ⟨old, inRest, same⟩
            · exact .inl equal
            · exact .inr ⟨old, List.mem_cons_of_mem _ inRest, same⟩
        · rcases List.mem_cons.1 member with equal | later
          · exact .inr ⟨first, List.mem_cons_self, equal ▸ rfl⟩
          · exact .inr ⟨item, List.mem_cons_of_mem _ later, rfl⟩

theorem insertItem_ascending {added : Item} {items : List Item}
    (ascending : items.Pairwise fun left right => left.core.Before right.core) :
    (insertItem added items).Pairwise fun left right => left.core.Before right.core := by
  induction items with
  | nil => simp [insertItem]
  | cons first rest ih =>
      rw [List.pairwise_cons] at ascending
      obtain ⟨smallest, later⟩ := ascending
      simp only [insertItem]
      split <;> rename_i below
      · rw [List.pairwise_cons, List.pairwise_cons]
        refine ⟨fun item member => ?_, smallest, later⟩
        rcases List.mem_cons.1 member with equal | inRest
        · exact equal ▸ below
        · exact below.trans (smallest item inRest)
      · split <;> rename_i above
        · rw [List.pairwise_cons]
          refine ⟨fun item member => ?_, ih later⟩
          rcases core_of_mem_insertItem member with equal | ⟨old, inRest, same⟩
          · exact equal ▸ above
          · exact same ▸ smallest old inRest
        · rw [List.pairwise_cons]
          exact ⟨smallest, later⟩

def empty : ItemSet := ⟨[], List.Pairwise.nil⟩

instance : EmptyCollection ItemSet := ⟨empty⟩

instance : Inhabited ItemSet := ⟨∅⟩

/-- Adds an item. -/
def insert (set : ItemSet) (added : Item) : ItemSet :=
  ⟨insertItem added set.items, insertItem_ascending set.ascending⟩

/-- The lookahead of a core in the set. -/
def get? (set : ItemSet) (core : ItemCore) : Option SymbolSet :=
  (set.items.find? fun item => item.core == core).map Item.lookahead

/-- The set of the items of a list. -/
def ofList (items : List Item) : ItemSet := items.foldl insert ∅

/-- The items of both sets. -/
def union (left right : ItemSet) : ItemSet := right.items.foldl insert left

instance : Union ItemSet := ⟨union⟩

def size (set : ItemSet) : Nat := set.items.length

def isEmpty (set : ItemSet) : Bool := set.items.isEmpty

/-- One line for each item, if all rules exist. -/
def display? (names : SymbolTable) (g : Grammar) (set : ItemSet) : Option String := do
  let lines ← set.items.mapM fun item => do
    let core ← item.core.display? names g
    pure ("- " ++ core ++ "  " ++ item.lookahead.display names ++ "\n")
  pure (String.join lines)

/-! ## What a set holds -/

theorem find?_insertItem {added : Item} {items : List Item} (core : ItemCore)
    (ascending : items.Pairwise fun left right => left.core.Before right.core) :
    ((insertItem added items).find? fun item => item.core == core).map Item.lookahead =
      if core = added.core then
        some ((((items.find? fun item => item.core == core).map Item.lookahead).getD ∅) ∪
          added.lookahead)
      else (items.find? fun item => item.core == core).map Item.lookahead := by
  have emptyUnion (set : SymbolSet) : ∅ ∪ set = set :=
    OrderedSet.ext_mem fun x => by simp
  induction items with
  | nil =>
      by_cases same : core = added.core
      · subst same
        simp [insertItem, emptyUnion]
      · have differ : added.core ≠ core := fun equal => same equal.symm
        simp [insertItem, same, differ]
  | cons first rest ih =>
      rw [List.pairwise_cons] at ascending
      obtain ⟨smallest, later⟩ := ascending
      simp only [insertItem]
      split <;> rename_i below
      · by_cases same : core = added.core
        · subst same
          have absent : (first :: rest).find? (fun item => item.core == added.core) = none := by
            rw [List.find?_eq_none]
            intro item member
            simp only [beq_iff_eq]
            intro equal
            have before : added.core.Before item.core := by
              rcases List.mem_cons.1 member with isFirst | inRest
              · exact isFirst ▸ below
              · exact below.trans (smallest item inRest)
            exact ItemCore.Before.irrefl _ (equal ▸ before)
          rw [absent]
          simp [emptyUnion]
        · have differ : added.core ≠ core := fun equal => same equal.symm
          simp [same, differ]
      · split <;> rename_i above
        · by_cases isFirst : first.core = core
          · have same : core ≠ added.core := fun equal =>
              ItemCore.Before.irrefl _ ((isFirst.trans equal) ▸ above)
            simp [isFirst, same]
          · simp only [List.find?_cons, beq_eq_false_iff_ne.2 isFirst]
            exact ih later
        · have equal : added.core = first.core := ItemCore.eq_of_not_before below above
          by_cases isFirst : first.core = core
          · simp [isFirst, equal]
          · have same : core ≠ added.core := fun other => isFirst (equal.symm.trans other.symm)
            simp [isFirst, same]

theorem get?_insert (set : ItemSet) (added : Item) (core : ItemCore) :
    (set.insert added).get? core =
      if core = added.core then some (((set.get? core).getD ∅) ∪ added.lookahead)
      else set.get? core :=
  find?_insertItem core set.ascending

theorem find?_of_mem {items : List Item} {item : Item}
    (ascending : items.Pairwise fun left right => left.core.Before right.core)
    (member : item ∈ items) :
    (items.find? fun other => other.core == item.core) = some item := by
  induction items with
  | nil => simp at member
  | cons first rest ih =>
      rw [List.pairwise_cons] at ascending
      rcases List.mem_cons.1 member with equal | inRest
      · simp [equal]
      · have differ : first.core ≠ item.core := fun equal =>
          ItemCore.Before.irrefl _ (equal ▸ ascending.1 item inRest)
        rw [List.find?_cons, beq_eq_false_iff_ne.2 differ]
        exact ih ascending.2 inRest

theorem mem_items_iff {set : ItemSet} {item : Item} :
    item ∈ set.items ↔ set.get? item.core = some item.lookahead := by
  constructor
  · intro member
    rw [get?, find?_of_mem set.ascending member]
    rfl
  · intro found
    obtain ⟨other, isFound, same⟩ := Option.map_eq_some_iff.1 found
    have core : other.core = item.core := by simpa using List.find?_some isFound
    have equal : other = item := by
      cases other
      cases item
      cases core
      cases same
      rfl
    exact equal ▸ List.mem_of_find?_eq_some isFound

/-- Ascending lists with the same items are the same list. -/
theorem items_unique {left right : List Item}
    (leftAscending : left.Pairwise fun a b => a.core.Before b.core)
    (rightAscending : right.Pairwise fun a b => a.core.Before b.core)
    (same : ∀ item, item ∈ left ↔ item ∈ right) : left = right := by
  induction left generalizing right with
  | nil =>
      cases right with
      | nil => rfl
      | cons y rest => exact absurd ((same y).2 List.mem_cons_self) List.not_mem_nil
  | cons x left ih =>
      cases right with
      | nil => exact absurd ((same x).1 List.mem_cons_self) List.not_mem_nil
      | cons y right =>
          rw [List.pairwise_cons] at leftAscending rightAscending
          have heads : x = y := by
            rcases List.mem_cons.1 ((same x).1 List.mem_cons_self) with equal | inRight
            · exact equal
            rcases List.mem_cons.1 ((same y).2 List.mem_cons_self) with equal | inLeft
            · exact equal.symm
            exact absurd ((leftAscending.1 y inLeft).trans (rightAscending.1 x inRight))
              (ItemCore.Before.irrefl _)
          subst heads
          congr 1
          refine ih leftAscending.2 rightAscending.2 fun z => ⟨fun member => ?_, fun member => ?_⟩
          · rcases List.mem_cons.1 ((same z).1 (List.mem_cons_of_mem _ member)) with equal | inRight
            · exact absurd (equal ▸ leftAscending.1 z member) (ItemCore.Before.irrefl _)
            · exact inRight
          · rcases List.mem_cons.1 ((same z).2 (List.mem_cons_of_mem _ member)) with equal | inLeft
            · exact absurd (equal ▸ rightAscending.1 z member) (ItemCore.Before.irrefl _)
            · exact inLeft

/-- An item set is determined by what it holds. -/
theorem ext_get? {left right : ItemSet} (same : ∀ core, left.get? core = right.get? core) :
    left = right := by
  have lists : left.items = right.items :=
    items_unique left.ascending right.ascending fun item => by
      rw [mem_items_iff, mem_items_iff, same]
  cases left
  cases right
  cases lists
  rfl

end ItemSet

end ParserGenerator
