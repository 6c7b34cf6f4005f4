import ParserGenerator.Proofs.Automaton.Closure

/-!
# Remembered closures

Closing an item set item by item and joining the results gives the closure of the whole set, and
what is remembered of earlier closures has no influence on it.

Results: `KnownClosures.close_spec`, that `KnownClosures.close` computes `Grammar.closure`, and
`Grammar.closure_spec`, that this is the closure of the items of the set.
-/

namespace ParserGenerator

/-! ## Closures of several items -/

section

variable {g : Grammar} {kernel left right : List Item} {core : ItemCore} {x : Symbol}

theorem ClosureHas.mono (has : ClosureHas g left core) (within : ∀ item ∈ left, item ∈ right) :
    ClosureHas g right core := by
  induction has with
  | kernel member => exact .kernel (within _ member)
  | expand _ next ofNext ih => exact .expand ih next ofNext

theorem ClosureLooks.mono (looks : ClosureLooks g left core x)
    (within : ∀ item ∈ left, item ∈ right) : ClosureLooks g right core x := by
  induction looks with
  | kernel member inSet => exact .kernel (within _ member) inSet
  | first has next ofNext differs begins =>
      exact .first (has.mono within) next ofNext differs begins
  | inherit _ next ofNext nullable ih => exact .inherit ih next ofNext nullable

theorem closureHas_append :
    ClosureHas g (left ++ right) core ↔ ClosureHas g left core ∨ ClosureHas g right core := by
  constructor
  · intro has
    induction has with
    | kernel member => exact (List.mem_append.1 member).imp .kernel .kernel
    | expand _ next ofNext ih =>
        exact ih.imp (fun old => .expand old next ofNext) fun old => .expand old next ofNext
  · rintro (inLeft | inRight)
    · exact inLeft.mono fun _ member => List.mem_append.2 (.inl member)
    · exact inRight.mono fun _ member => List.mem_append.2 (.inr member)

theorem closureLooks_append :
    ClosureLooks g (left ++ right) core x ↔
      ClosureLooks g left core x ∨ ClosureLooks g right core x := by
  constructor
  · intro looks
    induction looks with
    | kernel member inSet =>
        exact (List.mem_append.1 member).imp (fun old => .kernel old inSet) fun old =>
          .kernel old inSet
    | first has next ofNext differs begins =>
        exact (closureHas_append.1 has).imp (fun old => .first old next ofNext differs begins)
          fun old => .first old next ofNext differs begins
    | inherit _ next ofNext nullable ih =>
        exact ih.imp (fun old => .inherit old next ofNext nullable) fun old =>
          .inherit old next ofNext nullable
  · rintro (inLeft | inRight)
    · exact inLeft.mono fun _ member => List.mem_append.2 (.inl member)
    · exact inRight.mono fun _ member => List.mem_append.2 (.inr member)

theorem isClosure_nil : IsClosure g [] ∅ := by
  have none (core : ItemCore) (has : ClosureHas g [] core) : False := by
    induction has with
    | kernel member => cases member
    | expand _ _ _ ih => exact ih
  have noLook (core : ItemCore) (x : Symbol) (looks : ClosureLooks g [] core x) : False := by
    induction looks with
    | kernel member _ => cases member
    | first has _ _ _ _ => exact none _ has
    | inherit _ _ _ _ ih => exact ih
  constructor
  · exact fun core => ⟨fun has => absurd has ItemSet.not_has_empty, fun has => (none core has).elim⟩
  · exact fun core x => ⟨fun member => absurd member ItemSet.not_mem_lookahead_empty,
      fun looks => (noLook core x looks).elim⟩

theorem IsClosure.union {first second : ItemSet} (firstClosed : IsClosure g left first)
    (secondClosed : IsClosure g right second) : IsClosure g (left ++ right) (first ∪ second) := by
  constructor
  · intro core
    rw [ItemSet.has_union, firstClosed.has, secondClosed.has, closureHas_append]
  · intro core x
    rw [ItemSet.mem_lookahead_union, firstClosed.looks, secondClosed.looks, closureLooks_append]

end

/-! ## The closure of an item set -/

namespace Grammar

/-- The closures of the items, joined. -/
def closure (g : Grammar) (kernel : ItemSet) : ItemSet :=
  kernel.items.foldl (fun closed item => closed ∪ g.closeItem item) ∅

variable {g : Grammar}

theorem foldl_closeItem_spec (formed : g.WellFormed) {before items : List Item} {closed : ItemSet}
    (sofar : IsClosure g before closed) :
    IsClosure g (before ++ items)
      (items.foldl (fun closed item => closed ∪ g.closeItem item) closed) := by
  induction items generalizing before closed with
  | nil =>
      rw [List.append_nil]
      exact sofar
  | cons item rest ih =>
      have next := ih (sofar.union (g.closeItem_spec formed item))
      rw [List.append_assoc, List.singleton_append] at next
      exact next

theorem closure_spec (formed : g.WellFormed) (kernel : ItemSet) :
    IsClosure g kernel.items (g.closure kernel) := foldl_closeItem_spec formed isClosure_nil

end Grammar

namespace KnownClosures

variable {g : Grammar} {known : KnownClosures}

/-- Every remembered closure is that of its item. -/
def Sound (g : Grammar) (known : KnownClosures) : Prop :=
  ∀ item closed, known.lookup item = some closed → closed = g.closeItem item

theorem sound_nil : Sound g [] := by
  intro item closed found
  cases found

theorem closeItem_spec (sound : Sound g known) (item : Item) :
    (known.closeItem g item).1 = g.closeItem item ∧ Sound g (known.closeItem g item).2 := by
  unfold closeItem
  cases found : known.lookup item with
  | some closed => exact ⟨sound item closed found, sound⟩
  | none =>
      refine ⟨rfl, fun other closed isKnown => ?_⟩
      rw [List.lookup_cons] at isKnown
      split at isKnown
      · rename_i same
        rw [beq_iff_eq] at same
        cases isKnown
        rw [same]
      · exact sound other closed isKnown

theorem closeItems_spec (sound : Sound g known) (closed : ItemSet) (items : List Item) :
    (known.closeItems g closed items).1 =
        items.foldl (fun closed item => closed ∪ g.closeItem item) closed ∧
      Sound g (known.closeItems g closed items).2 := by
  induction items generalizing known closed with
  | nil => exact ⟨rfl, sound⟩
  | cons item rest ih =>
      obtain ⟨same, later⟩ := closeItem_spec sound item
      rw [closeItems, List.foldl_cons, ← same]
      exact ih later _

/-- Closing an item set gives its closure, whatever was closed before. -/
theorem close_spec (sound : Sound g known) (kernel : ItemSet) :
    (known.close g kernel).1 = g.closure kernel ∧ Sound g (known.close g kernel).2 :=
  closeItems_spec sound ∅ kernel.items

end KnownClosures

end ParserGenerator
