import ParserGenerator.Proofs.Automaton.Canonical
import ParserGenerator.Proofs.Automaton.ValidItems
import ParserGenerator.Proofs.Grammar.Follow

/-!
# Paths of the canonical automaton

A state that is reached over some symbols from the first state holds exactly the items that are
valid after these symbols, each with exactly the terminals that are awaited behind it.

Results: `Automaton.Path.validAfter`.
-/

namespace ParserGenerator

/-! ## Definitions -/

/-- The set holds exactly the items that are valid after `read`. -/
structure ItemSet.ValidAfter (g : Grammar) (read : List Symbol) (set : ItemSet) : Prop where
  has : ∀ core, set.Has core ↔ Stands g read core
  looks : ∀ core x, x ∈ set.lookahead core ↔ Awaits g read core x

namespace Automaton

/-- The states that were gone through from the first one and the symbols that were read between
them, the last ones in front. -/
inductive Path (automaton : Automaton) : List Nat → List Symbol → Prop
  | start : Path automaton [0] []
  | push {states : List Nat} {read : List Symbol} {top next : Nat} {symbol : Symbol}
      (path : Path automaton (top :: states) read) (edge : automaton.Edge top symbol next) :
      Path automaton (next :: top :: states) (symbol :: read)

variable {g : Grammar} {automaton : Automaton} {symbol : Symbol}

/-! ## Valid items -/

/-- The closure of a kernel holds the valid items if the kernel holds those of them that no
expansion gives. -/
theorem validAfter_closure (formed : g.WellFormed) {kernel : ItemSet} {read : List Symbol}
    (sound : ∀ core, kernel.Has core → Stands g read core)
    (soundLooks : ∀ core x, x ∈ kernel.lookahead core → Awaits g read core x)
    (start : read = [] → kernel.Has (startItem g).core ∧
      Symbol.endOfInput ∈ kernel.lookahead (startItem g).core)
    (shift : ∀ symbol earlier core, read = symbol :: earlier → Stands g earlier core →
      core.nextSymbol g = some symbol → kernel.Has core.shifted)
    (shiftLooks : ∀ symbol earlier core x, read = symbol :: earlier → Awaits g earlier core x →
      core.nextSymbol g = some symbol → x ∈ kernel.lookahead core.shifted) :
    (g.closure kernel).ValidAfter g read := by
  have closed := g.closure_spec formed kernel
  have stands : ∀ core, ClosureHas g kernel.items core → Stands g read core := by
    intro core has
    induction has with
    | kernel member => exact sound _ (ItemSet.has_iff.2 ⟨_, member, rfl⟩)
    | expand _ next ofNext ih => exact .expand ih next ofNext
  have awaits : ∀ core x, ClosureLooks g kernel.items core x → Awaits g read core x := by
    intro core x looks
    induction looks with
    | kernel member inSet =>
        exact soundLooks _ _ (ItemSet.mem_lookahead_iff.2 ⟨_, member, rfl, inSet⟩)
    | first has next ofNext differs begins => exact .first (stands _ has) next ofNext differs begins
    | inherit _ next ofNext nullable ih => exact .inherit ih next ofNext nullable
  have kernelHas : ∀ core, kernel.Has core → ClosureHas g kernel.items core := by
    intro core has
    obtain ⟨item, member, isCore⟩ := ItemSet.has_iff.1 has
    exact isCore ▸ .kernel member
  have kernelLooks : ∀ core x, x ∈ kernel.lookahead core → ClosureLooks g kernel.items core x := by
    intro core x looks
    obtain ⟨item, member, isCore, inSet⟩ := ItemSet.mem_lookahead_iff.1 looks
    exact isCore ▸ .kernel member inSet
  have ofStands : ∀ core, Stands g read core → ClosureHas g kernel.items core := by
    intro core valid
    induction valid with
    | start => exact kernelHas _ (start rfl).1
    | expand _ next ofNext ih =>
        exact .expand (ih sound soundLooks start shift shiftLooks stands awaits) next ofNext
    | shift valid next => exact kernelHas _ (shift _ _ _ rfl valid next)
  have ofAwaits : ∀ core x, Awaits g read core x → ClosureLooks g kernel.items core x := by
    intro core x valid
    induction valid with
    | start => exact kernelLooks _ _ (start rfl).2
    | first valid next ofNext differs begins =>
        exact .first (ofStands _ valid) next ofNext differs begins
    | inherit _ next ofNext nullable ih =>
        exact .inherit (ih sound soundLooks start shift shiftLooks stands awaits ofStands) next
          ofNext nullable
    | shift valid next => exact kernelLooks _ _ (shiftLooks _ _ _ _ rfl valid next)
  constructor
  · exact fun core => (closed.has core).trans ⟨stands core, ofStands core⟩
  · exact fun core x => (closed.looks core x).trans ⟨awaits core x, ofAwaits core x⟩

/-- Nothing but the end of the input follows the start rule. -/
theorem startItem_eq (formed : g.WellFormed) :
    startItem g = ⟨⟨Grammar.startRuleId, 0⟩, OrderedSet.singleton Symbol.endOfInput⟩ := by
  unfold startItem
  rw [formed.follow?_start]
  rfl

/-- The first state holds the items that are valid before anything is read. -/
theorem validAfter_start (formed : g.WellFormed) :
    (g.closure (ItemSet.ofList [startItem g])).ValidAfter g [] := by
  rw [startItem_eq formed]
  refine validAfter_closure formed ?_ ?_ (fun _ => ⟨?_, ?_⟩) ?_ ?_
  · intro core has
    obtain ⟨item, member, isCore⟩ := ItemSet.has_ofList.1 has
    rw [← isCore, List.mem_singleton.1 member]
    exact .start
  · intro core x looks
    obtain ⟨item, member, isCore, inSet⟩ := ItemSet.mem_lookahead_ofList.1 looks
    rw [List.mem_singleton.1 member] at isCore inSet
    rw [OrderedSet.mem_singleton] at inSet
    rw [← isCore, inSet]
    exact .start
  · exact ItemSet.has_ofList.2 ⟨_, List.mem_singleton.2 rfl, rfl⟩
  · exact ItemSet.mem_lookahead_ofList.2
      ⟨_, List.mem_singleton.2 rfl, rfl, OrderedSet.mem_singleton.2 rfl⟩
  · intro symbol earlier core isMore
    cases isMore
  · intro symbol earlier core x isMore
    cases isMore

/-- Over an edge, valid items lead to the items that are valid after one more symbol. -/
theorem validAfter_push (formed : g.WellFormed) {set : ItemSet} {read : List Symbol}
    (valid : set.ValidAfter g read) (symbol : Symbol) :
    (g.closure (ItemSet.ofList (moved g symbol set.items))).ValidAfter g (symbol :: read) := by
  refine validAfter_closure formed ?_ ?_ ?_ ?_ ?_
  · intro core has
    obtain ⟨old, inSet, next, equal⟩ := has_moved.1 has
    rw [equal]
    exact .shift ((valid.has old).1 inSet) next
  · intro core x looks
    obtain ⟨old, inSet, next, equal⟩ := mem_lookahead_moved.1 looks
    rw [equal]
    exact .shift ((valid.looks old x).1 inSet) next
  · intro isNothing
    cases isNothing
  · intro other earlier core isMore stands next
    cases isMore
    exact has_moved.2 ⟨core, (valid.has core).2 stands, next, rfl⟩
  · intro other earlier core x isMore awaits next
    cases isMore
    exact mem_lookahead_moved.2 ⟨core, (valid.looks core x).2 awaits, next, rfl⟩

/-- The state at the end of a path holds exactly the items that are valid after the path's
symbols. -/
theorem Path.validAfter (formed : g.WellFormed) (canonical : automaton.Canonical g)
    {states : List Nat} {top : Nat} {read : List Symbol}
    (path : automaton.Path (top :: states) read) : (automaton.itemsAt top).ValidAfter g read := by
  generalize isStack : top :: states = stack at path
  induction path generalizing top states with
  | start =>
      cases isStack
      rw [itemsAt_eq canonical.starts]
      exact validAfter_start formed
  | push _ edge ih =>
      cases isStack
      rw [(canonical.itemsAt_of_edge edge).2]
      exact validAfter_push formed (ih rfl) _

/-! ## Along a path -/

theorem Edge.unique {state first second : Nat} (one : automaton.Edge state symbol first)
    (other : automaton.Edge state symbol second) : first = second := by
  obtain ⟨entry, found, isFirst⟩ := one
  obtain ⟨same, isSame, isSecond⟩ := other
  cases found.symm.trans isSame
  exact Option.some.inj (isFirst.symm.trans isSecond)

theorem Path.exists_top {states : List Nat} {read : List Symbol}
    (path : automaton.Path states read) :
    ∃ top below, states = top :: below := by
  cases path with
  | start => exact ⟨0, [], rfl⟩
  | push => exact ⟨_, _, rfl⟩

/-- Going back over the last symbols leaves a path. -/
theorem Path.drop {states : List Nat} {read : List Symbol} (path : automaton.Path states read)
    {count : Nat} (bound : count ≤ read.length) :
    automaton.Path (states.drop count) (read.drop count) := by
  induction path generalizing count with
  | start =>
      cases Nat.le_zero.1 bound
      exact .start
  | push path edge ih =>
      cases count with
      | zero => exact .push path edge
      | succ count => exact ih (Nat.le_of_succ_le_succ bound)

variable {states : List Nat} {top : Nat} {read : List Symbol} {core : ItemCore}

/-- A symbol that a valid item expects can be read. -/
theorem Path.exists_edge (formed : g.WellFormed) (canonical : automaton.Canonical g)
    (path : automaton.Path (top :: states) read) (stands : Stands g read core)
    (next : core.nextSymbol g = some symbol) : ∃ target, automaton.Edge top symbol target :=
  canonical.exists_edge (((path.validAfter formed canonical).has core).2 stands) next

/-- A symbol that can be read is expected by a valid item. -/
theorem Path.expects (formed : g.WellFormed) (canonical : automaton.Canonical g)
    (path : automaton.Path (top :: states) read) {target : Nat}
    (edge : automaton.Edge top symbol target) :
    ∃ core, Stands g read core ∧ core.nextSymbol g = some symbol := by
  obtain ⟨item, member⟩ := List.exists_mem_of_ne_nil _ (canonical.itemsAt_of_edge edge).1
  obtain ⟨old, inItems, next, _⟩ := mem_moved.1 member
  have has : (automaton.itemsAt top).Has old.core := ItemSet.has_iff.2 ⟨old, inItems, rfl⟩
  exact ⟨old.core, ((path.validAfter formed canonical).has old.core).1 has, next⟩

end Automaton

end ParserGenerator
