import ParserGenerator.Automaton.Closure
import ParserGenerator.Proofs.Automaton.ItemSets
import ParserGenerator.Proofs.Grammar.First

/-!
# Closures are least

The closure of some items is what must be expected where these items are: the items themselves and,
for each expected item in front of a nonterminal, the rules of the nonterminal with what can stand
behind it. `ClosureHas` and `ClosureLooks` say so as inductive relations, for the cores and for
their lookaheads.

The worklist computes exactly these relations. What it has found is always justified, and what is
not expanded yet waits. It comes to an end because a core waits again only when its item was new or
has grown, and lookaheads stay among the terminals and the lookahead at the start.

Results:
1. `Grammar.closeItem_spec`: the closure of one item.
2. `KnownClosures.close_spec`: the closure of an item set, whatever is remembered.
-/

namespace ParserGenerator

/-! ## Definitions -/

/-- The core has to be in the closure of the items `kernel`. -/
inductive ClosureHas (g : Grammar) (kernel : List Item) : ItemCore → Prop
  | kernel {item : Item} (member : item ∈ kernel) : ClosureHas g kernel item.core
  | expand {core : ItemCore} {symbol : Symbol} {id : Nat} {rule : Rule}
      (has : ClosureHas g kernel core) (next : core.nextSymbol g = some symbol)
      (ofNext : (id, rule) ∈ g.rulesOf symbol) : ClosureHas g kernel ⟨id, 0⟩

/-- The symbol has to be in the lookahead of the core in the closure of the items `kernel`: it
begins what follows the nonterminal, or is inherited because all that follows can be empty. -/
inductive ClosureLooks (g : Grammar) (kernel : List Item) : ItemCore → Symbol → Prop
  | kernel {item : Item} (member : item ∈ kernel) {x : Symbol} (inSet : x ∈ item.lookahead) :
      ClosureLooks g kernel item.core x
  | first {core : ItemCore} {symbol : Symbol} {id : Nat} {rule : Rule} {x : Symbol}
      (has : ClosureHas g kernel core) (next : core.nextSymbol g = some symbol)
      (ofNext : (id, rule) ∈ g.rulesOf symbol) (differs : x ≠ Symbol.epsilon)
      (begins : x ∈ g.firstOf (core.rest g)) : ClosureLooks g kernel ⟨id, 0⟩ x
  | inherit {core : ItemCore} {symbol : Symbol} {id : Nat} {rule : Rule} {x : Symbol}
      (looks : ClosureLooks g kernel core x) (next : core.nextSymbol g = some symbol)
      (ofNext : (id, rule) ∈ g.rulesOf symbol)
      (nullable : Symbol.epsilon ∈ g.firstOf (core.rest g)) : ClosureLooks g kernel ⟨id, 0⟩ x

/-- The item set holds what the closure of `kernel` must hold and nothing else. -/
structure IsClosure (g : Grammar) (kernel : List Item) (set : ItemSet) : Prop where
  has : ∀ core, set.Has core ↔ ClosureHas g kernel core
  looks : ∀ core x, x ∈ set.lookahead core ↔ ClosureLooks g kernel core x

/-- What the set has for the core is expanded into the set. -/
def Expanded (g : Grammar) (set : ItemSet) (core : ItemCore) : Prop :=
  ∀ symbol id rule, core.nextSymbol g = some symbol → (id, rule) ∈ g.rulesOf symbol →
    set.Has ⟨id, 0⟩ ∧ ∀ x ∈ g.lookaheadBehind set core, x ∈ set.lookahead ⟨id, 0⟩

/-- The state of the worklist: all that was found is justified, the start is there, and what is not
expanded waits. -/
structure Expanding (g : Grammar) (item : Item) (set : ItemSet) (waiting : List ItemCore) :
    Prop where
  has_sound : ∀ core, set.Has core → ClosureHas g [item] core
  looks_sound : ∀ core x, x ∈ set.lookahead core → ClosureLooks g [item] core x
  start_has : set.Has item.core
  start_looks : ∀ x ∈ item.lookahead, x ∈ set.lookahead item.core
  waits_has : ∀ core ∈ waiting, set.Has core
  expanded : ∀ core, set.Has core → core ∈ waiting ∨ Expanded g set core

/-- The set and the queue after items for `rules` with one lookahead were added: what has changed
waits, and every new place in the queue is paid for with weight. -/
structure Added (count : Nat) (lookahead : SymbolSet) (rules : List (Nat × Rule))
    (set set' : ItemSet) (waiting waiting' : List ItemCore) : Prop where
  has : ∀ core, set'.Has core ↔ set.Has core ∨ ∃ entry ∈ rules, core = ⟨entry.1, 0⟩
  looks : ∀ core x, x ∈ set'.lookahead core ↔
    x ∈ set.lookahead core ∨ (x ∈ lookahead ∧ ∃ entry ∈ rules, core = ⟨entry.1, 0⟩)
  waits : ∀ core ∈ waiting, core ∈ waiting'
  waits_old : ∀ core ∈ waiting', core ∈ waiting ∨ ∃ entry ∈ rules, core = ⟨entry.1, 0⟩
  changed : ∀ core, core ∈ waiting' ∨ set'.get? core = set.get? core
  weight : waiting'.length + set.weight count ≤ waiting.length + set'.weight count

namespace Grammar

variable {g : Grammar}

/-! ## Lookaheads -/

theorem mem_lookaheadBehind {set : ItemSet} {core : ItemCore} {x : Symbol} :
    x ∈ g.lookaheadBehind set core ↔
      (x ≠ Symbol.epsilon ∧ x ∈ g.firstOf (core.rest g)) ∨
        (Symbol.epsilon ∈ g.firstOf (core.rest g) ∧ x ∈ set.lookahead core) := by
  unfold lookaheadBehind
  dsimp only
  split <;> rename_i contained
  · have nullable := OrderedSet.contains_iff.1 contained
    rw [OrderedSet.mem_union, OrderedSet.mem_erase]
    constructor
    · rintro (⟨begins, differs⟩ | inherited)
      · exact .inl ⟨differs, begins⟩
      · exact .inr ⟨nullable, inherited⟩
    · rintro (⟨differs, begins⟩ | ⟨_, inherited⟩)
      · exact .inl ⟨begins, differs⟩
      · exact .inr inherited
  · have notNullable : Symbol.epsilon ∉ g.firstOf (core.rest g) := fun member =>
      contained (OrderedSet.contains_iff.2 member)
    constructor
    · intro begins
      refine .inl ⟨?_, begins⟩
      intro equal
      exact notNullable (equal ▸ begins)
    · rintro (⟨_, begins⟩ | ⟨nullable, _⟩)
      · exact begins
      · exact absurd nullable notNullable

/-! ## Adding the rules of a nonterminal -/

theorem length_waiting_push (waiting : Queue ItemCore) (core : ItemCore) :
    (waiting.push core).2.waiting.length ≤ waiting.waiting.length + 1 := by
  rw [Queue.waiting_push]
  split
  · exact Nat.le_add_right _ 1
  · rw [List.length_append]
    exact Nat.le_refl _

theorem mem_waiting_push {waiting : Queue ItemCore} {core other : ItemCore} :
    other ∈ (waiting.push core).2.waiting ↔ other ∈ waiting.waiting ∨ other = core := by
  rw [Queue.waiting_push]
  split <;> rename_i known
  · constructor
    · exact .inl
    · rintro (old | equal)
      · exact old
      · exact equal ▸ known
  · rw [List.mem_append, List.mem_singleton]

theorem Added.trans {count : Nat} {lookahead : SymbolSet} {first : Nat × Rule}
    {rest : List (Nat × Rule)} {set middle last : ItemSet}
    {waiting waiting' waiting'' : List ItemCore}
    (early : Added count lookahead [first] set middle waiting waiting')
    (late : Added count lookahead rest middle last waiting' waiting'') :
    Added count lookahead (first :: rest) set last waiting waiting'' := by
  constructor
  · intro core
    rw [late.has, early.has]
    simp only [List.mem_cons, List.not_mem_nil, or_false, or_and_right, exists_or, exists_eq_left,
      or_assoc]
  · intro core x
    rw [late.looks, early.looks]
    simp only [List.mem_cons, List.not_mem_nil, or_false, or_and_right, exists_or, exists_eq_left,
      or_assoc, and_or_left]
  · exact fun core waits => late.waits core (early.waits core waits)
  · intro core waits
    rcases late.waits_old core waits with old | ⟨entry, member, equal⟩
    · rcases early.waits_old core old with older | ⟨entry, member, equal⟩
      · exact .inl older
      · exact .inr ⟨entry, List.mem_cons.2 (.inl (List.mem_singleton.1 member)), equal⟩
    · exact .inr ⟨entry, List.mem_cons_of_mem _ member, equal⟩
  · intro core
    rcases late.changed core with waits | same
    · exact .inl waits
    · rcases early.changed core with waits | same'
      · exact .inl (late.waits core waits)
      · exact .inr (same.trans same')
  · have earlyWeight := early.weight
    have lateWeight := late.weight
    omega

theorem addRules_added {count : Nat} {rules : List (Nat × Rule)}
    (lookahead : SymbolSet)
    (bounded : ∀ entry ∈ rules, entry.1 < count) (set : ItemSet) (waiting : Queue ItemCore) :
    Added count lookahead rules set (addRules lookahead set waiting rules).1 waiting.waiting
      (addRules lookahead set waiting rules).2.waiting := by
  induction rules generalizing set waiting with
  | nil =>
      refine ⟨fun core => ?_, fun core x => ?_, fun _ waits => waits, fun _ => .inl,
        fun _ => .inr rfl, ?_⟩
      · simp [addRules]
      · simp [addRules]
      · exact Nat.le_refl _
  | cons entry rest ih =>
      obtain ⟨id, rule⟩ := entry
      have restBounded : ∀ other ∈ rest, other.1 < count := fun other member =>
        bounded other (List.mem_cons_of_mem _ member)
      have grownHas (core : ItemCore) : (set.insert ⟨⟨id, 0⟩, lookahead⟩).Has core ↔
          set.Has core ∨ ∃ entry ∈ [(id, rule)], core = ⟨entry.1, 0⟩ := by
        rw [ItemSet.has_insert, or_comm]
        simp
      have grownLooks (core : ItemCore) (x : Symbol) :
          x ∈ (set.insert ⟨⟨id, 0⟩, lookahead⟩).lookahead core ↔ x ∈ set.lookahead core ∨
            (x ∈ lookahead ∧ ∃ entry ∈ [(id, rule)], core = ⟨entry.1, 0⟩) := by
        rw [ItemSet.mem_lookahead_insert, or_comm, and_comm]
        simp
      unfold addRules
      dsimp only
      split <;> rename_i same
      · refine Added.trans ⟨?_, ?_, fun _ waits => waits, fun _ => .inl, fun _ => .inr rfl,
          Nat.le_refl _⟩ (ih restBounded set waiting)
        · rw [same] at grownHas
          exact grownHas
        · rw [same] at grownLooks
          exact grownLooks
      · have bound : id < count := bounded (id, rule) List.mem_cons_self
        have heavier : set.weight count < (set.insert ⟨⟨id, 0⟩, lookahead⟩).weight count :=
          ItemSet.weight_lt_weight (fun id => ItemSet.weightOfRule_insert_le id) bound
            (ItemSet.weightOfRule_insert_lt same)
        have longer := length_waiting_push waiting ⟨id, 0⟩
        have paid : (waiting.push ⟨id, 0⟩).2.waiting.length + set.weight count ≤
            waiting.waiting.length + (set.insert ⟨⟨id, 0⟩, lookahead⟩).weight count := by
          omega
        refine Added.trans ⟨grownHas, grownLooks, ?_, ?_, ?_, paid⟩ (ih restBounded _ _)
        · exact fun core waits => mem_waiting_push.2 (.inl waits)
        · intro core waits
          exact (mem_waiting_push.1 waits).imp_right fun equal =>
            ⟨(id, rule), List.mem_singleton.2 rfl, equal⟩
        · intro core
          by_cases isAdded : core = ⟨id, 0⟩
          · exact .inl (mem_waiting_push.2 (.inr isAdded))
          · rw [ItemSet.get?_insert, if_neg isAdded]
            exact .inr rfl

theorem lt_length_of_mem_rulesOf {symbol : Symbol} {entry : Nat × Rule}
    (member : entry ∈ g.rulesOf symbol) : entry.1 < g.rules.length :=
  (List.getElem?_eq_some_iff.1 (mem_rulesOf.1 member).1).1

/-! ## Expanding what waits -/

theorem lookaheadBehind_congr {set set' : ItemSet} {core : ItemCore}
    (same : set'.get? core = set.get? core) :
    g.lookaheadBehind set' core = g.lookaheadBehind set core := by
  unfold lookaheadBehind
  rw [same]

theorem rulesOf_eq_nil {symbol : Symbol} (terminal : ¬ g.isNonterminal symbol = true) :
    g.rulesOf symbol = [] := by
  rw [List.eq_nil_iff_forall_not_mem]
  rintro ⟨id, rule⟩ member
  obtain ⟨found, lhs⟩ := mem_rulesOf.1 member
  exact terminal (isNonterminal_iff.2 ⟨rule, mem_rules_of_rule? found, lhs⟩)

end Grammar

open Grammar

variable {g : Grammar}

/-- What was expanded stays expanded where its own item has not changed. -/
theorem Expanded.mono {count : Nat} {lookahead : SymbolSet} {rules : List (Nat × Rule)}
    {set set' : ItemSet} {waiting waiting' : List ItemCore} {core : ItemCore}
    (expanded : Expanded g set core) (added : Added count lookahead rules set set' waiting waiting')
    (same : set'.get? core = set.get? core) : Expanded g set' core := by
  intro symbol id rule next ofNext
  obtain ⟨has, looks⟩ := expanded symbol id rule next ofNext
  rw [lookaheadBehind_congr same]
  exact ⟨(added.has _).2 (.inl has), fun x member => (added.looks _ x).2 (.inl (looks x member))⟩

/-- Adding what the first core that waits expects keeps the worklist in order. -/
theorem Expanding.added {item : Item} {core : ItemCore} {set set' : ItemSet}
    {waiting waiting' : List ItemCore} {symbol : Symbol} {count : Nat}
    (before : Expanding g item set (core :: waiting)) (next : core.nextSymbol g = some symbol)
    (added :
      Added count (g.lookaheadBehind set core) (g.rulesOf symbol) set set' waiting waiting') :
    Expanding g item set' waiting' := by
  have known := before.waits_has core List.mem_cons_self
  constructor
  · intro other has
    rcases (added.has other).1 has with old | ⟨⟨id, rule⟩, ofNext, equal⟩
    · exact before.has_sound other old
    · rw [equal]
      exact .expand (before.has_sound core known) next ofNext
  · intro other x inSet
    rcases (added.looks other x).1 inSet with old | ⟨behind, ⟨id, rule⟩, ofNext, equal⟩
    · exact before.looks_sound other x old
    · rw [equal]
      rcases mem_lookaheadBehind.1 behind with ⟨differs, begins⟩ | ⟨nullable, inherited⟩
      · exact .first (before.has_sound core known) next ofNext differs begins
      · exact .inherit (before.looks_sound core x inherited) next ofNext nullable
  · exact (added.has _).2 (.inl before.start_has)
  · exact fun x inSet => (added.looks _ x).2 (.inl (before.start_looks x inSet))
  · intro other waits
    exact (added.has other).2 ((added.waits_old other waits).imp
      (fun old => before.waits_has other (List.mem_cons_of_mem _ old)) id)
  · intro other has
    rcases added.changed other with waits | same
    · exact .inl waits
    · have old : set.Has other := by
        obtain ⟨lookahead, found⟩ := has
        exact ⟨lookahead, same.symm.trans found⟩
      rcases before.expanded other old with waits | expanded
      · rcases List.mem_cons.1 waits with isFirst | later
        · -- The core itself has not changed, so what was added is all that it expects.
          subst isFirst
          refine .inr fun symbol' id rule next' ofNext => ?_
          rw [next] at next'
          cases next'
          rw [lookaheadBehind_congr same]
          exact ⟨(added.has _).2 (.inr ⟨(id, rule), ofNext, rfl⟩),
            fun x behind => (added.looks _ x).2 (.inr ⟨behind, (id, rule), ofNext, rfl⟩)⟩
        · exact .inl (added.waits other later)
      · exact .inr (expanded.mono added same)

/-- A core that expects no rules needs no expansion. -/
theorem Expanding.skip {item : Item} {core : ItemCore} {set : ItemSet} {waiting : List ItemCore}
    (before : Expanding g item set (core :: waiting))
    (noRules : ∀ symbol, core.nextSymbol g = some symbol → g.rulesOf symbol = []) :
    Expanding g item set waiting := by
  refine { before with
    waits_has := fun other waits => before.waits_has other (List.mem_cons_of_mem _ waits)
    expanded := fun other has => ?_ }
  rcases before.expanded other has with waits | expanded
  · rcases List.mem_cons.1 waits with isFirst | later
    · refine .inr fun symbol id rule next ofNext => ?_
      rw [isFirst] at next
      rw [noRules symbol next] at ofNext
      cases ofNext
    · exact .inl later
  · exact .inr expanded

/-- One expansion keeps the worklist in order, and its cost is paid for with weight. -/
theorem Expanding.expandCore {item : Item} {core : ItemCore} {set : ItemSet}
    {waiting : Queue ItemCore} (before : Expanding g item set (core :: waiting.waiting)) :
    Expanding g item (g.expandCore core set waiting).1
        (g.expandCore core set waiting).2.waiting ∧
      (g.expandCore core set waiting).2.waiting.length + set.weight g.rules.length ≤
        waiting.waiting.length + (g.expandCore core set waiting).1.weight g.rules.length := by
  unfold Grammar.expandCore
  cases next : core.nextSymbol g with
  | none =>
      refine ⟨before.skip fun symbol isNext => ?_, Nat.le_refl _⟩
      rw [next] at isNext
      cases isNext
  | some symbol =>
      dsimp only
      split <;> rename_i nonterminal
      · have bounded : ∀ entry ∈ g.rulesOf symbol, entry.1 < g.rules.length := fun _ member =>
          lt_length_of_mem_rulesOf member
        have added := addRules_added (g.lookaheadBehind set core) bounded set waiting
        exact ⟨before.added next added, added.weight⟩
      · refine ⟨before.skip fun symbol' isNext => ?_, Nat.le_refl _⟩
        rw [next] at isNext
        cases isNext
        exact rulesOf_eq_nil nonterminal

/-! ## The whole run -/

/-- Lookaheads in a closure are terminals or come from the item at the start. -/
theorem ClosureLooks.subset (formed : g.WellFormed) {item : Item} {core : ItemCore} {x : Symbol}
    (looks : ClosureLooks g [item] core x) : x ∈ g.terminals ∨ x ∈ item.lookahead := by
  induction looks with
  | kernel member inSet =>
      rw [List.mem_singleton.1 member] at inSet
      exact .inr inSet
  | first _ _ _ differs begins => exact .inl ((formed.firstOf_subset begins).resolve_right differs)
  | inherit _ _ _ _ ih => exact ih

theorem Expanding.weight_le (formed : g.WellFormed) {item : Item} {set : ItemSet}
    {waiting : List ItemCore} (state : Expanding g item set waiting) :
    set.weight g.rules.length ≤
      g.rules.length * (1 + g.terminalBound + item.lookahead.size) := by
  refine ItemSet.weight_le_mul fun id _ => ?_
  unfold ItemSet.weightOfRule
  cases found : set.get? ⟨id, 0⟩ with
  | none => exact Nat.zero_le _
  | some known =>
      have inside : known.size ≤
          (Symbol.endOfInput :: g.rules.flatMap Rule.rhs ++ item.lookahead.toList).length := by
        refine OrderedSet.size_le_of_forall_mem fun x member => ?_
        have inSet : x ∈ set.lookahead ⟨id, 0⟩ := by
          unfold ItemSet.lookahead
          rw [found]
          exact member
        rcases (state.looks_sound ⟨id, 0⟩ x inSet).subset formed with terminal | atStart
        · rcases mem_terminals.1 terminal with equal | ⟨⟨rule, inRules, inRhs⟩, _⟩
          · exact equal ▸ List.mem_cons_self
          · exact List.mem_cons_of_mem _
              (List.mem_append.2 (.inl (List.mem_flatMap.2 ⟨rule, inRules, inRhs⟩)))
        · exact List.mem_append.2 (.inr atStart)
      show 1 + known.size ≤ 1 + (1 + _) + item.lookahead.toList.length
      rw [List.length_append, List.length_cons] at inside
      omega

theorem waiting_of_pop {waiting rest : Queue ItemCore} {core : ItemCore}
    (popped : waiting.pop = some (core, rest)) : waiting.waiting = core :: rest.waiting := by
  have law := @Queue.pop_eq ItemCore waiting
  rw [popped] at law
  split at law
  · cases law
  · rename_i listed
    cases law
    exact listed

theorem waiting_of_pop_none {waiting : Queue ItemCore} (popped : waiting.pop = none) :
    waiting.waiting = [] := by
  have law := @Queue.pop_eq ItemCore waiting
  rw [popped] at law
  split at law
  · assumption
  · cases law

theorem expandWaiting_of_pop {fuel : Nat} {set : ItemSet} {waiting rest : Queue ItemCore}
    {core : ItemCore} (popped : waiting.pop = some (core, rest)) :
    g.expandWaiting (fuel + 1) set waiting =
      g.expandWaiting fuel (g.expandCore core set rest).1 (g.expandCore core set rest).2 := by
  rw [expandWaiting, popped]

/-- With as much fuel as cores wait and weight can still be added, the worklist runs empty. -/
theorem Expanding.run (formed : g.WellFormed) {item : Item} {fuel : Nat} {set : ItemSet}
    {waiting : Queue ItemCore} (state : Expanding g item set waiting.waiting)
    (enough : waiting.waiting.length +
        g.rules.length * (1 + g.terminalBound + item.lookahead.size) ≤
      fuel + set.weight g.rules.length) :
    Expanding g item (g.expandWaiting fuel set waiting) [] := by
  induction fuel generalizing set waiting with
  | zero =>
      have light := state.weight_le formed
      have empty : waiting.waiting = [] := List.length_eq_zero_iff.1 (by omega)
      rw [empty] at state
      exact state
  | succ fuel ih =>
      cases popped : waiting.pop with
      | none =>
          rw [waiting_of_pop_none popped] at state
          rw [expandWaiting, popped]
          exact state
      | some entry =>
          obtain ⟨core, rest⟩ := entry
          have listed := waiting_of_pop popped
          rw [listed] at state enough
          obtain ⟨later, paid⟩ := state.expandCore
          rw [expandWaiting_of_pop popped]
          refine ih later ?_
          rw [List.length_cons] at enough
          omega

/-- The worklist with one item, which waits. -/
theorem expanding_start (item : Item) :
    Expanding g item (ItemSet.ofList [item]) (Queue.ofList [item.core]).waiting := by
  have waits : (Queue.ofList [item.core]).waiting = [item.core] := rfl
  have has (core : ItemCore) : (ItemSet.ofList [item]).Has core ↔ item.core = core := by
    rw [ItemSet.has_ofList]
    simp
  have looks (core : ItemCore) (x : Symbol) :
      x ∈ (ItemSet.ofList [item]).lookahead core ↔ item.core = core ∧ x ∈ item.lookahead := by
    rw [ItemSet.mem_lookahead_ofList]
    simp
  rw [waits]
  constructor
  · intro core isCore
    rw [← (has core).1 isCore]
    exact .kernel (List.mem_singleton.2 rfl)
  · intro core x inSet
    obtain ⟨equal, member⟩ := (looks core x).1 inSet
    rw [← equal]
    exact .kernel (List.mem_singleton.2 rfl) member
  · exact (has _).2 rfl
  · exact fun x member => (looks _ x).2 ⟨rfl, member⟩
  · intro core isFirst
    exact (has core).2 (List.mem_singleton.1 isFirst).symm
  · exact fun core isCore => .inl (List.mem_singleton.2 ((has core).1 isCore).symm)

/-- A worklist that has run empty holds everything that the closure must hold. -/
theorem Expanding.isClosure {item : Item} {set : ItemSet} (state : Expanding g item set []) :
    IsClosure g [item] set := by
  have expanded (core : ItemCore) (has : set.Has core) : Expanded g set core :=
    (state.expanded core has).resolve_left List.not_mem_nil
  have complete (core : ItemCore) (has : ClosureHas g [item] core) : set.Has core := by
    induction has with
    | kernel member =>
        rw [List.mem_singleton.1 member]
        exact state.start_has
    | expand _ next ofNext ih => exact (expanded _ ih _ _ _ next ofNext).1
  refine ⟨fun core => ⟨state.has_sound core, complete core⟩,
    fun core x => ⟨state.looks_sound core x, fun looks => ?_⟩⟩
  induction looks with
  | kernel member inSet =>
      rw [List.mem_singleton.1 member] at inSet ⊢
      exact state.start_looks _ inSet
  | first has next ofNext differs begins =>
      exact (expanded _ (complete _ has) _ _ _ next ofNext).2 _
        (mem_lookaheadBehind.2 (.inl ⟨differs, begins⟩))
  | inherit _ next ofNext nullable ih =>
      exact (expanded _ (ItemSet.has_of_mem_lookahead ih) _ _ _ next ofNext).2 _
        (mem_lookaheadBehind.2 (.inr ⟨nullable, ih⟩))

/-- The closure of one item is its closure. -/
theorem Grammar.closeItem_spec (formed : g.WellFormed) (item : Item) :
    IsClosure g [item] (g.closeItem item) := by
  unfold closeItem
  refine (Expanding.run formed (expanding_start item) ?_).isClosure
  have one : (Queue.ofList [item.core]).waiting.length = 1 := rfl
  rw [one]
  exact Nat.le_add_right _ _

end ParserGenerator
