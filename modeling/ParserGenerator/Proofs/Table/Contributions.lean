import ParserGenerator.Proofs.Session.Represents
import ParserGenerator.Proofs.Table.CellWrites
import ParserGenerator.Proofs.Table.Contents

/-!
# Which entry wins, and which conflicts there are

The items of a state contribute entries to the cell of a terminal: an item that expects the terminal
shifts it, a finished item reduces on its lookahead, and the finished start rule accepts at the end
of the input. The cell holds what the item of the greatest rule and marker contributes, as items are
listed in that order and the entry written last stays. No disagreement is missed: of entries that are
not all the same, two neighbours differ.

Results: `Table.conflicts_exact`.
-/

namespace ParserGenerator

/-! ## Definitions -/

/-- What an item of a state contributes to the cell of a terminal. -/
inductive Automaton.Contributes (g : Grammar) (automaton : Automaton) (state : Nat)
    (terminal : Symbol) : ItemCore → Entry → Prop
  | shift {core : ItemCore} {target : Nat} (has : (automaton.itemsAt state).Has core)
      (next : core.nextSymbol g = some terminal) (edge : automaton.Edge state terminal target) :
      Contributes g automaton state terminal core (.shift target)
  | reduce {core : ItemCore} (finished : core.nextSymbol g = none)
      (differs : core.rule ≠ Grammar.startRuleId)
      (looks : terminal ∈ (automaton.itemsAt state).lookahead core) :
      Contributes g automaton state terminal core (.reduce core.rule)
  | accept {core : ItemCore} (has : (automaton.itemsAt state).Has core)
      (finished : core.nextSymbol g = none) (isStart : core.rule = Grammar.startRuleId)
      (isEnd : terminal = Symbol.endOfInput) :
      Contributes g automaton state terminal core .accept

/-- The contributions to a cell settle what it holds and whether there is a conflict in it. -/
structure Table.Settled (g : Grammar) (automaton : Automaton) (table : Table) (state : Nat)
    (terminal : Symbol) : Prop where
  /-- An item that expects the terminal has a state to shift to, so that it contributes. -/
  successor : ∀ core, (automaton.itemsAt state).Has core → core.nextSymbol g = some terminal →
    ∃! target, automaton.Edge state terminal target
  empty_iff : table.get? state terminal = none ↔
    ∀ core entry, ¬ automaton.Contributes g state terminal core entry
  greatest : ∀ entry, table.get? state terminal = some entry →
    ∃ core, automaton.Contributes g state terminal core entry ∧
      ∀ other entry', automaton.Contributes g state terminal other entry' →
        other = core ∨ other.Before core
  conflict_iff : (∃ conflict ∈ table.conflicts,
      conflict.state = state ∧ conflict.symbol = terminal) ↔
    ∃ core core' entry entry', automaton.Contributes g state terminal core entry ∧
      automaton.Contributes g state terminal core' entry' ∧ entry ≠ entry'

/-! ## The last of a list -/

/-- The last value comes from an element that all others with a value come before. -/
theorem exists_of_getLast?_filterMap {α β : Type} {before : α → α → Prop} {list : List α}
    {f : α → Option β} {b : β} (ordered : list.Pairwise before)
    (last : (list.filterMap f).getLast? = some b) :
    ∃ a ∈ list, f a = some b ∧
      ∀ other ∈ list, (∃ b', f other = some b') → other = a ∨ before other a := by
  rw [List.getLast?_filterMap] at last
  obtain ⟨later, a, earlier, halves, isLast, without⟩ := List.findSome?_eq_some_iff.1 last
  rw [List.reverse_eq_iff, List.reverse_append, List.reverse_cons, List.append_assoc,
    List.singleton_append] at halves
  rw [halves] at ordered ⊢
  refine ⟨a, List.mem_append_cons_self, isLast, fun other member ⟨b', value⟩ => ?_⟩
  rcases List.mem_append.1 member with inEarlier | inRest
  · exact .inr ((List.pairwise_append.1 ordered).2.2 other inEarlier a List.mem_cons_self)
  · rcases List.mem_cons.1 inRest with isSame | inLater
    · exact .inl isSame
    · cases (without other (List.mem_reverse.1 inLater)).symm.trans value

/-! ## Contributions in a row of items -/

namespace Table

open Automaton (Contributes)

variable {g : Grammar} {automaton : Automaton} {symbols : SymbolTable} {state : Nat}
  {terminal symbol : Symbol} {core : ItemCore} {entry : Entry} {found : AutomatonState}

/-- For a terminal something is said by items alone. -/
theorem cellEntries_of_terminal (isTerminal : g.isTerminal terminal = true)
    (found : AutomatonState) :
    cellEntries g found terminal =
      found.items.items.filterMap (saidByItem? g found.edges terminal) := by
  have none (edge : Symbol × Nat) : saidByEdge? g terminal edge = none := by
    unfold saidByEdge?
    rw [isNonterminal_eq_false isTerminal, if_neg fun both => nomatch both.2]
  unfold cellEntries
  rw [List.filterMap_eq_nil_iff.2 fun edge _ => none edge, List.append_nil]

/-- The contributions to a cell are what the items of its state say. -/
theorem contributes_iff (isState : automaton.states[state]? = some found)
    (isTerminal : g.isTerminal terminal = true) :
    automaton.Contributes g state terminal core entry ↔
      ∃ item ∈ found.items.items, item.core = core ∧
        saidByItem? g found.edges terminal item = some entry := by
  have items := Automaton.itemsAt_of_getElem? isState
  constructor
  · intro contributes
    cases contributes with
    | shift has next edge =>
        rw [items] at has
        obtain ⟨item, member, rfl⟩ := ItemSet.has_iff.1 has
        obtain ⟨other, isOther, isTarget⟩ := edge
        cases isState.symm.trans isOther
        refine ⟨item, member, rfl, ?_⟩
        unfold saidByItem?
        rw [next]
        dsimp only
        rw [if_pos ⟨rfl, isTerminal⟩, isTarget]
        rfl
    | reduce finished differs looks =>
        rw [items] at looks
        obtain ⟨item, member, rfl, inSet⟩ := ItemSet.mem_lookahead_iff.1 looks
        refine ⟨item, member, rfl, ?_⟩
        unfold saidByItem?
        rw [finished]
        dsimp only
        rw [if_neg differs, if_pos inSet]
    | accept has finished isStart isEnd =>
        rw [items] at has
        obtain ⟨item, member, rfl⟩ := ItemSet.has_iff.1 has
        refine ⟨item, member, rfl, ?_⟩
        unfold saidByItem?
        rw [finished]
        dsimp only
        rw [if_pos isStart, if_pos isEnd]
  · rintro ⟨item, member, rfl, said⟩
    have has : (automaton.itemsAt state).Has item.core := by
      rw [items]
      exact ItemSet.has_iff.2 ⟨item, member, rfl⟩
    unfold saidByItem? at said
    split at said
    · rename_i finished
      split at said
      · rename_i isStart
        split at said
        · rename_i isEnd
          cases said
          exact .accept has finished isStart isEnd
        · cases said
      · rename_i differs
        split at said
        · rename_i inSet
          cases said
          refine .reduce finished differs ?_
          rw [items]
          exact ItemSet.mem_lookahead_iff.2 ⟨item, member, rfl, inSet⟩
        · cases said
    · rename_i next isNext
      split at said
      · rename_i same
        obtain ⟨target, isTarget, rfl⟩ := Option.map_eq_some_iff.1 said
        exact .shift has (same.1 ▸ isNext) ⟨found, isState, isTarget⟩
      · cases said

theorem mem_cellEntries_iff_contributes (isState : automaton.states[state]? = some found)
    (isTerminal : g.isTerminal terminal = true) :
    entry ∈ cellEntries g found terminal ↔
      ∃ core, automaton.Contributes g state terminal core entry := by
  rw [cellEntries_of_terminal isTerminal, List.mem_filterMap]
  constructor
  · rintro ⟨item, member, said⟩
    exact ⟨item.core, (contributes_iff isState isTerminal).2 ⟨item, member, rfl, said⟩⟩
  · rintro ⟨core, contributes⟩
    obtain ⟨item, member, _, said⟩ := (contributes_iff isState isTerminal).1 contributes
    exact ⟨item, member, said⟩

/-- The contributions to the cell of a terminal settle it. -/
theorem settled_ofAutomaton (canonical : automaton.Canonical g) (bound : state < automaton.size)
    (isTerminal : g.isTerminal terminal = true) :
    (ofAutomaton g symbols automaton).Settled g automaton state terminal := by
  have isState := List.getElem?_eq_getElem bound
  have members {entry : Entry} : entry ∈ cellEntries g automaton.states[state] terminal ↔
      ∃ core, automaton.Contributes g state terminal core entry :=
    mem_cellEntries_iff_contributes isState isTerminal
  constructor
  · intro core has next
    obtain ⟨target, edge⟩ := canonical.exists_edge has next
    exact ⟨target, edge, fun other edge' => edge'.unique edge⟩
  · rw [get?_ofAutomaton isState, List.getLast?_eq_none_iff, List.eq_nil_iff_forall_not_mem]
    exact ⟨fun none core entry contributes => none entry (members.2 ⟨core, contributes⟩),
      fun none entry member => (members.1 member).elim fun core => none core entry⟩
  · intro entry isEntry
    rw [get?_ofAutomaton isState, cellEntries_of_terminal isTerminal] at isEntry
    obtain ⟨item, member, said, greatest⟩ :=
      exists_of_getLast?_filterMap (ItemSet.ascending _) isEntry
    refine ⟨item.core, (contributes_iff isState isTerminal).2 ⟨item, member, rfl, said⟩, ?_⟩
    intro other entry' contributes
    obtain ⟨item', member', rfl, said'⟩ := (contributes_iff isState isTerminal).1 contributes
    exact (greatest item' member' ⟨entry', said'⟩).imp_left (congrArg Item.core)
  · have inCell : (∃ conflict ∈ (ofAutomaton g symbols automaton).conflicts,
        conflict.state = state ∧ conflict.symbol = terminal) ↔
        (ofAutomaton g symbols automaton).conflictsAt state terminal ≠ [] := by
      rw [ne_eq, List.eq_nil_iff_forall_not_mem, not_forall]
      simp only [not_not, mem_conflictsAt]
    rw [inCell, conflictsAt_ofAutomaton isState, ne_eq, replacements_none_eq_nil_iff]
    constructor
    · intro differ
      by_contra none
      refine differ fun entry member entry' member' => ?_
      obtain ⟨core, contributes⟩ := members.1 member
      obtain ⟨core', contributes'⟩ := members.1 member'
      by_contra differs
      exact none ⟨core, core', entry, entry', contributes, contributes', differs⟩
    · rintro ⟨core, core', entry, entry', contributes, contributes', differs⟩ same
      exact differs (same entry (members.2 ⟨core, contributes⟩) entry'
        (members.2 ⟨core', contributes'⟩))

/-- What is said for a terminal is contributed by an item. -/
theorem exists_contributes_of_prescribes (canonical : automaton.Canonical g)
    (isTerminal : g.isTerminal terminal = true)
    (prescribes : automaton.Prescribes g state terminal entry) :
    ∃ core, automaton.Contributes g state terminal core entry := by
  have isState := List.getElem?_eq_getElem (lt_size_of_prescribes prescribes)
  exact (mem_cellEntries_iff_contributes isState isTerminal).1
    ((mem_cellEntries_iff canonical isState).2 prescribes)

/-- A conflict is in the cell of a terminal: for a nonterminal nothing but one goto is said. -/
theorem isTerminal_of_mem_conflicts (formed : g.WellFormed) {limit : Option Nat}
    (built : Automaton.generate g limit = .ok automaton) {conflict : Conflict}
    (member : conflict ∈ (ofAutomaton g symbols automaton).conflicts) :
    g.isTerminal conflict.symbol = true := by
  obtain ⟨previous, replacement, differs⟩ :=
    prescribes_of_mem_conflicts (Automaton.canonical_of_generate built) member
  by_contra notTerminal
  have isFalse := Bool.not_eq_true _ ▸ notTerminal
  obtain ⟨target, isPrevious, _, edge⟩ := goto_of_prescribes previous
    ((isAction_eq_of_prescribes formed built previous).trans isFalse)
  obtain ⟨target', isReplacement, _, edge'⟩ := goto_of_prescribes replacement
    ((isAction_eq_of_prescribes formed built replacement).trans isFalse)
  rw [isPrevious, isReplacement, edge.unique edge'] at differs
  exact differs rfl

/-- There are no conflicts exactly when all contributions to each cell of a terminal agree. -/
theorem conflicts_eq_nil_iff (formed : g.WellFormed) {limit : Option Nat}
    (built : Automaton.generate g limit = .ok automaton) :
    (ofAutomaton g symbols automaton).conflicts = [] ↔
      ∀ state terminal, state < automaton.size → g.isTerminal terminal = true →
        ∀ core core' entry entry', automaton.Contributes g state terminal core entry →
          automaton.Contributes g state terminal core' entry' → entry = entry' := by
  have canonical := Automaton.canonical_of_generate built
  rw [List.eq_nil_iff_forall_not_mem]
  constructor
  · intro clean state terminal bound isTerminal core core' entry entry' contributes contributes'
    by_contra differs
    have settled : (ofAutomaton g symbols automaton).Settled g automaton state terminal :=
      settled_ofAutomaton canonical bound isTerminal
    obtain ⟨conflict, member, _⟩ := settled.conflict_iff.2
      ⟨core, core', entry, entry', contributes, contributes', differs⟩
    exact clean conflict member
  · intro agree conflict member
    obtain ⟨previous, replacement, differs⟩ := prescribes_of_mem_conflicts canonical member
    have isTerminal := isTerminal_of_mem_conflicts formed built member
    obtain ⟨core, contributes⟩ := exists_contributes_of_prescribes canonical isTerminal previous
    obtain ⟨core', contributes'⟩ :=
      exists_contributes_of_prescribes canonical isTerminal replacement
    exact differs (agree conflict.state conflict.symbol (state_lt_of_mem_conflicts member)
      isTerminal core core' _ _ contributes contributes')

/-- In the table of an automaton each cell of a terminal is settled by the contributions to it, so
that there are no conflicts exactly when the contributions to each of these cells agree. -/
theorem conflicts_exact {rules : List Rule} {start : Option Symbol} {names : SymbolTable}
    (accepted : Grammar.ofRules rules start names = .ok g) (symbols : SymbolTable) :
    (∃ automaton, Automaton.generate g none = .ok automaton) ∧
    ∀ limit automaton, Automaton.generate g limit = .ok automaton →
      (∀ state terminal, state < automaton.size → g.isTerminal terminal = true →
        (ofAutomaton g symbols automaton).Settled g automaton state terminal) ∧
      ((ofAutomaton g symbols automaton).conflicts = [] ↔
        ∀ state terminal, state < automaton.size → g.isTerminal terminal = true →
          ∀ core core' entry entry', automaton.Contributes g state terminal core entry →
            automaton.Contributes g state terminal core' entry' → entry = entry') := by
  have formed := Grammar.wellFormed_of_ofRules accepted
  refine ⟨Automaton.exists_generate formed, fun limit automaton built => ?_⟩
  have canonical := Automaton.canonical_of_generate built
  exact ⟨fun state terminal bound isTerminal => settled_ofAutomaton canonical bound isTerminal,
    conflicts_eq_nil_iff formed built⟩

/-- The rules of sums, which are ambiguous: `3 := 3 4 3` and `3 := 5`. -/
def sumRules : List Rule := [Rule.plain ⟨3⟩ [⟨3⟩, ⟨4⟩, ⟨3⟩], Rule.plain ⟨3⟩ [⟨5⟩]]

/-- Behind a sum of two, the finished rule wins over the one that expects a further sign. -/
theorem exists_sumTable :
    ∃ g, Grammar.ofRules sumRules none SymbolTable.initial = .ok g ∧
      ∃ automaton, Automaton.generate g none = .ok automaton ∧
        4 < automaton.size ∧ g.isTerminal ⟨4⟩ = true ∧
        (ofAutomaton g SymbolTable.initial automaton).get? 4 ⟨4⟩ = some (.reduce 1) ∧
        (ofAutomaton g SymbolTable.initial automaton).conflictsAt 4 ⟨4⟩ =
          [⟨4, ⟨4⟩, .shift 3, .reduce 1⟩] := by
  decide +kernel

theorem conflicts_exact_sum :
    ∃ g automaton, Grammar.ofRules sumRules none SymbolTable.initial = .ok g ∧
      Automaton.generate g none = .ok automaton ∧
      (ofAutomaton g SymbolTable.initial automaton).get? 4 ⟨4⟩ = some (.reduce 1) ∧
      (ofAutomaton g SymbolTable.initial automaton).Settled g automaton 4 ⟨4⟩ ∧
      ∃ state terminal core core' entry entry',
        automaton.Contributes g state terminal core entry ∧
        automaton.Contributes g state terminal core' entry' ∧ entry ≠ entry' := by
  obtain ⟨g, accepted, automaton, built, bound, isTerminal, cell, conflicts⟩ := exists_sumTable
  have exact := (conflicts_exact accepted SymbolTable.initial).2 none automaton built
  have settled := exact.1 4 ⟨4⟩ bound isTerminal
  have member := mem_conflictsAt.1 (conflicts ▸ List.mem_singleton.2 rfl)
  exact ⟨g, automaton, accepted, built, cell, settled, 4, ⟨4⟩,
    settled.conflict_iff.1 ⟨_, member⟩⟩

end Table

end ParserGenerator
