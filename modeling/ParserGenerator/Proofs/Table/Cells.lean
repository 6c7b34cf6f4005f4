import ParserGenerator.Proofs.Automaton.Canonical
import ParserGenerator.Proofs.Table.Writes
import ParserGenerator.Table.OfAutomaton

/-!
# The cells of the table of an automaton

The items and edges of a state say what to do in the state. `Prescribes` lists all that is said, and
a cell holds one of the entries that are said for it. Without conflicts it holds all of them, so
that they are one.

Results: `Table.prescribes_of_get?` and `Table.get?_of_prescribes`.
-/

namespace ParserGenerator

/-! ## Definitions -/

/-- What the items and edges of a state say for a symbol. -/
inductive Automaton.Prescribes (g : Grammar) (automaton : Automaton) (state : Nat) :
    Symbol → Entry → Prop
  | shift {core : ItemCore} {symbol : Symbol} {target : Nat}
      (has : (automaton.itemsAt state).Has core) (next : core.nextSymbol g = some symbol)
      (terminal : g.isTerminal symbol = true) (edge : automaton.Edge state symbol target) :
      Prescribes g automaton state symbol (.shift target)
  | reduce {core : ItemCore} {symbol : Symbol} (finished : core.nextSymbol g = none)
      (differs : core.rule ≠ Grammar.startRuleId)
      (looks : symbol ∈ (automaton.itemsAt state).lookahead core) :
      Prescribes g automaton state symbol (.reduce core.rule)
  | accept {core : ItemCore} (has : (automaton.itemsAt state).Has core)
      (finished : core.nextSymbol g = none) (isStart : core.rule = Grammar.startRuleId) :
      Prescribes g automaton state Symbol.endOfInput .accept
  | goto {symbol : Symbol} {target : Nat} (nonterminal : g.isNonterminal symbol = true)
      (edge : automaton.Edge state symbol target) :
      Prescribes g automaton state symbol (.goto target)

namespace Table

/-- The writes of an item. -/
def itemWrites (g : Grammar) (state : Nat) (edges : List (Symbol × Nat)) (item : Item) :
    List Write :=
  match item.core.nextSymbol g with
  | none =>
      if item.core.rule = Grammar.startRuleId then [⟨state, Symbol.endOfInput, .accept⟩]
      else item.lookahead.toList.map fun symbol => ⟨state, symbol, .reduce item.core.rule⟩
  | some symbol =>
      if g.isTerminal symbol then
        match edges.lookup symbol with
        | some next => [⟨state, symbol, .shift next⟩]
        | none => []
      else []

/-- The writes of an edge. -/
def edgeWrites (g : Grammar) (state : Nat) (edge : Symbol × Nat) : List Write :=
  if g.isNonterminal edge.1 then [⟨state, edge.1, .goto edge.2⟩] else []

/-- The writes of a state. -/
def stateWrites (g : Grammar) (entry : AutomatonState × Nat) : List Write :=
  entry.1.items.items.flatMap (itemWrites g entry.2 entry.1.edges) ++
    entry.1.edges.flatMap (edgeWrites g entry.2)

/-! ## The table as a list of writes -/

theorem foldl_writeAll {α : Type} (writes : α → List Write) (entries : List α) (table : Table) :
    entries.foldl (fun table entry => table.writeAll (writes entry)) table =
      table.writeAll (entries.flatMap writes) := by
  induction entries generalizing table with
  | nil => rfl
  | cons first rest ih =>
      rw [List.foldl_cons, ih, List.flatMap_cons]
      exact List.foldl_append.symm

theorem fillItem_eq (g : Grammar) (state : Nat) (edges : List (Symbol × Nat)) (table : Table)
    (item : Item) :
    fillItem g state edges table item = table.writeAll (itemWrites g state edges item) := by
  unfold fillItem itemWrites
  cases item.core.nextSymbol g with
  | none =>
      dsimp only
      split
      · rfl
      · unfold setAll writeAll
        rw [List.foldl_map]
        rfl
  | some symbol =>
      dsimp only
      split
      · cases edges.lookup symbol <;> rfl
      · rfl

theorem fillEdge_eq (g : Grammar) (state : Nat) (table : Table) (edge : Symbol × Nat) :
    fillEdge g state table edge = table.writeAll (edgeWrites g state edge) := by
  unfold fillEdge edgeWrites
  split <;> rfl

theorem fillState_eq (g : Grammar) (table : Table) (entry : AutomatonState × Nat) :
    fillState g table entry = table.writeAll (stateWrites g entry) := by
  have items : fillItem g entry.2 entry.1.edges =
      fun table item => table.writeAll (itemWrites g entry.2 entry.1.edges item) := by
    funext table item
    exact fillItem_eq g entry.2 entry.1.edges table item
  have edges : fillEdge g entry.2 =
      fun table edge => table.writeAll (edgeWrites g entry.2 edge) := by
    funext table edge
    exact fillEdge_eq g entry.2 table edge
  unfold fillState stateWrites
  dsimp only
  rw [items, edges, foldl_writeAll, foldl_writeAll]
  exact List.foldl_append.symm

/-- The table of an automaton is written state by state. -/
theorem ofAutomaton_eq (g : Grammar) (symbols : SymbolTable) (automaton : Automaton) :
    ofAutomaton g symbols automaton =
      (blank symbols g.rules automaton.size).writeAll
        (automaton.states.zipIdx.flatMap (stateWrites g)) := by
  have states : fillState g = fun table entry => table.writeAll (stateWrites g entry) := by
    funext table entry
    exact fillState_eq g table entry
  unfold ofAutomaton
  rw [states, foldl_writeAll]

/-! ## What is written -/

section

variable {g : Grammar} {automaton : Automaton} {state : Nat} {symbol : Symbol} {entry : Entry}

theorem prescribes_of_mem_itemWrites {found : AutomatonState}
    (isState : automaton.states[state]? = some found) {item : Item}
    (inItems : item ∈ found.items.items) {added : Write}
    (member : added ∈ itemWrites g state found.edges item) :
    added.state = state ∧ automaton.Prescribes g state added.symbol added.entry := by
  have equal := Automaton.itemsAt_of_getElem? isState
  have has : (automaton.itemsAt state).Has item.core := by
    rw [equal]
    exact ItemSet.has_iff.2 ⟨item, inItems, rfl⟩
  unfold itemWrites at member
  split at member
  · rename_i finished
    split at member
    · rename_i isStart
      rw [List.mem_singleton.1 member]
      exact ⟨rfl, .accept has finished isStart⟩
    · rename_i differs
      obtain ⟨x, inLookahead, isWrite⟩ := List.mem_map.1 member
      rw [← isWrite]
      refine ⟨rfl, .reduce finished differs ?_⟩
      rw [equal]
      exact ItemSet.mem_lookahead_iff.2 ⟨item, inItems, rfl, inLookahead⟩
  · rename_i expected next
    split at member
    · rename_i terminal
      split at member
      · rename_i target isTarget
        rw [List.mem_singleton.1 member]
        exact ⟨rfl, .shift has next terminal ⟨found, isState, isTarget⟩⟩
      · cases member
    · cases member

theorem mem_stateWrites_of_prescribes {found : AutomatonState}
    (isState : automaton.states[state]? = some found) (canonical : automaton.Canonical g)
    (prescribes : automaton.Prescribes g state symbol entry) :
    ⟨state, symbol, entry⟩ ∈ stateWrites g (found, state) := by
  have equal := Automaton.itemsAt_of_getElem? isState
  unfold stateWrites
  rw [List.mem_append, List.mem_flatMap, List.mem_flatMap]
  cases prescribes with
  | @shift core symbol target has next terminal edge =>
      rw [equal] at has
      obtain ⟨item, inItems, isCore⟩ := ItemSet.has_iff.1 has
      obtain ⟨other, isOther, isTarget⟩ := edge
      cases isState.symm.trans isOther
      refine .inl ⟨item, inItems, ?_⟩
      unfold itemWrites
      rw [isCore, next]
      dsimp only
      rw [if_pos terminal, isTarget]
      exact List.mem_singleton.2 rfl
  | @reduce core symbol finished differs looks =>
      rw [equal] at looks
      obtain ⟨item, inItems, isCore, inLookahead⟩ := ItemSet.mem_lookahead_iff.1 looks
      refine .inl ⟨item, inItems, ?_⟩
      unfold itemWrites
      rw [isCore, finished]
      dsimp only
      rw [if_neg differs]
      exact List.mem_map.2 ⟨symbol, inLookahead, rfl⟩
  | accept has finished isStart =>
      rw [equal] at has
      obtain ⟨item, inItems, isCore⟩ := ItemSet.has_iff.1 has
      refine .inl ⟨item, inItems, ?_⟩
      unfold itemWrites
      rw [isCore, finished]
      dsimp only
      rw [if_pos isStart]
      exact List.mem_singleton.2 rfl
  | @goto symbol target nonterminal edge =>
      refine .inr ⟨(symbol, target), (canonical.edge_iff_mem isState).1 edge, ?_⟩
      unfold edgeWrites
      rw [if_pos nonterminal]
      exact List.mem_singleton.2 rfl

theorem mem_writes_iff (canonical : automaton.Canonical g) :
    ⟨state, symbol, entry⟩ ∈ automaton.states.zipIdx.flatMap (stateWrites g) ↔
      state < automaton.size ∧ automaton.Prescribes g state symbol entry := by
  rw [List.mem_flatMap]
  constructor
  · rintro ⟨⟨found, index⟩, member, written⟩
    have isState : automaton.states[index]? = some found := List.mem_zipIdx_iff_getElem?.1 member
    obtain ⟨bound, _⟩ := List.getElem?_eq_some_iff.1 isState
    rcases List.mem_append.1 written with byItem | byEdge
    · obtain ⟨item, inItems, isWrite⟩ := List.mem_flatMap.1 byItem
      obtain ⟨same, prescribes⟩ := prescribes_of_mem_itemWrites isState inItems isWrite
      dsimp only at same prescribes
      exact same ▸ ⟨bound, prescribes⟩
    · obtain ⟨edge, inEdges, isWrite⟩ := List.mem_flatMap.1 byEdge
      unfold edgeWrites at isWrite
      split at isWrite
      · rename_i nonterminal
        cases List.mem_singleton.1 isWrite
        exact ⟨bound, .goto nonterminal ((canonical.edge_iff_mem isState).2 inEdges)⟩
      · cases isWrite
  · rintro ⟨bound, prescribes⟩
    have isState := List.getElem?_eq_getElem bound
    exact ⟨(_, state), List.mem_zipIdx_iff_getElem?.2 isState,
      mem_stateWrites_of_prescribes isState canonical prescribes⟩

variable {symbols : SymbolTable}

theorem get?_blank (rules : List Rule) (size : Nat) :
    (blank symbols rules size).get? state symbol = none := by
  cases found : (blank symbols rules size).get? state symbol with
  | none => rfl
  | some entry =>
      obtain ⟨row, isRow, inRow⟩ := get?_eq_some.1 found
      rw [List.eq_of_mem_replicate (List.mem_of_getElem? isRow)] at inRow
      cases inRow

/-- A cell holds something that is said for it. -/
theorem prescribes_of_get? (canonical : automaton.Canonical g)
    (found : (ofAutomaton g symbols automaton).get? state symbol = some entry) :
    automaton.Prescribes g state symbol entry := by
  rw [ofAutomaton_eq] at found
  rcases written_of_get? found with before | written
  · rw [get?_blank] at before
    cases before
  · exact ((mem_writes_iff canonical).1 written).2

theorem lt_size_of_prescribes (prescribes : automaton.Prescribes g state symbol entry) :
    state < automaton.size := by
  have found : ∃ entry, automaton.states[state]? = some entry := by
    cases prescribes with
    | shift has _ _ _ => exact Automaton.getElem?_of_has has
    | reduce _ _ looks => exact Automaton.getElem?_of_has (ItemSet.has_of_mem_lookahead looks)
    | accept has _ _ => exact Automaton.getElem?_of_has has
    | goto _ edge =>
        obtain ⟨entry, found, _⟩ := edge
        exact ⟨entry, found⟩
  obtain ⟨entry, isState⟩ := found
  exact (List.getElem?_eq_some_iff.1 isState).1

/-- A cell for which something is said holds something that is said for it. -/
theorem exists_get?_of_prescribes (canonical : automaton.Canonical g)
    (prescribes : automaton.Prescribes g state symbol entry) :
    ∃ last, (ofAutomaton g symbols automaton).get? state symbol = some last ∧
      automaton.Prescribes g state symbol last := by
  have bound := lt_size_of_prescribes prescribes
  have written : ∃ last, (ofAutomaton g symbols automaton).get? state symbol = some last := by
    rw [ofAutomaton_eq]
    exact exists_get?_of_written ((mem_writes_iff canonical).2 ⟨bound, prescribes⟩)
      (size_blank.symm ▸ bound)
  obtain ⟨last, found⟩ := written
  exact ⟨last, found, prescribes_of_get? canonical found⟩

/-- Without conflicts, a cell holds all that is said for it. -/
theorem get?_of_prescribes (canonical : automaton.Canonical g)
    (clean : (ofAutomaton g symbols automaton).conflicts = [])
    (prescribes : automaton.Prescribes g state symbol entry) :
    (ofAutomaton g symbols automaton).get? state symbol = some entry := by
  have bound := lt_size_of_prescribes prescribes
  rw [ofAutomaton_eq] at clean ⊢
  exact get?_of_written clean ((mem_writes_iff canonical).2 ⟨bound, prescribes⟩)
    (size_blank.symm ▸ bound)

theorem size_ofAutomaton : (ofAutomaton g symbols automaton).size = automaton.size := by
  rw [ofAutomaton_eq, size_writeAll, size_blank]

theorem symbols_ofAutomaton : (ofAutomaton g symbols automaton).symbols = symbols := by
  rw [ofAutomaton_eq, symbols_writeAll]
  rfl

theorem rules_ofAutomaton : (ofAutomaton g symbols automaton).rules = g.rules := by
  rw [ofAutomaton_eq, rules_writeAll]
  rfl

theorem rule?_ofAutomaton (id : Nat) : (ofAutomaton g symbols automaton).rule? id = g.rule? id := by
  unfold rule?
  rw [rules_ofAutomaton]
  rfl

theorem rowsDistinct_ofAutomaton : (ofAutomaton g symbols automaton).RowsDistinct := by
  rw [ofAutomaton_eq]
  exact (rowsDistinct_blank symbols g.rules automaton.size).writeAll

end

end Table

end ParserGenerator
