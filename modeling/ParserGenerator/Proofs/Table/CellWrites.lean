import ParserGenerator.Proofs.Table.Cells

/-!
# One cell of a table

What happens to a cell does not depend on the other cells. The entries that are written to it, in
order, tell what it holds in the end, which is the last one, and which conflicts arise in it, one for
each entry that replaces another one. In the table of an automaton these entries come from the items
of one state in the order of their cores, each of which says one thing for a symbol at most, and then
from the edges.

Results:
1. `Table.get?_writeAll_eq` and `Table.conflictsAt_writeAll`: a cell and its conflicts from the
   entries written to it.
2. `Table.replacements_none_eq_nil_iff`: there are conflicts when the entries are not all the same.
3. `Table.get?_ofAutomaton` and `Table.conflictsAt_ofAutomaton`: the same for a generated table.
-/

namespace ParserGenerator

/-! ## Definitions -/

/-- The entries that are written to a cell, in order. -/
def entriesAt (writes : List Write) (state : Nat) (symbol : Symbol) : List Entry :=
  (writes.filter fun added => state = added.state ∧ symbol = added.symbol).map Write.entry

namespace Table

/-- The conflicts of a cell in the order in which they arose. -/
def conflictsAt (table : Table) (state : Nat) (symbol : Symbol) : List Conflict :=
  table.conflicts.filter fun conflict => state = conflict.state ∧ symbol = conflict.symbol

/-- The conflicts of a cell when entries are written to it one after the other, with the entry that
it holds in front of them. -/
def replacements (state : Nat) (symbol : Symbol) : Option Entry → List Entry → List Conflict
  | _, [] => []
  | old, entry :: rest =>
      conflict? state symbol entry old ++ replacements state symbol (some entry) rest

/-- What an item of a state says for a symbol. -/
def saidByItem? (g : Grammar) (edges : List (Symbol × Nat)) (symbol : Symbol) (item : Item) :
    Option Entry :=
  match item.core.nextSymbol g with
  | none =>
      if item.core.rule = Grammar.startRuleId then
        if symbol = Symbol.endOfInput then some .accept else none
      else if symbol ∈ item.lookahead then some (.reduce item.core.rule) else none
  | some next =>
      if next = symbol ∧ g.isTerminal symbol = true then (edges.lookup symbol).map .shift else none

/-- What an edge of a state says for a symbol. -/
def saidByEdge? (g : Grammar) (symbol : Symbol) (edge : Symbol × Nat) : Option Entry :=
  if edge.1 = symbol ∧ g.isNonterminal symbol = true then some (.goto edge.2) else none

/-- All that is said for a symbol in a state, in the order in which it is written. -/
def cellEntries (g : Grammar) (state : AutomatonState) (symbol : Symbol) : List Entry :=
  state.items.items.filterMap (saidByItem? g state.edges symbol) ++
    state.edges.filterMap (saidByEdge? g symbol)

variable {table : Table} {state : Nat} {symbol : Symbol} {entry : Entry} {conflict : Conflict}
  {writes : List Write}

/-! ## The entries of a cell -/

theorem entriesAt_cons (added : Write) (writes : List Write) (state : Nat) (symbol : Symbol) :
    entriesAt (added :: writes) state symbol =
      if state = added.state ∧ symbol = added.symbol then
        added.entry :: entriesAt writes state symbol
      else entriesAt writes state symbol := by
  unfold entriesAt
  rw [List.filter_cons]
  by_cases here : state = added.state ∧ symbol = added.symbol
  · rw [if_pos here, if_pos (decide_eq_true here), List.map_cons]
  · rw [if_neg here, if_neg fun isHere => here (of_decide_eq_true isHere)]

theorem entriesAt_append (front back : List Write) (state : Nat) (symbol : Symbol) :
    entriesAt (front ++ back) state symbol =
      entriesAt front state symbol ++ entriesAt back state symbol := by
  unfold entriesAt
  rw [List.filter_append, List.map_append]

theorem entriesAt_flatMap {α : Type} (writesOf : α → List Write) (sources : List α) (state : Nat)
    (symbol : Symbol) :
    entriesAt (sources.flatMap writesOf) state symbol =
      sources.flatMap fun source => entriesAt (writesOf source) state symbol := by
  induction sources with
  | nil => rfl
  | cons first rest ih => rw [List.flatMap_cons, List.flatMap_cons, entriesAt_append, ih]

theorem mem_entriesAt : entry ∈ entriesAt writes state symbol ↔ ⟨state, symbol, entry⟩ ∈ writes := by
  unfold entriesAt
  simp only [List.mem_map, List.mem_filter, decide_eq_true_eq]
  constructor
  · rintro ⟨added, ⟨member, rfl, rfl⟩, rfl⟩
    exact member
  · exact fun member => ⟨_, ⟨member, rfl, rfl⟩, rfl⟩

/-- A cell holds the entry that was written to it last. -/
theorem get?_writeAll_eq (bound : state < table.size) :
    (table.writeAll writes).get? state symbol =
      (entriesAt writes state symbol).getLast?.or (table.get? state symbol) := by
  induction writes generalizing table with
  | nil => rfl
  | cons first rest ih =>
      have inside : state < (table.write first).size := (size_write table first).symm ▸ bound
      have later := ih inside
      have before := get?_write table first state symbol
      show ((table.write first).writeAll rest).get? state symbol = _
      rw [later, before, entriesAt_cons]
      by_cases here : state = first.state ∧ symbol = first.symbol
      · rw [if_pos here, if_pos ⟨here.1, here.2, bound⟩, List.getLast?_cons]
        cases (entriesAt rest state symbol).getLast? <;> rfl
      · rw [if_neg here, if_neg fun written => here ⟨written.1, written.2.1⟩]

/-! ## The conflicts of a cell -/

theorem conflicts_write_eq (table : Table) (added : Write) :
    (table.write added).conflicts = table.conflicts ++
      conflict? added.state added.symbol added.entry
        (table.get? added.state added.symbol) := by
  unfold write set get?
  cases found : table.rows[added.state]? with
  | none => exact (List.append_nil _).symm
  | some row => rfl

theorem mem_conflict? {old : Option Entry} :
    conflict ∈ conflict? state symbol entry old ↔
      ∃ previous, old = some previous ∧ previous ≠ entry ∧
        conflict = ⟨state, symbol, previous, entry⟩ := by
  unfold conflict?
  cases old with
  | none => simp
  | some previous =>
      by_cases same : previous = entry
      · simp [same]
      · simp [same]

theorem mem_conflictsAt :
    conflict ∈ table.conflictsAt state symbol ↔
      conflict ∈ table.conflicts ∧ conflict.state = state ∧ conflict.symbol = symbol := by
  unfold conflictsAt
  rw [List.mem_filter, decide_eq_true_eq]
  exact and_congr_right fun _ => and_congr eq_comm eq_comm

theorem conflictsAt_write (table : Table) (added : Write) (state : Nat) (symbol : Symbol) :
    (table.write added).conflictsAt state symbol = table.conflictsAt state symbol ++
      if state = added.state ∧ symbol = added.symbol then
        conflict? state symbol added.entry (table.get? state symbol)
      else [] := by
  unfold conflictsAt
  rw [conflicts_write_eq, List.filter_append]
  congr 1
  by_cases here : state = added.state ∧ symbol = added.symbol
  · obtain ⟨rfl, rfl⟩ := here
    rw [if_pos ⟨rfl, rfl⟩, List.filter_eq_self]
    intro conflict member
    obtain ⟨previous, _, _, rfl⟩ := mem_conflict?.1 member
    exact decide_eq_true ⟨rfl, rfl⟩
  · rw [if_neg here, List.filter_eq_nil_iff]
    intro conflict member
    obtain ⟨previous, _, _, rfl⟩ := mem_conflict?.1 member
    exact fun isHere => here (of_decide_eq_true isHere)

/-- The conflicts of a cell come from the entries that are written to it. -/
theorem conflictsAt_writeAll (bound : state < table.size) :
    (table.writeAll writes).conflictsAt state symbol = table.conflictsAt state symbol ++
      replacements state symbol (table.get? state symbol) (entriesAt writes state symbol) := by
  induction writes generalizing table with
  | nil => exact (List.append_nil _).symm
  | cons first rest ih =>
      have inside : state < (table.write first).size := (size_write table first).symm ▸ bound
      have later := ih inside
      show ((table.write first).writeAll rest).conflictsAt state symbol = _
      rw [later, conflictsAt_write, get?_write, entriesAt_cons, List.append_assoc]
      by_cases here : state = first.state ∧ symbol = first.symbol
      · rw [if_pos here, if_pos here, if_pos ⟨here.1, here.2, bound⟩, replacements]
      · rw [if_neg here, if_neg here, if_neg fun written => here ⟨written.1, written.2.1⟩,
          List.nil_append]

/-- A conflict is between two entries of the cell that are not the same. -/
theorem of_mem_replacements {old : Option Entry} {entries : List Entry}
    (member : conflict ∈ replacements state symbol old entries) :
    conflict.state = state ∧ conflict.symbol = symbol ∧
      (old = some conflict.previous ∨ conflict.previous ∈ entries) ∧
      conflict.replacement ∈ entries ∧ conflict.previous ≠ conflict.replacement := by
  induction entries generalizing old with
  | nil => cases member
  | cons first rest ih =>
      rcases List.mem_append.1 member with now | later
      · obtain ⟨previous, isOld, differs, rfl⟩ := mem_conflict?.1 now
        exact ⟨rfl, rfl, .inl isOld, List.mem_cons_self, differs⟩
      · obtain ⟨isState, isSymbol, isPrevious, isReplacement, differs⟩ := ih later
        refine ⟨isState, isSymbol, .inr ?_, List.mem_cons_of_mem _ isReplacement, differs⟩
        rcases isPrevious with isFirst | inRest
        · exact Option.some.inj isFirst ▸ List.mem_cons_self
        · exact List.mem_cons_of_mem _ inRest

theorem replacements_some_eq_nil_iff {old : Entry} {entries : List Entry} :
    replacements state symbol (some old) entries = [] ↔ ∀ entry ∈ entries, entry = old := by
  induction entries generalizing old with
  | nil => simp [replacements]
  | cons first rest ih =>
      rw [replacements, List.append_eq_nil_iff, ih, List.forall_mem_cons]
      by_cases same : old = first
      · simp [conflict?, same]
      · simp [conflict?, same, Ne.symm same]

/-- An empty cell gets no conflict exactly when all entries that are written to it are the same. -/
theorem replacements_none_eq_nil_iff {entries : List Entry} :
    replacements state symbol none entries = [] ↔
      ∀ entry ∈ entries, ∀ other ∈ entries, entry = other := by
  cases entries with
  | nil => simp [replacements]
  | cons first rest =>
      rw [replacements, conflict?, List.nil_append, replacements_some_eq_nil_iff]
      constructor
      · intro same
        have all : ∀ entry ∈ first :: rest, entry = first := List.forall_mem_cons.2 ⟨rfl, same⟩
        exact fun entry member other member' => (all entry member).trans (all other member').symm
      · exact fun same entry member =>
          same entry (List.mem_cons_of_mem _ member) first List.mem_cons_self

/-- A conflict belongs to a state that exists. -/
theorem lt_size_of_mem_conflicts (old : ∀ conflict ∈ table.conflicts, conflict.state < table.size)
    (member : conflict ∈ (table.writeAll writes).conflicts) : conflict.state < table.size := by
  induction writes generalizing table with
  | nil => exact old conflict member
  | cons first rest ih =>
      have size := size_write table first
      rw [← size]
      refine ih (fun conflict isConflict => ?_) member
      rw [size]
      rw [conflicts_write_eq] at isConflict
      rcases List.mem_append.1 isConflict with isOld | isNew
      · exact old conflict isOld
      · obtain ⟨previous, found, _, rfl⟩ := mem_conflict?.1 isNew
        obtain ⟨row, isRow, _⟩ := get?_eq_some.1 found
        exact (List.getElem?_eq_some_iff.1 isRow).1

/-! ## The entries of an item, an edge and a state -/

variable {g : Grammar} {automaton : Automaton} {symbols : SymbolTable} {found : AutomatonState}

theorem entriesAt_lookahead (entry : Entry) (set : SymbolSet) (state : Nat) (symbol : Symbol) :
    entriesAt (set.toList.map fun x => ⟨state, x, entry⟩) state symbol =
      if symbol ∈ set then [entry] else [] := by
  have distinct := set.nodup_toList
  simp only [OrderedSet.mem_def]
  generalize set.toList = listed at distinct
  induction listed with
  | nil => rfl
  | cons first rest ih =>
      obtain ⟨fresh, nodup⟩ := List.nodup_cons.1 distinct
      rw [List.map_cons, entriesAt_cons, ih nodup]
      by_cases isFirst : symbol = first
      · rw [isFirst, if_pos ⟨rfl, rfl⟩, if_neg fresh, if_pos List.mem_cons_self]
      · rw [if_neg fun here => isFirst here.2]
        simp only [List.mem_cons, or_iff_right isFirst]

/-- An item writes what it says for the symbol of the cell. -/
theorem entriesAt_itemWrites (g : Grammar) (state : Nat) (edges : List (Symbol × Nat))
    (symbol : Symbol) (item : Item) :
    entriesAt (itemWrites g state edges item) state symbol =
      (saidByItem? g edges symbol item).toList := by
  unfold itemWrites saidByItem?
  cases item.core.nextSymbol g with
  | none =>
      dsimp only
      split
      · rw [entriesAt_cons]
        split <;> simp_all [entriesAt]
      · rw [entriesAt_lookahead]
        split <;> rfl
  | some next =>
      dsimp only
      by_cases same : next = symbol
      · subst same
        by_cases terminal : g.isTerminal next = true
        · rw [if_pos terminal, if_pos ⟨rfl, terminal⟩]
          cases edges.lookup next with
          | none => rfl
          | some target =>
              dsimp only
              rw [entriesAt_cons, if_pos ⟨rfl, rfl⟩]
              rfl
        · rw [if_neg terminal, if_neg fun both : _ ∧ _ => terminal both.2]
          rfl
      · rw [if_neg fun both : _ ∧ _ => same both.1]
        split
        · split
          · rw [entriesAt_cons, if_neg fun here => same here.2.symm]
            rfl
          · rfl
        · rfl

theorem entriesAt_edgeWrites (g : Grammar) (state : Nat) (symbol : Symbol) (edge : Symbol × Nat) :
    entriesAt (edgeWrites g state edge) state symbol = (saidByEdge? g symbol edge).toList := by
  unfold edgeWrites saidByEdge?
  by_cases same : edge.1 = symbol
  · subst same
    by_cases nonterminal : g.isNonterminal edge.1 = true
    · rw [if_pos nonterminal, if_pos ⟨rfl, nonterminal⟩, entriesAt_cons, if_pos ⟨rfl, rfl⟩]
      rfl
    · rw [if_neg nonterminal, if_neg fun both : _ ∧ _ => nonterminal both.2]
      rfl
  · rw [if_neg fun both : _ ∧ _ => same both.1]
    split
    · rw [entriesAt_cons, if_neg fun here => same here.2.symm]
      rfl
    · rfl

theorem flatMap_toList {α β : Type} (f : α → Option β) (list : List α) :
    (list.flatMap fun a => (f a).toList) = list.filterMap f := by
  induction list with
  | nil => rfl
  | cons first rest ih =>
      rw [List.flatMap_cons, List.filterMap_cons, ih]
      cases f first <;> rfl

theorem entriesAt_stateWrites (g : Grammar) (found : AutomatonState) (state : Nat)
    (symbol : Symbol) :
    entriesAt (stateWrites g (found, state)) state symbol = cellEntries g found symbol := by
  unfold stateWrites cellEntries
  rw [entriesAt_append, entriesAt_flatMap, entriesAt_flatMap]
  simp only [entriesAt_itemWrites, entriesAt_edgeWrites, flatMap_toList]

/-- A state writes to its own cells alone. -/
theorem state_eq_of_mem_stateWrites {source : AutomatonState × Nat} {added : Write}
    (member : added ∈ stateWrites g source) : added.state = source.2 := by
  rcases List.mem_append.1 member with byItem | byEdge
  · obtain ⟨item, _, written⟩ := List.mem_flatMap.1 byItem
    unfold itemWrites at written
    split at written
    · split at written
      · rw [List.mem_singleton.1 written]
      · obtain ⟨x, _, rfl⟩ := List.mem_map.1 written
        rfl
    · split at written
      · split at written
        · rw [List.mem_singleton.1 written]
        · cases written
      · cases written
  · obtain ⟨edge, _, written⟩ := List.mem_flatMap.1 byEdge
    unfold edgeWrites at written
    split at written
    · rw [List.mem_singleton.1 written]
    · cases written

/-- In a numbered list all elements but one are left out. -/
theorem flatMap_zipIdx_eq {α β : Type} {list : List α} {f : α × Nat → List β} {a : α}
    {index first : Nat} (isElement : list[index]? = some a)
    (others : ∀ b number, number ≠ first + index → f (b, number) = []) :
    (list.zipIdx first).flatMap f = f (a, first + index) := by
  induction list generalizing index first with
  | nil => cases isElement
  | cons head rest ih =>
      rw [List.zipIdx_cons, List.flatMap_cons]
      cases index with
      | zero =>
          cases isElement
          have later : (rest.zipIdx (first + 1)).flatMap f = [] := by
            rw [List.flatMap_eq_nil_iff]
            intro entry member
            have bound := List.le_snd_of_mem_zipIdx member
            exact others entry.1 entry.2 (by omega)
          rw [later, List.append_nil]
          rfl
      | succ index =>
          rw [others head first (by omega), List.nil_append]
          have rest := ih isElement fun b number (differs : number ≠ first + 1 + index) =>
            others b number (by omega)
          rw [rest, Nat.add_right_comm, Nat.add_assoc]

/-- What is written to a cell is what is said in its state. -/
theorem entriesAt_writes (isState : automaton.states[state]? = some found) (symbol : Symbol) :
    entriesAt (automaton.states.zipIdx.flatMap (stateWrites g)) state symbol =
      cellEntries g found symbol := by
  rw [entriesAt_flatMap, flatMap_zipIdx_eq isState, Nat.zero_add, entriesAt_stateWrites]
  intro other number differs
  rw [List.eq_nil_iff_forall_not_mem]
  intro entry member
  have same := state_eq_of_mem_stateWrites (mem_entriesAt.1 member)
  exact differs (by simpa using same.symm)

/-! ## Generated tables -/

theorem get?_ofAutomaton (isState : automaton.states[state]? = some found) (symbol : Symbol) :
    (ofAutomaton g symbols automaton).get? state symbol =
      (cellEntries g found symbol).getLast? := by
  have bound : state < (blank symbols g.rules automaton.size).size :=
    size_blank.symm ▸ (List.getElem?_eq_some_iff.1 isState).1
  rw [ofAutomaton_eq, get?_writeAll_eq bound, get?_blank, Option.or_none,
    entriesAt_writes isState]

theorem conflictsAt_ofAutomaton (isState : automaton.states[state]? = some found)
    (symbol : Symbol) :
    (ofAutomaton g symbols automaton).conflictsAt state symbol =
      replacements state symbol none (cellEntries g found symbol) := by
  have bound : state < (blank symbols g.rules automaton.size).size :=
    size_blank.symm ▸ (List.getElem?_eq_some_iff.1 isState).1
  rw [ofAutomaton_eq, conflictsAt_writeAll bound, get?_blank, entriesAt_writes isState]
  rfl

theorem state_lt_of_mem_conflicts (member : conflict ∈ (ofAutomaton g symbols automaton).conflicts) :
    conflict.state < automaton.size := by
  rw [ofAutomaton_eq] at member
  have bound := lt_size_of_mem_conflicts (fun _ none => absurd none List.not_mem_nil) member
  rwa [size_blank] at bound

theorem conflictsAt_eq_nil (behind : automaton.size ≤ state) :
    (ofAutomaton g symbols automaton).conflictsAt state symbol = [] := by
  rw [List.eq_nil_iff_forall_not_mem]
  intro conflict inCell
  obtain ⟨member, isState, _⟩ := mem_conflictsAt.1 inCell
  exact absurd (isState ▸ state_lt_of_mem_conflicts member) (Nat.not_lt.2 behind)

/-- What is said for a symbol in a state. -/
theorem mem_cellEntries_iff (canonical : automaton.Canonical g)
    (isState : automaton.states[state]? = some found) :
    entry ∈ cellEntries g found symbol ↔ automaton.Prescribes g state symbol entry := by
  rw [← entriesAt_writes isState, mem_entriesAt, mem_writes_iff canonical]
  exact and_iff_right (List.getElem?_eq_some_iff.1 isState).1

/-- A conflict is between two different entries that are said for its cell. -/
theorem prescribes_of_mem_conflicts (canonical : automaton.Canonical g)
    (member : conflict ∈ (ofAutomaton g symbols automaton).conflicts) :
    automaton.Prescribes g conflict.state conflict.symbol conflict.previous ∧
      automaton.Prescribes g conflict.state conflict.symbol conflict.replacement ∧
      conflict.previous ≠ conflict.replacement := by
  have isState := List.getElem?_eq_getElem (state_lt_of_mem_conflicts member)
  have inCell : conflict ∈
      (ofAutomaton g symbols automaton).conflictsAt conflict.state conflict.symbol :=
    mem_conflictsAt.2 ⟨member, rfl, rfl⟩
  rw [conflictsAt_ofAutomaton isState] at inCell
  obtain ⟨_, _, isPrevious, isReplacement, differs⟩ := of_mem_replacements inCell
  refine ⟨(mem_cellEntries_iff canonical isState).1 (isPrevious.resolve_left ?_),
    (mem_cellEntries_iff canonical isState).1 isReplacement, differs⟩
  exact fun isNone => nomatch isNone

end Table

end ParserGenerator
