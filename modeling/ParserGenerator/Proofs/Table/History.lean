import ParserGenerator.Proofs.Table.CellWrites

/-!
# The conflicts of a cell tell its history

A table that is filled from empty rows keeps one list of conflicts for all cells. The conflicts of
one cell, picked out of that list, say what became of the cell: they lead from the entry that was
written first to the entry that the cell holds, with one conflict for each write that found another
entry there. A row lists its symbols in the order in which they were first written.

Results:
1. `Table.leads_replacements`: entries that are written one after the other lead from the first of
   them to the last.
2. `Table.chronicled_of_writes`: the history of each cell, and the order of each row.
-/

namespace ParserGenerator

/-! ## Definitions -/

/-- The conflicts lead from an entry to an entry: each replaces what the one in front of it has
left, and leaves something else. -/
inductive Leads : Entry → List Conflict → Entry → Prop where
  | here (entry : Entry) : Leads entry [] entry
  | replace {conflict : Conflict} {rest : List Conflict} {last : Entry}
      (differs : conflict.previous ≠ conflict.replacement)
      (later : Leads conflict.replacement rest last) :
      Leads conflict.previous (conflict :: rest) last

namespace Table

/-- Writes one after the other, each into a state that exists. -/
def writeAll? (table : Table) (writes : List Write) : Option Table :=
  writes.foldlM (fun table added => table.set? added.state added.symbol added.entry) table

/-- The writes that change what a cell holds, each told by what the cell held before and what it
holds afterwards. -/
def changesAt (state : Nat) (symbol : Symbol) : Table → List Write → List (Entry × Entry)
  | _, [] => []
  | table, added :: rest =>
      let next := table.write added
      let change := match table.get? state symbol, next.get? state symbol with
        | some before, some behind => if before = behind then [] else [(before, behind)]
        | _, _ => []
      change ++ changesAt state symbol next rest

/-- The conflicts of a cell are the history of what was written to it, from a table without entries
on. -/
structure Chronicled (blank : Table) (writes : List Write) (table : Table) (state : Nat)
    (symbol : Symbol) : Prop where
  untouched : entriesAt writes state symbol = [] →
    table.get? state symbol = none ∧ table.conflictsAt state symbol = []
  leads : ∀ first, (entriesAt writes state symbol).head? = some first →
    ∃ held, table.get? state symbol = some held ∧
      Leads first (table.conflictsAt state symbol) held
  changes : (table.conflictsAt state symbol).map
      (fun conflict => (conflict.previous, conflict.replacement)) =
    changesAt state symbol blank writes
  quiet : table.conflictsAt state symbol = [] →
    ∀ entry ∈ entriesAt writes state symbol, table.get? state symbol = some entry

/-- The symbols of a row, in its order. -/
def keysAt (table : Table) (state : Nat) : List Symbol :=
  (table.rows[state]?.getD []).map Prod.fst

variable {table : Table} {state : Nat} {symbol : Symbol} {writes : List Write}

/-! ## Cells -/

/-- What is written to a cell leads from the first entry to the last one. -/
theorem leads_replacements (state : Nat) (symbol : Symbol) (first : Entry) (entries : List Entry) :
    Leads first (replacements state symbol (some first) entries)
      (entries.getLast?.getD first) := by
  induction entries generalizing first with
  | nil => exact .here first
  | cons entry rest ih =>
      rw [replacements, conflict?, List.getLast?_cons, Option.getD_some]
      by_cases same : first = entry
      · rw [if_pos same, same]
        exact ih entry
      · rw [if_neg same]
        exact @Leads.replace ⟨state, symbol, first, entry⟩ _ _ same (ih entry)

/-- Each conflict stands for a write that changes the cell. -/
theorem replacements_eq_changesAt (bound : state < table.size) (writes : List Write) :
    (replacements state symbol (table.get? state symbol) (entriesAt writes state symbol)).map
        (fun conflict => (conflict.previous, conflict.replacement)) =
      changesAt state symbol table writes := by
  induction writes generalizing table with
  | nil => rfl
  | cons added rest ih =>
      have later := @ih (table.write added) ((size_write table added).symm ▸ bound)
      have written := get?_write table added state symbol
      rw [changesAt, entriesAt_cons]
      by_cases here : state = added.state ∧ symbol = added.symbol
      · rw [if_pos ⟨here.1, here.2, bound⟩] at written
        rw [if_pos here, replacements, List.map_append, ← later, written]
        congr 1
        cases table.get? state symbol with
        | none => rfl
        | some before =>
            rw [conflict?]
            dsimp only
            split <;> rfl
      · rw [if_neg fun both => here ⟨both.1, both.2.1⟩] at written
        rw [if_neg here, ← later, written]
        cases table.get? state symbol with
        | none => rfl
        | some before =>
            dsimp only
            rw [if_pos rfl]
            rfl

/-! ## Rows -/

theorem keysAt_write (bound : state < table.size) (added : Write) :
    (table.write added).keysAt state =
      if state = added.state then withKey (table.keysAt state) added.symbol
      else table.keysAt state := by
  unfold keysAt write set
  by_cases here : state = added.state
  · subst here
    have found := List.getElem?_eq_getElem bound
    rw [found, if_pos rfl]
    dsimp only
    rw [List.getElem?_set_self bound, Option.getD_some, keys_put]
    rfl
  · rw [if_neg here]
    cases table.rows[added.state]? with
    | none => rfl
    | some row => rw [List.getElem?_set_ne (Ne.symm here)]

theorem keysAt_writeAll (bound : state < table.size) :
    (table.writeAll writes).keysAt state =
      ((writes.filter fun added => state = added.state).map Write.symbol).foldl withKey
        (table.keysAt state) := by
  induction writes generalizing table with
  | nil => rfl
  | cons added rest ih =>
      have later := @ih (table.write added) ((size_write table added).symm ▸ bound)
      show ((table.write added).writeAll rest).keysAt state = _
      rw [later, keysAt_write bound, List.filter_cons]
      by_cases here : state = added.state
      · rw [if_pos here, if_pos (decide_eq_true here)]
        rfl
      · rw [if_neg here, if_neg fun isHere => here (of_decide_eq_true isHere)]

/-! ## Tables filled from empty rows -/

theorem writeAll?_eq_some (exist : ∀ added ∈ writes, added.state < table.size) :
    table.writeAll? writes = some (table.writeAll writes) := by
  induction writes generalizing table with
  | nil => rfl
  | cons added rest ih =>
      obtain ⟨first, others⟩ := List.forall_mem_cons.1 exist
      have written : table.set? added.state added.symbol added.entry = some (table.write added) :=
        if_pos first
      unfold writeAll?
      rw [List.foldlM_cons, written]
      exact ih fun other member => (size_write table added).symm ▸ others other member

variable {symbols : SymbolTable} {rules : List Rule} {size : Nat}

theorem chronicled_writeAll (bound : state < size) (symbol : Symbol) (writes : List Write) :
    Chronicled (blank symbols rules size) writes ((blank symbols rules size).writeAll writes) state
      symbol := by
  have inside : state < (blank symbols rules size).size := size_blank.symm ▸ bound
  have holds := @get?_writeAll_eq _ _ symbol writes inside
  have log := @conflictsAt_writeAll _ _ symbol writes inside
  have changes := @replacements_eq_changesAt _ _ symbol inside writes
  rw [get?_blank, Option.or_none] at holds
  rw [get?_blank] at log changes
  change _ = replacements state symbol none (entriesAt writes state symbol) at log
  rw [← log] at changes
  constructor
  · intro none
    rw [holds, log, none]
    exact ⟨rfl, rfl⟩
  · intro first isFirst
    obtain ⟨rest, entries⟩ := List.head?_eq_some_iff.1 isFirst
    rw [holds, log, entries]
    exact ⟨_, List.getLast?_cons, leads_replacements state symbol first rest⟩
  · exact changes
  · intro quiet entry member
    rw [log, replacements_none_eq_nil_iff] at quiet
    rw [holds]
    have written := List.ne_nil_of_mem member
    rw [List.getLast?_eq_some_getLast written]
    exact congrArg some (quiet _ (List.getLast_mem written) entry member)

theorem rows_writeAll (bound : state < size) (writes : List Write) :
    ((blank symbols rules size).writeAll writes).rows[state]?.map (List.map Prod.fst) =
      some ((writes.filter fun added => state = added.state).map Write.symbol).eraseDups := by
  have inside : state < (blank symbols rules size).size := size_blank.symm ▸ bound
  have filled : state < ((blank symbols rules size).writeAll writes).size :=
    size_writeAll.symm ▸ inside
  have empty : (blank symbols rules size).keysAt state = [] := by
    unfold keysAt blank
    rw [List.getElem?_replicate, if_pos bound]
    rfl
  have keys := @keysAt_writeAll _ _ writes inside
  have found := List.getElem?_eq_getElem filled
  rw [empty, foldl_withKey_nil, keysAt, found, Option.getD_some] at keys
  rw [found, Option.map_some, keys]

/-- Whatever is written to the states of a table that starts with empty rows: the conflicts of each
cell lead from the entry that was written to it first to the one that it holds, with one conflict
for each write that changed it, a cell without conflicts has been given no other entry than the one
that it holds, and each row lists its symbols in the order of their first writes. -/
theorem chronicled_of_writes (symbols : SymbolTable) (rules : List Rule) (size : Nat)
    (writes : List Write) (exist : ∀ added ∈ writes, added.state < size) :
    ∃ table, (blank symbols rules size).writeAll? writes = some table ∧
      ∀ state, state < size →
        (∀ symbol, Chronicled (blank symbols rules size) writes table state symbol) ∧
        table.rows[state]?.map (List.map Prod.fst) =
          some ((writes.filter fun added => state = added.state).map Write.symbol).eraseDups :=
  ⟨(blank symbols rules size).writeAll writes,
    writeAll?_eq_some fun added member => size_blank.symm ▸ exist added member,
    fun _ bound => ⟨fun symbol => chronicled_writeAll bound symbol writes,
      rows_writeAll bound writes⟩⟩

/-- Writes to two cells in turns: one of them is changed back and forth, the other is written twice
with the same entry. -/
def alternatingWrites : List Write :=
  [⟨1, ⟨4⟩, .shift 0⟩, ⟨1, ⟨3⟩, .goto 1⟩, ⟨1, ⟨4⟩, .reduce 0⟩, ⟨1, ⟨4⟩, .reduce 0⟩,
    ⟨1, ⟨3⟩, .goto 1⟩, ⟨1, ⟨4⟩, .shift 0⟩]

theorem chronicled_of_writes_alternating :
    (∀ added ∈ alternatingWrites, added.state < 2) ∧
    changesAt 1 ⟨4⟩ (blank SymbolTable.initial [] 2) alternatingWrites =
      [(.shift 0, .reduce 0), (.reduce 0, .shift 0)] ∧
    ∃ table, (blank SymbolTable.initial [] 2).writeAll? alternatingWrites = some table ∧
      ∀ state, state < 2 →
        (∀ symbol, Chronicled (blank SymbolTable.initial [] 2) alternatingWrites table state
          symbol) ∧
        table.rows[state]?.map (List.map Prod.fst) =
          some ((alternatingWrites.filter fun added => state = added.state).map
            Write.symbol).eraseDups := by
  have exist : ∀ added ∈ alternatingWrites, added.state < 2 := by decide
  exact ⟨exist, by decide, chronicled_of_writes SymbolTable.initial [] 2 alternatingWrites exist⟩

end Table

end ParserGenerator
