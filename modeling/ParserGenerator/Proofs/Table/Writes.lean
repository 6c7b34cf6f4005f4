import ParserGenerator.Proofs.Lookup
import ParserGenerator.Table

/-!
# Writing cells one after the other

A table is filled by a list of writes. A later write replaces an earlier one in the same cell, so
that a cell holds something that was written there. The replacement is a conflict when the two
differ, so that without conflicts every write has come to stay.

Results: `Table.written_of_get?` and `Table.get?_of_written`.
-/

namespace ParserGenerator

/-- An entry for a cell. -/
structure Write where
  state : Nat
  symbol : Symbol
  entry : Entry

namespace Table

/-- Writes into a cell. -/
def write (table : Table) (added : Write) : Table :=
  table.set added.state added.symbol added.entry

/-- Writes one after the other. -/
def writeAll (table : Table) (writes : List Write) : Table := writes.foldl write table

variable {table : Table} {state : Nat} {symbol : Symbol} {entry : Entry}

/-! ## One write -/

theorem get?_eq_some :
    table.get? state symbol = some entry ↔
      ∃ row, table.rows[state]? = some row ∧ row.get? symbol = some entry := by
  unfold get?
  exact Option.bind_eq_some_iff

theorem get?_write (table : Table) (added : Write) (state : Nat) (symbol : Symbol) :
    (table.write added).get? state symbol =
      if state = added.state ∧ symbol = added.symbol ∧ state < table.size then some added.entry
      else table.get? state symbol := by
  unfold write set
  cases found : table.rows[added.state]? with
  | none =>
      rw [if_neg]
      rintro ⟨same, _, bound⟩
      rw [List.getElem?_eq_none_iff, ← same] at found
      exact Nat.not_le_of_lt bound found
  | some row =>
      obtain ⟨bound, _⟩ := List.getElem?_eq_some_iff.1 found
      unfold get?
      dsimp only
      by_cases same : state = added.state
      · rw [same, List.getElem?_set_self bound, found]
        show (row.put added.symbol added.entry).get? symbol = _
        rw [Row.get?_put]
        by_cases sameSymbol : symbol = added.symbol
        · rw [if_pos sameSymbol, if_pos ⟨rfl, sameSymbol, bound⟩]
        · rw [if_neg sameSymbol, if_neg fun both => sameSymbol both.2.1]
          rfl
      · rw [List.getElem?_set_ne (Ne.symm same), if_neg fun both => same both.1]

theorem size_write (table : Table) (added : Write) : (table.write added).size = table.size := by
  unfold write set
  split
  · rfl
  · exact List.length_set

theorem rules_write (table : Table) (added : Write) : (table.write added).rules = table.rules := by
  unfold write set
  split <;> rfl

theorem symbols_write (table : Table) (added : Write) :
    (table.write added).symbols = table.symbols := by
  unfold write set
  split <;> rfl

/-- A write adds a conflict exactly when it replaces another entry. -/
theorem conflicts_write (table : Table) (added : Write) :
    ∃ more, (table.write added).conflicts = table.conflicts ++ more ∧
      (more = [] → ∀ old, table.get? added.state added.symbol = some old → old = added.entry) := by
  unfold write set
  cases found : table.rows[added.state]? with
  | none =>
      refine ⟨[], (List.append_nil _).symm, fun _ old isOld => ?_⟩
      obtain ⟨row, isRow, _⟩ := get?_eq_some.1 isOld
      rw [found] at isRow
      cases isRow
  | some row =>
      refine ⟨_, rfl, fun none old isOld => ?_⟩
      obtain ⟨other, isRow, inRow⟩ := get?_eq_some.1 isOld
      rw [found] at isRow
      cases isRow
      rw [inRow, conflict?] at none
      split at none
      · assumption
      · cases none

/-! ## Many writes -/

variable {writes : List Write}

theorem size_writeAll : (table.writeAll writes).size = table.size := by
  induction writes generalizing table with
  | nil => rfl
  | cons first rest ih => exact ih.trans (size_write table first)

theorem symbols_writeAll : (table.writeAll writes).symbols = table.symbols := by
  induction writes generalizing table with
  | nil => rfl
  | cons first rest ih => exact ih.trans (symbols_write table first)

theorem rules_writeAll : (table.writeAll writes).rules = table.rules := by
  induction writes generalizing table with
  | nil => rfl
  | cons first rest ih => exact ih.trans (rules_write table first)

theorem conflicts_writeAll : table.conflicts <+: (table.writeAll writes).conflicts := by
  induction writes generalizing table with
  | nil => exact List.prefix_refl _
  | cons first rest ih =>
      obtain ⟨more, equal, _⟩ := conflicts_write table first
      exact (List.prefix_append _ more).trans (equal ▸ ih)

/-- A cell holds what was there before or what was written. -/
theorem written_of_get? (found : (table.writeAll writes).get? state symbol = some entry) :
    table.get? state symbol = some entry ∨ ⟨state, symbol, entry⟩ ∈ writes := by
  induction writes generalizing table with
  | nil => exact .inl found
  | cons first rest ih =>
      rcases ih found with earlier | later
      · rw [get?_write] at earlier
        split at earlier
        · rename_i here
          obtain ⟨sameState, sameSymbol, _⟩ := here
          cases earlier
          rw [sameState, sameSymbol]
          exact .inr List.mem_cons_self
        · exact .inl earlier
      · exact .inr (List.mem_cons_of_mem _ later)

/-- A cell that holds something is never emptied. -/
theorem exists_get?_writeAll (found : ∃ entry, table.get? state symbol = some entry) :
    ∃ entry, (table.writeAll writes).get? state symbol = some entry := by
  induction writes generalizing table with
  | nil => exact found
  | cons first rest ih =>
      refine ih ?_
      rw [get?_write]
      split
      · exact ⟨first.entry, rfl⟩
      · exact found

/-- A cell that is written to holds something in the end. -/
theorem exists_get?_of_written (member : ⟨state, symbol, entry⟩ ∈ writes)
    (bound : state < table.size) :
    ∃ last, (table.writeAll writes).get? state symbol = some last := by
  induction writes generalizing table with
  | nil => cases member
  | cons first rest ih =>
      rcases List.mem_cons.1 member with equal | later
      · have written : ∃ entry, (table.write first).get? state symbol = some entry :=
          ⟨entry, by rw [get?_write, ← equal, if_pos ⟨rfl, rfl, bound⟩]⟩
        exact @exists_get?_writeAll (table.write first) _ _ _ written
      · exact ih later ((size_write table first).symm ▸ bound)

/-- Without conflicts, what a cell holds comes to stay. -/
theorem get?_writeAll (clean : (table.writeAll writes).conflicts = [])
    (found : table.get? state symbol = some entry) :
    (table.writeAll writes).get? state symbol = some entry := by
  induction writes generalizing table with
  | nil => exact found
  | cons first rest ih =>
      refine ih clean ?_
      have earlier : (table.write first).conflicts = [] := by
        have kept :
            (table.write first).conflicts <+: ((table.write first).writeAll rest).conflicts :=
          conflicts_writeAll
        rw [show ((table.write first).writeAll rest).conflicts = [] from clean] at kept
        exact List.prefix_nil.1 kept
      obtain ⟨more, equal, agree⟩ := conflicts_write table first
      rw [earlier] at equal
      rw [get?_write]
      split
      · rename_i here
        obtain ⟨sameState, sameSymbol, _⟩ := here
        rw [sameState, sameSymbol] at found
        rw [agree (List.append_eq_nil_iff.1 equal.symm).2 entry found]
      · exact found

/-- Without conflicts, every write to a state that exists comes to stay. -/
theorem get?_of_written (clean : (table.writeAll writes).conflicts = [])
    (member : ⟨state, symbol, entry⟩ ∈ writes) (bound : state < table.size) :
    (table.writeAll writes).get? state symbol = some entry := by
  induction writes generalizing table with
  | nil => cases member
  | cons first rest ih =>
      rcases List.mem_cons.1 member with equal | later
      · have written : (table.write first).get? state symbol = some entry := by
          rw [get?_write, ← equal, if_pos ⟨rfl, rfl, bound⟩]
        exact @get?_writeAll (table.write first) _ _ _ _ clean written
      · exact ih clean later ((size_write table first).symm ▸ bound)

/-! ## Rows -/

/-- Each row has one cell for a symbol at most. -/
def RowsDistinct (table : Table) : Prop := ∀ row ∈ table.rows, (row.map Prod.fst).Nodup

theorem keys_put (row : Row) (symbol : Symbol) (entry : Entry) :
    (Row.put symbol entry row).map Prod.fst = withKey (row.map Prod.fst) symbol := by
  induction row with
  | nil => rfl
  | cons cell rest ih =>
      obtain ⟨first, old⟩ := cell
      rw [Row.put]
      by_cases found : first = symbol
      · rw [if_pos found, List.map_cons, List.map_cons, withKey,
          if_pos (List.mem_cons.2 (.inl found.symm))]
      · rw [if_neg found, List.map_cons, List.map_cons, withKey_cons found, ih]

theorem mem_put {row : Row} {symbol : Symbol} {entry : Entry} {cell : Symbol × Entry}
    (member : cell ∈ row.put symbol entry) : cell = (symbol, entry) ∨ cell ∈ row := by
  induction row with
  | nil => exact .inl (List.mem_singleton.1 member)
  | cons first rest ih =>
      rw [Row.put] at member
      split at member
      · rename_i same
        rcases List.mem_cons.1 member with rfl | later
        · exact .inl (congrArg (·, entry) same)
        · exact .inr (List.mem_cons_of_mem _ later)
      · rcases List.mem_cons.1 member with rfl | later
        · exact .inr List.mem_cons_self
        · exact (ih later).imp_right (List.mem_cons_of_mem _)

theorem length_put_le (row : Row) (symbol : Symbol) (entry : Entry) :
    (row.put symbol entry).length ≤ row.length + 1 := by
  have keys := congrArg List.length (keys_put row symbol entry)
  rw [List.length_map, withKey] at keys
  rw [keys]
  split
  · rw [List.length_map]
    exact Nat.le_succ _
  · rw [List.length_append, List.length_map]
    exact Nat.le_refl _

theorem size_blank {symbols : SymbolTable} {rules : List Rule} {size : Nat} :
    (blank symbols rules size).size = size := List.length_replicate

theorem rowsDistinct_blank (symbols : SymbolTable) (rules : List Rule) (size : Nat) :
    (blank symbols rules size).RowsDistinct := by
  intro row member
  rw [List.eq_of_mem_replicate member]
  exact List.nodup_nil

theorem RowsDistinct.write (distinct : table.RowsDistinct) (added : Write) :
    (table.write added).RowsDistinct := by
  unfold Table.write set
  cases found : table.rows[added.state]? with
  | none => exact distinct
  | some old =>
      intro row member
      rcases List.mem_or_eq_of_mem_set member with before | equal
      · exact distinct row before
      · rw [equal, keys_put]
        exact nodup_withKey (distinct old (List.mem_of_getElem? found)) added.symbol

theorem RowsDistinct.writeAll (distinct : table.RowsDistinct) :
    (table.writeAll writes).RowsDistinct := by
  induction writes generalizing table with
  | nil => exact distinct
  | cons first rest ih => exact ih (distinct.write first)

/-- A symbol is expected when its cell holds an action. -/
theorem mem_expected_iff (distinct : table.RowsDistinct) :
    symbol ∈ table.expected state ↔
      ∃ entry, table.get? state symbol = some entry ∧ entry.isAction = true := by
  unfold expected
  rw [List.mem_map]
  constructor
  · rintro ⟨⟨key, entry⟩, member, equal⟩
    obtain ⟨inRow, action⟩ := List.mem_filter.1 member
    cases found : table.rows[state]? with
    | none =>
        rw [found] at inRow
        cases inRow
    | some row =>
        rw [found] at inRow
        have isEntry := (lookup_eq_some_iff_mem (distinct row (List.mem_of_getElem? found))).2 inRow
        exact ⟨entry, get?_eq_some.2 ⟨row, found, equal ▸ isEntry⟩, action⟩
  · rintro ⟨entry, isEntry, action⟩
    obtain ⟨row, found, inRow⟩ := get?_eq_some.1 isEntry
    refine ⟨(symbol, entry), List.mem_filter.2 ⟨?_, action⟩, rfl⟩
    rw [found]
    exact (lookup_eq_some_iff_mem (distinct row (List.mem_of_getElem? found))).1 inRow

end Table

end ParserGenerator
