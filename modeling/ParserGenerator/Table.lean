import ParserGenerator.Rule

/-!
# Parse tables

A parse table has a row for each state. A cell of a row says what to do in the state when the next
token, or the symbol of a finished reduction, is a given one. A cell that is written again takes
the new entry, and the table remembers the conflict if the entry is another one. Rows list their
symbols in the order in which they were first written.

A table keeps the symbol table of the time when it was made, for the names in its text and in
messages.
-/

namespace ParserGenerator

/-- What a cell of a table says. -/
inductive Entry where
  /-- Take the token and go to a state. -/
  | shift (next : Nat)
  /-- Reduce by a rule. -/
  | reduce (rule : Nat)
  | accept
  /-- Go to a state after a reduction. -/
  | goto (next : Nat)
deriving DecidableEq, Repr

/-- Whether an entry is for tokens, and not for the symbols of reductions. -/
def Entry.isAction : Entry → Bool
  | .goto _ => false
  | _ => true

/-- The state that an entry leads to. -/
def Entry.target? : Entry → Option Nat
  | .shift next => some next
  | .goto next => some next
  | _ => none

/-- The kinds of conflicts. -/
inductive ConflictKind where
  | shiftReduce
  | reduceReduce
  | shiftShift
  | accept
  | goto
deriving DecidableEq, Repr

def ConflictKind.name : ConflictKind → String
  | shiftReduce => "shift/reduce"
  | reduceReduce => "reduce/reduce"
  | shiftShift => "shift/shift"
  | accept => "accept"
  | goto => "goto"

/-- One entry of a cell was replaced by another one. -/
structure Conflict where
  state : Nat
  symbol : Symbol
  previous : Entry
  replacement : Entry
deriving DecidableEq, Repr

/-- The kind of a conflict: a goto counts more than an accept, and an accept more than the
others. -/
def Conflict.kind (conflict : Conflict) : ConflictKind :=
  match conflict.previous, conflict.replacement with
  | .goto _, _ => .goto
  | _, .goto _ => .goto
  | .accept, _ => .accept
  | _, .accept => .accept
  | .shift _, .shift _ => .shiftShift
  | .reduce _, .reduce _ => .reduceReduce
  | _, _ => .shiftReduce

/-- The cells of a state in the order in which they were first written. -/
abbrev Row := List (Symbol × Entry)

namespace Row

/-- The entry under a symbol. -/
def get? (row : Row) (symbol : Symbol) : Option Entry := row.lookup symbol

/-- Writes a cell; a new cell goes to the end. -/
def put (symbol : Symbol) (entry : Entry) : Row → Row
  | [] => [(symbol, entry)]
  | (key, old) :: rest =>
      if key = symbol then (key, entry) :: rest else (key, old) :: put symbol entry rest

theorem get?_put (row : Row) (symbol key : Symbol) (entry : Entry) :
    (put symbol entry row).get? key = if key = symbol then some entry else row.get? key := by
  have skip {a b : Symbol} (differ : ¬ a = b) : (a == b) = false := by simpa using differ
  induction row with
  | nil =>
      by_cases same : key = symbol
      · simp [put, get?, same]
      · simp [put, get?, List.lookup_cons, same, skip same]
  | cons cell rest ih =>
      obtain ⟨first, old⟩ := cell
      simp only [get?] at ih
      by_cases found : first = symbol
      · subst found
        by_cases same : key = first
        · simp [put, get?, same]
        · simp [put, get?, List.lookup_cons, same, skip same]
      · by_cases isFirst : key = first
        · subst isFirst
          simp [put, get?, found]
        · simp only [put, found, if_false, get?, List.lookup_cons, skip isFirst]
          exact ih

end Row

/-- Rows by state, rules by number, and the conflicts in the order in which they arose. -/
structure Table where
  symbols : SymbolTable
  rules : List Rule
  rows : List Row
  conflicts : List Conflict

namespace Table

/-- A table of empty rows. -/
def blank (symbols : SymbolTable) (rules : List Rule) (size : Nat) : Table :=
  ⟨symbols, rules, List.replicate size [], []⟩

/-- The state of a parse that has read nothing. -/
def initialState : Nat := 0

def size (table : Table) : Nat := table.rows.length

def isEmpty (table : Table) : Bool := table.rows.isEmpty

/-- The entry of a cell. -/
def get? (table : Table) (state : Nat) (symbol : Symbol) : Option Entry := do
  (← table.rows[state]?).get? symbol

def rule? (table : Table) (id : Nat) : Option Rule := table.rules[id]?

/-- The symbols with an action in a state, in the order of its row. -/
def expected (table : Table) (state : Nat) : List Symbol :=
  ((table.rows[state]?.getD []).filter fun cell => cell.2.isAction).map Prod.fst

/-- The conflict of writing an entry over another one. -/
def conflict? (state : Nat) (symbol : Symbol) (entry : Entry) : Option Entry → List Conflict
  | none => []
  | some previous => if previous = entry then [] else [⟨state, symbol, previous, entry⟩]

/-- Writes a cell. A state that does not exist has no cells. -/
def set (table : Table) (state : Nat) (symbol : Symbol) (entry : Entry) : Table :=
  match table.rows[state]? with
  | none => table
  | some row =>
      { table with
        rows := table.rows.set state (row.put symbol entry)
        conflicts := table.conflicts ++ conflict? state symbol entry (row.get? symbol) }

/-- Writes a cell of a state that exists. -/
def set? (table : Table) (state : Nat) (symbol : Symbol) (entry : Entry) : Option Table :=
  if state < table.size then some (table.set state symbol entry) else none

/-- The number of a rule, which joins the rules of the table if it is a new one. -/
def ruleId (table : Table) (rule : Rule) : Nat × Table :=
  match table.rules.idxOf? rule with
  | some id => (id, table)
  | none => (table.rules.length, { table with rules := table.rules ++ [rule] })

/-! ## Equal tables -/

/-- Whether two entries of two tables say the same: reductions are compared by their rules. -/
def sameEntry (left right : Table) : Entry → Entry → Bool
  | .reduce a, .reduce b => left.rule? a == right.rule? b
  | a, b => a == b

/-- Whether two rows have the same cells, in any order. -/
def sameRow (left right : Table) (leftRow rightRow : Row) : Bool :=
  leftRow.length == rightRow.length &&
    leftRow.all fun (symbol, entry) =>
      match rightRow.get? symbol with
      | none => false
      | some other => sameEntry left right entry other

/-- Whether two tables have the same cells in every state. -/
def sameCells (left right : Table) : Bool :=
  left.size == right.size &&
    (left.rows.zip right.rows).all fun (leftRow, rightRow) => sameRow left right leftRow rightRow

/-! ## Messages -/

/-- An entry as it is named in messages. -/
def displayEntry (table : Table) : Entry → String
  | .shift next => "shift " ++ toString next
  | .reduce id =>
      match table.rule? id with
      | some rule => "reduce " ++ rule.display table.symbols
      | none => "reduce #" ++ toString id
  | .accept => "accept"
  | .goto next => "goto " ++ toString next

/-- One line about a conflict. -/
def displayConflict (table : Table) (conflict : Conflict) : String :=
  conflict.kind.name ++ " conflict in state " ++ toString conflict.state ++ " on " ++
    table.symbols.display conflict.symbol ++ ": " ++ table.displayEntry conflict.previous ++
    " replaced by " ++ table.displayEntry conflict.replacement

end Table

end ParserGenerator
