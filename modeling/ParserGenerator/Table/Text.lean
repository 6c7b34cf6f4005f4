import ParserGenerator.Table
import ParserGenerator.Text.Blank
import ParserGenerator.Text.Decimal

/-!
# The text of a table

A table is written line by line: the number of states, then for each state the number of its cells
and a line for each cell.

    <number of states>
    state <number of cells>
    SYMBOL shift N
    SYMBOL reduce [default,discard] __CHAIN__ LHS := RHS...
    SYMBOL accept
    SYMBOL goto N

A reduction is written with its rule: the options of the right-hand side in brackets, a flag for a
chained rule and one for a rule that unwraps a single symbol. Names must be free of blanks.

The reader goes over the lines once. It registers each name where it meets it, gives rules numbers
in the order in which they occur, and stops at the first line that is wrong.
-/

namespace ParserGenerator.Table

/-- The flag of a chained rule. -/
def chainFlag : String := "__CHAIN__"

/-- The flag of a rule that unwraps a single symbol. -/
def unwrapFlag : String := "__UNWRAP__"

/-! ## Writing -/

/-- The options, the flags and the rule of a reduction. -/
def ruleText (symbols : SymbolTable) (rule : Rule) : String :=
  "[" ++ ",".intercalate (rule.options.map ChildOption.name) ++ "]" ++
    (if rule.chained then " " ++ chainFlag else "") ++
    (if rule.unwrapsSingle then " " ++ unwrapFlag else "") ++ " " ++ rule.display symbols

/-- What stands behind the symbol of a cell, if a reduction's rule exists. -/
def entryText? (table : Table) : Entry → Option String
  | .shift next => some ("shift " ++ toString next)
  | .goto next => some ("goto " ++ toString next)
  | .accept => some "accept"
  | .reduce id => (table.rule? id).map fun rule => "reduce " ++ ruleText table.symbols rule

/-- The line of a cell. -/
def cellText? (table : Table) (cell : Symbol × Entry) : Option String :=
  (table.entryText? cell.2).map fun entry =>
    table.symbols.display cell.1 ++ " " ++ entry ++ "\n"

/-- The lines of a row. -/
def rowText? (table : Table) (row : Row) : Option String := do
  let cells ← row.mapM table.cellText?
  pure ("state " ++ toString row.length ++ "\n" ++ String.join cells)

/-- The text of a table, if all rules of its reductions exist. -/
def text? (table : Table) : Option String := do
  let rows ← table.rows.mapM table.rowText?
  pure (toString table.size ++ "\n" ++ String.join rows)

/-! ## Reading -/

/-- What is wrong with a line of a table's text. -/
inductive TextFault where
  | unexpectedEnd
  | invalidNumber (text : String)
  | invalidStateHeader (text : String)
  | invalidEntry (text : String)
  | unknownAction (text : String)
  | invalidOptions (text : String)
  | invalidRule (text : String)
  | optionCountMismatch (options symbols : Nat)
  | stateOutOfRange (state : Nat)
  | trailingContent
deriving DecidableEq, Repr

/-- A fault with the number of its line, counted from 1. -/
structure TextError where
  line : Nat
  fault : TextFault
deriving DecidableEq, Repr

def TextFault.message : TextFault → String
  | unexpectedEnd => "unexpected end of input"
  | invalidNumber text => "invalid number `" ++ text ++ "'"
  | invalidStateHeader text => "invalid state header `" ++ text ++ "'"
  | invalidEntry text => "invalid entry `" ++ text ++ "'"
  | unknownAction text => "unknown action `" ++ text ++ "'"
  | invalidOptions text => "invalid rule options `" ++ text ++ "'"
  | invalidRule text => "invalid rule `" ++ text ++ "'"
  | optionCountMismatch options symbols =>
      toString options ++ " rule options given for " ++ toString symbols ++
        " right-hand side symbols"
  | stateOutOfRange state => "state " ++ toString state ++ " is out of range"
  | trailingContent => "content after the last state"

def TextError.message (error : TextError) : String :=
  "line " ++ toString error.line ++ ": " ++ error.fault.message

/-- A line that is not blank, without the blanks around it, and its number. -/
structure Line where
  number : Nat
  text : List Char

/-- The lines of a text that are not blank. -/
def contentLines (lines : List (List Char)) : List Line :=
  (lines.zipIdx 1).filterMap fun (line, number) =>
    let text := Text.trim line
    if text.isEmpty then none else some ⟨number, text⟩

/-- Reads a number below a bound. -/
def readNumber (bound line : Nat) (word : List Char) : Except TextError Nat :=
  match Text.readDecimal bound word with
  | some number => .ok number
  | none => .error ⟨line, .invalidNumber (String.ofList word)⟩

/-- Cuts a text at each comma. -/
def splitCommas : List Char → List (List Char)
  | [] => [[]]
  | c :: rest => if c = ',' then [] :: splitCommas rest else Text.consFirst c (splitCommas rest)

/-- The text inside brackets. -/
def inBrackets? (word : List Char) : Option (List Char) :=
  match word with
  | '[' :: rest =>
      match rest.reverse with
      | ']' :: inner => some inner.reverse
      | _ => none
  | _ => none

/-- Reads the words for options; empty words between commas count for nothing. -/
def readOptions (line : Nat) : List (List Char) → Except TextError (List ChildOption)
  | [] => .ok []
  | word :: rest =>
      if word.isEmpty then readOptions line rest
      else match ChildOption.ofName? (String.ofList word) with
        | none => .error ⟨line, .invalidOptions (String.ofList word)⟩
        | some option => do pure (option :: (← readOptions line rest))

/-- Reads the flags in front of a rule: whether it is chained, whether it unwraps a single symbol,
and the words behind the flags. -/
def readFlags (chained unwrapsSingle : Bool) : List (List Char) → Bool × Bool × List (List Char)
  | [] => (chained, unwrapsSingle, [])
  | word :: rest =>
      if word = chainFlag.toList then readFlags true unwrapsSingle rest
      else if word = unwrapFlag.toList then readFlags chained true rest
      else (chained, unwrapsSingle, word :: rest)

/-- Reads the options, the flags and the rule of a reduction. -/
def readRule (line : Nat) (optionsWord : List Char) (words : List (List Char)) :
    Naming TextError Rule :=
  match inBrackets? optionsWord with
  | none => throw ⟨line, .invalidOptions (String.ofList optionsWord)⟩
  | some inner =>
      match readOptions line (splitCommas inner) with
      | .error error => throw error
      | .ok options =>
          let (chained, unwrapsSingle, rest) := readFlags false false words
          match rest with
          | lhs :: [':', '='] :: rhs => do
              -- The left-hand side is registered even if the options do not fit.
              let lhs ← Naming.intern (String.ofList lhs)
              if options.length = rhs.length then
                let rhs ← Naming.internAll (rhs.map String.ofList)
                pure (Rule.ofOptions lhs rhs options chained unwrapsSingle)
              else throw ⟨line, .optionCountMismatch options.length rhs.length⟩
          | _ => throw ⟨line, .invalidRule (" ".intercalate (rest.map String.ofList))⟩

/-- Reads what stands behind the symbol of a cell; a new rule joins the rules of the table. -/
def readEntry (table : Table) (line : Line) (action : String) (words : List (List Char)) :
    Naming TextError (Entry × Table) :=
  match action, words with
  | "shift", [next] => do pure (.shift (← readNumber Text.stateBound line.number next), table)
  | "goto", [next] => do pure (.goto (← readNumber Text.stateBound line.number next), table)
  | "accept", [] => pure (.accept, table)
  | "reduce", options :: rest => do
      let rule ← readRule line.number options rest
      let (id, table) := table.ruleId rule
      pure (.reduce id, table)
  | action, _ =>
      if action ∈ ["shift", "goto", "accept", "reduce"] then
        throw ⟨line.number, .invalidEntry (String.ofList line.text)⟩
      else throw ⟨line.number, .unknownAction action⟩

/-- Reads the line of a cell of a state into a table that is to have `size` states. -/
def readCell (size state : Nat) (table : Table) (line : Line) : Naming TextError Table :=
  match Text.words line.text with
  | symbol :: action :: rest => do
      let symbol ← Naming.intern (String.ofList symbol)
      let (entry, table) ← readEntry table line (String.ofList action) rest
      match entry.target? with
      | some next =>
          if next < size then pure (table.set state symbol entry)
          else throw ⟨line.number, .stateOutOfRange next⟩
      | none => pure (table.set state symbol entry)
  | _ => throw ⟨line.number, .invalidEntry (String.ofList line.text)⟩

/-- Reads a number of cells of a state. A missing line is at the end of the text, line `past`. -/
def readCells (past size state : Nat) (table : Table) : (count : Nat) → List Line →
    Naming TextError (Table × List Line)
  | 0, lines => pure (table, lines)
  | _ + 1, [] => throw ⟨past, .unexpectedEnd⟩
  | count + 1, line :: rest => do
      let table ← readCell size state table line
      table.readCells past size state count rest

/-- Reads the number of cells from the line in front of them. -/
def readHeader (line : Line) : Except TextError Nat :=
  match Text.words line.text with
  | [word, count] =>
      if word = "state".toList then readNumber Text.countBound line.number count
      else .error ⟨line.number, .invalidStateHeader (String.ofList line.text)⟩
  | _ => .error ⟨line.number, .invalidStateHeader (String.ofList line.text)⟩

/-- Reads a number of rows behind the rows that the table has already. -/
def readRows (past size : Nat) (table : Table) : (count : Nat) → List Line →
    Naming TextError (Table × List Line)
  | 0, lines => pure (table, lines)
  | _ + 1, [] => throw ⟨past, .unexpectedEnd⟩
  | count + 1, line :: rest => do
      let cells ← readHeader line
      let state := table.size
      let (table, rest) ←
        { table with rows := table.rows ++ [[]] }.readCells past size state cells rest
      table.readRows past size count rest

/-- Reads the text of a table and registers its names. The table keeps the symbols that are
registered in the end. -/
def parse (source : String) : Naming TextError Table := do
  let lines := Text.lines source.toList
  let past := lines.length + 1
  match contentLines lines with
  | [] => throw ⟨past, .unexpectedEnd⟩
  | line :: rest =>
      let size ← readNumber Text.stateBound line.number line.text
      let (table, rest) ← (blank SymbolTable.initial [] 0).readRows past size size rest
      match rest with
      | line :: _ => throw ⟨line.number, .trailingContent⟩
      | [] => do
          let symbols ← get
          pure { table with symbols }

end ParserGenerator.Table
