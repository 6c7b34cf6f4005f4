import ParserGenerator.CommandLine.Arguments

/-!
# Running the commands

A command reads files, prints to the standard output and to the standard error, and may write one
file. It is run on a function that gives the content of a file, or the reason why there is none, so
that its outcome is a value.

A command that fails prints its message and what caused it to the standard error and exits with
code 1. Arguments that are used wrongly exit with code 2.
-/

namespace ParserGenerator.CommandLine

/-- Gives the content of a file, or the reason why it cannot be read. -/
abbrev ReadFile := String → Except String String

/-- What a command leaves behind. -/
structure Outcome where
  code : Nat
  stdout : String
  stderr : String
  /-- The file to be written, with its content. -/
  written : Option (String × String)
deriving DecidableEq, Repr

/-! ## Errors -/

/-- The message of an error and the messages of what caused it, the outermost first. -/
structure Report where
  message : String
  causes : List String
deriving DecidableEq, Repr

/-- Indents the lines of a cause behind the first one. -/
def indentLines (space : String) (text : String) : String :=
  String.join (text.toList.map fun c => if c = '\n' then "\n" ++ space else c.toString)

/-- The lines about causes: numbered if there are several. -/
def causeLines : List String → String
  | [] => ""
  | [cause] => "\nCaused by:\n    " ++ indentLines "    " cause ++ "\n"
  | causes =>
      "\nCaused by:\n" ++ String.join (causes.zipIdx.map fun (cause, index) =>
        padded index ++ ": " ++ indentLines "       " cause ++ "\n")
where
  padded (index : Nat) : String :=
    let digits := toString index
    String.ofList (List.replicate (5 - digits.length) ' ') ++ digits

/-- What is printed about an error. -/
def Report.display (report : Report) : String :=
  "Error: " ++ report.message ++ "\n" ++ causeLines report.causes

/-- A report that names the file in which the error was found. -/
def Report.inFile (path : String) (causes : List String) : Report := ⟨"in " ++ path, causes⟩

/-- Reads a file that has to be there. -/
def readFile (files : ReadFile) (path : String) : Except Report String :=
  match files path with
  | .ok content => .ok content
  | .error reason => .error ⟨"failed to read " ++ path, [reason]⟩

/-! ## Commands -/

/-- What a command prints before it ends or fails, and how it ends. -/
structure Run where
  /-- What was printed to the standard error on the way. -/
  notes : String
  /-- The rest of the outcome. -/
  result : Except Report (String × Option (String × String))

def Run.fail (notes : String) (report : Report) : Run := ⟨notes, .error report⟩

def Run.outcome (run : Run) : Outcome :=
  match run.result with
  | .ok (stdout, written) => ⟨0, stdout, run.notes, written⟩
  | .error report => ⟨1, "", run.notes ++ report.display, none⟩

/-- Reads and compiles a lexer rule file, starting from the reserved names only. -/
def loadLexer (files : ReadFile) (path : String) : Except Report (Lexer × SymbolTable) := do
  let source ← readFile files path
  match (LexerFile.load source).outcome SymbolTable.initial with
  | (.ok lexer, symbols) => pure (lexer, symbols)
  | (.error error, _) => throw (.inFile path error.causes)

/-- The table of a parse, whose names join those of the lexer. -/
def loadTable (files : ReadFile) (source : TableSource) (symbols : SymbolTable) :
    Except Report Table :=
  match source with
  | .grammar path format => do
      let text ← readFile files path
      match ((Table.build format none text).outcome symbols).1 with
      | .ok table => pure table
      | .error error => throw (.inFile path [error.message])
  | .table path => do
      let text ← readFile files path
      match ((Table.parse text).outcome symbols).1 with
      | .ok table => pure table
      | .error error => throw (.inFile path [error.message])

/-- A warning with the conflicts of a table, if there are any. -/
def conflictWarning (table : Table) : String :=
  if table.conflicts.isEmpty then ""
  else
    "[warning] The table has " ++ toString table.conflicts.length ++ " conflict" ++
      (if table.conflicts.length = 1 then "" else "s") ++ ":\n" ++
      String.join (table.conflicts.map fun conflict =>
        "[warning]   " ++ table.displayConflict conflict ++ "\n")

/-- One line for a token. -/
def tokenLine (symbols : SymbolTable) (token : Token) : String :=
  toString token.first ++ ".." ++ toString token.past ++ " " ++ token.display symbols ++ "\n"

/-- Prints the tokens of a file. -/
def runLex (files : ReadFile) (rules : String) (skipInvalid : Bool) (input : String) :
    Except Report String := do
  let (lexer, symbols) ← loadLexer files rules
  let text ← readFile files input
  let lexer := lexer.withPolicy (if skipInvalid then .skip else .strict)
  match lexer.lex text with
  | .ok tokens => pure (String.join (tokens.map (tokenLine symbols)))
  | .error error => throw ⟨error.message, []⟩

/-- Prints or writes the table of a grammar. -/
def runTable (files : ReadFile) (grammar : String) (format : GrammarFormat)
    (output : Option String) (states : Bool) (limit : Option Nat) : Run :=
  match readFile files grammar with
  | .error report => .fail "" report
  | .ok source =>
      match (Grammar.read format source).outcome SymbolTable.initial with
      | (.error error, _) => .fail "" (.inFile grammar [error.message])
      | (.ok g, symbols) =>
          match Automaton.generate g limit with
          | .error error => .fail "" ⟨error.message, []⟩
          | .ok automaton =>
              let table := Table.ofAutomaton g symbols automaton
              let dump :=
                if states then (automaton.display? symbols g).getD "" ++ "\n" else ""
              let text := table.text?.getD ""
              ⟨dump ++ conflictWarning table, .ok (match output with
                | some path => ("", some (path, text))
                | none => (text, none))⟩

/-- Parses a file, each token in at most `fuel` steps; there is no result if one takes more. -/
def runParse (fuel : Nat) (files : ReadFile) (rules : String) (source : TableSource)
    (input : String) : Option Run :=
  match loadLexer files rules with
  | .error report => some (.fail "" report)
  | .ok (lexer, symbols) =>
      match loadTable files source symbols with
      | .error report => some (.fail "" report)
      | .ok table =>
          -- The warning comes first, whatever becomes of the input.
          let notes := conflictWarning table
          match readFile files input with
          | .error report => some (.fail notes report)
          | .ok text =>
              match lexer.lex text with
              | .error error => some (.fail notes ⟨error.message, []⟩)
              | .ok tokens => do
                  match ← table.parseTokens fuel tokens with
                  | .error error => pure (.fail notes ⟨error.message table.symbols, []⟩)
                  | .ok tree => pure ⟨notes, .ok (tree.display table.symbols, none)⟩

/-- The files that a command reads. -/
def Command.inputs : Command → List String
  | .lex rules _ input => [rules, input]
  | .table grammar .. => [grammar]
  | .parse rules (.grammar path _) input => [rules, path, input]
  | .parse rules (.table path) input => [rules, path, input]

/-- Runs a command, with a bound on the steps that a token may take in a parse. -/
def Command.run (fuel : Nat) (files : ReadFile) : Command → Option Run
  | .lex rules skipInvalid input =>
      some ⟨"", (runLex files rules skipInvalid input).map fun stdout => (stdout, none)⟩
  | .table grammar format output states limit =>
      some (runTable files grammar format output states limit)
  | .parse rules source input => runParse fuel files rules source input

/-- The outcome of arguments that are used wrongly. -/
def usageOutcome : Outcome := ⟨2, "", "", none⟩

/-- Runs the command that the arguments ask for. There is no outcome if a parse meets the bound on
its steps. -/
def run (fuel : Nat) (files : ReadFile) (arguments : List String) : Option Outcome :=
  match Command.ofArguments? arguments with
  | none => some usageOutcome
  | some command => (command.run fuel files).map Run.outcome

/-- The outcome of a command whose file could not be written. -/
def Outcome.writeFailed (outcome : Outcome) (path reason : String) : Outcome :=
  { outcome with
    code := 1
    stderr := outcome.stderr ++ Report.display ⟨"failed to write " ++ path, [reason]⟩
    written := none }

end ParserGenerator.CommandLine
