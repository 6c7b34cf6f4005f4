import ParserGenerator.Build

/-!
# The arguments of the command line

There are three commands. `lex` prints the tokens of a file, `table` writes the table of a
grammar, and `parse` prints the tree of a file.

    lex --rules RULES [--skip-invalid] INPUT
    table --grammar GRAMMAR [--format FORMAT] [-o OUTPUT] [--states] [--max-states LIMIT]
    parse --rules RULES (--grammar GRAMMAR | --table TABLE) [--format FORMAT] INPUT

An option is written with two hyphens and takes its value from the text behind an equals sign or
from the next argument, which must not start with a hyphen unless it is a hyphen alone. A short
option has one hyphen and may be followed by its value at once. Behind two hyphens alone all
arguments are positions. No option is given twice, and paths are not empty.
-/

namespace ParserGenerator.CommandLine

/-- Where the table of a parse comes from. -/
inductive TableSource where
  | grammar (path : String) (format : GrammarFormat)
  | table (path : String)
deriving DecidableEq, Repr

/-- A command with its arguments. -/
inductive Command where
  | lex (rules : String) (skipInvalid : Bool) (input : String)
  | table (grammar : String) (format : GrammarFormat) (output : Option String) (states : Bool)
      (limit : Option Nat)
  | parse (rules : String) (source : TableSource) (input : String)
deriving DecidableEq, Repr

/-! ## Options and positions -/

/-- The options of a command: those with a value, those without, and the short forms. -/
structure Options where
  valued : List String
  flags : List String
  short : List (Char × String)

/-- The arguments of a command, sorted by kind. -/
structure Sorted where
  values : List (String × String)
  flags : List String
  positions : List String
deriving DecidableEq, Repr

namespace Sorted

def empty : Sorted := ⟨[], [], []⟩

/-- Adds the value of an option that is not given yet. -/
def addValue (sorted : Sorted) (name value : String) : Option Sorted :=
  if (sorted.values.lookup name).isSome then none
  else some { sorted with values := sorted.values ++ [(name, value)] }

/-- Adds an option without value that is not given yet. -/
def addFlag (sorted : Sorted) (name : String) : Option Sorted :=
  if name ∈ sorted.flags then none else some { sorted with flags := sorted.flags ++ [name] }

def addPosition (sorted : Sorted) (value : String) : Sorted :=
  { sorted with positions := sorted.positions ++ [value] }

end Sorted

/-- Cuts a text at the first equals sign. -/
def splitAtEquals : List Char → List Char × Option (List Char)
  | [] => ([], none)
  | c :: rest =>
      if c = '=' then ([], some rest)
      else
        let (name, value) := splitAtEquals rest
        (c :: name, value)

/-- Whether an argument can stand for a value: it does not start with a hyphen or is one. -/
def isValue (argument : String) : Bool :=
  match argument.toList with
  | ['-'] => true
  | '-' :: _ => false
  | _ => true

/-- What an argument is, apart from the two hyphens that end the options. -/
inductive Shape where
  /-- An option with the value attached to it, if there is one. -/
  | option (name : String) (attached : Option String)
  | position
  | unknown

/-- The shape of an argument. -/
def shape (options : Options) (argument : String) : Shape :=
  match argument.toList with
  | '-' :: '-' :: long =>
      let (name, value) := splitAtEquals long
      .option (String.ofList name) (value.map String.ofList)
  | '-' :: c :: rest =>
      match options.short.lookup c with
      | none => .unknown
      | some name =>
          match rest with
          | [] => .option name none
          | '=' :: value => .option name (some (String.ofList value))
          | value => .option name (some (String.ofList value))
  | _ => .position

/-- Sorts arguments by kind. There is no result if an option is unknown, is given twice, lacks its
value or has one that it does not take. -/
def sort (options : Options) (sorted : Sorted) : List String → Option Sorted
  | [] => some sorted
  | argument :: rest =>
      if argument = "--" then some (rest.foldl Sorted.addPosition sorted)
      else
        match shape options argument with
        | .unknown => none
        | .position => sort options (sorted.addPosition argument) rest
        | .option name attached =>
            if name ∈ options.flags ∧ attached = none then do
              sort options (← sorted.addFlag name) rest
            -- An option without value refuses an attached one, also an empty one.
            else if name ∈ options.valued then
              match attached, rest with
              | some value, rest => do sort options (← sorted.addValue name value) rest
              | none, value :: rest =>
                  if isValue value then do sort options (← sorted.addValue name value) rest
                  else none
              | none, [] => none
            else none

/-! ## Values -/

/-- A path that is not empty. -/
def path? (value : String) : Option String := if value.isEmpty then none else some value

/-- The value of an option that has to be there. -/
def required (sorted : Sorted) (name : String) : Option String := do
  path? (← sorted.values.lookup name)

/-- The value of an option that may be missing; there is no result if the value is not read. -/
def given {α : Type} (sorted : Sorted) (name : String) (read : String → Option α) :
    Option (Option α) :=
  match sorted.values.lookup name with
  | none => some none
  | some value => (read value).map some

def format? (value : String) : Option GrammarFormat :=
  if value = "simple" then some .simple
  else if value = "description" then some .description
  else none

def limit? (value : String) : Option Nat := Text.readDecimal Text.countBound value.toList

/-- The only position. -/
def onlyPosition (sorted : Sorted) : Option String :=
  match sorted.positions with
  | [value] => path? value
  | _ => none

def lexCommand (arguments : List String) : Option Command := do
  let sorted ← sort ⟨["rules"], ["skip-invalid"], []⟩ .empty arguments
  let rules ← required sorted "rules"
  let input ← onlyPosition sorted
  pure (.lex rules ("skip-invalid" ∈ sorted.flags) input)

def tableCommand (arguments : List String) : Option Command := do
  let sorted ← sort
    ⟨["grammar", "format", "output", "max-states"], ["states"], [('o', "output")]⟩ .empty arguments
  let grammar ← required sorted "grammar"
  let format ← given sorted "format" format?
  let output ← given sorted "output" path?
  let limit ← given sorted "max-states" limit?
  if sorted.positions.isEmpty then
    pure (.table grammar (format.getD .simple) output ("states" ∈ sorted.flags) limit)
  else none

def parseCommand (arguments : List String) : Option Command := do
  let sorted ← sort ⟨["rules", "grammar", "table", "format"], [], []⟩ .empty arguments
  let rules ← required sorted "rules"
  let grammar ← given sorted "grammar" path?
  let table ← given sorted "table" path?
  let format ← given sorted "format" format?
  let source ← match grammar, table with
    | some path, none => some (.grammar path (format.getD .simple))
    | none, some path => some (.table path)
    | _, _ => none
  let input ← onlyPosition sorted
  pure (.parse rules source input)

/-- The command that the arguments ask for; none if they are used wrongly. -/
def Command.ofArguments? : List String → Option Command
  | "lex" :: arguments => lexCommand arguments
  | "table" :: arguments => tableCommand arguments
  | "parse" :: arguments => parseCommand arguments
  | _ => none

end ParserGenerator.CommandLine
