import ParserGenerator.Description
import ParserGenerator.GrammarFile
import ParserGenerator.LexerFile
import ParserGenerator.Table.Text

/-!
# Grammars and tables from source text

Grammars are written in one of two formats, and a table is built from a grammar in either format or
read from its own text. An error names the step that failed.
-/

namespace ParserGenerator

/-- The formats of grammars. -/
inductive GrammarFormat where
  /-- One rule on each line. -/
  | simple
  /-- A description. -/
  | description
deriving DecidableEq, Repr

/-- Why a source text gives no grammar or table. -/
inductive SourceError where
  | line (error : GrammarFile.Error)
  | description (error : DescriptionError)
  | grammar (error : GrammarError)
  | build (error : BuildError)
deriving DecidableEq

def SourceError.message : SourceError → String
  | line error => error.message
  | description error => error.message
  | grammar error => error.message
  | build error => error.message

namespace Grammar

/-- The grammar of a list of rules, with the registered names in errors. -/
def fromRules (rules : List Rule) (start : Option Symbol) : Naming SourceError Grammar := do
  match ofRules rules start (← get) with
  | .ok g => pure g
  | .error error => throw (.grammar error)

/-- Reads a grammar. A grammar file starts with a rule of the start symbol. -/
def read (format : GrammarFormat) (source : String) : Naming SourceError Grammar :=
  match format with
  | .simple => do
      let rules ← (GrammarFile.parse source).mapError .line
      fromRules rules none
  | .description => do
      let description ← (Description.parse source).mapError .description
      fromRules description.rules (some description.start)

end Grammar

namespace Table

/-- Builds the table of a grammar that is read from a source. -/
def build (format : GrammarFormat) (limit : Option Nat) (source : String) :
    Naming SourceError Table := do
  let g ← Grammar.read format source
  match ofGrammar g (← get) limit with
  | .ok table => pure table
  | .error error => throw (.build error)

end Table

end ParserGenerator
