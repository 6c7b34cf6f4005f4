import ParserGenerator.CommandLine

/-!
# The command line program

Reads the files that the command names, runs the command and carries out what it leaves behind.
-/

namespace ParserGenerator.CommandLine

/-- A bound on the steps that a token takes, beyond what a machine gets through. -/
def stepLimit : Nat := Text.countBound

/-- The reason why an operation on a file failed. -/
def reasonOf : IO.Error → String
  | .noFileOrDirectory _ code details
  | .inappropriateType _ code details
  | .invalidArgument _ code details
  | .permissionDenied _ code details => details ++ " (os error " ++ toString code ++ ")"
  -- All that is left to go wrong in reading is the encoding of the text.
  | .userError _ => "stream did not contain valid UTF-8"
  | error => toString error

/-- Reads a file. -/
def readPath (path : String) : IO (String × Except String String) := do
  try
    let handle ← IO.FS.Handle.mk path .read
    pure (path, .ok (← handle.readToEnd))
  catch error => pure (path, .error (reasonOf error))

/-- Writes the file of an outcome. -/
def writeOutcome (outcome : Outcome) : IO Outcome :=
  match outcome.written with
  | none => pure outcome
  | some (path, text) => do
      try
        IO.FS.writeFile path text
        pure outcome
      catch error => pure (outcome.writeFailed path (reasonOf error))

end ParserGenerator.CommandLine

open ParserGenerator.CommandLine in
def main (arguments : List String) : IO UInt32 := do
  let paths := ((Command.ofArguments? arguments).map Command.inputs).getD []
  let contents ← paths.mapM readPath
  let files : ReadFile := fun path => (contents.lookup path).getD (.error "not read")
  match run stepLimit files arguments with
  | none => pure 1
  | some outcome =>
      let outcome ← writeOutcome outcome
      IO.print outcome.stdout
      IO.eprint outcome.stderr
      pure (UInt32.ofNat outcome.code)
