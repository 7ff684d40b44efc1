/-
# The command

Reads the grammar file, runs the tool and writes what it prints and logs.
-/
import DeterministicParsing.CommandLine.Report

open DeterministicParsing CommandLine

/-- Why a file cannot be read, as the operating system puts it. -/
def fileProblem : IO.Error → String
  | .noFileOrDirectory .. => "No such file or directory (os error 2)"
  | .permissionDenied .. => "Permission denied (os error 13)"
  | other => other.toString

/-- The contents of a file, or why it cannot be read. -/
def readFile (path : String) : IO (Except String ByteArray) := do
  try
    return .ok (← IO.FS.readBinFile path)
  catch problem =>
    return .error (fileProblem problem)

/-- More steps than any parse can take in practice. -/
def stepBound : Nat := Nat.pow 2 64

def main (arguments : List String) : IO UInt32 := do
  match Options.ofArguments arguments with
  | .error reason =>
      IO.eprintln ("error: " ++ reason.message)
      return 1
  | .ok options =>
      match report stepBound options (← readFile options.path) with
      | .error _ =>
          IO.eprintln "error: the run was interrupted"
          return 1
      | .ok outcome =>
          IO.print outcome.output
          IO.eprint outcome.log
          return outcome.code.toUInt32
