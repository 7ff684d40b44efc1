/-
# The log

What happens on the way is told in records of five levels. How much of it is shown depends on the
verbosity that was asked for.
-/

namespace DeterministicParsing.CommandLine

/-- How important a record is. -/
inductive Level where
  | error
  | warn
  | info
  | debug
  | trace
  deriving DecidableEq

namespace Level

def text : Level → String
  | error => "ERROR"
  | warn => "WARN"
  | info => "INFO"
  | debug => "DEBUG"
  | trace => "TRACE"

/-- The verbosity from which on the level is shown. -/
def threshold : Level → Nat
  | error => 0
  | warn => 1
  | info => 2
  | debug => 3
  | trace => 4

end Level

structure Record where
  level : Level
  message : String
  deriving DecidableEq

/-- The record as a line, or more than one if its message has line breaks. -/
def Record.line (record : Record) : String :=
  record.level.text ++ " - " ++ record.message ++ "\n"

/-- The records that a verbosity shows. -/
def logText (verbosity : Nat) (records : List Record) : String :=
  String.join ((records.filter (·.level.threshold ≤ verbosity)).map Record.line)

end DeterministicParsing.CommandLine
