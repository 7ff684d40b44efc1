/-
# Options

What is to be done with which grammar.
-/
import DeterministicParsing.ShiftReduce.Method

namespace DeterministicParsing.CommandLine

/-- What sort of parser the grammar is analysed for. -/
inductive Target where
  | shiftReduce (method : ShiftReduce.Method)
  | predictive
  deriving DecidableEq

def Target.ofName (name : String) : Except ShiftReduce.Method.Unknown Target :=
  if name = "ll1" then .ok predictive
  else do return shiftReduce (← ShiftReduce.Method.ofName name)

structure Options where
  path : String
  target : Target := .shiftReduce .lalr1
  showFirst : Bool := false
  showFollow : Bool := false
  showStates : Bool := false
  showTable : Bool := false
  input : Option String := none
  quiet : Bool := false
  verbosity : Nat := 0
  deriving DecidableEq

/-- Why the arguments of a command make no sense. -/
inductive UsageError where
  | missingPath
  | extraPath (argument : String)
  | unknownOption (argument : String)
  | missingValue (option : String)
  | unknownMethod (unknown : ShiftReduce.Method.Unknown)
  deriving DecidableEq

def UsageError.message : UsageError → String
  | missingPath => "no grammar file is given"
  | extraPath argument => "unexpected argument `" ++ argument ++ "`"
  | unknownOption argument => "unknown option `" ++ argument ++ "`"
  | missingValue option => "option `" ++ option ++ "` needs a value"
  | unknownMethod unknown => unknown.message

namespace Options

def withMethod (options : Options) (name : String) : Except UsageError Options :=
  match Target.ofName name with
  | .ok target => .ok { options with target }
  | .error unknown => .error (.unknownMethod unknown)

/-- The value of an option that is divided from it by an equals sign. There may be more than one
such sign, so a value that is given in this way never begins with one. -/
def valueOf (option argument : String) : Option String :=
  let start := option.toList ++ ['=']
  if start.isPrefixOf argument.toList then
    some (String.ofList ((argument.toList.drop start.length).dropWhile (· == '=')))
  else
    none

/-- Take in an argument that stands by itself. -/
def withArgument (options : Options) (argument : String) : Except UsageError Options :=
  match valueOf "--method" argument, valueOf "--parse" argument with
  | some name, _ => options.withMethod name
  | none, some text => .ok { options with input := some text }
  | none, none =>
      match argument with
      | "--first" => .ok { options with showFirst := true }
      | "--follow" => .ok { options with showFollow := true }
      | "--states" => .ok { options with showStates := true }
      | "--table" => .ok { options with showTable := true }
      | "-q" => .ok { options with quiet := true }
      | _ =>
          match argument.toList with
          | '-' :: 'v' :: more =>
              if more.all (· == 'v') then
                .ok { options with verbosity := options.verbosity + more.length + 1 }
              else
                .error (.unknownOption argument)
          | '-' :: _ :: _ => .error (.unknownOption argument)
          | _ =>
              if options.path.isEmpty then .ok { options with path := argument }
              else .error (.extraPath argument)

/-- Take in the arguments of a command one after another. -/
def readArguments : Options → List String → Except UsageError Options
  | options, [] => if options.path.isEmpty then .error .missingPath else .ok options
  | options, argument :: rest =>
      if argument = "-m" || argument = "--method" then
        match rest with
        | [] => .error (.missingValue argument)
        | name :: rest => do readArguments (← options.withMethod name) rest
      else if argument = "-p" || argument = "--parse" then
        match rest with
        | [] => .error (.missingValue argument)
        | text :: rest => readArguments { options with input := some text } rest
      else do
        readArguments (← options.withArgument argument) rest

/-- The options that the arguments of a command ask for. -/
def ofArguments (arguments : List String) : Except UsageError Options :=
  readArguments { path := "" } arguments

end Options

end DeterministicParsing.CommandLine
