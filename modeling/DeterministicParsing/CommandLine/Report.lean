/-
# Running the tool

The tool reads a grammar, analyses it, prints what was asked for and every conflict with an example
input, and parses a text if one is given. It succeeds if the grammar has no conflicts and the text
could be parsed. What it prints and what it logs is a function of the options and of the contents of
the grammar file; reading the file and writing the outcome is left to its caller.
-/
import DeterministicParsing.Automaton.Printer
import DeterministicParsing.CommandLine.Journal
import DeterministicParsing.CommandLine.Options
import DeterministicParsing.DerivationTree
import DeterministicParsing.Description.Resolution

namespace DeterministicParsing.CommandLine

/-- What became of a run. -/
structure Report where
  code : Nat
  output : String
  log : String
  deriving DecidableEq

/-- Why there is no report. -/
inductive Interruption where
  | fault (fault : Fault)
  | unfinished
  deriving DecidableEq

structure Session where
  output : String := ""
  records : List Record := []
  success : Bool := true
  deriving DecidableEq

/-- A part of a run. -/
abbrev Run := StateT Session (Except Interruption)

namespace Run

def print (line : String) : Run Unit :=
  modify fun session => { session with output := session.output ++ line ++ "\n" }

def log (records : List Record) : Run Unit :=
  modify fun session => { session with records := session.records ++ records }

def fail : Run Unit := modify fun session => { session with success := false }

def logError (message : String) : Run Unit := log [⟨.error, message⟩]

def abort (message : String) : Run Unit := do
  logError message
  fail

def attempt {α : Type} : Except Fault α → Run α
  | .ok value => pure value
  | .error reason => throw (.fault reason)

/-- A computation that may end with an error, which is handed on. -/
def attemptOr {ε α : Type} : Except (Failure ε) α → Run (Except ε α)
  | .ok value => pure (.ok value)
  | .error (.fault reason) => throw (.fault reason)
  | .error (.error reason) => pure (.error reason)

end Run

open Run

/-! ## Printing -/

/-- Print a set for each nonterminal. -/
def printSets (title : String) (grammar : Grammar)
    (names : Nat → Except Fault (List String)) : Run Unit := do
  print title
  for nonterminal in grammar.nonterminals do
    let name ← attempt (grammar.nonterminalName nonterminal)
    let members ← attempt (names nonterminal)
    print ("    " ++ name ++ ": " ++ " ".intercalate members)

def firstNames (grammar : Grammar) (first : FirstSets) (nonterminal : Nat) :
    Except Fault (List String) := do
  let set ← first.get nonterminal
  let names ← set.terminals.toList.mapM grammar.terminalName
  return if set.nullable then names ++ [Grammar.emptyText] else names

def followNames (grammar : Grammar) (follow : FollowSets) (nonterminal : Nat) :
    Except Fault (List String) := do
  (← follow.get nonterminal).toList.mapM grammar.terminalName

def printAllSets (options : Options) (grammar : Grammar) (first : FirstSets)
    (follow : FollowSets) : Run Unit := do
  if options.showFirst then
    printSets "first sets:" grammar (firstNames grammar first)
  if options.showFollow then
    printSets "follow sets:" grammar (followNames grammar follow)

def printParse (grammar : Grammar) (rules : List Nat)
    (tree : Except (Failure DerivationTree.Error) DerivationTree) : Run Unit := do
  for rule in rules do
    print (← attempt (grammar.ruleIdText rule))
  match ← attemptOr tree with
  | .ok tree => print (← attempt (tree.text grammar))
  | .error reason => logError reason.message

def printParseError (reason : ParseError) : Run Unit := do
  match reason with
  | .corruptTable .. => logError reason.message
  | _ => print ("syntax error: " ++ reason.message)
  fail

/-! ## Shift-reduce parsing -/

def parseShiftReduce (bound : Nat) (parser : ShiftReduce.Parser) (text : String) : Run Unit := do
  match Token.tokenize parser.grammar text with
  | .error reason => abort reason.message
  | .ok tokens =>
      if let .ok machine := ShiftReduce.Machine.start parser tokens then
        log (← attempt (Journal.shiftReduceRun bound machine))
      match parser.parse bound tokens with
      | none => throw .unfinished
      | some outcome =>
          match ← attemptOr outcome with
          | .error reason => printParseError reason
          | .ok parse =>
              printParse parser.grammar parse.reductions
                (DerivationTree.ofRightParse parser.grammar parse.reductions)

/-- Print the conflicts of a table, each with an example. -/
def printShiftReduceConflicts (analysis : ShiftReduce.Analysis) : Run Unit := do
  let conflicts := analysis.table.conflicts
  let setting ← attempt analysis.setting
  for conflict in conflicts do
    log (← attempt (Journal.shiftReduceWitness setting conflict))
    print (← attempt (conflict.text analysis.grammar))
    match ← attemptOr (ShiftReduce.Witness.ofConflict setting conflict) with
    | .ok witness => print ("  example: " ++ (← attempt (witness.text analysis.grammar)))
    | .error reason => print ("  no example: " ++ reason.message)
  if conflicts.isEmpty then
    print ("grammar is " ++ analysis.table.method.text)
  else
    fail

def runShiftReduce (bound : Nat) (options : Options) (grammar : Grammar)
    (method : ShiftReduce.Method) : Run Unit := do
  match ← attemptOr (ShiftReduce.Analysis.compute grammar method) with
  | .error reason => abort reason.message
  | .ok analysis =>
      log (← attempt (Journal.shiftReduceAnalysis analysis))
      printAllSets options analysis.grammar analysis.first analysis.follow
      if options.showStates then
        print (← attempt (analysis.automaton.text analysis.grammar))
      if options.showTable then
        print (method.text ++ " table:")
        print (← attempt (analysis.table.text analysis.grammar))
      printShiftReduceConflicts analysis
      if let some text := options.input then
        parseShiftReduce bound analysis.parser text

/-! ## Predictive parsing -/

def parsePredictive (bound : Nat) (parser : Predictive.Parser) (text : String) : Run Unit := do
  match Token.tokenize parser.grammar text with
  | .error reason => abort reason.message
  | .ok tokens =>
      if let .ok configuration := parser.start tokens then
        log (← attempt (Journal.predictiveRun parser bound configuration))
      match parser.parse bound tokens with
      | none => throw .unfinished
      | some outcome =>
          match ← attemptOr outcome with
          | .error reason => printParseError reason
          | .ok rules =>
              printParse parser.grammar rules (DerivationTree.ofLeftParse parser.grammar rules)

/-- Print the conflicts of a table, each with examples. -/
def printPredictiveConflicts (analysis : Predictive.Analysis) : Run Unit := do
  let conflicts := analysis.table.conflicts
  let sentences ← attempt (Sentences.compute analysis.grammar)
  for conflict in conflicts do
    log (← attempt (Journal.predictiveWitness analysis.grammar sentences conflict))
    print (← attempt (conflict.text analysis.grammar))
    match ← attemptOr (Predictive.Witness.ofConflict analysis.grammar sentences conflict) with
    | .ok witness => print ("  example " ++ (← attempt (witness.text analysis.grammar)))
    | .error reason => print ("  no example: " ++ reason.message)
  if conflicts.isEmpty then
    print "grammar is LL(1)"
  else
    fail

def runPredictive (bound : Nat) (options : Options) (grammar : Grammar) : Run Unit := do
  let analysis ← attempt (Predictive.Analysis.compute grammar)
  log (← attempt (Journal.predictiveAnalysis analysis))
  printAllSets options grammar analysis.first analysis.follow
  if options.showTable then
    print "LL(1) table:"
    print (← attempt (analysis.table.text grammar))
  printPredictiveConflicts analysis
  if let some text := options.input then
    parsePredictive bound analysis.parser text

/-! ## The whole run -/

/-- The text of a grammar file, or what is wrong with it. The file itself is given by its bytes, or
by the reason why it could not be read. -/
def fileText (path : String) : Except String ByteArray → Except String String
  | .error reason => .error ("cannot read `" ++ path ++ "`: " ++ reason)
  | .ok bytes =>
      match String.fromUTF8? bytes with
      | some text => .ok text
      | none => .error ("`" ++ path ++ "` is not valid UTF-8")

/-- Do what the options ask for with the contents of the grammar file. Parses may take `bound`
steps. -/
def runTool (bound : Nat) (options : Options) (file : Except String ByteArray) : Run Unit := do
  match fileText options.path file with
  | .error message => abort message
  | .ok text =>
      match Description.read text with
      | .error reason => abort reason.message
      | .ok grammar =>
          log (Journal.grammarRead grammar)
          match options.target with
          | .shiftReduce method => runShiftReduce bound options grammar method
          | .predictive => runPredictive bound options grammar

/-- What becomes of a run with the given options and the contents of the grammar file. -/
def report (bound : Nat) (options : Options) (file : Except String ByteArray) :
    Except Interruption Report := do
  let ((), session) ← (runTool bound options file).run {}
  let log := if options.quiet then "" else logText options.verbosity session.records
  return ⟨if session.success then 0 else 1, session.output, log⟩

end DeterministicParsing.CommandLine
