/-
# The shift-reduce machine

The machine keeps a stack of symbols, each with the state that was reached by pushing it and with
its attribute. Below the stack is the initial state. In each step the table decides from the state
on top and the next token whether to shift the token, to reduce the top of the stack by a rule, or
to accept.

The rules reduced, first to last, are the right parse of the input: read backwards, they are a
rightmost derivation of it. The accept rule is not among them.

A step that fails leaves the machine as it was, with one exception. Reducing a rule first takes its
body off the stack, and if then the head leads nowhere, or the synthesis function of the rule
faults, the body stays off the stack.
-/
import DeterministicParsing.ParseError
import DeterministicParsing.Semantics
import DeterministicParsing.Grammar.Printer
import DeterministicParsing.ShiftReduce.Table

namespace DeterministicParsing.ShiftReduce

structure Entry (V : Type) where
  symbol : Symbol
  carried : Attribute V
  state : Nat
  deriving DecidableEq

inductive Move where
  | shift (target : Nat)
  | reduce (rule : Nat)
  | accept
  deriving DecidableEq

/-- The outcome of a parse. -/
structure Parse (V : Type) where
  /-- The rules reduced, in order: the right parse of the input. -/
  reductions : List Nat
  value : Option V
  deriving DecidableEq

/-- A grammar with a table to parse it by. The table is normally that of the grammar, but nothing
depends on it. -/
structure Parser where
  grammar : Grammar
  table : Table

/-- A shift-reduce parser at work. -/
structure Machine (V : Type) where
  parser : Parser
  semantics : Option (Semantics V)
  position : Nat
  remaining : List Token
  /-- The stack, its top first. -/
  stack : List (Entry V)
  /-- The rules reduced, the last one first. -/
  reduced : List Nat
  /-- Once the input has been accepted, the value computed for the start. -/
  result : Option (Option V)

namespace Machine

variable {V : Type}

/-- A machine in front of an input, which has to end with `$end` and contain no other. -/
def start (parser : Parser) (tokens : List Token) : Except ParseError (Machine V) := do
  Token.checkEnd tokens
  return {
    parser := parser
    semantics := none
    position := 0
    remaining := tokens
    stack := []
    reduced := []
    result := none }

/-- Apply synthesis functions from now on. -/
def withSemantics (machine : Machine V) (semantics : Semantics V) : Machine V :=
  { machine with semantics := some semantics }

def state (machine : Machine V) : Nat :=
  match machine.stack with
  | [] => Automaton.initial
  | top :: _ => top.state

def lookahead? (machine : Machine V) : Option Token := machine.remaining.head?

/-- The symbols on the stack, bottom first. -/
def symbols (machine : Machine V) : List Symbol := (machine.stack.map Entry.symbol).reverse

def reductions (machine : Machine V) : List Nat := machine.reduced.reverse

def isAccepted (machine : Machine V) : Bool := machine.result.isSome

/-- Take the next token and go to a state. -/
def shift (machine : Machine V) (token : Token) (target : Nat) : Machine V :=
  { machine with
    stack := ⟨.terminal token.terminal, .token token, target⟩ :: machine.stack
    position := machine.position + 1
    remaining := machine.remaining.tail }

/-- Accept the input. The top of the stack is taken off, and its value is the result. -/
def accept (machine : Machine V) : Machine V :=
  { machine with
    stack := machine.stack.tail
    result := some (machine.stack.head?.bind (·.carried.value?)) }

/-- The error for a token without an action. -/
def refuse (machine : Machine V) (token : Token) : Except (Failure ParseError) Move := do
  let terminal ← machine.parser.grammar.terminalName token.terminal
  Failure.raise (.unexpectedToken machine.state terminal token.lexeme machine.position)

/-- The entries on top of the stack that spell the body of a rule, the lowest one first. -/
def handle (machine : Machine V) (id : Nat) (rule : Rule) :
    Except (Failure ParseError) (List (Entry V)) := do
  let grammar := machine.parser.grammar
  let entries := (machine.stack.take rule.body.length).reverse
  if entries.length < rule.body.length then
    Failure.raise (.corruptTable machine.state (.shortStack (← grammar.ruleIdText id)))
  else
    match (entries.zip rule.body).find? fun (entry, symbol) => entry.symbol != symbol with
    | none => return entries
    | some (entry, _) =>
        let found ← grammar.symbolName entry.symbol
        Failure.raise (.corruptTable machine.state (.otherSymbol found (← grammar.ruleIdText id)))

/-- The machine without the body of a rule on top of its stack. -/
def pop (machine : Machine V) (rule : Rule) : Machine V :=
  { machine with stack := machine.stack.drop rule.body.length }

/-- Push the head of a rule, after its body has been taken off the stack. -/
def pushHead (machine : Machine V) (id : Nat) (rule : Rule) (body : List (Entry V)) :
    Except (Failure ParseError) (Machine V) := do
  match machine.parser.table.goto? machine.state rule.head with
  | none =>
      let head ← machine.parser.grammar.nonterminalName rule.head
      Failure.raise (.corruptTable machine.state (.noGoto head))
  | some target =>
      let attributes := body.map Entry.carried
      let value ← match machine.semantics with
        | none => pure none
        | some semantics => semantics.apply id attributes
      return { machine with
        stack := ⟨.nonterminal rule.head, .value value, target⟩ :: machine.stack
        reduced := id :: machine.reduced }

def reduce (machine : Machine V) (id : Nat) : Except (Failure ParseError) Move × Machine V :=
  match machine.parser.grammar.rule id with
  | .error reason => (.error (.fault reason), machine)
  | .ok rule =>
      match machine.handle id rule with
      | .error reason => (.error reason, machine)
      | .ok body =>
          let popped := machine.pop rule
          match popped.pushHead id rule body with
          | .error reason => (.error reason, popped)
          | .ok next => (.ok (.reduce id), next)

def action? (machine : Machine V) : Option Action :=
  machine.lookahead?.bind fun token =>
    machine.parser.table.action? machine.state token.terminal

/-- Make a single step. After the input has been accepted, nothing changes any more. -/
def step (machine : Machine V) : Except (Failure ParseError) Move × Machine V :=
  if machine.isAccepted then (.ok .accept, machine)
  else
    match machine.lookahead? with
    | none => (Failure.raise .missingEnd, machine)
    | some token =>
        match machine.parser.table.action? machine.state token.terminal with
        | none => (machine.refuse token, machine)
        | some (.shift target) => (.ok (.shift target), machine.shift token target)
        | some (.reduce rule) => machine.reduce rule
        | some .accept => (.ok .accept, machine.accept)

/-- Hand out the outcome of an accepted input. The machine forgets it, and the rules reduced. -/
def collect (machine : Machine V) (value : Option V) : Parse V × Machine V :=
  (⟨machine.reductions, value⟩, { machine with result := none, reduced := [] })

/-- Make steps until the input is accepted or a step fails, and hand out the outcome. A table with
conflicts can keep the machine busy for ever, so the number of rounds is bounded, and there is no
answer when the bound is reached. -/
def run : Nat → Machine V → Option (Except (Failure ParseError) (Parse V) × Machine V)
  | 0, _ => none
  | bound + 1, machine =>
      match machine.result with
      | some value =>
          let (parse, next) := machine.collect value
          some (.ok parse, next)
      | none =>
          match machine.step with
          | (.ok _, next) => run bound next
          | (.error reason, next) => some (.error reason, next)

def summary (machine : Machine V) : String :=
  "LrMachine \x7b " ++
    s!"state: StateId({machine.state}), position: {machine.position}, " ++
    s!"depth: {machine.stack.length}, reductions: [" ++
    ", ".intercalate (machine.reductions.map fun rule => s!"RuleId({rule})") ++ "] \x7d"

end Machine

namespace Parser

variable {V : Type}

/-- Parse an input and apply synthesis functions on the way. -/
def parseWith (parser : Parser) (semantics : Option (Semantics V)) (bound : Nat)
    (tokens : List Token) : Option (Except (Failure ParseError) (Parse V)) :=
  match Machine.start parser tokens with
  | .error reason => some (Failure.raise reason)
  | .ok machine => ({ machine with semantics }.run bound).map Prod.fst

def parse (parser : Parser) (bound : Nat) (tokens : List Token) :
    Option (Except (Failure ParseError) (Parse Unit)) :=
  parser.parseWith none bound tokens

end Parser

end DeterministicParsing.ShiftReduce
