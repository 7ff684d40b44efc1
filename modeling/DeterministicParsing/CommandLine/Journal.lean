/-
# What the log tells

The records of each part of the work, in the order in which things happen. They are told from what
the analyses keep and from watching the parsers step by step, so that the analyses and the parsers
themselves know nothing of a log.
-/
import DeterministicParsing.CommandLine.Log
import DeterministicParsing.Item.Printer
import DeterministicParsing.ShiftReduce.Analysis
import DeterministicParsing.ShiftReduce.Printer
import DeterministicParsing.Predictive.Analysis

namespace DeterministicParsing.CommandLine.Journal

/-! ## Sets and automata -/

def grammarRead (grammar : Grammar) : List Record :=
  [⟨.debug, s!"read grammar with {grammar.terminalCount - 1} terminals, " ++
    s!"{grammar.nonterminalCount} nonterminals, {grammar.rules.length} rules"⟩]

/-- Passes were made over the rules, all but the last with a change. -/
def passes (what : String) (count : Nat) : List Record :=
  (List.range count).map fun index =>
    let changed := if index + 1 < count then "true" else "false"
    ⟨.trace, what ++ s!" sets pass {index + 1}: changed = " ++ changed⟩

def event (grammar : Grammar) : Automaton.Event → Except Fault Record
  | .created id items => do return ⟨.trace, s!"state {id}:\n" ++ (← items.text grammar)⟩
  | .grew id => .ok ⟨.trace, s!"lookaheads of state {id} grew, revisiting"⟩

def automatonBuilt (grammar : Grammar) (automaton : Automaton) (history : List Automaton.Event) :
    Except Fault (List Record) := do
  let events ← history.mapM (event grammar)
  return events ++
    [⟨.debug, "built " ++ automaton.kind.text ++
      s!" automaton with {automaton.states.length} states"⟩]

/-! ## Shift-reduce parsing -/

def shiftReduceAnalysis (analysis : ShiftReduce.Analysis) : Except Fault (List Record) := do
  let table := analysis.table
  let conflicts := table.conflicts
  let built ← automatonBuilt analysis.grammar analysis.automaton analysis.history
  let counts : Record :=
    ⟨.debug, table.method.text ++ s!" table: {table.actions.length} actions, " ++
      s!"{table.gotos.length} gotos, {conflicts.length} conflicts"⟩
  let warnings ← conflicts.mapM fun conflict => do
    return (⟨.warn, ← conflict.text analysis.grammar⟩ : Record)
  let summary : Record :=
    ⟨.info, table.method.text ++ s!" analysis: {analysis.automaton.states.length} states, " ++
      s!"{conflicts.length} conflicts"⟩
  return passes "first" analysis.firstPasses ++ passes "follow" analysis.followPasses ++ built ++
    counts :: warnings ++ [summary]

/-- A witness was looked for: where its rule begins, and which rules the path was expanded by. -/
def shiftReduceWitness (setting : ShiftReduce.Witness.Setting) (conflict : ShiftReduce.Conflict) :
    Except Fault (List Record) := do
  let search : Except (Failure WitnessError) (Nat × Automaton.Reached) := do
    let rule ← ShiftReduce.Witness.reductionOf conflict
    return (rule, ← ShiftReduce.Witness.originOf setting conflict rule)
  match search with
  | .error _ => return []
  | .ok (rule, origin) =>
      let handle : Record :=
        ⟨.debug, "handle of " ++ (← setting.grammar.ruleIdText rule) ++
          s!" for conflict in state {conflict.state} begins in state {origin.state}"⟩
      match ShiftReduce.Witness.pathThrough setting conflict rule origin with
      | .error _ => return [handle]
      | .ok path =>
          let used := (ShiftReduce.Witness.expandPath setting path conflict.terminal).2.used
          let expansions ← used.mapM fun (state, rule) => do
            let text ← setting.grammar.ruleIdText rule
            return (⟨.trace, "expand " ++ text ++ s!" in state {state}"⟩ : Record)
          return handle :: expansions

/-- What is told about a step besides the action: the rule and where its head led, the end of the
parse, or a table that does not fit. -/
def moveDetails (outcome : Except (Failure ParseError) ShiftReduce.Move)
    (after : ShiftReduce.Machine Unit) : Except Fault (List Record) := do
  match outcome with
  | .ok (.reduce rule) =>
      let text ← after.parser.grammar.ruleIdText rule
      return [⟨.debug, "reduce " ++ text ++ s!", goto {after.state}"⟩]
  | .ok .accept => return [⟨.debug, s!"accepted after {after.reduced.length} reductions"⟩]
  | .error (.error (.corruptTable state contradiction)) =>
      return [⟨.error, (ParseError.corruptTable state contradiction).message⟩]
  | _ => return []

def shiftReduceStep (machine : ShiftReduce.Machine Unit) : Except Fault (List Record) := do
  match machine.lookahead?, machine.action? with
  | some token, some action =>
      let (outcome, after) := machine.step
      let details ← moveDetails outcome after
      return ⟨.trace, s!"state {machine.state}, lookahead `" ++ token.lexeme ++ "`: " ++
        action.text⟩ :: details
  | _, _ => return []

/-- The machine ran, for at most `bound` steps. -/
def shiftReduceRun : Nat → ShiftReduce.Machine Unit → Except Fault (List Record)
  | 0, _ => .ok []
  | bound + 1, machine => do
      if machine.isAccepted then
        return []
      else
        let here ← shiftReduceStep machine
        match machine.step with
        | (.ok _, next) => return here ++ (← shiftReduceRun bound next)
        | (.error _, _) => return here

/-! ## Predictive parsing -/

def predictiveAnalysis (analysis : Predictive.Analysis) : Except Fault (List Record) := do
  let table := analysis.table
  let conflicts := table.conflicts
  let entries : List Record := table.entries.map fun (nonterminal, terminal, rule) =>
    ⟨.trace, s!"LL(1) entry (NonterminalId({nonterminal}), TerminalId({terminal})) = " ++
      s!"RuleId({rule})"⟩
  let counts : Record :=
    ⟨.debug, s!"LL(1) table: {table.entries.length} entries, {conflicts.length} conflicts"⟩
  let warnings ← conflicts.mapM fun conflict => do
    return (⟨.warn, ← conflict.text analysis.grammar⟩ : Record)
  let summary : Record := ⟨.info, s!"LL(1) analysis: {conflicts.length} conflicts"⟩
  return passes "first" analysis.firstPasses ++ passes "follow" analysis.followPasses ++ entries ++
    counts :: warnings ++ [summary]

def symbolNumber : Symbol → String
  | .terminal id => s!"Terminal(TerminalId({id}))"
  | .nonterminal id => s!"Nonterminal(NonterminalId({id}))"

/-- A witness was looked for: the context in which the conflict is shown. -/
def predictiveWitness (grammar : Grammar) (sentences : Sentences)
    (conflict : Predictive.Conflict) : Except Fault (List Record) := do
  match Predictive.Witness.contextFor grammar sentences conflict with
  | .error _ => return []
  | .ok context =>
      let name ← grammar.nonterminalName conflict.nonterminal
      let symbols := ", ".intercalate (context.symbols.map symbolNumber)
      return [⟨.trace,
        "context of `" ++ name ++ s!"`: hole {context.hole} in [" ++ symbols ++ "]"⟩]

/-- A rule was applied, if the parser has just applied one. -/
def predictiveStep (grammar : Grammar) (before after : Predictive.Configuration) :
    Except Fault (List Record) := do
  match after.applied, before.remaining with
  | rule :: earlier, token :: _ =>
      if before.applied.length < earlier.length + 1 then
        let text ← grammar.ruleIdText rule
        return [⟨.trace, "expand " ++ text ++ " on `" ++ token.lexeme ++ "`"⟩]
      else
        return []
  | _, _ => return []

/-- The parser ran, for at most `bound` steps. -/
def predictiveRun (parser : Predictive.Parser) :
    Nat → Predictive.Configuration → Except Fault (List Record)
  | 0, _ => .ok []
  | bound + 1, configuration =>
      match configuration.stack with
      | [] =>
          match Predictive.Parser.finish configuration with
          | .ok rules => .ok [⟨.debug, s!"LL(1) parse done after {rules.length} expansions"⟩]
          | .error _ => .ok []
      | symbol :: stack => do
          match parser.step configuration symbol stack with
          | .ok next =>
              let here ← predictiveStep parser.grammar configuration next
              return here ++ (← predictiveRun parser bound next)
          | .error _ => return []

end DeterministicParsing.CommandLine.Journal
