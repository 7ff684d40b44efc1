/-
# Witnesses of predictive conflicts

A witness of a conflict between rules of a nonterminal shows the nonterminal in a context, and for
each rule a sentence that is derived from that context through the rule, such that the conflicting
terminal is the next one when the nonterminal is expanded.
-/
import DeterministicParsing.Context
import DeterministicParsing.Predictive.Table

namespace DeterministicParsing.Predictive

/-- Inputs that run into a predictive conflict. -/
structure Witness where
  nonterminal : Nat
  terminal : Nat
  context : Context
  rules : List Nat
  sentences : List (List Nat)
  deriving DecidableEq

namespace Witness

/-- Where a string goes on with a given terminal: the place of the symbol that begins with it, when
the symbols in front are left empty, and the sentence for that symbol. Places count from `place`. -/
def findBeginning (sentences : Sentences) (terminal : Nat) :
    Nat → List Symbol → Except Fault (Option (Nat × List Nat))
  | _, [] => .ok none
  | place, symbol :: rest => do
      match ← sentences.startingWith symbol terminal with
      | some sentence => return some (place, sentence)
      | none =>
          if ← sentences.isNullable symbol then
            findBeginning sentences terminal (place + 1) rest
          else
            return none

/-- A sentence derived from a string such that a given terminal comes next at a given place. If the
symbols from that place on cannot begin with the terminal, all symbols get their shortest
sentences. -/
def sentenceWith (grammar : Grammar) (sentences : Sentences) (symbols : List Symbol)
    (place terminal : Nat) : Except (Failure WitnessError) (List Nat) := do
  match ← findBeginning sentences terminal place (symbols.drop place) with
  | some (found, sentence) =>
      let before ← sentences.requireAll grammar (symbols.take place)
      let after ← sentences.requireAll grammar (symbols.drop (found + 1))
      return before ++ sentence ++ after
  | none => sentences.requireAll grammar symbols

/-- Whether a rule cannot begin with a terminal, which then has to come after it. -/
def lacksBeginning (grammar : Grammar) (sentences : Sentences) (terminal id : Nat) :
    Except Fault Bool := do
  let rule ← grammar.rule id
  return (← Context.beginning sentences terminal rule.body) != .found

/-- The context in which a conflict is shown. If one of the rules cannot begin with the terminal, it
has to come after the nonterminal. -/
def contextFor (grammar : Grammar) (sentences : Sentences) (conflict : Conflict) :
    Except (Failure WitnessError) Context := do
  if conflict.rules.length < 2 then
    Failure.raise .notEnoughRules
  else
    let owed ← Failure.lift
      (conflict.rules.anyM (lacksBeginning grammar sentences conflict.terminal))
    Context.find grammar sentences conflict.nonterminal
      (if owed then some conflict.terminal else none)

/-- The sentence that shows one of the rules. -/
def sentenceFor (grammar : Grammar) (sentences : Sentences) (context : Context)
    (terminal id : Nat) : Except (Failure WitnessError) (List Nat) := do
  let rule ← grammar.rule id
  sentenceWith grammar sentences (context.fill rule.body) context.hole terminal

def ofConflict (grammar : Grammar) (sentences : Sentences) (conflict : Conflict) :
    Except (Failure WitnessError) Witness := do
  let context ← contextFor grammar sentences conflict
  let shown ← conflict.rules.mapM (sentenceFor grammar sentences context conflict.terminal)
  return ⟨conflict.nonterminal, conflict.terminal, context, conflict.rules, shown⟩

/-- The witness with its sentences, one a line. -/
def text (grammar : Grammar) (witness : Witness) : Except Fault String := do
  let context ← grammar.sentenceText witness.context.symbols
  let terminal ← grammar.terminalName witness.terminal
  let title := "in context `" ++ context ++ "` on `" ++ terminal ++ "`:"
  let lines ← (witness.rules.zip witness.sentences).mapM fun (rule, sentence) => do
    return (← grammar.ruleIdText rule) ++ ": " ++ (← grammar.terminalsText sentence)
  return "\n    ".intercalate (title :: lines)

end Witness

end DeterministicParsing.Predictive
