/-
# Why a conflict has no witness

A witness is an input that runs into a conflict. There may be none, or none that can be found.
-/
import DeterministicParsing.Sentences

namespace DeterministicParsing

/-- Why there is no witness of a conflict. -/
inductive WitnessError where
  | unreachable (nonterminal : String)
  | noPath (state : Nat)
  | noReduction (state : Nat)
  | noContext (nonterminal terminal : String)
  | notEnoughRules
  | underivable (symbol : String)
  deriving DecidableEq

def WitnessError.message : WitnessError → String
  | unreachable nonterminal => "`" ++ nonterminal ++ "` is not reachable from the start symbol"
  | noPath state => s!"no path to the handle of the conflict in state {state}"
  | noReduction state => s!"conflict in state {state} has no reduction"
  | noContext nonterminal terminal =>
      "`" ++ terminal ++ "` never follows `" ++ nonterminal ++
        "` in a derivation from the start symbol"
  | notEnoughRules => "conflict needs at least two competing rules"
  | underivable symbol => "`" ++ symbol ++ "` derives no terminal sentence"

namespace Sentences

/-- A shortest sentence of a symbol, which has to have one. -/
def require (sentences : Sentences) (grammar : Grammar) (symbol : Symbol) :
    Except (Failure WitnessError) (List Nat) := do
  match ← sentences.shortestOf symbol with
  | some sentence => return sentence
  | none => Failure.raise (.underivable (← grammar.symbolName symbol))

/-- Shortest sentences of symbols one after another, each of which has to have one. -/
def requireAll (sentences : Sentences) (grammar : Grammar) (symbols : List Symbol) :
    Except (Failure WitnessError) (List Nat) := do
  return (← symbols.mapM (sentences.require grammar)).flatten

end Sentences

end DeterministicParsing
