/-
# The shift-reduce analysis of a grammar

Everything that is derived from a grammar by one of the construction methods, together with an
account of how it was found.
-/
import DeterministicParsing.ShiftReduce.Machine
import DeterministicParsing.ShiftReduce.Witness

namespace DeterministicParsing.ShiftReduce

structure Analysis where
  grammar : Grammar
  first : FirstSets
  firstPasses : Nat
  follow : FollowSets
  followPasses : Nat
  automaton : Automaton
  history : List Automaton.Event
  table : Table

namespace Analysis

/-- Analyse a grammar, which is augmented first if it is not yet. All numbers of the grammar keep
their meaning. -/
def compute (grammar : Grammar) (method : Method) : Except (Failure Automaton.Error) Analysis := do
  if grammar.nonterminalNames.isEmpty then
    Failure.raise .emptyGrammar
  else
    let grammar ← grammar.ensureAugmented
    let (first, firstPasses) ← FirstSets.computeCounted grammar
    let (follow, followPasses) ← FollowSets.computeCounted grammar first
    let (automaton, history) ← Automaton.buildWithHistory grammar first method.automatonKind
    let table ← Table.ofAutomaton grammar automaton method follow
    return { grammar, first, firstPasses, follow, followPasses, automaton, history, table }

def parser (analysis : Analysis) : Parser := ⟨analysis.grammar, analysis.table⟩

/-- What witnesses are looked for in. -/
def setting (analysis : Analysis) : Except Fault Witness.Setting := do
  let sentences ← Sentences.compute analysis.grammar
  return ⟨analysis.grammar, analysis.automaton, analysis.follow, sentences⟩

def witness (analysis : Analysis) (conflict : Conflict) :
    Except (Failure WitnessError) Witness := do
  Witness.ofConflict (← analysis.setting) conflict

end Analysis

end DeterministicParsing.ShiftReduce
