/-
# The predictive analysis of a grammar

Everything that is derived from a grammar for predictive parsing, together with an account of how it
was found.
-/
import DeterministicParsing.Predictive.Parser
import DeterministicParsing.Predictive.Witness

namespace DeterministicParsing.Predictive

structure Analysis where
  grammar : Grammar
  first : FirstSets
  firstPasses : Nat
  follow : FollowSets
  followPasses : Nat
  table : Table

namespace Analysis

def compute (grammar : Grammar) : Except Fault Analysis := do
  let (first, firstPasses) ← FirstSets.computeCounted grammar
  let (follow, followPasses) ← FollowSets.computeCounted grammar first
  let table ← Table.ofSets grammar first follow
  return { grammar, first, firstPasses, follow, followPasses, table }

def parser (analysis : Analysis) : Parser := ⟨analysis.grammar, analysis.table⟩

def witness (analysis : Analysis) (conflict : Conflict) :
    Except (Failure WitnessError) Witness := do
  let sentences ← Sentences.compute analysis.grammar
  Witness.ofConflict analysis.grammar sentences conflict

end Analysis

end DeterministicParsing.Predictive
