/-
# Paths through an automaton

Every state that can be reached from the initial one, with a shortest path to it. States are visited
breadth first, and the transitions of a state by symbol.
-/
import DeterministicParsing.Automaton.Basic

namespace DeterministicParsing.Automaton

/-- A state that has been reached from the initial one. -/
structure Reached where
  state : Nat
  /-- A shortest path to it, as the state and the symbol of each transition, the last one first. -/
  trail : List (Nat × Symbol)
  deriving DecidableEq

/-- Add the target of a transition, unless it has been reached before. -/
def reachVia (origin : Reached) (found : List Reached) (transition : Symbol × Nat) :
    List Reached :=
  if found.any (·.state == transition.2) then found
  else found ++ [⟨transition.2, (origin.state, transition.1) :: origin.trail⟩]

/-- Follow the transitions of reached states in the order in which they were reached, from the
`index`-th one on, at most `bound` of them. -/
def reachFrom (automaton : Automaton) : Nat → Nat → List Reached → Except Fault (List Reached)
  | 0, _, found => .ok found
  | bound + 1, index, found =>
      match found[index]? with
      | none => .ok found
      | some origin => do
          let state ← automaton.state origin.state
          automaton.reachFrom bound (index + 1)
            (state.transitions.entries.foldl (reachVia origin) found)

/-- All states that can be reached. Each of them is followed once. -/
def reachable (automaton : Automaton) : Except Fault (List Reached) :=
  automaton.reachFrom automaton.states.length 0 [⟨initial, []⟩]

/-- The nearest of some states, and of equally near ones the first. -/
def nearest (reached : List Reached) (states : List Nat) : Option Reached :=
  (states.filterMap fun id => reached.find? (·.state == id)).foldl
    (fun best next =>
      match best with
      | none => some next
      | some known => if next.trail.length < known.trail.length then some next else best)
    none

/-- The states from which a symbol leads to one of the given states, ascending. -/
def predecessors (automaton : Automaton) (symbol : Symbol) (targets : List Nat) :
    Except Fault (List Nat) :=
  automaton.stateIds.filterM fun id => do
    match ← automaton.transition id symbol with
    | some target => return targets.contains target
    | none => return false

end DeterministicParsing.Automaton
