/-
# Automata as text

A state is written as its number, its items and its transitions, one a line. States are set apart by
an empty line.
-/
import DeterministicParsing.Item.Printer
import DeterministicParsing.Automaton.Basic

namespace DeterministicParsing

def State.text (grammar : Grammar) (state : State) (id : Nat) : Except Fault String := do
  let items ← state.items.items.mapM (Item.text grammar)
  let transitions ← state.transitions.entries.mapM fun (symbol, target) => do
    return (← grammar.symbolName symbol) ++ s!" -> {target}"
  let title := s!"state {id}" ++ (if state.isFinal then " (final):" else ":")
  return "\n    ".intercalate (title :: items ++ transitions)

def Automaton.text (grammar : Grammar) (automaton : Automaton) : Except Fault String := do
  let states ← automaton.states.zipIdx.mapM fun (state, id) => state.text grammar id
  return "\n\n".intercalate states

end DeterministicParsing
