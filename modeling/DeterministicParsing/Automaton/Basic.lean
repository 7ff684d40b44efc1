/-
# Automata of item sets

A state of the automaton is a set of items. Its kernel holds the items that reading a symbol led to,
and its items are the closure of the kernel. A transition on a symbol leads to the state whose
kernel holds the items with the marker moved over that symbol. States are numbered, and state 0 is
the initial one.
-/
import DeterministicParsing.Item.Basic

namespace DeterministicParsing

structure State where
  kernel : ItemSet
  items : ItemSet
  transitions : AscendingMap Symbol Nat
  isFinal : Bool
  deriving DecidableEq

/-- How the states of an automaton are told apart. -/
inductive AutomatonKind where
  /-- Items have no lookaheads, and states differ in their kernels. -/
  | lr0
  /-- Items have lookaheads, and states differ in their kernels. -/
  | lr1
  /-- Items have lookaheads, and states differ in the cores of their kernels. -/
  | lalr1
  deriving DecidableEq

def AutomatonKind.text : AutomatonKind → String
  | lr0 => "LR(0)"
  | lr1 => "LR(1)"
  | lalr1 => "LALR(1)"

/-- An automaton of item sets. -/
structure Automaton where
  kind : AutomatonKind
  states : List State
  deriving DecidableEq

/-- The item of a state that completes a rule. -/
def State.completeItem (grammar : Grammar) (state : State) (rule : Nat) :
    Except Fault (Option Item) := do
  return state.items.item? ⟨rule, (← grammar.rule rule).body.length⟩

namespace Automaton

/-- Why an automaton, or a table on top of it, cannot be built. -/
inductive Error where
  | notAugmented (start : String)
  | emptyGrammar
  | inconsistentTransition (state : Nat) (symbol : String) (existing target : Nat)
  | missingTransition (state : Nat) (symbol : String)
  deriving DecidableEq

def Error.message : Error → String
  | notAugmented start =>
      "grammar must be augmented (start symbol `" ++ start ++ "` needs exactly one rule)"
  | emptyGrammar => "grammar has no nonterminals"
  | inconsistentTransition state symbol existing target =>
      s!"bad build: state {state} goes to both {existing} and {target} on `" ++ symbol ++ "`"
  | missingTransition state symbol => s!"state {state} has no transition on `" ++ symbol ++ "`"

def initial : Nat := 0

def state (automaton : Automaton) (id : Nat) : Except Fault State :=
  match automaton.states[id]? with
  | some state => .ok state
  | none => .error (.state id)

def stateIds (automaton : Automaton) : List Nat := List.range automaton.states.length

def transition (automaton : Automaton) (id : Nat) (symbol : Symbol) :
    Except Fault (Option Nat) := do
  return (← automaton.state id).transitions.find? symbol

/-- The states that are visited when symbols are read one after another, the first one included.
There are none if some transition is missing. -/
def walk (automaton : Automaton) (id : Nat) : List Symbol → Except Fault (Option (List Nat))
  | [] => .ok (some [id])
  | symbol :: rest => do
      match ← automaton.transition id symbol with
      | none => return none
      | some target => return (← automaton.walk target rest).map (id :: ·)

end Automaton

end DeterministicParsing
