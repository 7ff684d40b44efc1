/-
# Shift-reduce tables

Every item of every state of an automaton has its say in a table: a complete item proposes to reduce
its rule on its lookaheads, or to accept if the rule belongs to the start; an item with a terminal
after its marker proposes to shift it; one with a nonterminal there fills in where that leads.
Different actions for one state and terminal are a conflict, in which the action that was registered
first stays in force.
-/
import DeterministicParsing.Registry
import DeterministicParsing.ShiftReduce.Method
import DeterministicParsing.Automaton.Construction

namespace DeterministicParsing.ShiftReduce

/-- What to do on a terminal. -/
inductive Action where
  | shift (target : Nat)
  | reduce (rule : Nat)
  | accept
  deriving DecidableEq

namespace Action

def text : Action → String
  | shift target => s!"s{target}"
  | reduce rule => s!"r{rule}"
  | accept => "acc"

def reduced? : Action → Option Nat
  | reduce rule => some rule
  | _ => none

end Action

/-- The sort of a conflict. -/
inductive ConflictKind where
  /-- Not all of the actions reduce. -/
  | shiftReduce
  | reduceReduce
  deriving DecidableEq

def ConflictKind.text : ConflictKind → String
  | shiftReduce => "shift/reduce"
  | reduceReduce => "reduce/reduce"

/-- The sort of the conflict between some actions: among reductions only, or not. -/
def ConflictKind.ofActions (actions : List Action) : ConflictKind :=
  if actions.all (·.reduced?.isSome) then .reduceReduce else .shiftReduce

/-- Different actions on one terminal in one state. -/
structure Conflict where
  state : Nat
  terminal : Nat
  kind : ConflictKind
  actions : List Action
  deriving DecidableEq

def Conflict.reductions (conflict : Conflict) : List Nat :=
  conflict.actions.filterMap Action.reduced?

structure Table where
  method : Method
  stateCount : Nat
  /-- The actions, by state and terminal. -/
  registry : Registry (Nat × Nat) Action ConflictKind
  /-- Where nonterminals lead, by state and nonterminal. -/
  targets : InsertionMap (Nat × Nat) Nat
  deriving DecidableEq

namespace Table

/-- A table that says nothing about its states. -/
def empty (method : Method) (stateCount : Nat) : Table := ⟨method, stateCount, .empty, .empty⟩

/-- The states, each of which has a row. -/
def rows (table : Table) : List Nat := List.range table.stateCount

def action? (table : Table) (state terminal : Nat) : Option Action :=
  table.registry.entries.find? (state, terminal)

def goto? (table : Table) (state nonterminal : Nat) : Option Nat :=
  table.targets.find? (state, nonterminal)

/-- The actions in force, as state, terminal and action, in the order in which they were found. -/
def actions (table : Table) : List (Nat × Nat × Action) :=
  table.registry.entries.entries.map fun ((state, terminal), action) => (state, terminal, action)

/-- Where nonterminals lead, as state, nonterminal and state, in the order in which it was found. -/
def gotos (table : Table) : List (Nat × Nat × Nat) :=
  table.targets.entries.map fun ((state, nonterminal), target) => (state, nonterminal, target)

/-- The conflicts, in the order in which they arose. -/
def conflicts (table : Table) : List Conflict :=
  table.registry.contests.entries.map fun ((state, terminal), contest) =>
    ⟨state, terminal, contest.kind, contest.candidates⟩

/-- Whether no terminal has different actions in one state. -/
def isConflictFree (table : Table) : Bool := table.conflicts.isEmpty

/-- All actions proposed in a state on a terminal, the one in force first. -/
def cell (table : Table) (state terminal : Nat) : List Action :=
  table.registry.cell (state, terminal)

/-- Register an action in a state on a terminal. With every action that is added to a conflict, its
sort is told anew. -/
def register (state : Nat) (action : Action) (table : Table) (terminal : Nat) : Table :=
  { table with
    registry := table.registry.register (fun _ actions => .ofActions actions)
      (state, terminal) action }

/-- Fill in where a nonterminal leads from a state. -/
def setGoto (table : Table) (state nonterminal target : Nat) : Table :=
  { table with targets := table.targets.insert (state, nonterminal) target }

/-- Let an item of a state have its say. -/
def visit (grammar : Grammar) (automaton : Automaton) (method : Method) (follow : FollowSets)
    (start id : Nat) (table : Table) (item : Item) : Except (Failure Automaton.Error) Table := do
  match ← item.core.next grammar with
  | none =>
      let rule ← grammar.rule item.core.rule
      if rule.head = start then
        return table.register id .accept endOfInput
      else
        let lookaheads ← method.lookaheads grammar follow item
        return lookaheads.foldl (register id (.reduce item.core.rule)) table
  | some symbol =>
      match ← automaton.transition id symbol with
      | none => Failure.raise (.missingTransition id (← grammar.symbolName symbol))
      | some target =>
          match symbol with
          | .terminal terminal => return table.register id (.shift target) terminal
          | .nonterminal nonterminal => return table.setGoto id nonterminal target

def visitState (grammar : Grammar) (automaton : Automaton) (method : Method) (follow : FollowSets)
    (start : Nat) (table : Table) : State × Nat → Except (Failure Automaton.Error) Table
  | (state, id) =>
      state.items.items.foldlM (visit grammar automaton method follow start id) table

/-- The table of a grammar on top of an automaton. -/
def ofAutomaton (grammar : Grammar) (automaton : Automaton) (method : Method)
    (follow : FollowSets) : Except (Failure Automaton.Error) Table := do
  let start ← grammar.start
  automaton.states.zipIdx.foldlM (visitState grammar automaton method follow start)
    (empty method automaton.states.length)

/-- The table of a grammar, which is augmented first if it is not yet. -/
def build (grammar : Grammar) (method : Method) : Except (Failure Automaton.Error) Table := do
  if grammar.nonterminalNames.isEmpty then
    Failure.raise .emptyGrammar
  else
    let augmented ← grammar.ensureAugmented
    let first ← FirstSets.compute augmented
    let follow ← FollowSets.compute augmented first
    let automaton ← Automaton.build augmented first method.automatonKind
    ofAutomaton augmented automaton method follow

end Table

end DeterministicParsing.ShiftReduce
