/-
# Building automata

States are expanded one after another: for every symbol after a marker, the items with the marker
moved over it form the kernel of a successor. The successor is a state that is known already, or a
new one, which is then expanded in its turn.

Where states differ in the cores of their kernels only, a known successor takes in the lookaheads
that arrive. If they are news to it, it has to be expanded again, and so waits in the queue once
more.

What happened is kept as a history, because the log tells it.
-/
import DeterministicParsing.Item.Closure
import DeterministicParsing.Automaton.Basic

namespace DeterministicParsing

namespace AutomatonKind

def close (kind : AutomatonKind) (grammar : Grammar) (first : FirstSets) (kernel : ItemSet) :
    Except Fault ItemSet :=
  match kind with
  | lr0 => kernel.closePlain grammar
  | lr1 | lalr1 => kernel.closeLookahead grammar first

/-- The lookahead of the accept rule in the initial state. -/
def initialLookahead : AutomatonKind → Option TerminalSet
  | lr0 => none
  | lr1 | lalr1 => some {endOfInput}

/-- Whether two kernels belong to the same state. -/
def identifies (kind : AutomatonKind) (first second : ItemSet) : Bool :=
  match kind with
  | lr0 | lr1 => first == second
  | lalr1 => first.cores == second.cores

end AutomatonKind

namespace Automaton

/-- Something that happened while an automaton was built. -/
inductive Event where
  | created (id : Nat) (items : ItemSet)
  /-- A state took in lookaheads and has to be expanded again. -/
  | grew (id : Nat)
  deriving DecidableEq

/-- An automaton under construction. -/
structure Construction where
  states : List State
  queue : List Nat
  history : List Event

namespace Construction

variable (kind : AutomatonKind) (grammar : Grammar) (first : FirstSets)

/-- Add a state with the given kernel, and let it wait to be expanded. -/
def create (construction : Construction) (kernel items : ItemSet) : Except Fault Construction := do
  let isFinal ← items.hasComplete grammar
  let id := construction.states.length
  return {
    states := construction.states ++ [⟨kernel, items, .empty, isFinal⟩]
    queue := construction.queue ++ [id]
    history := construction.history ++ [.created id items] }

/-- Let a state take in what arrives. If that is news to it, it has to be expanded again. -/
def absorb (construction : Construction) (id : Nat) (state : State) (kernel items : ItemSet) :
    Construction :=
  let (grownKernel, kernelChanged) := state.kernel.mergeReporting kernel
  let (grownItems, itemsChanged) := state.items.mergeReporting items
  let grown := { state with kernel := grownKernel, items := grownItems }
  let updated := { construction with states := construction.states.set id grown }
  if (kernelChanged || itemsChanged) && !construction.queue.contains id then
    { updated with queue := updated.queue ++ [id], history := updated.history ++ [.grew id] }
  else
    updated

/-- The state for a kernel that arrives: a known one, or else a new one. -/
def arrive (construction : Construction) (kernel : ItemSet) :
    Except Fault (Nat × Construction) := do
  match construction.states.findIdx? (kind.identifies ·.kernel kernel) with
  | none =>
      let items ← kind.close grammar first kernel
      return (construction.states.length, ← construction.create grammar kernel items)
  | some id =>
      match kind, construction.states[id]? with
      | .lalr1, some state =>
          let items ← kind.close grammar first kernel
          return (id, construction.absorb id state kernel items)
      | _, _ => return (id, construction)

/-- Record a transition, which has to agree with one that is there. -/
def connect (construction : Construction) (id : Nat) (symbol : Symbol) (target : Nat) :
    Except (Failure Error) Construction := do
  match construction.states[id]? with
  | none => throw (.fault (.state id))
  | some state =>
      match state.transitions.find? symbol with
      | none =>
          let connected := { state with transitions := state.transitions.insert symbol target }
          return { construction with states := construction.states.set id connected }
      | some existing =>
          if existing = target then
            return construction
          else
            Failure.raise
              (.inconsistentTransition id (← grammar.symbolName symbol) existing target)

/-- Follow one successor of a state. -/
def follow (id : Nat) (construction : Construction) (successor : Symbol × ItemSet) :
    Except (Failure Error) Construction := do
  let (target, arrived) ← construction.arrive kind grammar first successor.2
  arrived.connect grammar id successor.1 target

def expand (construction : Construction) (id : Nat) : Except (Failure Error) Construction := do
  match construction.states[id]? with
  | none => throw (.fault (.state id))
  | some state =>
      let successors ← state.items.successors grammar
      successors.entries.foldlM (follow kind grammar first id) construction

/-- Expand waiting states until none is left, at most `bound` times. -/
def run : Nat → Construction → Except (Failure Error) Construction
  | 0, construction => .ok construction
  | bound + 1, construction =>
      match construction.queue with
      | [] => .ok construction
      | id :: queue => do
          run bound (← { construction with queue }.expand kind grammar first id)

end Construction

/-- The number of cores of a grammar: every place in every body. -/
def coreCount (grammar : Grammar) : Nat := grammar.size + grammar.rules.length

/-- No more expansions than this are needed. A kernel gives to each core either nothing or a set of
terminals, all from the bodies but the end of the input. Where states differ in the cores of their
kernels, there are at most as many states as sets of cores, and each is expanded again only when one
of its two item sets has grown. -/
def expansionBound (grammar : Grammar) : Nat :=
  Nat.pow 2 (coreCount grammar * (grammar.size + 3) + 1)

def acceptRule (grammar : Grammar) : Except (Failure Error) Nat := do
  if grammar.nonterminalNames.isEmpty then
    Failure.raise .emptyGrammar
  else
    match grammar.acceptRule with
    | some rule => return rule
    | none =>
        let start ← grammar.start
        Failure.raise (.notAugmented (← grammar.nonterminalName start))

/-- The automaton of an augmented grammar, with the history of its construction. -/
def buildWithHistory (grammar : Grammar) (first : FirstSets) (kind : AutomatonKind) :
    Except (Failure Error) (Automaton × List Event) := do
  let rule ← acceptRule grammar
  let kernel := ItemSet.ofList [⟨⟨rule, 0⟩, kind.initialLookahead⟩]
  let items ← kind.close grammar first kernel
  let seed ← Construction.create grammar ⟨[], [], []⟩ kernel items
  let final ← seed.run kind grammar first (expansionBound grammar)
  return (⟨kind, final.states⟩, final.history)

def build (grammar : Grammar) (first : FirstSets) (kind : AutomatonKind) :
    Except (Failure Error) Automaton := do
  return (← buildWithHistory grammar first kind).1

end Automaton

end DeterministicParsing
