/-
# Contexts of a nonterminal

A chain of rules leads from the start down to a nonterminal: each rule has the head of the next one
at some place of its body, and the last one has the nonterminal. Expanding only along the chain
gives a string that the start derives, with the nonterminal at a known place, the hole. That is a
context of the nonterminal.

Sometimes a given terminal has to come right after the hole. Going up from the nonterminal, the rest
of each body either can begin with the terminal, or can be empty, so that the terminal is still owed
by what is above, or rules the chain out. At the top, the end of the input is the one terminal that
may still be owed. The search goes up breadth first, so that a chain with as few rules as possible
is found.
-/
import DeterministicParsing.WitnessError

namespace DeterministicParsing

/-- A string with a hole in it. -/
structure Context where
  symbols : List Symbol
  hole : Nat
  deriving DecidableEq

namespace Context

/-- How a sequence of symbols relates to the terminal that is to come first. -/
inductive Beginning where
  | found
  /-- It cannot, but it can be empty. -/
  | nullable
  | blocked
  deriving DecidableEq

/-- Whether a sequence of symbols can begin with a terminal, when symbols in front of it are left
empty. -/
def beginning (sentences : Sentences) (terminal : Nat) : List Symbol → Except Fault Beginning
  | [] => .ok .nullable
  | symbol :: rest => do
      if (← sentences.startingWith symbol terminal).isSome then
        return .found
      else if ← sentences.isNullable symbol then
        beginning sentences terminal rest
      else
        return .blocked

structure Occurrence where
  nonterminal : Nat
  rule : Nat
  place : Nat
  deriving DecidableEq

/-- The occurrence at a place of a body, if a nonterminal stands there. -/
def occurrenceAt (grammar : Grammar) (rule : Nat) : Symbol × Nat →
    Except Fault (Option Occurrence)
  | (.terminal _, _) => .ok none
  | (.nonterminal id, place) =>
      if id < grammar.nonterminalCount then .ok (some ⟨id, rule, place⟩)
      else .error (.nonterminal id)

/-- All occurrences of nonterminals, by rule and place. -/
def occurrences (grammar : Grammar) : Except Fault (List Occurrence) := do
  let found ← grammar.rules.zipIdx.mapM fun (rule, id) =>
    rule.body.zipIdx.mapM (occurrenceAt grammar id)
  return found.flatten.filterMap id

/-- A nonterminal that has been reached from below. -/
structure Climb where
  nonterminal : Nat
  /-- Whether the terminal is still to come from above. -/
  owed : Bool
  /-- The rules and places that lead from here down to the hole. -/
  chain : List (Nat × Nat)
  deriving DecidableEq

namespace Climb

/-- What two climbs must differ in for both to be worth following. -/
def key (climb : Climb) : Nat × Bool := (climb.nonterminal, climb.owed)

/-- Whether a climb has arrived: at the start, and owing nothing but perhaps the end of the
input. -/
def hasArrived (climb : Climb) (start : Nat) (terminal : Option Nat) : Bool :=
  climb.nonterminal == start && (!climb.owed || terminal == some endOfInput)

/-- Whether the terminal is still owed above a body whose part after the hole is given. There is no
answer if that part rules the terminal out. -/
def owedAbove (sentences : Sentences) (terminal : Option Nat) (climb : Climb)
    (after : List Symbol) : Except Fault (Option Bool) := do
  match terminal, climb.owed with
  | some wanted, true =>
      match ← beginning sentences wanted after with
      | .found => return some false
      | .nullable => return some true
      | .blocked => return none
  | _, _ => return some false

/-- Climb to the head of a rule in which the nonterminal occurs, unless that rule is ruled out. -/
def via (grammar : Grammar) (sentences : Sentences) (terminal : Option Nat) (climb : Climb)
    (occurrence : Occurrence) : Except Fault (Option Climb) := do
  let rule ← grammar.rule occurrence.rule
  let owed ← climb.owedAbove sentences terminal (rule.body.drop (occurrence.place + 1))
  let chain := (occurrence.rule, occurrence.place) :: climb.chain
  return owed.map fun owed => ⟨rule.head, owed, chain⟩

/-- The climbs whose keys are new, each key once. -/
def fresh : List (Nat × Bool) → List Climb → List Climb
  | _, [] => []
  | seen, climb :: rest =>
      if climb.key ∈ seen then fresh seen rest else climb :: fresh (climb.key :: seen) rest

end Climb

/-- Follow climbs in the order in which they were found, until one has arrived, at most `bound` of
them. -/
def climbUp (grammar : Grammar) (sentences : Sentences) (uses : List Occurrence) (start : Nat)
    (terminal : Option Nat) :
    Nat → List (Nat × Bool) → List Climb → Except Fault (Option Climb)
  | 0, _, _ => .ok none
  | _ + 1, _, [] => .ok none
  | bound + 1, seen, climb :: queue =>
      if climb.hasArrived start terminal then
        .ok (some climb)
      else do
        let here := uses.filter (·.nonterminal == climb.nonterminal)
        let found ← here.mapM (climb.via grammar sentences terminal)
        let fresh := Climb.fresh seen (found.filterMap id)
        climbUp grammar sentences uses start terminal bound (fresh.map Climb.key ++ seen)
          (queue ++ fresh)

/-- A chain with as few rules as possible from the start down to a nonterminal. Every nonterminal is
followed at most twice, once owing the terminal and once not. -/
def chainTo (grammar : Grammar) (sentences : Sentences) (nonterminal : Nat)
    (terminal : Option Nat) : Except Fault (Option (List (Nat × Nat))) := do
  let start ← grammar.start
  let uses ← occurrences grammar
  if nonterminal < grammar.nonterminalCount then
    let climb : Climb := ⟨nonterminal, terminal.isSome, []⟩
    let bound := 2 * grammar.nonterminalCount + 1
    let found ← climbUp grammar sentences uses start terminal bound [climb.key] [climb]
    return found.map Climb.chain
  else
    throw (.nonterminal nonterminal)

/-- The string with other symbols in the hole. -/
def fill (context : Context) (symbols : List Symbol) : List Symbol :=
  context.symbols.take context.hole ++ symbols ++ context.symbols.drop (context.hole + 1)

/-- Put the body of a rule into the hole, and move the hole to a place of that body. -/
def descend (grammar : Grammar) (context : Context) (link : Nat × Nat) : Except Fault Context := do
  let rule ← grammar.rule link.1
  return ⟨context.fill rule.body, context.hole + link.2⟩

/-- The context that a chain of rules leads to. -/
def ofChain (grammar : Grammar) (chain : List (Nat × Nat)) : Except Fault Context := do
  let start ← grammar.start
  chain.foldlM (descend grammar) ⟨[.nonterminal start], 0⟩

/-- A context of a nonterminal. If a terminal is given, the part after the hole can begin with it,
or can be empty if it is the end of the input. -/
def find (grammar : Grammar) (sentences : Sentences) (nonterminal : Nat)
    (terminal : Option Nat) : Except (Failure WitnessError) Context := do
  match ← chainTo grammar sentences nonterminal terminal with
  | some chain => ofChain grammar chain
  | none =>
      let name ← grammar.nonterminalName nonterminal
      match terminal with
      | none => Failure.raise (.unreachable name)
      | some wanted =>
          if (← chainTo grammar sentences nonterminal none).isSome then
            Failure.raise (.noContext name (← grammar.terminalName wanted))
          else
            Failure.raise (.unreachable name)

end Context

end DeterministicParsing
