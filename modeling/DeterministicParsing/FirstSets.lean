/-
# First sets

The First set of a sequence of symbols holds the terminals with which a string derived from it can
begin, and whether the empty string can be derived from it. The sets of all nonterminals are found
by passing over the rules until nothing changes: each rule adds the First set of its body to that of
its head.
-/
import DeterministicParsing.FixedPoint
import DeterministicParsing.Grammar.Basic

namespace DeterministicParsing

/-- The First set of a sequence of symbols. -/
structure FirstSet where
  terminals : TerminalSet
  nullable : Bool
  deriving DecidableEq

namespace FirstSet

/-- The First set of a sequence from which nothing can be derived. -/
def empty : FirstSet := ⟨∅, false⟩

def ofTerminal (terminal : Nat) : FirstSet := ⟨{terminal}, false⟩

/-- What either of two sequences can begin with. -/
def union (first second : FirstSet) : FirstSet :=
  ⟨first.terminals ∪ second.terminals, first.nullable || second.nullable⟩

end FirstSet

/-- The First sets of the nonterminals of a grammar, by number. -/
structure FirstSets where
  sets : List FirstSet
  deriving DecidableEq

namespace FirstSets

def get (first : FirstSets) (nonterminal : Nat) : Except Fault FirstSet :=
  match first.sets[nonterminal]? with
  | some set => .ok set
  | none => .error (.nonterminal nonterminal)

/-- The First set of a symbol. A terminal need not be declared. -/
def ofSymbol (first : FirstSets) : Symbol → Except Fault FirstSet
  | .terminal id => .ok (.ofTerminal id)
  | .nonterminal id => first.get id

/-- The First set of a sequence: the terminals of its symbols up to and including the first one that
does not derive the empty string. What comes after that symbol is not looked at. -/
def ofSequence (first : FirstSets) : List Symbol → Except Fault FirstSet
  | [] => .ok ⟨∅, true⟩
  | symbol :: rest => do
      let set ← first.ofSymbol symbol
      if set.nullable then
        let others ← first.ofSequence rest
        return ⟨set.terminals ∪ others.terminals, others.nullable⟩
      else
        return set

/-- The terminals with which a sequence can begin if one of the given terminals comes after it. -/
def ofSequenceThen (first : FirstSets) (symbols : List Symbol) (after : TerminalSet) :
    Except Fault TerminalSet := do
  let set ← first.ofSequence symbols
  return if set.nullable then set.terminals ∪ after else set.terminals

def add (first : FirstSets) (nonterminal : Nat) (set : FirstSet) : FirstSets :=
  ⟨first.sets.modify nonterminal (·.union set)⟩

/-- Add the First set of its body to the head of a rule. -/
def visit (first : FirstSets) (rule : Rule) : Except Fault FirstSets := do
  return first.add rule.head (← first.ofSequence rule.body)

def pass (grammar : Grammar) (first : FirstSets) : Except Fault FirstSets :=
  grammar.rules.foldlM visit first

/-- No more passes than this are needed. Every pass but the last adds a terminal of some body, or
the empty string, to some nonterminal. -/
def passBound (grammar : Grammar) : Nat := grammar.nonterminalCount * (grammar.size + 1) + 1

/-- The First sets of a grammar, with the number of passes it took to find them. -/
def computeCounted (grammar : Grammar) : Except Fault (FirstSets × Nat) :=
  stabilize (pass grammar) (passBound grammar)
    ⟨List.replicate grammar.nonterminalCount .empty⟩

def compute (grammar : Grammar) : Except Fault FirstSets := do
  return (← computeCounted grammar).1

end FirstSets

end DeterministicParsing
