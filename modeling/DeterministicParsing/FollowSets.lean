/-
# Follow sets

The Follow set of a nonterminal holds the terminals that can stand right after it. The start is
followed by the end of the input. Where a nonterminal occurs in a body, it is followed by whatever
the rest of the body can begin with, and if that rest can be empty, by whatever follows the head.
The sets are found by passing over all occurrences until nothing changes.
-/
import DeterministicParsing.FirstSets

namespace DeterministicParsing

/-- The Follow sets of the nonterminals of a grammar, by number. -/
structure FollowSets where
  sets : List TerminalSet
  deriving DecidableEq

namespace FollowSets

def get (follow : FollowSets) (nonterminal : Nat) : Except Fault TerminalSet :=
  match follow.sets[nonterminal]? with
  | some set => .ok set
  | none => .error (.nonterminal nonterminal)

def add (follow : FollowSets) (nonterminal : Nat) (set : TerminalSet) :
    Except Fault FollowSets := do
  let known ← follow.get nonterminal
  return ⟨follow.sets.set nonterminal (known ∪ set)⟩

/-- Visit the occurrence of a nonterminal in a body of `head`, with `rest` after it. -/
def visitOccurrence (first : FirstSets) (head : Nat) (follow : FollowSets)
    (nonterminal : Nat) (rest : List Symbol) : Except Fault FollowSets := do
  let next ← first.ofSequence rest
  let extended ← follow.add nonterminal next.terminals
  if next.nullable && head != nonterminal then
    extended.add nonterminal (← extended.get head)
  else
    return extended

def visitBody (first : FirstSets) (head : Nat) (follow : FollowSets) :
    List Symbol → Except Fault FollowSets
  | [] => .ok follow
  | .terminal _ :: rest => visitBody first head follow rest
  | .nonterminal id :: rest => do
      visitBody first head (← visitOccurrence first head follow id rest) rest

def pass (grammar : Grammar) (first : FirstSets) (follow : FollowSets) :
    Except Fault FollowSets :=
  grammar.rules.foldlM (fun follow rule => visitBody first rule.head follow rule.body) follow

/-- No more passes than this are needed. Every pass but the last adds a terminal of some body, or
the end of the input, to some nonterminal. -/
def passBound (grammar : Grammar) : Nat := grammar.nonterminalCount * (grammar.size + 1) + 1

/-- The Follow sets of a grammar, with the number of passes it took to find them. A grammar without
nonterminals has no sets to find. -/
def computeCounted (grammar : Grammar) (first : FirstSets) : Except Fault (FollowSets × Nat) := do
  if grammar.nonterminalNames.isEmpty then
    return (⟨[]⟩, 0)
  else
    let start ← grammar.start
    let none : FollowSets := ⟨List.replicate grammar.nonterminalCount ∅⟩
    let initial ← none.add start {endOfInput}
    stabilize (pass grammar first) (passBound grammar) initial

def compute (grammar : Grammar) (first : FirstSets) : Except Fault FollowSets := do
  return (← computeCounted grammar first).1

end FollowSets

end DeterministicParsing
