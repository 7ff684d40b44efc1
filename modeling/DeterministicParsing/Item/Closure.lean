/-
# Closures

A set of items is closed if it holds, for every item whose marker stands in front of a nonterminal,
the rules of that nonterminal with the marker at their beginning. The closure of a set is the least
closed set around it. The closure with lookaheads also carries over what may come after the
nonterminal: with an item `A → α · B β` and lookaheads `L`, each rule of `B` may be followed by
whatever `β` can begin with when one of `L` comes after it.

Both closures work off a list of pending cores, the latest first. A core is pending when it is new,
and with lookaheads once more whenever its lookahead has grown, which shows by the number of its
terminals.
-/
import DeterministicParsing.FirstSets
import DeterministicParsing.FixedPoint
import DeterministicParsing.Item.Basic

namespace DeterministicParsing.ItemSet

variable (grammar : Grammar)

/-! ## Without lookaheads -/

/-- A closure without lookaheads under way: the cores so far, and the items added to the kernel. -/
structure Expansion where
  seen : List Core
  added : List Item

/-- Add a rule with the marker at its beginning, unless it has been seen. -/
def meetPlain (state : Expansion × List Core) (rule : Nat) : Expansion × List Core :=
  if ⟨rule, 0⟩ ∈ state.1.seen then
    state
  else
    (⟨⟨rule, 0⟩ :: state.1.seen, state.1.added ++ [⟨⟨rule, 0⟩, none⟩]⟩,
      ⟨rule, 0⟩ :: state.2)

/-- Add the rules that a core calls for. -/
def servePlain (core : Core) (state : Expansion × List Core) :
    Except Fault (Expansion × List Core) := do
  match ← core.next grammar with
  | some (.nonterminal id) => return (← grammar.rulesFor id).foldl meetPlain state
  | _ => return state

/-- The closure without lookaheads. The items of the kernel keep theirs, and the added ones have
none. Apart from the cores of the kernel only rules are served, each of them once. -/
def closePlain (kernel : ItemSet) : Except Fault ItemSet := do
  let (expansion, _) ← drain (servePlain grammar) (kernel.cores.length + grammar.rules.length)
    (⟨kernel.cores, []⟩, kernel.cores.reverse)
  return ofList (kernel.items ++ expansion.added)

/-! ## With lookaheads -/

/-- Cores with the terminals that may come after their rules. -/
abbrev Lookaheads := AscendingMap Core TerminalSet

/-- The cores of a set with their lookaheads. One that is missing allows nothing. -/
def lookaheads (set : ItemSet) : Lookaheads := set.mapValues (·.getD ∅)

/-- The items of cores with lookaheads. -/
def ofLookaheads (known : Lookaheads) : ItemSet := known.mapValues some

/-- Let some terminals come after a rule. If the rule is fresh or its lookahead has grown, it has to
be served. -/
def meetLookahead (after : TerminalSet) (state : Lookaheads × List Core) (rule : Nat) :
    Lookaheads × List Core :=
  let found := state.1.find? ⟨rule, 0⟩
  let united := found.getD ∅ ∪ after
  (state.1.insert ⟨rule, 0⟩ united,
    if found.isNone || united.size != (found.getD ∅).size then ⟨rule, 0⟩ :: state.2
    else state.2)

/-- Add the rules that a core calls for, with what may come after them. -/
def serveLookahead (first : FirstSets) (core : Core) (state : Lookaheads × List Core) :
    Except Fault (Lookaheads × List Core) := do
  match ← core.next grammar with
  | some (.nonterminal id) =>
      let rest ← core.rest grammar
      let after ← first.ofSequenceThen rest ((state.1.find? core).getD ∅)
      return (← grammar.rulesFor id).foldl (meetLookahead after) state
  | _ => return state

/-- All terminals in the lookaheads of a set. -/
def allLookaheads (set : ItemSet) : TerminalSet :=
  set.items.foldl (fun all item => all ∪ item.lookahead.getD ∅) ∅

/-- No more cores than this are served for a closure with lookaheads: those of the kernel, and a
rule when it is added or when a terminal that occurs in a body or in the kernel is added after
it. -/
def closureBound (kernel : ItemSet) : Nat :=
  kernel.cores.length +
    grammar.rules.length * (1 + grammar.size + kernel.allLookaheads.toList.length)

def closeLookahead (first : FirstSets) (kernel : ItemSet) : Except Fault ItemSet := do
  let (known, _) ← drain (serveLookahead grammar first) (closureBound grammar kernel)
    (kernel.lookaheads, kernel.cores.reverse)
  return ofLookaheads known

end DeterministicParsing.ItemSet
