/-
# Construction methods

The four ways to build a shift-reduce table. They differ in the automaton they start from and in the
terminals on which a completed rule is reduced.
-/
import DeterministicParsing.FollowSets
import DeterministicParsing.Automaton.Basic

namespace DeterministicParsing.ShiftReduce

/-- A way to build a shift-reduce table. -/
inductive Method where
  /-- Reduce on every terminal. -/
  | lr0
  /-- Reduce on the terminals that follow the head of the rule. -/
  | slr1
  /-- Reduce on the lookaheads of the item. -/
  | lr1
  /-- Reduce on the lookaheads of the item, which are united over states with the same cores. -/
  | lalr1
  deriving DecidableEq

namespace Method

def text : Method → String
  | lr0 => "LR(0)"
  | slr1 => "SLR(1)"
  | lr1 => "LR(1)"
  | lalr1 => "LALR(1)"

/-- The automaton the method starts from. -/
def automatonKind : Method → AutomatonKind
  | lr0 | slr1 => .lr0
  | lr1 => .lr1
  | lalr1 => .lalr1

structure Unknown where
  name : String
  deriving DecidableEq

def Unknown.message (unknown : Unknown) : String :=
  "unknown table construction method `" ++ unknown.name ++ "`"

/-- The method of a name. Letters count alike in both cases, and the parentheses may be left out, as
may the 1 where no other number is possible. All letters of the names are in the basic alphabet, and
no letter outside of it becomes one of them in lower case. -/
def ofName (name : String) : Except Unknown Method :=
  let lower := name.toLower
  if lower ∈ ["lr0", "lr(0)"] then .ok lr0
  else if lower ∈ ["slr", "slr1", "slr(1)"] then .ok slr1
  else if lower ∈ ["lr1", "lr(1)"] then .ok lr1
  else if lower ∈ ["lalr", "lalr1", "lalr(1)"] then .ok lalr1
  else .error ⟨name⟩

/-- The terminals on which a complete item is reduced. -/
def lookaheads (method : Method) (grammar : Grammar) (follow : FollowSets) (item : Item) :
    Except Fault (List Nat) :=
  match method with
  | lr0 => .ok grammar.terminals
  | slr1 => do
      let rule ← grammar.rule item.core.rule
      return (← follow.get rule.head).toList
  | lr1 | lalr1 => .ok (item.lookahead.getD ∅).toList

end Method

end DeterministicParsing.ShiftReduce
