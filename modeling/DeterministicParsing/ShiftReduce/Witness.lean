/-
# Witnesses of shift-reduce conflicts

A witness of a conflict is an input on which the machine arrives in the conflicting state with the
conflicting terminal next. It is found from a path through the automaton: a shortest path from the
initial state to a state in which the conflicting rule can begin, and then along the body of the
rule.

The symbols on the path are turned into terminals from right to left. A nonterminal is expanded by a
rule whose reduction is called for by the terminal after it, so that the parser will reduce it in
the same place. A rule is used at most once in a state, which keeps recursive rules from going on
for ever, and where no rule is left, a shortest sentence is put in.
-/
import DeterministicParsing.WitnessError
import DeterministicParsing.Automaton.Reachability
import DeterministicParsing.Grammar.Printer
import DeterministicParsing.ShiftReduce.Table

namespace DeterministicParsing.ShiftReduce

/-- An input that runs into a shift-reduce conflict. -/
structure Witness where
  rule : Nat
  state : Nat
  terminal : Nat
  /-- The path from the initial state to that of the conflict, as the state and the symbol of each
  transition. -/
  path : List (Nat × Symbol)
  /-- A sentence along the path, with the terminal of the conflict at its end. -/
  sentence : List Nat
  deriving DecidableEq

namespace Witness

/-- What a witness is looked for in. -/
structure Setting where
  grammar : Grammar
  automaton : Automaton
  /-- Its Follow sets, which stand in for missing lookaheads. -/
  follow : FollowSets
  sentences : Sentences

variable (setting : Setting)

/-! ## The path -/

/-- Whether a rule can begin in a state with a given terminal after it. -/
def beginsIn (rule terminal id : Nat) : Except Fault Bool := do
  match (← setting.automaton.state id).items.find? ⟨rule, 0⟩ with
  | some (some lookahead) => return lookahead.contains terminal
  | some none => return true
  | none => return false

/-- The states in which a rule can begin so that its body leads to a given state and a given
terminal may come after it, ascending. -/
def origins (state terminal rule : Nat) : Except Fault (List Nat) := do
  let body := (← setting.grammar.rule rule).body
  let candidates ← body.foldrM setting.automaton.predecessors [state]
  candidates.filterM (beginsIn setting rule terminal)

/-- The nearest state in which the rule of a conflict can begin. -/
def originOf (conflict : Conflict) (rule : Nat) :
    Except (Failure WitnessError) Automaton.Reached := do
  let reached ← setting.automaton.reachable
  let states ← origins setting conflict.state conflict.terminal rule
  match Automaton.nearest reached states with
  | some origin => return origin
  | none => Failure.raise (.noPath conflict.state)

/-- The path to the state of a conflict, through a state in which its rule begins. -/
def pathThrough (conflict : Conflict) (rule : Nat) (origin : Automaton.Reached) :
    Except (Failure WitnessError) (List (Nat × Symbol)) := do
  let body := (← setting.grammar.rule rule).body
  match ← setting.automaton.walk origin.state body with
  | some states => return origin.trail.reverse ++ states.zip body
  | none => Failure.raise (.noPath conflict.state)

/-! ## The sentence -/

/-- A path that is being turned into terminals. -/
structure Expansion where
  /-- What is still to be turned into terminals, the rightmost transition first. -/
  todo : List (Nat × Symbol)
  used : List (Nat × Nat)
  sentence : List Nat
  deriving DecidableEq

/-- A way to expand a nonterminal. -/
structure Route where
  rule : Nat
  /-- The length of its shortest sentence. -/
  cost : Nat
  transitions : List (Nat × Symbol)
  deriving DecidableEq

/-- Whether a rule that is complete in a state is reduced there on a terminal. -/
def isReducedIn (nonterminal rule terminal state : Nat) : Except Fault Bool := do
  match ← (← setting.automaton.state state).completeItem setting.grammar rule with
  | none => return false
  | some item =>
      match item.lookahead with
      | some lookahead => return lookahead.contains terminal
      | none => return (← setting.follow.get nonterminal).contains terminal

/-- The way to expand a nonterminal by a rule from a state, with a given terminal after it. There is
none if the rule derives no sentence, or has been used in the state, or cannot be followed there, or
would not be reduced. -/
def routeBy (used : List (Nat × Nat)) (state nonterminal terminal rule : Nat) :
    Except Fault (Option Route) := do
  let body := (← setting.grammar.rule rule).body
  match ← setting.sentences.sequence body with
  | none => return none
  | some sentence =>
      if used.contains (state, rule) then
        return none
      else
        match ← setting.automaton.walk state body with
        | none => return none
        | some states =>
            let last := states.getLast?.getD state
            if ← isReducedIn setting nonterminal rule terminal last then
              return some ⟨rule, sentence.length, states.zip body⟩
            else
              return none

/-- The cheapest way, and of equally cheap ones the first. -/
def cheapest (routes : List Route) : Option Route :=
  routes.foldl
    (fun best next =>
      match best with
      | none => some next
      | some known => if next.cost < known.cost then some next else best)
    none

namespace Expansion

/-- Turn a nonterminal that is read in a state into terminals, or into the symbols of a rule. -/
def expand (expansion : Expansion) (todo : List (Nat × Symbol))
    (state nonterminal terminal : Nat) :
    Except (Failure WitnessError) Expansion := do
  let rules ← setting.grammar.rulesFor nonterminal
  let routes ← Failure.lift
    (rules.mapM (routeBy setting expansion.used state nonterminal terminal))
  match cheapest (routes.filterMap id) with
  | some route =>
      return { expansion with
        todo := route.transitions.reverse ++ todo
        used := expansion.used ++ [(state, route.rule)] }
  | none =>
      let shortest ← setting.sentences.require setting.grammar (.nonterminal nonterminal)
      return { expansion with todo, sentence := shortest ++ expansion.sentence }

/-- Go on with expanding, at most `bound` times, in front of the terminal of the conflict. The
answer comes with the last expansion, which is the one that failed if there is no sentence. -/
def run (terminal : Nat) :
    Nat → Expansion → Except (Failure WitnessError) (List Nat) × Expansion
  | 0, expansion => (.ok expansion.sentence, expansion)
  | bound + 1, expansion =>
      match expansion.todo with
      | [] => (.ok expansion.sentence, expansion)
      | (_, .terminal id) :: todo =>
          run terminal bound { expansion with todo, sentence := id :: expansion.sentence }
      | (state, .nonterminal id) :: todo =>
          let next := expansion.sentence.head?.getD terminal
          match expansion.expand setting todo state id next with
          | .error reason => (.error reason, expansion)
          | .ok next => run terminal bound next

end Expansion

/-- Turn a path into a sentence with a terminal at its end. Every pair of a state and a rule adds a
body to what is to be done at most once. -/
def expandPath (path : List (Nat × Symbol)) (terminal : Nat) :
    Except (Failure WitnessError) (List Nat) × Expansion :=
  let bound := path.length + setting.automaton.states.length * setting.grammar.size + 1
  Expansion.run setting terminal bound ⟨path.reverse, [], [terminal]⟩

/-! ## The witness -/

def reductionOf (conflict : Conflict) : Except (Failure WitnessError) Nat :=
  match conflict.reductions with
  | rule :: _ => .ok rule
  | [] => Failure.raise (.noReduction conflict.state)

def ofConflict (conflict : Conflict) : Except (Failure WitnessError) Witness := do
  let rule ← reductionOf conflict
  let origin ← originOf setting conflict rule
  let path ← pathThrough setting conflict rule origin
  let sentence ← (expandPath setting path conflict.terminal).1
  return ⟨rule, conflict.state, conflict.terminal, path, sentence⟩

/-- The symbols along the path, which are on the stack when the conflict arises. -/
def symbols (witness : Witness) : List Symbol := witness.path.map Prod.snd

def text (grammar : Grammar) (witness : Witness) : Except Fault String := do
  let rule ← grammar.ruleIdText witness.rule
  let terminal ← grammar.terminalName witness.terminal
  let stack ← grammar.sentenceText witness.symbols
  let input ← grammar.terminalsText witness.sentence
  return "reduce " ++ rule ++ s!" in state {witness.state} on `" ++ terminal ++ "`" ++
    "\n    stack: " ++ stack ++ "\n    input: " ++ input

end Witness

end DeterministicParsing.ShiftReduce
