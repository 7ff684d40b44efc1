/-
# Predictive tables

A predictive table tells from a nonterminal and the next terminal which rule to apply. A rule is
predicted by the terminals its body can begin with, and if its body can be empty, by the terminals
that follow its head as well. Two rules predicted by one terminal are a conflict. The rule predicted
first stays in force.
-/
import DeterministicParsing.Registry
import DeterministicParsing.FollowSets
import DeterministicParsing.Grammar.Printer
import DeterministicParsing.Text.Columns

namespace DeterministicParsing.Predictive

/-- The sort of a conflict. -/
inductive ConflictKind where
  /-- The body of the second rule can begin with the terminal. -/
  | firstFirst
  /-- The second rule is predicted because the terminal follows its head. -/
  | followFollow
  deriving DecidableEq

def ConflictKind.text : ConflictKind → String
  | firstFirst => "first/first"
  | followFollow => "follow/follow"

/-- Different rules predicted for one nonterminal by one terminal. -/
structure Conflict where
  nonterminal : Nat
  terminal : Nat
  kind : ConflictKind
  rules : List Nat
  deriving DecidableEq

/-- A conflict with its rules, one a line. -/
def Conflict.text (grammar : Grammar) (conflict : Conflict) : Except Fault String := do
  let nonterminal ← grammar.nonterminalName conflict.nonterminal
  let terminal ← grammar.terminalName conflict.terminal
  let title :=
    conflict.kind.text ++ " conflict for `" ++ nonterminal ++ "` on `" ++ terminal ++ "`:"
  let rules ← conflict.rules.mapM grammar.ruleIdText
  return "\n    ".intercalate (title :: rules)

structure Table where
  registry : Registry (Nat × Nat) Nat ConflictKind
  deriving DecidableEq

namespace Table

def empty : Table := ⟨.empty⟩

/-- The rule for a nonterminal and a terminal. -/
def rule? (table : Table) (nonterminal terminal : Nat) : Option Nat :=
  table.registry.entries.find? (nonterminal, terminal)

/-- The rules in force, as nonterminal, terminal and rule, in the order in which they were found. -/
def entries (table : Table) : List (Nat × Nat × Nat) :=
  table.registry.entries.entries.map fun ((nonterminal, terminal), rule) =>
    (nonterminal, terminal, rule)

/-- The conflicts, in the order in which they arose. -/
def conflicts (table : Table) : List Conflict :=
  table.registry.contests.entries.map fun ((nonterminal, terminal), contest) =>
    ⟨nonterminal, terminal, contest.kind, contest.candidates⟩

/-- Whether no terminal predicts different rules of one nonterminal. -/
def isConflictFree (table : Table) : Bool := table.conflicts.isEmpty

/-- All rules predicted for a nonterminal by a terminal, the one in force first. -/
def cell (table : Table) (nonterminal terminal : Nat) : List Nat :=
  table.registry.cell (nonterminal, terminal)

/-- Register a rule for a nonterminal and a terminal. A conflict that this starts is of the given
sort, and rules that are added to one do not change its sort. -/
def register (nonterminal rule : Nat) (kind : ConflictKind) (table : Table)
    (terminal : Nat) : Table :=
  ⟨table.registry.register (fun known _ => known.getD kind) (nonterminal, terminal) rule⟩

/-- Enter a rule wherever it is predicted. -/
def visit (grammar : Grammar) (first : FirstSets) (follow : FollowSets) (table : Table)
    (id : Nat) : Except Fault Table := do
  let rule ← grammar.rule id
  let set ← first.ofSequence rule.body
  let direct := set.terminals.toList.foldl (register rule.head id .firstFirst) table
  if set.nullable then
    let after ← follow.get rule.head
    return after.toList.foldl (register rule.head id .followFollow) direct
  else
    return direct

/-- The table of a grammar with the given First and Follow sets. -/
def ofSets (grammar : Grammar) (first : FirstSets) (follow : FollowSets) : Except Fault Table :=
  grammar.ruleIds.foldlM (visit grammar first follow) empty

/-- The table of a grammar. -/
def build (grammar : Grammar) : Except Fault Table := do
  let first ← FirstSets.compute grammar
  let follow ← FollowSets.compute grammar first
  ofSets grammar first follow

/-- The row of a nonterminal. Several candidates in one cell are divided by slashes. -/
def rowCells (grammar : Grammar) (table : Table) (nonterminal : Nat) :
    Except Fault (List String) := do
  let name ← grammar.nonterminalName nonterminal
  let cells := grammar.terminals.map fun terminal =>
    "/".intercalate ((table.cell nonterminal terminal).map fun rule => s!"r{rule}")
  return name :: cells

/-- The whole table, with one row for each nonterminal and one column for each terminal. -/
def text (grammar : Grammar) (table : Table) : Except Fault String := do
  let terminals ← grammar.terminals.mapM grammar.terminalName
  let rows ← grammar.nonterminals.mapM (table.rowCells grammar)
  return Text.columns (("" :: terminals) :: rows)

end Table

end DeterministicParsing.Predictive
