/-
# Shift-reduce tables as text

A table is printed with one row for each state and one column for each terminal and nonterminal. The
start that augmentation added is left out, since nothing leads there. Several candidates in one cell
are divided by slashes.
-/
import DeterministicParsing.Text.Columns
import DeterministicParsing.Grammar.Printer
import DeterministicParsing.ShiftReduce.Table

namespace DeterministicParsing.ShiftReduce

/-- An action as it is told in a conflict. -/
def Action.longText (grammar : Grammar) : Action → Except Fault String
  | reduce rule => do return "reduce " ++ (← grammar.ruleIdText rule)
  | shift target => .ok s!"shift and go to {target}"
  | accept => .ok "accept"

/-- A conflict with its actions, one a line. -/
def Conflict.text (grammar : Grammar) (conflict : Conflict) : Except Fault String := do
  let terminal ← grammar.terminalName conflict.terminal
  let title :=
    conflict.kind.text ++ s!" conflict in state {conflict.state} on `" ++ terminal ++ "`:"
  let actions ← conflict.actions.mapM (Action.longText grammar)
  return "\n    ".intercalate (title :: actions)

namespace Table

/-- The nonterminals that have a column. -/
def columnNonterminals (grammar : Grammar) : List Nat :=
  grammar.nonterminals.filter fun nonterminal =>
    !(grammar.acceptRule.any (grammar.isRuleOf · nonterminal))

def rowCells (grammar : Grammar) (table : Table) (state : Nat) : List String :=
  let actions := grammar.terminals.map fun terminal =>
    "/".intercalate ((table.cell state terminal).map Action.text)
  let gotos := (columnNonterminals grammar).map fun nonterminal =>
    match table.goto? state nonterminal with
    | some target => s!"{target}"
    | none => ""
  s!"{state}" :: actions ++ gotos

def text (grammar : Grammar) (table : Table) : Except Fault String := do
  let terminals ← grammar.terminals.mapM grammar.terminalName
  let nonterminals ← (columnNonterminals grammar).mapM grammar.nonterminalName
  let rows := (List.range table.rows.length).map (table.rowCells grammar)
  return Text.columns (("" :: terminals ++ nonterminals) :: rows)

end Table

end DeterministicParsing.ShiftReduce
