/-
# Items as text

An item is written in brackets as its rule with a dot for the marker, followed by its lookaheads. A
marker beyond the end of the body cannot be written.
-/
import DeterministicParsing.Item.Basic

namespace DeterministicParsing

/-- The lookaheads of an item, after a comma; nothing if it has none. -/
def Item.lookaheadText (grammar : Grammar) : Option TerminalSet → Except Fault String
  | none => .ok ""
  | some set => do
      let names ← set.toList.mapM grammar.terminalName
      return if names.isEmpty then "," else ", " ++ "/".intercalate names

def Item.text (grammar : Grammar) (item : Item) : Except Fault String := do
  let rule ← grammar.rule item.core.rule
  let head ← grammar.nonterminalName rule.head
  if rule.body.length < item.core.marker then
    throw (.marker item.core.rule item.core.marker)
  let read ← (rule.body.take item.core.marker).mapM grammar.symbolName
  let ahead ← (rule.body.drop item.core.marker).mapM grammar.symbolName
  let words := (head ++ " ->") :: read ++ "." :: ahead
  return "[" ++ " ".intercalate words ++ (← lookaheadText grammar item.lookahead) ++ "]"

/-- The items of a set, one a line with its place in front. -/
def ItemSet.text (grammar : Grammar) (set : ItemSet) : Except Fault String := do
  let lines ← set.items.zipIdx.mapM fun (item, index) => do
    return s!"{index} " ++ (← item.text grammar)
  return if lines.isEmpty then "<empty>" else "\n".intercalate lines

end DeterministicParsing
