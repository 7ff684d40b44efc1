/-
# Grammars as text

Symbols are written by name. A sequence of symbols is written with single blanks between them, and
the empty sequence as `ε`. Writing a symbol that the grammar does not declare is a fault.
-/
import DeterministicParsing.Grammar.Basic

namespace DeterministicParsing.Grammar

variable (grammar : Grammar)

def emptyText : String := "ε"

def sentenceText (symbols : List Symbol) : Except Fault String := do
  let names ← symbols.mapM grammar.symbolName
  return if names.isEmpty then emptyText else " ".intercalate names

/-- A sequence of terminals; nothing stands for the empty one. -/
def terminalsText (terminals : List Nat) : Except Fault String := do
  let names ← terminals.mapM grammar.terminalName
  return " ".intercalate names

/-- A rule as an arrow from its head to its body. -/
def ruleText (rule : Rule) : Except Fault String := do
  let head ← grammar.nonterminalName rule.head
  let body ← grammar.sentenceText rule.body
  return head ++ " -> " ++ body

def ruleIdText (id : Nat) : Except Fault String := do
  grammar.ruleText (← grammar.rule id)

def bodyText (id : Nat) : Except Fault String := do
  grammar.sentenceText (← grammar.rule id).body

/-- All rules of a nonterminal on one line, or nothing if it has none. -/
def nonterminalText (id : Nat) : Except Fault String := do
  let rules ← grammar.rulesFor id
  if rules.isEmpty then
    return ""
  else
    let bodies ← rules.mapM grammar.bodyText
    return (← grammar.nonterminalName id) ++ " : " ++ " | ".intercalate bodies ++ " ;\n"

def text : Except Fault String := do
  return String.join (← grammar.nonterminals.mapM grammar.nonterminalText)

end DeterministicParsing.Grammar
