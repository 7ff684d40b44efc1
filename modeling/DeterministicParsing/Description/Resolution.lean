/-
# From a description to its grammar

Terminals and nonterminals are numbered in the order of their first declaration, and every variant
becomes a rule, in the order in which they are written. A name in a variant stands for a terminal if
it is declared as one, and for a rule otherwise. `$end` can be declared like any other terminal and
then stands for the end of the input.
-/
import DeterministicParsing.Description.Parser
import DeterministicParsing.Grammar.Basic

namespace DeterministicParsing.Description

variable (description : Description)

def declaresToken (name : String) : Bool := description.tokens.any (·.text == name)

def withTokens : Grammar :=
  description.tokens.foldl (fun grammar name => (grammar.addTerminal name.text).2) .empty

/-- Declare the nonterminal of a rule declaration. -/
def addHead (grammar : Grammar) (declaration : RuleDeclaration) : Except Error Grammar :=
  if description.declaresToken declaration.name.text then .error (.nameClash declaration.name)
  else .ok (grammar.addNonterminal declaration.name.text).2

/-- The symbol that a name in a variant stands for. -/
def symbolOf (grammar : Grammar) (name : Name) : Except Error Symbol :=
  let terminal :=
    if description.declaresToken name.text then grammar.terminal? name.text else none
  match terminal, grammar.nonterminal? name.text with
  | some id, _ => .ok (.terminal id)
  | none, some id => .ok (.nonterminal id)
  | none, none => .error (.unknownSymbol name)

/-- Add a variant as a rule. Its head keeps the number under which it is declared. -/
def addVariant (name : Name) (grammar : Grammar) (variant : List Name) :
    Except Error Grammar := do
  let body ← variant.mapM (description.symbolOf grammar)
  return (grammar.addNonterminal name.text).2.withRule
    ⟨(grammar.addNonterminal name.text).1, body⟩ (grammar.addNonterminal_lt name.text)

def addVariants (grammar : Grammar) (declaration : RuleDeclaration) : Except Error Grammar :=
  declaration.variants.foldlM (description.addVariant declaration.name) grammar

def chooseStart (grammar : Grammar) : Except Error Grammar :=
  match description.starts with
  | [] => .ok grammar
  | [name] =>
      match grammar.nonterminal? name.text with
      | some id => .ok (grammar.setStart id)
      | none => .error (.unknownStart name)
  | _ :: again :: _ => .error (.duplicateStart again.offset)

def resolve : Except Error Grammar := do
  if description.rules.isEmpty then
    throw .noRules
  let declared ← description.rules.foldlM description.addHead description.withTokens
  let complete ← description.rules.foldlM description.addVariants declared
  description.chooseStart complete

/-- Read the grammar that a text describes. -/
def read (text : String) : Except Error Grammar := do
  (← parse text).resolve

end DeterministicParsing.Description
