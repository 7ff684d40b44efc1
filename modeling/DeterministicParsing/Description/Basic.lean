/-
# Grammar descriptions

A description declares terminals, rules and the start, in any order. Each name is kept with the
offset at which it is written, because errors point at it.
-/
import DeterministicParsing.Description.Token

namespace DeterministicParsing

namespace Description

/-- A name and the offset at which it is written. -/
structure Name where
  text : String
  offset : Nat
  deriving DecidableEq

structure RuleDeclaration where
  name : Name
  variants : List (List Name)
  deriving DecidableEq

/-- What could have stood in the place of a token. -/
inductive Expectation where
  | declaration
  /-- The name of a terminal or the end of the list. -/
  | tokenName
  | startSymbol
  | semicolon
  | colon
  /-- The next part of a variant, or the end of it. -/
  | variantPart
  | variantEnd
  deriving DecidableEq

/-- The expectation as error messages show it. -/
def Expectation.describe : Expectation → String
  | declaration => "declaration"
  | tokenName => "token name or `;`"
  | startSymbol => "start symbol"
  | semicolon => "`;`"
  | colon => "`:`"
  | variantPart => "name, `epsilon`, `|`, or `;`"
  | variantEnd => "`|` or `;`"

/-- Why a text is not the description of a grammar. -/
inductive Error where
  | unterminated (offset : Nat)
  | unexpected (offset : Nat) (found : Token) (expected : Expectation)
  | unexpectedEnd (expected : Expectation)
  | unknownSymbol (name : Name)
  | nameClash (name : Name)
  | unknownStart (name : Name)
  | duplicateStart (offset : Nat)
  | noRules
  deriving DecidableEq

def Error.message : Error → String
  | unterminated offset => s!"unterminated quoted name at offset {offset}"
  | unexpected offset found expected =>
      "expected " ++ expected.describe ++ ", found " ++ found.describe ++ s!" at offset {offset}"
  | unexpectedEnd expected => "expected " ++ expected.describe ++ ", found end of input"
  | unknownSymbol name => "unknown token or rule `" ++ name.text ++ s!"` at offset {name.offset}"
  | nameClash name =>
      "rule name `" ++ name.text ++ s!"` at offset {name.offset} conflicts with a token"
  | unknownStart name =>
      "start symbol `" ++ name.text ++ s!"` at offset {name.offset} is not a rule"
  | duplicateStart offset => s!"start symbol declared again at offset {offset}"
  | noRules => "grammar has no rules"

end Description

/-- What a text declares. -/
structure Description where
  tokens : List Description.Name := []
  rules : List Description.RuleDeclaration := []
  starts : List Description.Name := []
  deriving DecidableEq

end DeterministicParsing
