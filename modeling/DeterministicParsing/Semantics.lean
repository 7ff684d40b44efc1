/-
# Attribute evaluation

A rule may have a synthesis function, which computes a value for its head from the attributes of its
body, from left to right. The attribute of a terminal is the token that was read for it; that of a
nonterminal is the value computed for it, if its rule has a function. A function that relies on an
attribute that is not there faults.
-/
import DeterministicParsing.Token

namespace DeterministicParsing

/-- What a synthesis function is given for a symbol of the body. -/
inductive Attribute (V : Type) where
  | token (token : Token)
  | value (value : Option V)
  deriving DecidableEq

namespace Attribute

variable {V : Type}

def requireToken : Attribute V → Except Fault Token
  | .token read => .ok read
  | .value _ => .error .missingAttribute

def requireValue : Attribute V → Except Fault V
  | .value (some computed) => .ok computed
  | .value none => .error .missingAttribute
  | .token _ => .error .missingAttribute

/-- The value computed for a nonterminal, if there is one. -/
def value? : Attribute V → Option V
  | .value computed => computed
  | .token _ => none

end Attribute

/-- A function from the attributes of a body to the value of its head. -/
abbrev Synthesis (V : Type) := List (Attribute V) → Except Fault V

/-- Synthesis functions by rule. -/
structure Semantics (V : Type) where
  functions : AscendingMap Nat (Synthesis V)

namespace Semantics

variable {V : Type}

def empty : Semantics V := ⟨.empty⟩

/-- Give a rule a function, in place of the one it has. -/
def add (semantics : Semantics V) (rule : Nat) (function : Synthesis V) : Semantics V :=
  ⟨semantics.functions.insert rule function⟩

def has (semantics : Semantics V) (rule : Nat) : Bool :=
  (semantics.functions.find? rule).isSome

def rules (semantics : Semantics V) : List Nat := semantics.functions.keys

/-- The value that the function of a rule computes, if the rule has one. -/
def apply (semantics : Semantics V) (rule : Nat) (attributes : List (Attribute V)) :
    Except Fault (Option V) :=
  match semantics.functions.find? rule with
  | none => .ok none
  | some function => do return some (← function attributes)

def summary (semantics : Semantics V) : String :=
  "Semantics \x7b rules: [" ++ ", ".intercalate (semantics.rules.map fun rule => s!"{rule}") ++
    "] \x7d"

end Semantics

end DeterministicParsing
