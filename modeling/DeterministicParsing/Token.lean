/-
# Input tokens

The parsers read tokens: words, each classified as a terminal of the grammar. A stream of tokens
ends with one `$end`.
-/
import DeterministicParsing.Grammar.Basic
import DeterministicParsing.Text.Blank

namespace DeterministicParsing

/-- A word of the input and the terminal it was classified as. -/
structure Token where
  lexeme : String
  terminal : Nat
  deriving DecidableEq

namespace Token

def endToken : Token := ⟨endName, endOfInput⟩

def isEnd (token : Token) : Bool := token.terminal == endOfInput

/-- Why a text cannot be classified. -/
inductive Error where
  /-- A word is not the name of a terminal. The position counts words from 0. -/
  | unknownTerminal (word : String) (position : Nat)
  deriving DecidableEq

def Error.message : Error → String
  | unknownTerminal word position => "`" ++ word ++ s!"` at word {position} is not a terminal"

/-- Classify words by name. The position is that of the first word. A word `$end` ends the input,
and the words after it are not looked at. -/
def ofWords (grammar : Grammar) : Nat → List String → Except Error (List Token)
  | _, [] => .ok [endToken]
  | position, word :: rest =>
      match grammar.terminal? word with
      | none => .error (.unknownTerminal word position)
      | some terminal =>
          if terminal = endOfInput then .ok [endToken]
          else do
            let others ← ofWords grammar (position + 1) rest
            return ⟨word, terminal⟩ :: others

/-- Classify the words of a text by name, and end them with `$end`. -/
def tokenize (grammar : Grammar) (text : String) : Except Error (List Token) :=
  ofWords grammar 0 (Text.words text)

def ofTerminal (grammar : Grammar) (terminal : Nat) : Except Fault Token := do
  return ⟨← grammar.terminalName terminal, terminal⟩

/-- The tokens of a sequence of terminals, ended with `$end`. An `$end` within the sequence is left
out. -/
def ofTerminals (grammar : Grammar) (terminals : List Nat) : Except Fault (List Token) := do
  let tokens ← (terminals.filter (· != endOfInput)).mapM (ofTerminal grammar)
  return tokens ++ [endToken]

end Token

end DeterministicParsing
