/-
# Parse errors

What either of the two parsers can have against an input, or, in one case, against its own table.
-/
import DeterministicParsing.Token

namespace DeterministicParsing

/-- How a stack contradicts the table that is to be followed. -/
inductive Contradiction where
  | shortStack (rule : String)
  | otherSymbol (found rule : String)
  | noGoto (nonterminal : String)
  deriving DecidableEq

/-- The wording of a contradiction. -/
def Contradiction.message : Contradiction → String
  | shortStack rule => "stack too short to reduce " ++ rule
  | otherSymbol found rule => "found `" ++ found ++ "` on the stack while reducing " ++ rule
  | noGoto nonterminal => "no goto on `" ++ nonterminal ++ "`"

/-- Why an input was not parsed. Positions count tokens from 0. -/
inductive ParseError where
  | missingEnd
  | unexpectedToken (state : Nat) (terminal lexeme : String) (position : Nat)
  | unpredicted (nonterminal terminal : String) (position : Nat)
  | mismatch (expected found : String) (position : Nat)
  | trailingInput (position : Nat)
  | emptyGrammar
  | corruptTable (state : Nat) (contradiction : Contradiction)
  deriving DecidableEq

namespace ParseError

def message : ParseError → String
  | missingEnd => "token stream must end with `$end`"
  | unexpectedToken state terminal lexeme position =>
      "unexpected `" ++ lexeme ++ "` (" ++ terminal ++ s!") at token {position} in state {state}"
  | unpredicted nonterminal terminal position =>
      "no rule of `" ++ nonterminal ++ "` starts with `" ++ terminal ++ s!"` at token {position}"
  | mismatch expected found position =>
      "expected `" ++ expected ++ "`, found `" ++ found ++ s!"` at token {position}"
  | trailingInput position => s!"trailing input at token {position}"
  | emptyGrammar => "grammar has no nonterminals"
  | corruptTable state contradiction =>
      s!"corrupt parsing table in state {state}: " ++ contradiction.message

end ParseError

/-- Check that an input ends with `$end` and has no other `$end` before. -/
def Token.checkEnd (tokens : List Token) : Except ParseError Unit :=
  if tokens.getLast?.any Token.isEnd then
    let position := tokens.findIdx Token.isEnd
    if position + 1 < tokens.length then .error (.trailingInput (position + 1)) else .ok ()
  else
    .error .missingEnd

end DeterministicParsing
