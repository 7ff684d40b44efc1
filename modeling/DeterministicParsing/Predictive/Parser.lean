/-
# The predictive parser

The parser keeps the symbols that are still to be recognised, the next one first. A terminal has to
be the next token. A nonterminal is replaced by the body of the rule that the next token predicts.
The input is accepted if nothing but `$end` is left when all symbols have been recognised. The rules
applied are the left parse of the input, that is, a leftmost derivation of it.
-/
import DeterministicParsing.ParseError
import DeterministicParsing.Predictive.Table

namespace DeterministicParsing.Predictive

/-- A grammar with a table to parse it by. The table is normally that of the grammar, but nothing
depends on it. -/
structure Parser where
  grammar : Grammar
  table : Table

/-- A predictive parser at work. -/
structure Configuration where
  /-- The symbols that are to be recognised, the next one first. -/
  stack : List Symbol
  position : Nat
  remaining : List Token
  /-- The rules applied, the last one first. -/
  applied : List Nat
  deriving DecidableEq

namespace Parser

variable (parser : Parser)

/-- The parser in front of an input, which has to end with `$end` and contain no other. -/
def start (tokens : List Token) : Except (Failure ParseError) Configuration := do
  match Token.checkEnd tokens with
  | .error reason => Failure.raise reason
  | .ok () =>
      if parser.grammar.nonterminalNames.isEmpty then
        Failure.raise .emptyGrammar
      else
        return ⟨[.nonterminal (← parser.grammar.start)], 0, tokens, []⟩

def recognise (configuration : Configuration) (stack : List Symbol) (terminal : Nat)
    (token : Token) : Except (Failure ParseError) Configuration := do
  if terminal = token.terminal then
    return { configuration with
      stack
      position := configuration.position + 1
      remaining := configuration.remaining.tail }
  else
    let expected ← parser.grammar.terminalName terminal
    let found ← parser.grammar.terminalName token.terminal
    Failure.raise (.mismatch expected found configuration.position)

/-- Replace a nonterminal by the body of the predicted rule. -/
def expand (configuration : Configuration) (stack : List Symbol) (nonterminal : Nat)
    (token : Token) : Except (Failure ParseError) Configuration := do
  match parser.table.rule? nonterminal token.terminal with
  | none =>
      let expected ← parser.grammar.nonterminalName nonterminal
      let found ← parser.grammar.terminalName token.terminal
      Failure.raise (.unpredicted expected found configuration.position)
  | some id =>
      let rule ← parser.grammar.rule id
      return { configuration with
        stack := rule.body ++ stack
        applied := id :: configuration.applied }

/-- Deal with the next symbol, in front of the rest of the stack. -/
def step (configuration : Configuration) (symbol : Symbol) (stack : List Symbol) :
    Except (Failure ParseError) Configuration :=
  match configuration.remaining with
  | [] => Failure.raise .missingEnd
  | token :: _ =>
      match symbol with
      | .terminal terminal => parser.recognise configuration stack terminal token
      | .nonterminal nonterminal => parser.expand configuration stack nonterminal token

/-- The outcome when all symbols have been recognised. -/
def finish (configuration : Configuration) : Except (Failure ParseError) (List Nat) :=
  if configuration.remaining.head?.any Token.isEnd then
    .ok configuration.applied.reverse
  else
    Failure.raise (.trailingInput configuration.position)

/-- Deal with symbols until none is left. A table with conflicts can keep the parser busy for ever,
so the number of rounds is bounded, and there is no answer when the bound is reached. -/
def run : Nat → Configuration → Option (Except (Failure ParseError) (List Nat))
  | 0, _ => none
  | bound + 1, configuration =>
      match configuration.stack with
      | [] => some (finish configuration)
      | symbol :: stack =>
          match parser.step configuration symbol stack with
          | .ok next => run bound next
          | .error reason => some (.error reason)

def parse (bound : Nat) (tokens : List Token) : Option (Except (Failure ParseError) (List Nat)) :=
  match parser.start tokens with
  | .error reason => some (.error reason)
  | .ok configuration => parser.run bound configuration

end Parser

end DeterministicParsing.Predictive
