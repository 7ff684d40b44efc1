/-
# How the predictive parser moves

Each round of the parser recognises a terminal or expands a nonterminal, and these are its moves.
This module says once what a move takes and what it leads to, and that a run that ends well consists
of moves up to a configuration with nothing left to recognise in front of the end of the input. The
table may be any.
-/
import Mathlib.Logic.Relation
import DeterministicParsing.Predictive.Parser
import DeterministicParsing.Proofs.FixedPoint
import DeterministicParsing.Proofs.Token

namespace DeterministicParsing.Predictive

variable {parser : Parser} {configuration next : Configuration} {stack : List Symbol}
  {tokens rest : List Token} {token : Token}

namespace Parser

/-- What the parser does in a single round. -/
inductive Moves (parser : Parser) : Configuration → Configuration → Prop where
  /-- The next symbol is the terminal of the next token. -/
  | recognise (stack : List Symbol) (position : Nat) (token : Token) (rest : List Token)
      (applied : List Nat) :
      Moves parser ⟨.terminal token.terminal :: stack, position, token :: rest, applied⟩
        ⟨stack, position + 1, rest, applied⟩
  /-- The next symbol is a nonterminal for which the next token predicts a rule. -/
  | expand {nonterminal id : Nat} {rule : Rule} {token : Token}
      (predicted : parser.table.rule? nonterminal token.terminal = some id)
      (found : parser.grammar.rules[id]? = some rule) (stack : List Symbol) (position : Nat)
      (rest : List Token) (applied : List Nat) :
      Moves parser ⟨.nonterminal nonterminal :: stack, position, token :: rest, applied⟩
        ⟨rule.body ++ stack, position, token :: rest, id :: applied⟩

theorem moves_of_recognise_eq_ok {position terminal : Nat} {applied : List Nat}
    (made : parser.recognise ⟨.terminal terminal :: stack, position, token :: rest,
      applied⟩ stack terminal token = .ok next) :
    parser.Moves ⟨.terminal terminal :: stack, position, token :: rest, applied⟩ next := by
  rw [recognise] at made
  split at made
  · rename_i same
    cases made
    rw [same]
    exact .recognise stack position token rest applied
  · obtain ⟨_, _, raises⟩ := exists_of_bind_eq_ok made
    exact absurd raises bind_raise_ne_ok

theorem moves_of_expand_eq_ok {position nonterminal : Nat} {applied : List Nat}
    (made : parser.expand ⟨.nonterminal nonterminal :: stack, position, token :: rest,
      applied⟩ stack nonterminal token = .ok next) :
    parser.Moves ⟨.nonterminal nonterminal :: stack, position,
      token :: rest, applied⟩ next := by
  rw [expand] at made
  split at made
  · obtain ⟨_, _, raises⟩ := exists_of_bind_eq_ok made
    exact absurd raises bind_raise_ne_ok
  · rename_i id predicted
    obtain ⟨rule, ruled, goesOn⟩ := exists_of_bind_eq_ok made
    have found : parser.grammar.rules[id]? = some rule :=
      Arena.rule_eq_ok.mp (eq_ok_of_liftM_eq_ok ruled)
    cases goesOn
    exact .expand predicted found stack position rest applied

/-- A round that goes well is a move. -/
theorem moves_of_step_eq_ok {symbol : Symbol} (isStack : configuration.stack = symbol :: stack)
    (stepped : parser.step configuration symbol stack = .ok next) :
    parser.Moves configuration next := by
  obtain ⟨_, position, remaining, applied⟩ := configuration
  subst isStack
  cases remaining with
  | nil => cases stepped
  | cons token rest =>
      cases symbol with
      | terminal terminal => exact moves_of_recognise_eq_ok stepped
      | nonterminal nonterminal => exact moves_of_expand_eq_ok stepped

/-- Nothing is left to recognise, and the end of the input is ahead. -/
def IsDone (configuration : Configuration) : Prop :=
  configuration.stack = [] ∧ ∃ token rest, configuration.remaining = token :: rest ∧
    token.terminal = endOfInput

/-- A run that ends well consists of moves up to a configuration where all is done. -/
theorem exists_isDone_of_run_eq {bound : Nat} {rules : List Nat}
    (ends : parser.run bound configuration = some (.ok rules)) :
    ∃ final, Relation.ReflTransGen parser.Moves configuration final ∧ IsDone final ∧
      rules = final.applied.reverse := by
  induction bound generalizing configuration with
  | zero => cases ends
  | succ bound ih =>
      rw [run] at ends
      split at ends
      · rename_i isEmpty
        rw [Option.some.injEq, finish] at ends
        split at ends
        · rename_i atEnd
          obtain ⟨token, isNext, isEnd⟩ := (Option.any_eq_true _ _).mp atEnd
          obtain ⟨rest, ahead⟩ := List.head?_eq_some_iff.mp isNext
          refine ⟨configuration, .refl, ⟨isEmpty, token, rest, ahead, ?_⟩,
            (Except.ok.inj ends).symm⟩
          simpa [Token.isEnd] using isEnd
        · cases ends
      · rename_i symbol stack isStack
        split at ends
        · rename_i next stepped
          obtain ⟨final, moves, done, same⟩ := ih ends
          exact ⟨final, .head (moves_of_step_eq_ok isStack stepped) moves, done, same⟩
        · cases ends

/-- Only an input with its end in the right place is parsed, by moves from the start up to a
configuration where all is done. -/
theorem exists_isDone_of_parse_eq {bound start : Nat} {rules : List Nat}
    (starts : parser.grammar.start = .ok start)
    (parsed : parser.parse bound tokens = some (.ok rules)) :
    Token.checkEnd tokens = .ok () ∧ ∃ final,
      Relation.ReflTransGen parser.Moves ⟨[.nonterminal start], 0, tokens, []⟩ final ∧
      IsDone final ∧ rules = final.applied.reverse := by
  rw [parse, Parser.start] at parsed
  cases checked : Token.checkEnd tokens with
  | error reason =>
      rw [checked] at parsed
      cases parsed
  | ok _ =>
      rw [checked] at parsed
      by_cases isEmpty : parser.grammar.nonterminalNames.isEmpty = true
      · simp only [isEmpty, if_true] at parsed
        cases parsed
      · simp only [isEmpty, starts, liftM_ok, ok_bind, pure_eq_ok] at parsed
        exact ⟨rfl, exists_isDone_of_run_eq parsed⟩

end Parser

end DeterministicParsing.Predictive
