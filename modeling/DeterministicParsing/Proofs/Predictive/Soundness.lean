/-
# What is predicted is derived

The tokens that have been recognised, followed by the symbols that are still to be recognised, are
always derived from the start by the rules that were applied. Recognising a terminal only moves it
from one part of that string to the other. Expanding a nonterminal replaces the leftmost one, since
nothing but terminals stands in front of it, by a rule that is one for it. So whatever is predicted
where the table has conflicts, the rules applied to an input that is accepted are its leftmost
derivation.
-/
import DeterministicParsing.Proofs.DerivationTree
import DeterministicParsing.Proofs.Predictive.Parser
import DeterministicParsing.Proofs.Predictive.Table

namespace DeterministicParsing

/-! ## An example -/

/-- Lists of `x`, with the rules `L → x L`, `L → x` and `L → ε`. The first two begin
alike. -/
def Grammar.unfactored : Grammar :=
  .ofLists ["x"] ["L"]
    [⟨0, [.terminal 1, .nonterminal 0]⟩, ⟨0, [.terminal 1]⟩, ⟨0, []⟩]
    (by decide) (by decide) (by decide)

theorem Grammar.wellFormed_unfactored : Grammar.unfactored.WellFormed :=
  ⟨by decide, 0, rfl, by decide⟩

namespace Predictive

variable {parser : Parser} {configuration next final : Configuration} {tokens : List Token}
  {start : Nat}

/-- What has been recognised, followed by what is to be recognised, is derived by the rules
applied. -/
def Configuration.Retraces (grammar : Grammar) (start : Nat) (tokens : List Token)
    (configuration : Configuration) : Prop :=
  ∃ recognised, tokens = recognised ++ configuration.remaining ∧
    grammar.DerivesLeftmost [.nonterminal start] configuration.applied.reverse
      (word (recognised.map Token.terminal) ++ configuration.stack)

namespace Parser

theorem retraces_start (grammar : Grammar) (start : Nat) (tokens : List Token) :
    Configuration.Retraces grammar start tokens ⟨[.nonterminal start], 0, tokens, []⟩ :=
  ⟨[], rfl, .refl _⟩

/-- A move keeps the derivation, and an expansion extends it. -/
theorem Moves.retraces (isTable : parser.table.IsTableOf parser.grammar)
    (moves : parser.Moves configuration next)
    (retraces : configuration.Retraces parser.grammar start tokens) :
    next.Retraces parser.grammar start tokens := by
  obtain ⟨recognised, split, leftmost⟩ := retraces
  cases moves with
  | recognise stack position token rest applied =>
      exact ⟨recognised ++ [token], by simpa using split, by simpa using leftmost⟩
  | @expand nonterminal id rule token predicted found stack position rest applied =>
      obtain ⟨isHead, _⟩ :=
        (predicts_iff found).mp (isTable.predicts_of_rule?_eq_some predicted)
      rw [isHead] at leftmost
      refine ⟨recognised, split, ?_⟩
      rw [List.reverse_cons]
      exact leftmost.trans (.head found (recognised.map Token.terminal) stack (.refl _))

theorem retraces_of_moves (isTable : parser.table.IsTableOf parser.grammar)
    (moves : Relation.ReflTransGen parser.Moves configuration final)
    (retraces : configuration.Retraces parser.grammar start tokens) :
    final.Retraces parser.grammar start tokens := by
  induction moves with
  | refl => exact retraces
  | tail _ moves ih => exact moves.retraces isTable ih

/-- Whatever is parsed ends where it should, and the rules applied are a leftmost derivation of
it. -/
theorem derivesLeftmost_of_parse_eq (isTable : parser.table.IsTableOf parser.grammar)
    (starts : parser.grammar.start = .ok start) {bound : Nat} {rules : List Nat}
    (parsed : parser.parse bound tokens = some (.ok rules)) :
    ∃ read last, tokens = read ++ [last] ∧ last.terminal = endOfInput ∧
      endOfInput ∉ read.map Token.terminal ∧
      parser.grammar.DerivesLeftmost [.nonterminal start] rules
        (word (read.map Token.terminal)) := by
  obtain ⟨taken, final, moves, ⟨noStack, token, rest, ahead, atEnd⟩, rfl⟩ :=
    exists_isDone_of_parse_eq starts parsed
  obtain ⟨read, last, rfl, ends, absent⟩ := Token.checkEnd_eq_ok taken
  obtain ⟨recognised, split, leftmost⟩ :=
    retraces_of_moves isTable moves (retraces_start parser.grammar start (read ++ [last]))
  obtain rfl : recognised = read := by
    rw [ahead] at split
    exact Token.eq_of_append_cons_eq absent atEnd split
  rw [noStack, List.append_nil] at leftmost
  exact ⟨recognised, last, rfl, ends, absent, leftmost⟩

end Parser

/-- For every well-formed grammar: if the predictive parser ends well on an input, with whatever
conflicts in its table, then the input is a word followed by the end of the input, the rules applied
are a leftmost derivation of the word from the start, and they spell out a tree over the word with
the start as its root. -/
theorem parsed_inputs_are_derived_leftmost (grammar : Grammar) (wellFormed : grammar.WellFormed) :
    ∃ analysis start, Analysis.compute grammar = .ok analysis ∧ grammar.start = .ok start ∧
      ∀ bound tokens rules, analysis.parser.parse bound tokens = some (.ok rules) →
        ∃ read last tree, tokens = read ++ [last] ∧ last.terminal = endOfInput ∧
          endOfInput ∉ read.map Token.terminal ∧
          grammar.DerivesLeftmost [.nonterminal start] rules (word (read.map Token.terminal)) ∧
          DerivationTree.ofLeftParse grammar rules = .ok tree ∧
          tree.nodes[DerivationTree.root]?.map Node.symbol = some (.nonterminal start) ∧
          tree.frontier = read.map Token.terminal := by
  obtain ⟨analysis, computed, rfl, isTable⟩ := Analysis.exists_compute_eq_ok wellFormed
  obtain ⟨_, start, starts, _⟩ := wellFormed
  have ownTable : analysis.parser.table.IsTableOf analysis.parser.grammar := isTable
  refine ⟨analysis, start, computed, starts, fun bound tokens rules parsed => ?_⟩
  obtain ⟨read, last, same, ends, absent, leftmost⟩ :=
    Parser.derivesLeftmost_of_parse_eq ownTable starts parsed
  obtain ⟨tree, grown, isRoot, frontier⟩ := DerivationTree.exists_ofLeftParse_eq_ok leftmost
  exact ⟨read, last, tree, same, ends, absent, leftmost, grown, isRoot, frontier⟩

/-- The table for lists of `x` has a conflict, and the rule in force there is the one that parses
`x x`. -/
theorem parsed_unfactored_is_derived_leftmost :
    ∃ analysis, Analysis.compute Grammar.unfactored = .ok analysis ∧
      analysis.table.isConflictFree = false ∧
      analysis.parser.parse 6 [⟨"x", 1⟩, ⟨"x", 1⟩, Token.endToken] =
        some (.ok [0, 0, 2]) ∧
      Grammar.unfactored.DerivesLeftmost [.nonterminal 0] [0, 0, 2] (word [1, 1]) := by
  obtain ⟨analysis, start, computed, starts, derived⟩ :=
    parsed_inputs_are_derived_leftmost Grammar.unfactored Grammar.wellFormed_unfactored
  have evaluates : (Analysis.compute Grammar.unfactored).map (fun analysis =>
      (analysis.table.isConflictFree,
        analysis.parser.parse 6 [⟨"x", 1⟩, ⟨"x", 1⟩, Token.endToken])) =
      .ok (false, some (.ok [0, 0, 2])) := by
    decide +kernel
  rw [computed] at evaluates
  obtain ⟨conflict, parsed⟩ := Prod.mk.inj (Except.ok.inj evaluates)
  obtain ⟨read, last, _, same, _, _, leftmost, _⟩ := derived _ _ _ parsed
  obtain ⟨rfl, _⟩ :=
    List.append_inj' (show [⟨"x", 1⟩, ⟨"x", 1⟩] ++ [Token.endToken] = _ from same) rfl
  cases starts
  exact ⟨analysis, computed, conflict, parsed, leftmost⟩

end Predictive

end DeterministicParsing
