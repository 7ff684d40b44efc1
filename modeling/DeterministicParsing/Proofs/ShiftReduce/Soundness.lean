/-
# What is parsed is derived

Whatever the table of an analysis says, and whichever of several actions it prefers, the rules that
were reduced lead back from the symbols on the stack to what has been read. Accepting is possible
only in front of the end of the input and with nothing but the start on the stack. So the right
parse of every input that is accepted is a rightmost derivation of it, read backwards, and spells
out a tree.
-/
import DeterministicParsing.Proofs.DerivationTree
import DeterministicParsing.Proofs.ShiftReduce.Analysis

namespace DeterministicParsing.ShiftReduce

variable {grammar : Grammar} {method : Method} {target : Nat} {analysis : Analysis} {V : Type}
  {machine final : Machine V} {tokens : List Token}

namespace Machine

/-- Moves keep the machine on a path of the automaton, and what has been read can be retraced. -/
theorem IsDrivenBy.retraces_of_moves (isAnalysis : analysis.IsAnalysisOf grammar method target)
    (driven : machine.IsDrivenBy analysis) (retraces : machine.Retraces tokens)
    (moves : Relation.ReflTransGen Moves machine final) :
    final.IsDrivenBy analysis ∧ final.Retraces tokens := by
  induction moves with
  | refl => exact ⟨driven, retraces⟩
  | tail _ moves ih => exact ⟨ih.1.of_moves isAnalysis moves, moves.retraces ih.2⟩

/-- Only the start is on the stack of a machine that accepts, and only the end of the input is ahead
of it. -/
theorem Accepts.symbols_eq (isAnalysis : analysis.IsAnalysisOf grammar method target)
    (driven : machine.IsDrivenBy analysis) {token : Token} {rest : List Token}
    (accepts : machine.Accepts token rest) :
    machine.symbols = [.nonterminal target] ∧ token.terminal = endOfInput := by
  have reaches := driven.reaches
  obtain ⟨state, found⟩ := isAnalysis.built.exists_state reaches
  have action := accepts.action
  rw [driven.follows] at action
  obtain ⟨item, member, atEnd, rule, ⟨ruleFound, complete⟩, isStart⟩ :=
    (isAnalysis.isTable.mem_cell found).mp (Table.mem_cell_of_action?_eq_some action)
  have holds : state.items.Holds item.core := ⟨_, ItemSet.mem_items.mp member⟩
  obtain ⟨after, valid⟩ := (isAnalysis.built.holds_iff isAnalysis.fresh reaches found).mp holds
  obtain ⟨⟨id, marker⟩, lookahead⟩ := item
  obtain rfl := isAnalysis.fresh.unique id rule ruleFound isStart
  obtain rfl := Option.some.inj (isAnalysis.fresh.found.symm.trans ruleFound)
  obtain rfl : marker = 1 := complete
  exact ⟨(isAnalysis.fresh.eq_of_validFor_accept valid).1, atEnd⟩

/-- When a machine accepts, the rules reduced are a rightmost derivation of what it has read. -/
theorem Accepts.derivesRightmost (isAnalysis : analysis.IsAnalysisOf grammar method target)
    (driven : machine.IsDrivenBy analysis) (retraces : machine.Retraces tokens)
    (taken : Token.checkEnd tokens = .ok ()) {token : Token} {rest : List Token}
    (accepts : machine.Accepts token rest) :
    ∃ read last, tokens = read ++ [last] ∧ last.terminal = endOfInput ∧
      endOfInput ∉ read.map Token.terminal ∧
      grammar.DerivesRightmost [.nonterminal target] machine.reductions.reverse
        (word (read.map Token.terminal)) := by
  obtain ⟨read, last, rfl, ends, absent⟩ := Token.checkEnd_eq_ok taken
  obtain ⟨shifted, split, rightmost⟩ := retraces
  obtain ⟨onlyStart, atEnd⟩ := accepts.symbols_eq isAnalysis driven
  obtain rfl : shifted = read := by
    rw [accepts.ahead] at split
    exact Token.eq_of_append_cons_eq absent atEnd split
  refine ⟨shifted, last, rfl, ends, absent, ?_⟩
  rw [onlyStart, driven.follows] at rightmost
  rw [reductions, List.reverse_reverse]
  refine isAnalysis.augments.derivesRightmost_of_not_mem isAnalysis.fresh rightmost ?_
  exact isAnalysis.fresh.fresh _ (List.mem_of_getElem? isAnalysis.fresh.found)

end Machine

/-- Whatever is parsed, with or without synthesis functions, ends where it should, and the rules
reduced are a rightmost derivation of it. -/
theorem Analysis.IsAnalysisOf.derivesRightmost_of_parseWith_eq
    (isAnalysis : analysis.IsAnalysisOf grammar method target) {semantics : Option (Semantics V)}
    {bound : Nat} {parse : Parse V}
    (parsed : analysis.parser.parseWith semantics bound tokens = some (.ok parse)) :
    ∃ read last, tokens = read ++ [last] ∧ last.terminal = endOfInput ∧
      endOfInput ∉ read.map Token.terminal ∧
      grammar.DerivesRightmost [.nonterminal target] parse.reductions.reverse
        (word (read.map Token.terminal)) := by
  obtain ⟨taken, final, token, rest, moves, accepts, isOutcome⟩ :=
    Parser.exists_accepts_of_parseWith_eq parsed
  obtain ⟨driven, retraces⟩ :=
    (Machine.IsDrivenBy.initial semantics tokens).retraces_of_moves isAnalysis
      (Machine.retraces_initial _ semantics _) moves
  rw [isOutcome]
  exact accepts.derivesRightmost isAnalysis driven retraces taken

/-- For every well-formed grammar that is not augmented yet and every method: if the parser ends
well on an input, with whatever conflicts in its table, then the input is a word followed by the end
of the input, the rules reduced are, from last to first, a rightmost derivation of the word from the
start, the accept rule is not among them, and they spell out a tree over the word with the start as
its root. -/
theorem parsed_inputs_are_derived_rightmost (grammar : Grammar) (wellFormed : grammar.WellFormed)
    (notAugmented : grammar.isAugmented = false) (method : Method) :
    ∃ analysis start accept, Analysis.compute grammar method = .ok analysis ∧
      grammar.start = .ok start ∧ analysis.grammar.acceptRule = some accept ∧
      ∀ bound tokens parse, analysis.parser.parse bound tokens = some (.ok parse) →
        ∃ read last tree, tokens = read ++ [last] ∧ last.terminal = endOfInput ∧
          endOfInput ∉ read.map Token.terminal ∧
          grammar.DerivesRightmost [.nonterminal start] parse.reductions.reverse
            (word (read.map Token.terminal)) ∧
          accept ∉ parse.reductions ∧
          DerivationTree.ofRightParse analysis.grammar parse.reductions = .ok tree ∧
          tree.nodes[DerivationTree.root]?.map Node.symbol =
            some (.nonterminal start) ∧
          tree.frontier = read.map Token.terminal := by
  obtain ⟨analysis, start, computed, starts, isAnalysis⟩ :=
    Analysis.exists_compute_eq_ok wellFormed notAugmented method
  refine ⟨analysis, start, grammar.rules.length, computed, starts,
    isAnalysis.augments.acceptRule_eq, fun bound tokens parse parsed => ?_⟩
  obtain ⟨read, last, same, ends, absent, rightmost⟩ :=
    isAnalysis.derivesRightmost_of_parseWith_eq parsed
  obtain ⟨tree, grown, isRoot, frontier⟩ :=
    DerivationTree.exists_ofRightParse_eq_ok (isAnalysis.augments.derivesRightmost rightmost)
  rw [List.reverse_reverse] at grown
  refine ⟨read, last, tree, same, ends, absent, rightmost,
    fun member => ?_, grown, isRoot, frontier⟩
  exact Nat.lt_irrefl _ (rightmost.lt_length (List.mem_reverse.mpr member))

/-- The table without lookaheads for any number of `a` has a conflict, and the action in force there
is the one that parses `a a`. -/
theorem parsed_repetition_is_derived_rightmost :
    ∃ analysis parse, Analysis.compute Grammar.repetition .lr0 = .ok analysis ∧
      analysis.table.isConflictFree = false ∧
      analysis.parser.parse 7 [⟨"a", 1⟩, ⟨"a", 1⟩, Token.endToken] = some (.ok parse) ∧
      parse.reductions = [1, 0, 0] ∧
      Grammar.repetition.DerivesRightmost
        [.nonterminal 0] parse.reductions.reverse (word [1, 1]) := by
  obtain ⟨analysis, start, _, computed, starts, _, derived⟩ :=
    parsed_inputs_are_derived_rightmost Grammar.repetition Grammar.wellFormed_repetition rfl .lr0
  have evaluates : (Analysis.compute Grammar.repetition .lr0).map (fun analysis =>
      (analysis.table.isConflictFree,
        analysis.parser.parse 7 [⟨"a", 1⟩, ⟨"a", 1⟩, Token.endToken])) =
      .ok (false, some (.ok ⟨[1, 0, 0], none⟩)) := by
    decide +kernel
  rw [computed] at evaluates
  obtain ⟨conflict, parsed⟩ := Prod.mk.inj (Except.ok.inj evaluates)
  obtain ⟨read, last, _, same, _, _, rightmost, _⟩ := derived _ _ _ parsed
  obtain ⟨rfl, _⟩ :=
    List.append_inj' (show [⟨"a", 1⟩, ⟨"a", 1⟩] ++ [Token.endToken] = _ from same) rfl
  cases starts
  exact ⟨analysis, _, computed, conflict, parsed, rfl, rightmost⟩

end DeterministicParsing.ShiftReduce
