/-
# Grammars that are read are handled without faults

Symbols, rules, states and nodes are numbers that nothing keeps from being used where nothing is
declared under them. What keeps them in place is that they all come from one description. Reading it
leaves a well-formed grammar, and from there on every number is taken from what has been declared:
augmentation adds to it, items, automata and tables only name it, and the parsers push nothing else.
So whatever is made of a grammar that has been read, and of an input that has been divided into its
terminals, goes through without a fault.
-/
import DeterministicParsing.Proofs.Description.Resolution
import DeterministicParsing.Proofs.ShiftReduce.Fault
import DeterministicParsing.Proofs.Predictive.Fault

namespace DeterministicParsing

/-- For every text from which a grammar is read: its First and Follow sets are computed. The
shift-reduce analysis by every method is computed. Nothing in it is missing, and its automaton, its
table, its conflicts and all witnesses that are found can be written. On every input that is made of
terminals of the grammar, no step, run or parse faults unless a synthesis function does, none of
them finds fault with the table, and every parse that ends well grows a tree that can be written.
The same is true of the predictive analysis. -/
theorem grammars_that_are_read_are_handled_without_faults (text : String) (grammar : Grammar)
    (reads : Description.read text = .ok grammar) :
    (∃ first follow, FirstSets.compute grammar = .ok first ∧
      FollowSets.compute grammar first = .ok follow) ∧
    (∀ method, ∃ analysis, ShiftReduce.Analysis.compute grammar method = .ok analysis ∧
      analysis.IsComplete ∧ ∀ input tokens, Token.tokenize grammar input = .ok tokens →
        analysis.Handles grammar tokens) ∧
    ∃ analysis, Predictive.Analysis.compute grammar = .ok analysis ∧
      analysis.IsComplete ∧ ∀ input tokens, Token.tokenize grammar input = .ok tokens →
        analysis.Handles tokens := by
  obtain ⟨wellFormed, notAugmented⟩ := Description.wellFormed_of_read_eq_ok reads
  refine ⟨?_, fun method => ?_, ?_⟩
  · obtain ⟨first, computedFirst, exact⟩ := FirstSets.exists_compute_eq_ok wellFormed.bodies
    obtain ⟨follow, _, computedFollow, _⟩ :=
      FollowSets.exists_computeCounted_eq_ok wellFormed exact
    exact ⟨first, follow, computedFirst, by simp [FollowSets.compute, computedFollow]⟩
  · obtain ⟨target, analyses, _, _, _, family⟩ :=
      ShiftReduce.Analysis.exists_isFamilyOf wellFormed notAugmented
    refine ⟨analyses method, family.computed method, family.isComplete method, ?_⟩
    intro input tokens tokenized
    obtain ⟨taken, declared⟩ := Token.of_tokenize_eq_ok tokenized
    exact (family.isAnalysis method).handles wellFormed taken declared
  · obtain ⟨analysis, computed, rfl, isTable⟩ :=
      Predictive.Analysis.exists_compute_eq_ok wellFormed
    refine ⟨analysis, computed, Predictive.Analysis.isComplete wellFormed isTable, ?_⟩
    intro input tokens tokenized
    obtain ⟨taken, declared⟩ := Token.of_tokenize_eq_ok tokenized
    exact Predictive.Analysis.handles wellFormed isTable taken declared

/-- Statements with a dangling `else` have conflicts with both analyses. Both parsers end well on
`if if x`, and their parses grow trees. -/
theorem dangling_else_is_handled_without_faults :
    ∃ grammar tokens,
      Description.read "token if else x; S : if S | if S else S | x ;" = .ok grammar ∧
      Token.tokenize grammar "if if x" = .ok tokens ∧
      (∃ analysis, ShiftReduce.Analysis.compute grammar .lalr1 = .ok analysis ∧
        analysis.table.isConflictFree = false ∧ analysis.IsComplete ∧
        analysis.Handles grammar tokens ∧
        analysis.parser.parse 8 tokens = some (.ok ⟨[2, 0, 0], none⟩) ∧
        analysis.GrowsTree grammar [2, 0, 0]) ∧
      ∃ analysis, Predictive.Analysis.compute grammar = .ok analysis ∧
        analysis.table.isConflictFree = false ∧ analysis.IsComplete ∧
        analysis.Handles tokens ∧ analysis.parser.parse 8 tokens = some (.ok [0, 0, 2]) ∧
        DerivationTree.IsShown analysis.grammar
          (DerivationTree.ofLeftParse analysis.grammar [0, 0, 2]) := by
  let source := Description.read "token if else x; S : if S | if S else S | x ;"
  let tokens : List Token := [⟨"if", 1⟩, ⟨"if", 1⟩, ⟨"x", 3⟩, Token.endToken]
  have divides : source.toOption.map (Token.tokenize · "if if x") = some (.ok tokens) := by
    decide +kernel
  have reduces :
    source.toOption.map (fun grammar => (ShiftReduce.Analysis.compute grammar .lalr1).map
      fun analysis => (analysis.table.isConflictFree, analysis.parser.parse 8 tokens)) =
      some (.ok (false, some (.ok ⟨[2, 0, 0], none⟩))) := by
    decide +kernel
  have predicts : source.toOption.map (fun grammar => (Predictive.Analysis.compute grammar).map
      fun analysis => (analysis.table.isConflictFree, analysis.parser.parse 8 tokens)) =
      some (.ok (false, some (.ok [0, 0, 2]))) := by
    decide +kernel
  cases reads : source with
  | error reason =>
      rw [reads] at divides
      cases divides
  | ok grammar =>
      obtain ⟨_, shiftReduce, predictive, computed, complete, handles⟩ :=
        grammars_that_are_read_are_handled_without_faults _ grammar reads
      obtain ⟨analysis, analysed, analysisComplete, analysisHandles⟩ := shiftReduce .lalr1
      simp only [reads, Except.toOption, Option.map_some, Option.some.injEq, analysed, computed]
        at divides reduces predicts
      obtain ⟨conflicting, reduced⟩ := Prod.mk.inj (Except.ok.inj reduces)
      obtain ⟨alsoConflicting, predicted⟩ := Prod.mk.inj (Except.ok.inj predicts)
      have handled := analysisHandles _ _ divides
      have alsoHandled := handles _ _ divides
      exact ⟨grammar, tokens, reads, divides,
        ⟨analysis, analysed, conflicting, analysisComplete, handled, reduced,
          handled.parseTree Unit none 8 _ reduced⟩,
        predictive, computed, alsoConflicting, complete, alsoHandled, predicted,
        alsoHandled.tree 8 _ predicted⟩

end DeterministicParsing
