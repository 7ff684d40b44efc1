/-
# Attribute evaluation

The attributes on the stack are those that are computed, from the leaves up, for the forest that has
been built over what has been read. A shift puts a leaf at its right end, and a reduction puts its
last trees below a new root, so that the function of the rule is given what has been computed for
them, from left to right. In the end one tree is left, and it is the tree that the rules reduced
spell out.

As long as no function faults, the functions take no part in what the machine does: without its
attributes it makes the same steps, and ends in the same way.
-/
import DeterministicParsing.Proofs.Forest.Growth
import DeterministicParsing.Proofs.ShiftReduce.Soundness

namespace DeterministicParsing

/-! ## Forests side by side -/

namespace Forest

variable {V : Type} {semantics : Semantics V} {tokens : List Token} {first second : Forest}

/-- The attributes of two forests side by side are those of the first one, followed by those of the
second one, whose leaves come later. -/
theorem evaluate_append (position : Nat) :
    (first.append second).evaluate semantics tokens position =
      (do
        let front ← first.evaluate semantics tokens position
        let back ← second.evaluate semantics tokens (position + first.frontier.length)
        return front ++ back) := by
  induction first generalizing position with
  | nil =>
      show second.evaluate semantics tokens position =
        second.evaluate semantics tokens position >>= .ok
      cases second.evaluate semantics tokens position <;> rfl
  | leaf terminal others ih =>
      have further : position + (others.frontier.length + 1) =
          position + 1 + others.frontier.length := by
        omega
      cases isToken : tokens[position]? with
      | none =>
          simp only [append, evaluate, isToken]
          rfl
      | some token => simp [append, evaluate, isToken, ih, frontier, further]
  | branch rule nonterminal below others _ ih =>
      simp [append, evaluate, ih, frontier, Nat.add_assoc]

/-- Each root has one attribute. -/
theorem length_of_evaluate_eq_ok {position : Nat} {attributes : List (Attribute V)}
    (computed : first.evaluate semantics tokens position = .ok attributes) :
    attributes.length = first.roots.length := by
  induction first generalizing position attributes with
  | nil =>
      cases computed
      rfl
  | leaf terminal others ih =>
      rw [evaluate] at computed
      split at computed
      · cases computed
      · obtain ⟨rest, restComputed, whole⟩ := exists_of_bind_eq_ok computed
        cases whole
        rw [List.length_cons, ih restComputed, roots, List.length_cons]
  | branch rule nonterminal below others _ ih =>
      obtain ⟨_, _, afterBelow⟩ := exists_of_bind_eq_ok computed
      obtain ⟨_, _, afterValue⟩ := exists_of_bind_eq_ok afterBelow
      obtain ⟨rest, restComputed, whole⟩ := exists_of_bind_eq_ok afterValue
      cases whole
      rw [List.length_cons, ih restComputed, roots, List.length_cons]

end Forest

namespace ShiftReduce

variable {grammar : Grammar} {method : Method} {target : Nat} {analysis : Analysis} {V : Type}
  {semantics : Semantics V} {machine next final : Machine V} {tokens : List Token}

namespace Machine

/-! ## The forest on the stack -/

/-- There is a forest over what has been read, with the symbols on the stack as its roots and the
rules reduced as its right parse, and its attributes are those on the stack. -/
def Evaluates (semantics : Semantics V) (tokens : List Token) (machine : Machine V) : Prop :=
  ∃ (forest : Forest) (read : List Token), tokens = read ++ machine.remaining ∧
    forest.IsOf machine.parser.grammar ∧ forest.roots = machine.symbols ∧
    forest.frontier = read.map Token.terminal ∧ forest.rightParse = machine.reductions ∧
    forest.evaluate semantics tokens 0 = .ok (machine.stack.reverse.map Entry.carried)

theorem evaluates_initial (parser : Parser) (semantics : Semantics V) (tokens : List Token) :
    (initial parser (some semantics) tokens).Evaluates semantics tokens :=
  ⟨.nil, [], rfl, .nil, rfl, rfl, rfl, rfl⟩

/-- A shift puts a leaf with its token at the right end of the forest. -/
theorem Evaluates.shift {token : Token} {rest : List Token}
    (evaluates : machine.Evaluates semantics tokens)
    (ahead : machine.remaining = token :: rest) (goal : Nat) :
    (machine.shift token goal).Evaluates semantics tokens := by
  obtain ⟨forest, read, split, isOf, isRoots, isFrontier, backwards, computed⟩ := evaluates
  rw [ahead] at split
  have isRead : tokens[forest.frontier.length]? = some token := by
    rw [isFrontier, split, List.length_map,
      List.getElem?_append_right (Nat.le_refl _), Nat.sub_self]
    rfl
  refine ⟨forest.append (.leaf token.terminal .nil), read ++ [token], ?_, ?_, ?_, ?_, ?_, ?_⟩
  · simpa [Machine.shift, ahead] using split
  · exact Forest.isOf_append.mpr ⟨isOf, .leaf token.terminal .nil⟩
  · rw [Forest.roots_append, isRoots, symbols_shift]
    rfl
  · simp [isFrontier, Forest.frontier]
  · rw [Forest.rightParse_append, backwards]
    exact List.append_nil _
  · rw [Forest.evaluate_append, computed]
    simp [Forest.evaluate, isRead, Machine.shift]

/-- A reduction puts the last trees of the forest below a new root. -/
theorem Evaluates.reduce {id goal : Nat} {rule : Rule} {value : Option V}
    (evaluates : machine.Evaluates semantics tokens) (applies : machine.semantics = some semantics)
    (found : machine.parser.grammar.rules[id]? = some rule)
    (spelled : (machine.stack.take rule.body.length).reverse.map Entry.symbol = rule.body)
    (computes : machine.synthesised id (machine.stack.take rule.body.length).reverse = .ok value) :
    (machine.reducedTo id rule value goal).Evaluates semantics tokens := by
  obtain ⟨forest, read, split, isOf, isRoots, isFrontier, backwards, computed⟩ := evaluates
  rw [symbols_of_spelled spelled] at isRoots
  obtain ⟨left, right, rfl, leftRoots, rightRoots⟩ := Forest.exists_eq_append isRoots
  obtain ⟨leftOf, rightOf⟩ := Forest.isOf_append.mp isOf
  rw [Forest.evaluate_append] at computed
  obtain ⟨front, frontComputed, afterFront⟩ := exists_of_bind_eq_ok computed
  obtain ⟨back, backComputed, whole⟩ := exists_of_bind_eq_ok afterFront
  obtain ⟨isFront, isBack⟩ :
    front = (machine.stack.drop rule.body.length).reverse.map Entry.carried ∧
      back = (machine.stack.take rule.body.length).reverse.map Entry.carried := by
    rw [← List.take_append_drop rule.body.length machine.stack, List.reverse_append,
      List.map_append] at whole
    refine List.append_inj' (Except.ok.inj whole) ?_
    rw [Forest.length_of_evaluate_eq_ok backComputed, rightRoots, List.length_map]
    have spelledLength := congrArg List.length spelled
    rw [List.length_map] at spelledLength
    exact spelledLength.symm
  have applied : semantics.apply id back = .ok value := by
    rw [synthesised, applies] at computes
    rw [isBack]
    exact computes
  refine ⟨left.append (.branch id rule.head right .nil), read, split, ?_, ?_, ?_, ?_, ?_⟩
  · refine Forest.isOf_append.mpr ⟨leftOf, .branch ?_ rightOf .nil⟩
    rw [rightRoots]
    exact found
  · rw [Forest.roots_append, leftRoots, symbols_reducedTo]
    rfl
  · rw [← isFrontier]
    simp [Forest.frontier]
  · rw [Forest.rightParse_append] at backwards ⊢
    have isReduced : (machine.reducedTo id rule value goal).reductions =
        machine.reductions ++ [id] :=
      List.reverse_cons
    rw [isReduced, ← backwards, List.append_assoc]
    rfl
  · rw [Forest.evaluate_append, frontComputed]
    simp only [Forest.evaluate, backComputed, applied, ok_bind, pure_eq_ok, isFront]
    simp [reducedTo]

theorem Moves.evaluates (moves : machine.Moves next) (applies : machine.semantics = some semantics)
    (evaluates : machine.Evaluates semantics tokens) : next.Evaluates semantics tokens := by
  cases moves with
  | shift _ ahead _ => exact evaluates.shift ahead _
  | reduce _ _ _ found spelled _ computes => exact evaluates.reduce applies found spelled computes

theorem evaluates_of_moves (moves : Relation.ReflTransGen Moves machine final)
    (applies : machine.semantics = some semantics)
    (evaluates : machine.Evaluates semantics tokens) :
    final.Evaluates semantics tokens := by
  suffices kept : final.semantics = some semantics ∧ final.Evaluates semantics tokens from kept.2
  induction moves with
  | refl => exact ⟨applies, evaluates⟩
  | tail _ moves ih => exact ⟨moves.unchanged.2.2.trans ih.1, moves.evaluates ih.1 ih.2⟩

end Machine

end ShiftReduce

/-! ## Machines without their attributes -/

/-- An attribute as it is without synthesis functions: no value has been computed. -/
def Attribute.bare {V : Type} : Attribute V → Attribute Unit
  | .token read => .token read
  | .value _ => .value none

/-- The functions return for all arguments. -/
def Semantics.IsTotal {V : Type} (semantics : Semantics V) : Prop :=
  ∀ rule function, semantics.functions.find? rule = some function →
    ∀ attributes, ∃ value, function attributes = .ok value

theorem Semantics.IsTotal.exists_apply_eq_ok {V : Type} {semantics : Semantics V}
    (total : semantics.IsTotal) (rule : Nat) (attributes : List (Attribute V)) :
    ∃ value, semantics.apply rule attributes = .ok value := by
  rw [Semantics.apply]
  cases isFunction : semantics.functions.find? rule with
  | none => exact ⟨none, rfl⟩
  | some function =>
      obtain ⟨value, returns⟩ := total rule function isFunction attributes
      exact ⟨some value, by simp [returns]⟩

theorem Semantics.isTotal_empty (V : Type) : (empty : Semantics V).IsTotal := by
  intro rule function isFunction
  cases isFunction

theorem Semantics.IsTotal.add {V : Type} {semantics : Semantics V} (total : semantics.IsTotal)
    {rule : Nat} {function : Synthesis V}
    (returns : ∀ attributes, ∃ value, function attributes = .ok value) :
    (semantics.add rule function).IsTotal := by
  intro other otherFunction isFunction
  rw [Semantics.add, AscendingMap.find?_insert] at isFunction
  split at isFunction
  · cases isFunction
    exact returns
  · exact total other otherFunction isFunction

/-- Counts the `a` in any number of them. The rule `S → ε` has no function. -/
def Semantics.counting : Semantics Nat :=
  Semantics.empty.add 0 fun attributes => .ok ((attributes.filterMap Attribute.value?).sum + 1)

namespace ShiftReduce

variable {V : Type} {semantics : Semantics V} {machine next : Machine V} {tokens : List Token}

/-- An entry without what has been computed for it. -/
def Entry.bare (entry : Entry V) : Entry Unit := ⟨entry.symbol, entry.carried.bare, entry.state⟩

namespace Machine

/-- The machine without synthesis functions and without what they have computed. -/
def bare (machine : Machine V) : Machine Unit where
  parser := machine.parser
  semantics := none
  position := machine.position
  remaining := machine.remaining
  stack := machine.stack.map Entry.bare
  reduced := machine.reduced
  result := machine.result.map fun _ => none

@[simp]
theorem state_bare : machine.bare.state = machine.state := by
  rw [state, state, bare]
  cases machine.stack <;> rfl

/-- A handle is checked against the symbols alone. -/
theorem find?_zip_bare (entries : List (Entry V)) (body : List Symbol) :
    ((entries.map Entry.bare).zip body).find? (fun (entry, symbol) => entry.symbol != symbol) =
      ((entries.zip body).find? fun (entry, symbol) => entry.symbol != symbol).map
        (Prod.map Entry.bare fun symbol => symbol) := by
  rw [List.zip_map_left, List.find?_map]
  rfl

theorem handle_bare (id : Nat) (rule : Rule) :
    machine.bare.handle id rule = (machine.handle id rule).map (List.map Entry.bare) := by
  have entries : (machine.bare.stack.take rule.body.length).reverse =
      (machine.stack.take rule.body.length).reverse.map Entry.bare := by
    rw [List.map_reverse, List.map_take]
    rfl
  have table : machine.bare.parser = machine.parser := rfl
  simp only [handle, entries, find?_zip_bare, List.length_map, state_bare, table]
  split
  · cases machine.parser.grammar.ruleIdText id <;> rfl
  · cases ((machine.stack.take rule.body.length).reverse.zip rule.body).find?
      fun (entry, symbol) =>
        entry.symbol != symbol with
    | none => rfl
    | some found =>
        dsimp only [Option.map_some, Prod.map, Entry.bare]
        cases machine.parser.grammar.symbolName found.1.symbol with
        | error => rfl
        | ok name => cases machine.parser.grammar.ruleIdText id <;> rfl

theorem pushHead_bare (applies : machine.semantics = some semantics) (total : semantics.IsTotal)
    (id : Nat) (rule : Rule) (body : List (Entry V)) :
    machine.bare.pushHead id rule (body.map Entry.bare) =
      (machine.pushHead id rule body).map bare := by
  obtain ⟨value, computed⟩ := total.exists_apply_eq_ok id (body.map Entry.carried)
  have table : machine.bare.parser = machine.parser := rfl
  have silent : machine.bare.semantics = none := rfl
  simp only [pushHead, state_bare, table, applies, silent, computed]
  cases machine.parser.table.goto? machine.state rule.head with
  | none => cases machine.parser.grammar.nonterminalName rule.head <;> rfl
  | some target => rfl

theorem reduce_bare (applies : machine.semantics = some semantics)
    (total : semantics.IsTotal) (id : Nat) :
    machine.bare.reduce id = ((machine.reduce id).1, (machine.reduce id).2.bare) := by
  have table : machine.bare.parser = machine.parser := rfl
  simp only [reduce, table]
  cases machine.parser.grammar.rule id with
  | error reason => rfl
  | ok rule =>
      have popped : machine.bare.pop rule = (machine.pop rule).bare := by
        simp only [pop, bare, List.map_drop]
      simp only [handle_bare, popped]
      cases machine.handle id rule with
      | error reason => rfl
      | ok body =>
          have stillApplies : (machine.pop rule).semantics = some semantics := applies
          simp only [Except.map, pushHead_bare stillApplies total]
          cases (machine.pop rule).pushHead id rule body <;> rfl

/-- A machine makes the same steps without its attributes. -/
theorem step_bare (applies : machine.semantics = some semantics) (total : semantics.IsTotal) :
    machine.bare.step = (machine.step.1, machine.step.2.bare) := by
  have table : machine.bare.parser = machine.parser := rfl
  have ahead : machine.bare.lookahead? = machine.lookahead? := rfl
  have accepted : machine.bare.isAccepted = machine.isAccepted := by
    simp [isAccepted, bare]
  simp only [step, accepted, ahead, table, state_bare]
  split
  · rfl
  · cases machine.lookahead? with
    | none => rfl
    | some token =>
        dsimp only
        cases machine.parser.table.action? machine.state token.terminal with
        | none => simp only [refuse, table, state_bare]; rfl
        | some action =>
            cases action with
            | shift target => rfl
            | reduce rule => exact reduce_bare applies total rule
            | accept =>
                refine Prod.ext rfl ?_
                show machine.bare.accept = machine.accept.bare
                rw [accept, accept, bare, bare]
                cases machine.stack with
                | nil => rfl
                | cons top below =>
                    cases isCarried : top.carried <;>
                      simp [Entry.bare, Attribute.bare, Attribute.value?, isCarried]

theorem semantics_of_step_eq_ok {move : Move} (unfinished : machine.result = none)
    (steps : machine.step = (.ok move, next)) : next.semantics = machine.semantics := by
  rcases moves_or_accepts unfinished steps with moves | ⟨_, _, _, rfl⟩
  · exact moves.unchanged.2.2
  · rfl

/-- A machine ends with the same error or with the same rules without its attributes, or neither
ends. -/
theorem run_bare (applies : machine.semantics = some semantics)
    (total : semantics.IsTotal) (bound : Nat) :
    (machine.run bound).map (fun ended => ended.1.map Parse.reductions) =
      (machine.bare.run bound).map fun ended => ended.1.map Parse.reductions := by
  induction bound generalizing machine with
  | zero => rfl
  | succ bound ih =>
      rw [run, run]
      cases isResult : machine.result with
      | some value =>
          have isBare : machine.bare.result = some none := by rw [bare, isResult]; rfl
          rw [isBare]
          rfl
      | none =>
          have isBare : machine.bare.result = none := by rw [bare, isResult]; rfl
          rw [isBare, step_bare applies total]
          rcases steps : machine.step with ⟨outcome, next⟩
          cases outcome with
          | error reason => rfl
          | ok move => exact ih ((semantics_of_step_eq_ok isResult steps).trans applies)

end Machine

/-- Synthesis functions that return take no part in how an input is parsed. -/
theorem Parser.map_reductions_parseWith (parser : Parser) (total : semantics.IsTotal) (bound : Nat)
    (tokens : List Token) :
    (parser.parseWith (some semantics) bound tokens).map (Except.map Parse.reductions) =
      (parser.parse bound tokens).map (Except.map Parse.reductions) := by
  cases taken : Token.checkEnd tokens with
  | error reason =>
      rw [Parser.parse, Parser.parseWith, Parser.parseWith, Machine.start, Machine.start, taken]
      rfl
  | ok _ =>
      rw [Parser.parse, Parser.parseWith_eq_run taken, Parser.parseWith_eq_run taken,
        Option.map_map, Option.map_map]
      have applies : (Machine.initial parser (some semantics) tokens).semantics = some semantics :=
        rfl
      exact Machine.run_bare applies total bound

/-! ## Parses with attributes -/

section

variable {grammar : Grammar} {method : Method} {target : Nat} {analysis : Analysis}

/-- The forest of a single nonterminal has a single attribute, which is a value. -/
theorem exists_value_of_evaluate_eq_ok {forest : Forest} {nonterminal position : Nat}
    {attributes : List (Attribute V)} (isTree : forest.roots = [.nonterminal nonterminal])
    (computed : forest.evaluate semantics tokens position = .ok attributes) :
    ∃ value, attributes = [.value value] := by
  have single := Forest.length_of_evaluate_eq_ok computed
  rw [isTree] at single
  obtain ⟨only, rfl⟩ := List.length_eq_one_iff.mp single
  cases forest with
  | nil => cases isTree
  | leaf => cases (List.cons.inj isTree).1
  | branch rule _ below others =>
      obtain ⟨_, _, afterBelow⟩ := exists_of_bind_eq_ok computed
      obtain ⟨value, _, afterValue⟩ := exists_of_bind_eq_ok afterBelow
      obtain ⟨_, _, whole⟩ := exists_of_bind_eq_ok afterValue
      cases whole
      exact ⟨value, rfl⟩

/-- The value of a parse is computed from the leaves up for the forest that its rules spell out. -/
theorem Analysis.IsAnalysisOf.exists_evaluate_eq_ok
    (isAnalysis : analysis.IsAnalysisOf grammar method target) {bound : Nat} {parse : Parse V}
    (parsed : analysis.parser.parseWith (some semantics) bound tokens = some (.ok parse)) :
    ∃ forest : Forest, forest.IsOf grammar ∧ forest.roots = [.nonterminal target] ∧
      forest.rightParse = parse.reductions ∧
      forest.evaluate semantics tokens 0 = .ok [.value parse.value] := by
  obtain ⟨_, final, token, rest, moves, accepts, rfl⟩ :=
    Parser.exists_accepts_of_parseWith_eq parsed
  obtain ⟨driven, _⟩ :=
    (Machine.IsDrivenBy.initial (some semantics) tokens).retraces_of_moves isAnalysis
      (Machine.retraces_initial _ _ _) moves
  obtain ⟨onlyStart, _⟩ := accepts.symbols_eq isAnalysis driven
  obtain ⟨forest, _, _, isOf, isRoots, _, backwards, computed⟩ :=
    Machine.evaluates_of_moves moves rfl
      (Machine.evaluates_initial analysis.parser semantics tokens)
  rw [onlyStart] at isRoots
  rw [driven.follows] at isOf
  obtain ⟨value, isValue⟩ := exists_value_of_evaluate_eq_ok isRoots computed
  obtain ⟨top, isStack, isCarried⟩ : ∃ top, final.stack = [top] ∧
      top.carried = .value value := by
    obtain ⟨top, below, isReverse, isCarried, noBelow⟩ := List.map_eq_cons_iff.mp isValue
    obtain rfl := List.map_eq_nil_iff.mp noBelow
    exact ⟨top, List.reverse_eq_iff.mp isReverse, isCarried⟩
  refine ⟨forest, isOf.of_not_mem isAnalysis.augments isAnalysis.fresh ?_,
    isRoots, backwards, ?_⟩
  · rw [isRoots]
    exact isAnalysis.fresh.fresh _ (List.mem_of_getElem? isAnalysis.fresh.found)
  · rw [computed, isValue, isStack]
    simp [isCarried, Attribute.value?]

end

/-- For every well-formed grammar that is not augmented yet, every method and all synthesis
functions that return: parsing with the functions ends with the same error or with the same rules
reduced as parsing without them, or neither ends. If it ends well, its value is the one that is
computed, from the leaves up, for the root of the tree that the rules reduced spell out: each leaf
has the token at its place, and each other node what the function of its rule computes from its
children, from left to right, if there is one. The tree is the same with the rules of the grammar
and of its augmentation. -/
theorem attributes_are_evaluated_bottom_up (grammar : Grammar) (wellFormed : grammar.WellFormed)
    (notAugmented : grammar.isAugmented = false) (method : Method) :
    ∃ analysis, Analysis.compute grammar method = .ok analysis ∧
      ∀ (V : Type) (semantics : Semantics V), semantics.IsTotal → ∀ bound tokens,
        (analysis.parser.parseWith (some semantics) bound tokens).map
            (Except.map Parse.reductions) =
          (analysis.parser.parse bound tokens).map (Except.map Parse.reductions) ∧
        ∀ parse, analysis.parser.parseWith (some semantics) bound tokens = some (.ok parse) →
          ∃ (tree : DerivationTree) (forest : Forest),
            DerivationTree.ofRightParse analysis.grammar parse.reductions = .ok tree ∧
            DerivationTree.ofRightParse grammar parse.reductions = .ok tree ∧
            forest.StandsIn tree.nodes [DerivationTree.root] ∧
            forest.evaluate semantics tokens 0 = .ok [.value parse.value] := by
  obtain ⟨analysis, target, computed, _, isAnalysis⟩ :=
    Analysis.exists_compute_eq_ok wellFormed notAugmented method
  refine ⟨analysis, computed, fun V semantics total bound tokens =>
    ⟨analysis.parser.map_reductions_parseWith total bound tokens, fun parse parsed => ?_⟩⟩
  obtain ⟨forest, isOf, isRoots, backwards, evaluates⟩ :=
    isAnalysis.exists_evaluate_eq_ok parsed
  obtain ⟨tree, stands, _, grows⟩ :=
    DerivationTree.exists_derive_eq_ok_of_roots .rightmost isRoots
  have isRules : DerivationTree.Order.rulesOf .rightmost forest = parse.reductions.reverse := by
    rw [DerivationTree.Order.rulesOf, backwards]
  rw [isRules] at grows
  exact ⟨tree, forest, grows _ (isOf.augmented isAnalysis.augments),
    grows _ isOf, stands, evaluates⟩

/-- The value of `a a` is the number of its letters, and it is computed for the tree of the
parse. -/
theorem attributes_of_repetition_are_evaluated_bottom_up :
    ∃ analysis, Analysis.compute Grammar.repetition .lalr1 = .ok analysis ∧
      analysis.parser.parseWith (some Semantics.counting) 7
        [⟨"a", 1⟩, ⟨"a", 1⟩, Token.endToken] = some (.ok ⟨[1, 0, 0], some 2⟩) ∧
      (analysis.parser.parse 7 [⟨"a", 1⟩, ⟨"a", 1⟩, Token.endToken]).map
        (Except.map Parse.reductions) = some (.ok [1, 0, 0]) ∧
      ∃ (tree : DerivationTree) (forest : Forest),
        DerivationTree.ofRightParse Grammar.repetition [1, 0, 0] = .ok tree ∧
        forest.StandsIn tree.nodes [DerivationTree.root] ∧
        forest.evaluate Semantics.counting [⟨"a", 1⟩, ⟨"a", 1⟩, Token.endToken] 0 =
          .ok [.value (some 2)] := by
  obtain ⟨analysis, computed, evaluated⟩ :=
    attributes_are_evaluated_bottom_up Grammar.repetition Grammar.wellFormed_repetition rfl .lalr1
  have evaluates : (Analysis.compute Grammar.repetition .lalr1).map (fun analysis =>
      analysis.parser.parseWith (some Semantics.counting) 7
        [⟨"a", 1⟩, ⟨"a", 1⟩, Token.endToken]) =
      .ok (some (.ok ⟨[1, 0, 0], some 2⟩)) := by
    decide +kernel
  rw [computed] at evaluates
  have parsed : analysis.parser.parseWith (some Semantics.counting) 7
      [⟨"a", 1⟩, ⟨"a", 1⟩, Token.endToken] = some (.ok ⟨[1, 0, 0], some 2⟩) :=
        Except.ok.inj evaluates
  have total : Semantics.counting.IsTotal :=
    (Semantics.isTotal_empty Nat).add fun attributes => ⟨_, rfl⟩
  obtain ⟨same, values⟩ :=
    evaluated Nat Semantics.counting total 7 [⟨"a", 1⟩, ⟨"a", 1⟩, Token.endToken]
  rw [parsed] at same
  obtain ⟨tree, forest, _, grows, stands, value⟩ := values _ parsed
  exact ⟨analysis, computed, parsed, same.symm, tree, forest, grows, stands, value⟩

end ShiftReduce

end DeterministicParsing
