/-
# What an analysis consists of

Every method succeeds on every well-formed grammar. It leaves behind the augmented grammar, exact
Follow sets, a built automaton and the table of that automaton, and the machine that is driven by
the table moves along the transitions of the automaton: the symbols on every part of its stack lead
to the state on top of that part.
-/
import DeterministicParsing.ShiftReduce.Analysis
import DeterministicParsing.Proofs.ShiftReduce.Machine
import DeterministicParsing.Proofs.ShiftReduce.Table

namespace DeterministicParsing.ShiftReduce

variable {grammar : Grammar} {method : Method} {target : Nat} {analysis : Analysis}

/-! ## Analyses -/

/-- All parts of the analysis are what they are meant to be. The target is the start of the grammar
before it was augmented. -/
structure Analysis.IsAnalysisOf (grammar : Grammar) (method : Method) (target : Nat)
    (analysis : Analysis) : Prop where
  augments : analysis.grammar.IsAugmentationOf grammar target
  fresh : analysis.grammar.HasFreshStart grammar.nonterminalCount grammar.rules.length target
  follow : FollowSets.Exact analysis.grammar analysis.follow
  built : analysis.automaton.IsBuilt method.automatonKind analysis.grammar grammar.rules.length
  isTable : analysis.table.IsTableOf analysis.grammar analysis.automaton method analysis.follow
    grammar.nonterminalCount

/-- What all analyses of one grammar have in common. -/
structure Analysis.IsFamilyOf (grammar : Grammar) (target : Nat) (analyses : Method → Analysis)
    (augmented : Grammar) (first : FirstSets) : Prop where
  computed : ∀ method, compute grammar method = .ok (analyses method)
  isAnalysis : ∀ method, (analyses method).IsAnalysisOf grammar method target
  grammar_eq : ∀ method, (analyses method).grammar = augmented
  exact : FirstSets.Exact augmented first
  builds : ∀ method, Automaton.build augmented first method.automatonKind =
    .ok (analyses method).automaton
  tabulates : ∀ method, Table.ofAutomaton augmented (analyses method).automaton method
    (analyses method).follow = .ok (analyses method).table

/-- Every well-formed grammar that is not augmented yet can be analysed by all methods. -/
theorem Analysis.exists_isFamilyOf (wellFormed : grammar.WellFormed)
    (notAugmented : grammar.isAugmented = false) :
    ∃ target analyses augmented first, grammar.start = .ok target ∧
      IsFamilyOf grammar target analyses augmented first := by
  obtain ⟨augmented, target, augments, starts, declared, isAugmentation⟩ :=
    wellFormed.exists_augmented
  have fresh := isAugmentation.hasFreshStart wellFormed starts
  have nonempty := Grammar.isEmpty_nonterminalNames_of_lt declared
  obtain ⟨first, firstPasses, computedFirst, firstExact⟩ :=
    FirstSets.exists_computeCounted_eq_ok fresh.bodies
  obtain ⟨follow, followPasses, computedFollow, followExact⟩ :=
    FollowSets.exists_computeCounted_eq_ok fresh.wellFormed firstExact
  have each (method : Method) : ∃ automaton history table,
      Automaton.buildWithHistory augmented first method.automatonKind = .ok (automaton, history) ∧
      Table.ofAutomaton augmented automaton method follow = .ok table ∧
      automaton.IsBuilt method.automatonKind augmented grammar.rules.length ∧
      table.IsTableOf augmented automaton method follow grammar.nonterminalCount := by
    obtain ⟨automaton, history, builds, built⟩ :=
      Automaton.exists_buildWithHistory_eq_ok fresh firstExact method.automatonKind
    obtain ⟨table, tabulates, isTable⟩ :=
      Table.exists_ofAutomaton_eq_ok fresh built followExact method
    exact ⟨automaton, history, table, builds, tabulates, built, isTable⟩
  choose automaton history table builds tabulates built isTable using each
  refine ⟨target, fun method => ⟨augmented, first, firstPasses, follow, followPasses,
    automaton method, history method, table method⟩, augmented, first, starts, ?_⟩
  refine ⟨fun method => ?_, fun method =>
    ⟨isAugmentation, fresh, followExact, built method, isTable method⟩,
    fun _ => rfl, firstExact, fun method => ?_, tabulates⟩
  · simp [compute, nonempty, Grammar.ensureAugmented, notAugmented, augments, computedFirst,
      computedFollow, builds, tabulates]
  · simp [Automaton.build, builds]

/-- Every well-formed grammar that is not augmented yet can be analysed by every method. -/
theorem Analysis.exists_compute_eq_ok (wellFormed : grammar.WellFormed)
    (notAugmented : grammar.isAugmented = false) (method : Method) :
    ∃ analysis target, compute grammar method = .ok analysis ∧ grammar.start = .ok target ∧
      analysis.IsAnalysisOf grammar method target := by
  obtain ⟨target, analyses, _, _, starts, family⟩ := exists_isFamilyOf wellFormed notAugmented
  exact ⟨analyses method, target, family.computed method, starts, family.isAnalysis method⟩

theorem Analysis.isAnalysisOf_of_compute_eq_ok (wellFormed : grammar.WellFormed)
    (notAugmented : grammar.isAugmented = false) (starts : grammar.start = .ok target)
    (computed : compute grammar method = .ok analysis) :
    analysis.IsAnalysisOf grammar method target := by
  obtain ⟨other, start, alsoComputed, alsoStarts, isAnalysis⟩ :=
    exists_compute_eq_ok wellFormed notAugmented method
  obtain rfl := Except.ok.inj (alsoComputed.symm.trans computed)
  obtain rfl := Except.ok.inj (alsoStarts.symm.trans starts)
  exact isAnalysis

/-- An analysis is one of the augmented grammar. -/
theorem Analysis.augmented_eq_of_compute_eq_ok (notAugmented : grammar.isAugmented = false)
    (computed : compute grammar method = .ok analysis) :
    grammar.augmented = .ok analysis.grammar := by
  unfold compute at computed
  split at computed
  · cases computed
  · obtain ⟨augmented, augments, rest⟩ := exists_of_bind_eq_ok computed
    obtain ⟨_, _, rest⟩ := exists_of_bind_eq_ok rest
    obtain ⟨_, _, rest⟩ := exists_of_bind_eq_ok rest
    obtain ⟨_, _, rest⟩ := exists_of_bind_eq_ok rest
    obtain ⟨_, _, isAnalysis⟩ := exists_of_bind_eq_ok rest
    cases isAnalysis
    have made := eq_ok_of_liftM_eq_ok augments
    rwa [Grammar.ensureAugmented, notAugmented, if_neg Bool.false_ne_true] at made

/-! ## Reductions -/

/-- When a method reduces a complete rule in front of a terminal. -/
def Method.Permits (method : Method) (grammar : Grammar) (items : ItemSet) (core : Core)
    (head terminal : Nat) : Prop :=
  match method with
  | lr0 => grammar.Declares (.terminal terminal)
  | slr1 => grammar.Follows head terminal
  | lr1 | lalr1 => items.Allows core terminal

/-- The lookaheads of an item are the terminals in front of which the method reduces its rule. -/
theorem Method.mem_lookaheads_iff {follow : FollowSets} {items : ItemSet} {item : Item}
    {rule : Rule} {terminal : Nat} (exact : FollowSets.Exact grammar follow)
    (marked : items.Marked method.automatonKind.marked) (member : item ∈ items.items)
    (found : grammar.rules[item.core.rule]? = some rule) :
    (∃ lookaheads, method.lookaheads grammar follow item = .ok lookaheads ∧
      terminal ∈ lookaheads) ↔ method.Permits grammar items item.core rule.head terminal := by
  have isFound := ItemSet.mem_items.mp member
  have isMarked := marked item.core _ isFound
  have allowed (hasLookaheads : item.lookahead.isSome = true) :
      terminal ∈ (item.lookahead.getD ∅).toList ↔ items.Allows item.core terminal := by
    obtain ⟨set, same⟩ := Option.isSome_iff_exists.mp hasLookaheads
    rw [same] at isFound
    simp [ItemSet.Allows, isFound, same, TerminalSet.mem_toList]
  cases method with
  | lr0 => simp [lookaheads, Permits, Arena.terminals, Grammar.Declares]
  | slr1 =>
      obtain ⟨set, isSet, follows⟩ :=
        exact.exists_get_eq_ok (grammar.head_lt rule (List.mem_of_getElem? found))
      simp [lookaheads, Permits, Arena.rule_eq_ok.mpr found, isSet, follows, TerminalSet.mem_toList]
  | lr1 => simpa [lookaheads, Permits] using allowed isMarked
  | lalr1 => simpa [lookaheads, Permits] using allowed isMarked

/-- A rule is reduced where it is complete and the method permits it. -/
theorem Analysis.IsAnalysisOf.mem_cell_reduce_iff
    (isAnalysis : analysis.IsAnalysisOf grammar method target) {id ruleId terminal : Nat}
    {state : State} (isState : analysis.automaton.states[id]? = some state) :
    .reduce ruleId ∈ analysis.table.cell id terminal ↔ ∃ rule,
      analysis.grammar.rules[ruleId]? = some rule ∧ rule.head ≠ grammar.nonterminalCount ∧
      state.items.Holds ⟨ruleId, rule.body.length⟩ ∧
      method.Permits analysis.grammar state.items ⟨ruleId,
        rule.body.length⟩ rule.head terminal := by
  have marked := (isAnalysis.built.isSound.states id state isState).closes.marked
  rw [isAnalysis.isTable.mem_cell isState]
  constructor
  · rintro ⟨⟨⟨_, marker⟩, lookahead⟩, member, rfl, rule, lookaheads,
      ⟨found, complete⟩, other, looked, inside⟩
    obtain rfl : marker = rule.body.length := complete
    refine ⟨rule, found, other, ⟨lookahead, ItemSet.mem_items.mp member⟩, ?_⟩
    exact (Method.mem_lookaheads_iff isAnalysis.follow marked member found).mp
      ⟨lookaheads, looked, inside⟩
  · rintro ⟨rule, found, other, ⟨lookahead, isFound⟩, permits⟩
    have member : (⟨⟨ruleId, rule.body.length⟩, lookahead⟩ : Item) ∈ state.items.items :=
      ItemSet.mem_items.mpr isFound
    obtain ⟨lookaheads, looked, inside⟩ :=
      (Method.mem_lookaheads_iff isAnalysis.follow marked member found).mpr permits
    exact ⟨_, member, rfl, rule, lookaheads, ⟨found, rfl⟩, other, looked, inside⟩

/-- A method reduces in front of declared terminals only. -/
theorem Analysis.IsAnalysisOf.declares_of_permits
    (isAnalysis : analysis.IsAnalysisOf grammar method target) {id head terminal : Nat}
    {core : Core} {state : State} (isState : analysis.automaton.states[id]? = some state)
    (permits : method.Permits analysis.grammar state.items core head terminal) :
    analysis.grammar.Declares (.terminal terminal) := by
  cases method with
  | lr0 => exact permits
  | slr1 => exact Grammar.declares_of_mem_bodyTerminals isAnalysis.fresh.bodies permits.mem
  | lr1 => exact isAnalysis.built.declares_of_allows isAnalysis.fresh isState permits
  | lalr1 => exact isAnalysis.built.declares_of_allows isAnalysis.fresh isState permits

/-! ## Paths -/

section Paths

variable {V : Type} {machine next : Machine V} {stack : List (Entry V)}

/-- The symbols of a stack, bottom first. -/
def symbolsOf (stack : List (Entry V)) : List Symbol := (stack.map Entry.symbol).reverse

/-- The state on top of a stack. -/
def stateOf : List (Entry V) → Nat
  | [] => Automaton.initial
  | top :: _ => top.state

/-- The symbols on every part of the stack lead to the state on top of that part. -/
def IsPath (automaton : Automaton) (stack : List (Entry V)) : Prop :=
  ∀ below, below <:+ stack → automaton.Reaches (symbolsOf below) (stateOf below)

theorem isPath_nil (automaton : Automaton) : IsPath automaton ([] : List (Entry V)) := by
  intro below isPart
  rw [List.suffix_nil.mp isPart]
  exact .start

theorem IsPath.drop {automaton : Automaton} (path : IsPath automaton stack) (count : Nat) :
    IsPath automaton (stack.drop count) :=
  fun below isPart => path below (isPart.trans (List.drop_suffix count stack))

theorem IsPath.push {automaton : Automaton} (path : IsPath automaton stack) {state : State}
    {entry : Entry V} (found : automaton.states[stateOf stack]? = some state)
    (transition : state.transitions.find? entry.symbol = some entry.state) :
    IsPath automaton (entry :: stack) := by
  intro below isPart
  rcases List.suffix_cons_iff.mp isPart with rfl | isPart
  · rw [symbolsOf, List.map_cons, List.reverse_cons]
    exact .read (path stack (List.suffix_refl _)) found transition
  · exact path below isPart

/-- The machine follows the table of the analysis, and its stack is a path of the automaton. -/
structure Machine.IsDrivenBy (analysis : Analysis) (machine : Machine V) : Prop where
  follows : machine.parser = analysis.parser
  path : IsPath analysis.automaton machine.stack

namespace Machine.IsDrivenBy

theorem reaches (driven : machine.IsDrivenBy analysis) :
    analysis.automaton.Reaches machine.symbols machine.state :=
  driven.path machine.stack (List.suffix_refl _)

theorem initial (semantics : Option (Semantics V)) (tokens : List Token) :
    (Machine.initial analysis.parser semantics tokens).IsDrivenBy analysis :=
  ⟨rfl, isPath_nil _⟩

/-- Moves push along transitions. -/
theorem of_mayMove (isAnalysis : analysis.IsAnalysisOf grammar method target)
    (driven : machine.IsDrivenBy analysis) (may : machine.MayMove next) :
    next.IsDrivenBy analysis := by
  refine ⟨may.unchanged.2.1.trans driven.follows, ?_⟩
  cases may with
  | @shift token rest target _ _ proposed =>
      obtain ⟨state, found⟩ := isAnalysis.built.exists_state driven.reaches
      rw [driven.follows] at proposed
      exact driven.path.push found
        ((isAnalysis.isTable.mem_cell_shift isAnalysis.built found).mp proposed)
  | @reduce token rest id target rule value _ _ _ _ _ leads _ =>
      have shorter := driven.path.drop rule.body.length
      obtain ⟨state, found⟩ := isAnalysis.built.exists_state (shorter _ (List.suffix_refl _))
      rw [driven.follows] at leads
      refine shorter.push found ?_
      exact (isAnalysis.isTable.goto?_eq isAnalysis.built found rule.head).symm.trans leads

theorem of_moves (isAnalysis : analysis.IsAnalysisOf grammar method target)
    (driven : machine.IsDrivenBy analysis) (moves : machine.Moves next) :
    next.IsDrivenBy analysis :=
  driven.of_mayMove isAnalysis moves.mayMove

end Machine.IsDrivenBy

end Paths

end DeterministicParsing.ShiftReduce
