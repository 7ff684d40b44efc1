/-
# Witnesses of shift-reduce conflicts are derivable

A state reduces a rule because the rule is complete there, and whatever the method, this has come
about along some string: the string ends with the body of the rule, and where the body begins, the
rule is already there, with the terminal allowed after it if the automaton keeps lookaheads.
Lookaheads that were united from several strings do not matter, since one of these strings has
brought in the terminal. So the search for a state in which the rule begins finds one, and the path
through it ends with the body. What is left to fail is a nonterminal of the path that derives no
terminal string.
-/
import DeterministicParsing.Proofs.ShiftReduce.Expansion
import DeterministicParsing.Proofs.ShiftReduce.Hierarchy
import DeterministicParsing.Proofs.ShiftReduce.Settling
import DeterministicParsing.Proofs.Automaton.Reachability

namespace DeterministicParsing

/-- An `if` with or without an `else`. -/
def Grammar.danglingElse : Grammar :=
  .ofLists ["if", "else", "x"] ["Statement"]
    [⟨0, [.terminal 1, .nonterminal 0]⟩,
      ⟨0, [.terminal 1, .nonterminal 0, .terminal 2, .nonterminal 0]⟩, ⟨0, [.terminal 3]⟩]
    (by decide) (by decide) (by decide)

theorem Grammar.wellFormed_danglingElse : Grammar.danglingElse.WellFormed :=
  ⟨by decide, 0, rfl, by decide⟩

namespace ShiftReduce

variable {grammar : Grammar} {method : Method} {analysis : Analysis}

namespace Witness

variable {setting : Setting} {kind : AutomatonKind} {start accept target : Nat}
  {conflict : Conflict} {state terminal ruleId : Nat} {rule : Rule} {known : State}

/-! ## Where a rule begins -/

/-- A rule that is reduced on a terminal is there, with the terminal after it. -/
theorem admits_of_permits {items : ItemSet} {core : Core} {head : Nat} (holds : items.Holds core)
    (permits : method.Permits grammar items core head terminal) :
    Admits method.automatonKind items core terminal := by
  refine ⟨holds, fun marked => ?_⟩
  cases method with
  | lr0 => cases marked
  | slr1 => cases marked
  | lr1 => exact permits
  | lalr1 => exact permits

/-- Whether a rule begins in a state is read off its items. -/
theorem exists_beginsIn_eq_ok (exact : setting.IsExact kind start accept target)
    (isState : setting.automaton.states[state]? = some known) (ruleId terminal : Nat) :
    ∃ result, beginsIn setting ruleId terminal state = .ok result ∧
      (result = true ↔ Admits kind known.items ⟨ruleId, 0⟩ terminal) := by
  have marked := (exact.built.isSound.states state known isState).closes.marked
  simp only [beginsIn, Automaton.state, isState, ok_bind, pure_eq_ok]
  cases found : known.items.find? ⟨ruleId, 0⟩ with
  | none => exact ⟨false, rfl, by simp [Admits, ItemSet.Holds, found]⟩
  | some lookahead =>
      have isMarked := marked _ _ found
      cases lookahead with
      | none => exact ⟨true, rfl, by simp_all [Admits, ItemSet.Holds]⟩
      | some lookahead =>
          refine ⟨lookahead.contains terminal, rfl, ?_⟩
          simp_all [Admits, ItemSet.Holds, ItemSet.Allows]

/-- A complete rule has come about along some string. -/
theorem exists_frame_of_admits (exact : setting.IsExact kind start accept target)
    {string : List Symbol} (reaches : setting.automaton.Reaches string state)
    (isState : setting.automaton.states[state]? = some known)
    (isRule : setting.grammar.rules[ruleId]? = some rule)
    (admits : Admits kind known.items ⟨ruleId, rule.body.length⟩ terminal) :
    ∃ before after, setting.automaton.Reaches (before ++ rule.body) state ∧
      setting.grammar.Frame before rule.head after ∧
      (kind.marked = true → setting.grammar.DerivesBeginning after terminal) := by
  have decompose {other after : List Symbol}
      (valid : setting.grammar.ValidFor other ⟨ruleId, rule.body.length⟩ after) :
      ∃ before, setting.grammar.Frame before rule.head after ∧ other = before ++ rule.body := by
    obtain ⟨same, before, found, _, frame, rfl⟩ := valid
    obtain rfl := Option.some.inj (isRule.symm.trans found)
    exact ⟨before, frame, by rw [List.take_length]⟩
  cases marked : kind.marked with
  | true =>
      obtain ⟨other, alsoReaches, after, valid, begins⟩ :=
        exact.built.exists_reaches_of_allows exact.fresh reaches isState (admits.2 marked)
      obtain ⟨before, frame, rfl⟩ := decompose valid
      exact ⟨before, after, alsoReaches, frame, fun _ => begins⟩
  | false =>
      obtain ⟨after, valid⟩ := (exact.built.holds_iff exact.fresh reaches isState).mp admits.1
      obtain ⟨before, frame, rfl⟩ := decompose valid
      exact ⟨before, after, reaches, frame, by simp⟩

/-- The state is one from which the body of the rule leads to the last state, and in which the rule
begins. -/
def IsOrigin (setting : Setting) (kind : AutomatonKind) (ruleId terminal last : Nat) (rule : Rule)
    (id : Nat) : Prop :=
  ∃ known path, setting.automaton.states[id]? = some known ∧
    setting.automaton.IsRoute id path last ∧ path.map Prod.snd = rule.body ∧
    Admits kind known.items ⟨ruleId, 0⟩ terminal

/-- A complete rule has begun in a state that can be reached. -/
theorem exists_isOrigin (exact : setting.IsExact kind start accept target)
    {string : List Symbol} (reaches : setting.automaton.Reaches string state)
    (isState : setting.automaton.states[state]? = some known)
    (isRule : setting.grammar.rules[ruleId]? = some rule)
    (admits : Admits kind known.items ⟨ruleId, rule.body.length⟩ terminal) :
    ∃ before id, setting.automaton.Reaches before id ∧
      IsOrigin setting kind ruleId terminal state rule id := by
  obtain ⟨before, after, alsoReaches, frame, begins⟩ :=
    exists_frame_of_admits exact reaches isState isRule admits
  obtain ⟨path, route, symbols⟩ := alsoReaches.exists_isRoute
  obtain ⟨first, second, rfl, isBefore, isBody⟩ := List.map_eq_append_iff.mp symbols
  obtain ⟨id, toOrigin, alongBody⟩ := route.exists_of_append
  have reachesOrigin : setting.automaton.Reaches before id := by
    simpa [isBefore] using toOrigin.reaches .start
  obtain ⟨origin, isOrigin⟩ := exact.built.exists_state reachesOrigin
  have valid := frame.validFor isRule rfl
  refine ⟨before, id, reachesOrigin, origin, second, isOrigin, alongBody,
    isBody, ?_, fun marked => ?_⟩
  · exact (exact.built.holds_iff exact.fresh reachesOrigin isOrigin).mpr ⟨after, valid⟩
  · exact exact.built.allows_of_validLookahead exact.fresh marked reachesOrigin isOrigin
      ⟨after, valid, begins marked⟩

/-- Going back along the body finds exactly the states in which the rule begins. -/
theorem exists_origins_eq_ok (exact : setting.IsExact kind start accept target)
    (isState : setting.automaton.states[state]? = some known)
    (isRule : setting.grammar.rules[ruleId]? = some rule) (terminal : Nat) :
    ∃ ids, origins setting state terminal ruleId = .ok ids ∧
      ∀ id, id ∈ ids ↔ IsOrigin setting kind ruleId terminal state rule id := by
  obtain ⟨sources, goesBack, mem_sources⟩ :=
    Automaton.exists_foldrM_predecessors_eq_ok setting.automaton rule.body state
  have sourceState : ∀ id ∈ sources, ∃ known, setting.automaton.states[id]? = some known := by
    intro id member
    obtain ⟨path, route, _⟩ := (mem_sources id).mp member
    cases route with
    | nil => exact ⟨known, isState⟩
    | cons found => exact ⟨_, found⟩
  have total : ∀ id ∈ sources, ∃ result, beginsIn setting ruleId terminal id = .ok result ∧
      (result = true ↔ ∃ known, setting.automaton.states[id]? = some known ∧
        Admits kind known.items ⟨ruleId, 0⟩ terminal) := by
    intro id member
    obtain ⟨known, isKnown⟩ := sourceState id member
    obtain ⟨result, answers, iff⟩ := exists_beginsIn_eq_ok exact isKnown ruleId terminal
    exact ⟨result, answers, by simp [iff, isKnown]⟩
  obtain ⟨ids, filtered, mem_ids⟩ := exists_filterM_eq_ok total
  refine ⟨ids, ?_, fun id => ?_⟩
  · simp only [origins, Arena.rule_eq_ok.mpr isRule, ok_bind, goesBack, filtered]
  · rw [mem_ids, mem_sources]
    constructor
    · rintro ⟨⟨path, route, symbols⟩, known, isKnown, admits⟩
      exact ⟨known, path, isKnown, route, symbols, admits⟩
    · rintro ⟨known, path, isKnown, route, symbols, admits⟩
      exact ⟨⟨path, route, symbols⟩, known, isKnown, admits⟩

/-! ## The path -/

/-- The path that is chosen for a conflict and its first reduction. -/
def Chooses (setting : Setting) (conflict : Conflict) (ruleId : Nat) (path : List (Nat × Symbol)) :
    Prop :=
  reductionOf conflict = .ok ruleId ∧
  ∃ origin, originOf setting conflict ruleId = .ok origin ∧
    pathThrough setting conflict ruleId origin = .ok path

/-- There is always a nearest state in which the rule begins. -/
theorem exists_originOf_eq_ok (exact : setting.IsExact kind start accept target)
    {string : List Symbol} (reaches : setting.automaton.Reaches string conflict.state)
    (isState : setting.automaton.states[conflict.state]? = some known)
    (isRule : setting.grammar.rules[ruleId]? = some rule)
    (admits : Admits kind known.items ⟨ruleId, rule.body.length⟩ conflict.terminal) :
    ∃ origin, originOf setting conflict ruleId = .ok origin ∧
      setting.automaton.IsRoute Automaton.initial origin.trail.reverse origin.state ∧
      IsOrigin setting kind ruleId conflict.terminal conflict.state rule origin.state := by
  obtain ⟨before, id, reachesOrigin, isOrigin⟩ :=
    exists_isOrigin exact reaches isState isRule admits
  obtain ⟨ids, found, mem_ids⟩ := exists_origins_eq_ok exact isState isRule conflict.terminal
  have within : ∀ string id, setting.automaton.Reaches string id →
      id < setting.automaton.states.length := by
    intro string id reaches
    obtain ⟨known, isKnown⟩ := exact.built.exists_state reaches
    exact (List.getElem?_eq_some_iff.mp isKnown).1
  obtain ⟨reached, isReached, routes, complete⟩ := Automaton.exists_reachable_eq_ok within
  obtain ⟨none_spec, some_spec⟩ := Automaton.nearest_spec reached ids
  simp only [originOf, isReached, found, liftM_ok, ok_bind]
  cases nearest : Automaton.nearest reached ids with
  | none =>
      obtain ⟨there, isThere, rfl⟩ := complete before id reachesOrigin
      exact absurd ((mem_ids _).mpr isOrigin) (none_spec nearest there isThere)
  | some origin =>
      obtain ⟨isThere, member⟩ := some_spec origin nearest
      exact ⟨origin, rfl, routes origin isThere, (mem_ids _).mp member⟩

/-- The path through such a state goes on along the body to the state of the conflict. -/
theorem exists_pathThrough_eq_ok {origin : Automaton.Reached}
    (isRule : setting.grammar.rules[ruleId]? = some rule)
    (route : setting.automaton.IsRoute Automaton.initial origin.trail.reverse origin.state)
    (isOrigin : IsOrigin setting kind ruleId terminal conflict.state rule origin.state) :
    ∃ path, pathThrough setting conflict ruleId origin = .ok path ∧
      setting.automaton.IsRoute Automaton.initial path conflict.state ∧
      rule.body <:+ path.map Prod.snd := by
  obtain ⟨_, along, _, alongBody, isBody, _⟩ := isOrigin
  have walks := alongBody.walk_eq
  rw [isBody] at walks
  obtain ⟨last, zipped, isLast, symbols⟩ := Automaton.isRoute_of_walk_eq walks
  obtain rfl : conflict.state = last := by simpa using isLast
  refine ⟨_, ?_, route.append zipped, ?_⟩
  · simp only [pathThrough, Arena.rule_eq_ok.mpr isRule, walks, liftM_ok, ok_bind]
    rfl
  · rw [List.map_append, symbols]
    exact List.suffix_append _ _

theorem exists_chooses (exact : setting.IsExact kind start accept target)
    {string : List Symbol} (reaches : setting.automaton.Reaches string conflict.state)
    (isState : setting.automaton.states[conflict.state]? = some known)
    (isRule : setting.grammar.rules[ruleId]? = some rule)
    (admits : Admits kind known.items ⟨ruleId, rule.body.length⟩ conflict.terminal)
    (reduction : reductionOf conflict = .ok ruleId) :
    ∃ path, Chooses setting conflict ruleId path ∧
      setting.automaton.IsRoute Automaton.initial path conflict.state ∧
      rule.body <:+ path.map Prod.snd := by
  obtain ⟨origin, isOrigin, route, begins⟩ :=
    exists_originOf_eq_ok exact reaches isState isRule admits
  obtain ⟨path, isPath, isRoute, ends⟩ := exists_pathThrough_eq_ok isRule route begins
  exact ⟨path, ⟨reduction, origin, isOrigin, isPath⟩, isRoute, ends⟩

/-! ## The witness -/

/-- The first reduction of a conflict is one of its actions. There is none only if no action of the
conflict is a reduction. -/
theorem reductionOf_spec (conflict : Conflict) :
    (∃ ruleId, reductionOf conflict = .ok ruleId ∧ .reduce ruleId ∈ conflict.actions) ∨
      (reductionOf conflict = .error (.error (.noReduction conflict.state)) ∧
        ∀ ruleId, .reduce ruleId ∉ conflict.actions) := by
  have mem_reductions (ruleId : Nat) :
      ruleId ∈ conflict.reductions ↔ .reduce ruleId ∈ conflict.actions := by
    rw [Conflict.reductions, List.mem_filterMap]
    constructor
    · rintro ⟨action, member, reduces⟩
      cases action with
      | reduce other =>
          cases reduces
          exact member
      | shift | accept => cases reduces
    · exact fun member => ⟨_, member, rfl⟩
  rw [reductionOf]
  cases isReductions : conflict.reductions with
  | nil =>
      refine .inr ⟨rfl, fun ruleId member => ?_⟩
      rw [← mem_reductions, isReductions] at member
      cases member
  | cons ruleId others =>
      refine .inl ⟨ruleId, rfl, ?_⟩
      rw [← mem_reductions, isReductions]
      exact .head _

theorem ofConflict_eq {path : List (Nat × Symbol)}
    (chooses : Chooses setting conflict ruleId path) :
    ofConflict setting conflict = (do
      let sentence ← (expandPath setting path conflict.terminal).1
      return ⟨ruleId, conflict.state, conflict.terminal, path, sentence⟩) := by
  obtain ⟨reduction, origin, isOrigin, isPath⟩ := chooses
  rw [ofConflict, reduction, ok_bind, isOrigin, ok_bind, isPath, ok_bind]

/-- What a witness shows: the symbols on its path end with the body of a rule that the conflict may
reduce, they lead to the state of the conflict, and they derive the sentence up to the terminal of
the conflict at its end. -/
structure Shows (setting : Setting) (conflict : Conflict) (witness : Witness) : Prop where
  chooses : Chooses setting conflict witness.rule witness.path
  reduces : .reduce witness.rule ∈ conflict.actions
  isRoute : setting.automaton.IsRoute Automaton.initial witness.path conflict.state
  body : ∃ rule, setting.grammar.rules[witness.rule]? = some rule ∧
    setting.grammar.start ≠ .ok rule.head ∧ rule.body <:+ witness.symbols
  expanded : (expandPath setting witness.path conflict.terminal).1 = .ok witness.sentence
  sentence : ∃ terminals, witness.sentence = terminals ++ [conflict.terminal] ∧
    setting.grammar.Generates witness.symbols terminals

/-- Once a path is chosen, there is a witness, unless a nonterminal of the path derives no terminal
string. -/
theorem ofConflict_spec (exact : setting.IsExact kind start accept target)
    {path : List (Nat × Symbol)} (chooses : Chooses setting conflict ruleId path)
    (reduces : .reduce ruleId ∈ conflict.actions)
    (route : setting.automaton.IsRoute Automaton.initial path conflict.state)
    (isRule : setting.grammar.rules[ruleId]? = some rule)
    (other : setting.grammar.start ≠ .ok rule.head) (ends : rule.body <:+ path.map Prod.snd) :
    (∃ witness, ofConflict setting conflict = .ok witness ∧ witness.Shows setting conflict) ∨
      ∃ reason, ofConflict setting conflict = .error reason ∧
        setting.grammar.Blames (path.map Prod.snd) reason := by
  rw [ofConflict_eq chooses]
  rcases expandPath_spec exact route conflict.terminal with
    ⟨terminals, expanded, generates⟩ | ⟨reason, failed, blames⟩
  · rw [expanded]
    exact .inl ⟨_, rfl, chooses, reduces, route, ⟨rule, isRule, other, ends⟩, expanded,
      terminals, rfl, generates⟩
  · rw [failed]
    exact .inr ⟨reason, rfl, blames⟩

/-- Why there is no witness: no action of the conflict is a reduction, or a nonterminal of the
chosen path, which is named, derives no terminal string. -/
inductive Excuses (setting : Setting) (conflict : Conflict) : Failure WitnessError → Prop where
  | noReduction (none : ∀ ruleId, .reduce ruleId ∉ conflict.actions) :
      Excuses setting conflict (.error (.noReduction conflict.state))
  | underivable {ruleId : Nat} {path : List (Nat × Symbol)} {reason : Failure WitnessError}
      (chooses : Chooses setting conflict ruleId path)
      (reduces : .reduce ruleId ∈ conflict.actions)
      (route : setting.automaton.IsRoute Automaton.initial path conflict.state)
      (blames : setting.grammar.Blames (path.map Prod.snd) reason) : Excuses setting conflict reason

end Witness

/-! ## The analysis -/

/-- The setting is that of an analysis, and all parts of it are what they are meant to be. -/
structure Witness.Setting.IsFor (analysis : Analysis) (grammar : Grammar) (method : Method)
    (target : Nat) (setting : Witness.Setting) : Prop where
  grammar_eq : setting.grammar = analysis.grammar
  automaton_eq : setting.automaton = analysis.automaton
  exact : setting.IsExact method.automatonKind grammar.nonterminalCount grammar.rules.length target

theorem Analysis.IsAnalysisOf.exists_setting_eq_ok {target : Nat}
    (isAnalysis : analysis.IsAnalysisOf grammar method target) :
    ∃ setting, analysis.setting = .ok setting ∧
      setting.IsFor analysis grammar method target := by
  obtain ⟨sentences, computed, exact⟩ := Sentences.exists_compute_eq_ok isAnalysis.fresh.bodies
  refine ⟨⟨analysis.grammar, analysis.automaton, analysis.follow, sentences⟩, ?_, rfl, rfl,
    isAnalysis.fresh, isAnalysis.built, isAnalysis.follow, exact⟩
  rw [setting, computed, ok_bind, pure_eq_ok]

/-- A conflict of a table has a witness, or there is a reason why it has none. -/
theorem Analysis.IsFamilyOf.ofConflict_eq {augmented : Grammar} {target : Nat}
    {analyses : Method → Analysis} {first : FirstSets}
    (family : IsFamilyOf grammar target analyses augmented first) {setting : Witness.Setting}
    (isFor : setting.IsFor (analyses method) grammar method target)
    {conflict : Conflict} (isConflict : conflict ∈ (analyses method).table.conflicts) :
    (∃ witness, Witness.ofConflict setting conflict = .ok witness ∧
        witness.Shows setting conflict) ∨
      ∃ reason, Witness.ofConflict setting conflict = .error reason ∧
        Witness.Excuses setting conflict reason := by
  obtain ⟨sameGrammar, sameAutomaton, exact⟩ := isFor
  rcases Witness.reductionOf_spec conflict with ⟨ruleId, reduction, reduces⟩ |
    ⟨missing, none⟩
  · have inCell := reduces
    rw [(Table.actions_of_mem_conflicts isConflict).1] at inCell
    obtain ⟨state, isState⟩ :=
      (family.isAnalysis method).isTable.exists_state_of_mem_cell inCell
    obtain ⟨rule, isRule, other, holds, permits⟩ :=
      ((family.isAnalysis method).mem_cell_reduce_iff isState).mp inCell
    have notStart : setting.grammar.start ≠ .ok rule.head := by
      rw [exact.fresh.start_eq, ne_eq, Except.ok.injEq]
      exact other.symm
    obtain ⟨string, reaches⟩ :=
      Automaton.exists_reaches_of_build_eq_ok family.fresh family.exact
        (family.builds method) isState
    rw [← sameAutomaton] at isState reaches
    rw [← sameGrammar] at isRule
    obtain ⟨path, chooses, route, ends⟩ := Witness.exists_chooses exact reaches isState isRule
      (Witness.admits_of_permits holds permits) reduction
    rcases Witness.ofConflict_spec exact chooses reduces route isRule notStart ends with
      given | ⟨reason, failed, blames⟩
    · exact .inl given
    · exact .inr ⟨reason, failed, .underivable chooses reduces route blames⟩
  · refine .inr ⟨_, ?_, .noReduction none⟩
    rw [Witness.ofConflict, missing]
    rfl

/-- The start that augmentation adds stands on no path. -/
theorem Witness.Setting.IsExact.start_not_mem {setting : Setting} {kind : AutomatonKind}
    {start accept target first last : Nat} (exact : setting.IsExact kind start accept target)
    {path : List (Nat × Symbol)} (route : setting.automaton.IsRoute first path last) :
    .nonterminal start ∉ path.map Prod.snd := by
  intro member
  obtain ⟨rule, isRule, inBody⟩ := route.exists_mem_body exact.built member
  exact exact.fresh.fresh rule isRule inBody

/-- What is blamed without the start that augmentation adds is blamed before augmentation. -/
theorem Analysis.IsAnalysisOf.blames {target : Nat}
    (isAnalysis : analysis.IsAnalysisOf grammar method target)
    (made : grammar.augmented = .ok analysis.grammar) {symbols : List Symbol}
    (absent : .nonterminal grammar.nonterminalCount ∉ symbols) {reason : Failure WitnessError}
    (blames : analysis.grammar.Blames symbols reason) : grammar.Blames symbols reason := by
  obtain ⟨id, name, member, unproductive, named, rfl⟩ := blames
  have declared : grammar.Declares (.nonterminal id) := by
    have inAugmented := Grammar.lt_of_nonterminalName_eq_ok named
    rw [isAnalysis.augments.nonterminalCount_eq] at inAugmented
    have other : id ≠ grammar.nonterminalCount := by
      rintro rfl
      exact absent member
    exact Nat.lt_of_le_of_ne (Nat.le_of_lt_succ inAugmented) other
  refine ⟨id, name, member, ?_, ?_, rfl⟩
  · rintro ⟨terminals, generates⟩
    exact unproductive ⟨terminals, isAnalysis.augments.derives generates⟩
  · exact (Grammar.symbolName_of_augmented_eq_ok made declared).symm.trans named

/-- For every well-formed grammar that is not augmented yet, every method and every conflict of its
table: there is always a path to the conflict. That the conflict has no reduction is reported
exactly if none of its actions is one. The only other failure names a nonterminal that derives no
terminal string, and the chosen path contains it. A witness has one of the reductions of the
conflict, and the symbols on its path end with the body of that rule; reading them visits the states
on the path and ends in that of the conflict. Its sentence ends with the terminal of the conflict,
and the symbols derive what stands in front of that. -/
theorem conflicts_have_derivable_witnesses (grammar : Grammar) (wellFormed : grammar.WellFormed)
    (notAugmented : grammar.isAugmented = false) (method : Method) :
    ∃ analysis setting, Analysis.compute grammar method = .ok analysis ∧
      analysis.setting = .ok setting ∧
      ∀ conflict ∈ analysis.table.conflicts,
        (∀ state, analysis.witness conflict ≠ .error (.error (.noPath state))) ∧
        (analysis.witness conflict = .error (.error (.noReduction conflict.state)) ↔
          ∀ ruleId, .reduce ruleId ∉ conflict.actions) ∧
        (∀ reason, analysis.witness conflict = .error reason →
          reason = .error (.noReduction conflict.state) ∨
          ∃ ruleId path id name, Witness.Chooses setting conflict ruleId path ∧
            .nonterminal id ∈ path.map Prod.snd ∧ ¬ grammar.Productive id ∧
            grammar.nonterminalName id = .ok name ∧ reason = .error (.underivable name)) ∧
        ∀ witness, analysis.witness conflict = .ok witness →
          Witness.Chooses setting conflict witness.rule witness.path ∧
          .reduce witness.rule ∈ conflict.actions ∧
          analysis.automaton.walk Automaton.initial witness.symbols =
            .ok (some (witness.path.map Prod.fst ++ [conflict.state])) ∧
          (∃ rule, grammar.rules[witness.rule]? = some rule ∧ rule.body <:+ witness.symbols) ∧
          witness.sentence.getLast? = some conflict.terminal ∧
          grammar.Generates witness.symbols witness.sentence.dropLast := by
  obtain ⟨target, analyses, augmented, first, starts, family⟩ :=
    Analysis.exists_isFamilyOf wellFormed notAugmented
  have isAnalysis := family.isAnalysis method
  have made := Analysis.augmented_eq_of_compute_eq_ok notAugmented (family.computed method)
  obtain ⟨setting, isSetting, isFor⟩ := isAnalysis.exists_setting_eq_ok
  refine ⟨analyses method, setting, family.computed method, isSetting,
    fun conflict isConflict => ?_⟩
  have computes : (analyses method).witness conflict = Witness.ofConflict setting conflict := by
    simp [Analysis.witness, isSetting]
  rw [computes]
  have ⟨sameGrammar, sameAutomaton, exact⟩ := isFor
  rcases family.ofConflict_eq isFor isConflict with
    ⟨witness, given, shows⟩ | ⟨reason, failed, excuses⟩
  · rw [given]
    refine ⟨by simp, iff_of_false (by simp) fun none => none _ shows.reduces, by simp, ?_⟩
    rintro _ ⟨⟩
    have absent := exact.start_not_mem shows.isRoute
    obtain ⟨rule, isRule, other, ends⟩ := shows.body
    obtain ⟨terminals, isSentence, generates⟩ := shows.sentence
    rw [sameGrammar] at isRule generates
    refine ⟨shows.chooses, shows.reduces, ?_, ⟨rule, ?_, ends⟩, by simp [isSentence], ?_⟩
    · rw [← sameAutomaton]
      exact shows.isRoute.walk_eq
    · refine isAnalysis.augments.getElem?_rules_of_ne isRule fun same => other ?_
      rw [same, exact.fresh.start_eq]
    · rw [isSentence, List.dropLast_concat]
      exact isAnalysis.augments.derives_of_not_mem isAnalysis.fresh generates absent
  · rw [failed]
    cases excuses with
    | noReduction none => exact ⟨by simp, iff_of_true rfl none, by simp, by simp⟩
    | underivable chooses reduces route blames =>
        rw [sameGrammar] at blames
        obtain ⟨id, name, member, unproductive, named, rfl⟩ :=
          isAnalysis.blames made (exact.start_not_mem route) blames
        refine ⟨by simp, iff_of_false (by simp) fun none => none _ reduces, ?_, by simp⟩
        rintro _ ⟨⟩
        exact .inr ⟨_, _, id, name, chooses, member, unproductive, named, rfl⟩

/-- The witness of the dangling `else` reads one `if` within another, with the `else` still to
come. -/
theorem dangling_else_has_derivable_witness :
    ∃ analysis witness, Analysis.compute Grammar.danglingElse .lalr1 = .ok analysis ∧
      analysis.table.conflicts = [⟨4, 2, .shiftReduce, [.reduce 0, .shift 5]⟩] ∧
      analysis.witness ⟨4, 2, .shiftReduce, [.reduce 0, .shift 5]⟩ = .ok witness ∧
      witness.symbols = [.terminal 1, .terminal 1, .nonterminal 0] ∧
      witness.sentence = [1, 1, 3, 2] ∧
      analysis.automaton.walk Automaton.initial [.terminal 1, .terminal 1, .nonterminal 0] =
        .ok (some [0, 1, 1, 4]) ∧
      Grammar.danglingElse.Generates [.terminal 1, .terminal 1, .nonterminal 0] [1, 1, 3] := by
  obtain ⟨analysis, setting, computed, _, shown⟩ := conflicts_have_derivable_witnesses
    Grammar.danglingElse Grammar.wellFormed_danglingElse rfl .lalr1
  have evaluates : (Analysis.compute Grammar.danglingElse .lalr1).map (fun analysis =>
      (analysis.table.conflicts,
        analysis.witness ⟨4, 2, .shiftReduce, [.reduce 0, .shift 5]⟩)) =
      .ok ([⟨4, 2, .shiftReduce, [.reduce 0, .shift 5]⟩], .ok ⟨0, 4, 2,
        [(0, .terminal 1), (1, .terminal 1), (1, .nonterminal 0)], [1, 1, 3, 2]⟩) := by
    decide +kernel
  rw [computed] at evaluates
  obtain ⟨conflicts, given⟩ := Prod.mk.inj (Except.ok.inj evaluates)
  obtain ⟨_, _, _, derivable⟩ :=
    shown ⟨4, 2, .shiftReduce, [.reduce 0, .shift 5]⟩ (by simp [conflicts])
  obtain ⟨_, _, walks, _, _, generates⟩ := derivable _ given
  exact ⟨analysis, _, computed, conflicts, given, rfl, rfl, walks, generates⟩

end ShiftReduce

end DeterministicParsing
