/-
# Shift-reduce analyses are free of faults

A table has actions only on declared terminals, and only for rules of the grammar, so its conflicts
can be written. A witness is made of declared symbols, and where there is none, an error says why.
The machine looks up the terminals of its input, which are declared, and finds what the table tells
it to reduce. What is left to fault are the synthesis functions that it is given. Once it has
accepted its input, by whatever steps and runs, the rules reduced grow a tree.
-/
import DeterministicParsing.ShiftReduce.Printer
import DeterministicParsing.Proofs.Printer
import DeterministicParsing.Proofs.ShiftReduce.Soundness
import DeterministicParsing.Proofs.ShiftReduce.Invariant
import DeterministicParsing.Proofs.ShiftReduce.Witness

namespace DeterministicParsing.ShiftReduce

variable {grammar : Grammar} {method : Method} {target : Nat} {analysis : Analysis}

/-! ## Tables and conflicts -/

/-- Every table can be written. -/
theorem Table.returns_text (grammar : Grammar) (table : Table) : Returns (table.text grammar) := by
  refine grammar.returns_mapM_terminalName.bind fun _ _ => ?_
  refine Returns.bind (.mapM fun nonterminal member => ?_) fun _ _ => .ok _
  exact Grammar.returns_nonterminalName (List.mem_range.mp (List.mem_filter.mp member).1)

/-- The action can be written. -/
def Action.IsOf (grammar : Grammar) : Action → Prop
  | reduce id => ∃ rule, grammar.rules[id]? = some rule
  | shift _ | accept => True

theorem Action.IsOf.returns_longText {action : Action} (isOf : action.IsOf grammar)
    (bodies : grammar.BodiesDeclared) : Returns (action.longText grammar) := by
  cases action with
  | reduce id =>
      obtain ⟨rule, found⟩ := isOf
      exact (bodies.returns_ruleIdText found).bind fun _ _ => .ok _
  | shift next => exact .ok _
  | accept => exact .ok _

namespace Analysis

/-- A state has actions only on declared terminals, and only for rules of the grammar. -/
theorem IsAnalysisOf.isOf_of_mem_cell (isAnalysis : analysis.IsAnalysisOf grammar method target)
    {id terminal : Nat} {state : State} {action : Action}
    (isState : analysis.automaton.states[id]? = some state)
    (member : action ∈ analysis.table.cell id terminal) :
    analysis.grammar.Declares (.terminal terminal) ∧ action.IsOf analysis.grammar := by
  have bodies := isAnalysis.fresh.bodies
  cases action with
  | shift next =>
      have transition := (isAnalysis.isTable.mem_cell_shift isAnalysis.built isState).mp member
      exact ⟨isAnalysis.built.declares_of_transition bodies isState transition, trivial⟩
  | accept =>
      obtain ⟨_, _, rfl, _⟩ := (isAnalysis.isTable.mem_cell isState).mp member
      exact ⟨Grammar.declares_of_mem_bodyTerminals bodies (.head _), trivial⟩
  | reduce ruleId =>
      obtain ⟨rule, found, _, _, permits⟩ := (isAnalysis.mem_cell_reduce_iff isState).mp member
      exact ⟨isAnalysis.declares_of_permits isState permits, rule, found⟩

variable {augmented : Grammar} {first : FirstSets} {analyses : Method → Analysis}
  {conflict : Conflict}

/-- The terminal of a conflict is declared, and its reductions are by rules of the grammar. -/
theorem IsFamilyOf.isOf_of_mem_conflicts
    (family : IsFamilyOf grammar target analyses augmented first)
    (isConflict : conflict ∈ (analyses method).table.conflicts) :
    (analyses method).grammar.Declares (.terminal conflict.terminal) ∧
      ∀ action ∈ conflict.actions, action.IsOf (analyses method).grammar := by
  obtain ⟨isCell, many⟩ := Table.actions_of_mem_conflicts isConflict
  have each (action : Action) (member : action ∈ conflict.actions) :
      (analyses method).grammar.Declares (.terminal conflict.terminal) ∧
        action.IsOf (analyses method).grammar := by
    rw [isCell] at member
    obtain ⟨state, isState⟩ :=
      (family.isAnalysis method).isTable.exists_state_of_mem_cell member
    exact (family.isAnalysis method).isOf_of_mem_cell isState member
  obtain ⟨action, member⟩ :=
    List.exists_mem_of_length_pos (Nat.lt_of_lt_of_le Nat.zero_lt_two many)
  exact ⟨(each action member).1, fun action member => (each action member).2⟩

/-- The conflicts of a table can be written. -/
theorem IsFamilyOf.returns_conflictText
    (family : IsFamilyOf grammar target analyses augmented first)
    (isConflict : conflict ∈ (analyses method).table.conflicts) :
    Returns (conflict.text (analyses method).grammar) := by
  obtain ⟨declared, actions⟩ := family.isOf_of_mem_conflicts isConflict
  refine (Grammar.returns_terminalName declared).bind fun _ _ => ?_
  refine Returns.bind (.mapM fun action member => ?_) fun _ _ => .ok _
  exact (actions action member).returns_longText (family.isAnalysis method).fresh.bodies

end Analysis

/-! ## Witnesses -/

/-- A witness of a conflict can be written. -/
theorem Witness.Shows.returns_text {setting : Witness.Setting} {kind : AutomatonKind}
    {start accept : Nat} {conflict : Conflict} {witness : Witness}
    (shows : witness.Shows setting conflict) (exact : setting.IsExact kind start accept target)
    (sameTerminal : witness.terminal = conflict.terminal)
    (declared : setting.grammar.Declares (.terminal conflict.terminal)) :
    Returns (witness.text setting.grammar) := by
  have bodies := exact.fresh.bodies
  have onPath := exact.declares shows.isRoute
  obtain ⟨rule, found, _⟩ := shows.body
  obtain ⟨terminals, isSentence, generates⟩ := shows.sentence
  refine (bodies.returns_ruleIdText found).bind fun _ _ => ?_
  refine (Grammar.returns_terminalName (sameTerminal ▸ declared)).bind fun _ _ => ?_
  refine (Grammar.returns_sentenceText onPath).bind fun _ _ => ?_
  refine (Grammar.returns_terminalsText fun terminal member => ?_).bind fun _ _ => .ok _
  rw [isSentence, List.mem_append, List.mem_singleton] at member
  rcases member with inSentence | rfl
  · exact bodies.declares onPath generates (terminal_mem_word.mpr inSentence)
  · exact declared

/-- The witness is one for the terminal of the conflict. -/
theorem Witness.terminal_of_ofConflict_eq_ok {setting : Witness.Setting} {conflict : Conflict}
    {witness : Witness} (given : Witness.ofConflict setting conflict = .ok witness) :
    witness.terminal = conflict.terminal := by
  obtain ⟨_, _, goesOn⟩ := exists_of_bind_eq_ok given
  obtain ⟨_, _, goesOn⟩ := exists_of_bind_eq_ok goesOn
  obtain ⟨_, _, goesOn⟩ := exists_of_bind_eq_ok goesOn
  obtain ⟨_, _, isWitness⟩ := exists_of_bind_eq_ok goesOn
  cases isWitness
  rfl

/-- The reasons why there is no witness are errors. -/
theorem Witness.Excuses.exists_error {setting : Witness.Setting} {conflict : Conflict}
    {reason : Failure WitnessError} (excuses : Witness.Excuses setting conflict reason) :
    ∃ error, reason = .error error := by
  cases excuses with
  | noReduction none => exact ⟨_, rfl⟩
  | underivable _ _ _ blames =>
      obtain ⟨_, _, _, _, _, rfl⟩ := blames
      exact ⟨_, rfl⟩

/-- Looking for the witness of a conflict does not fault, and a witness that is found can be
written. -/
theorem Analysis.IsFamilyOf.isFaultless_witness {augmented : Grammar} {first : FirstSets}
    {analyses : Method → Analysis} {conflict : Conflict}
    (family : IsFamilyOf grammar target analyses augmented first)
    (isConflict : conflict ∈ (analyses method).table.conflicts) :
    IsFaultless ((analyses method).witness conflict) ∧
      ∀ witness, (analyses method).witness conflict = .ok witness →
        Returns (witness.text (analyses method).grammar) := by
  obtain ⟨setting, isSetting, isFor⟩ := (family.isAnalysis method).exists_setting_eq_ok
  have computes : (analyses method).witness conflict = Witness.ofConflict setting conflict := by
    simp [Analysis.witness, isSetting]
  rw [computes, ← isFor.grammar_eq]
  rcases family.ofConflict_eq isFor isConflict with ⟨witness, given, shows⟩ |
    ⟨reason, failed, excuses⟩
  · rw [given]
    refine ⟨.ok witness, ?_⟩
    rintro _ ⟨⟩
    have declared := (family.isOf_of_mem_conflicts isConflict).1
    rw [← isFor.grammar_eq] at declared
    exact shows.returns_text isFor.exact (Witness.terminal_of_ofConflict_eq_ok given) declared
  · obtain ⟨error, rfl⟩ := excuses.exists_error
    rw [failed]
    exact ⟨.error error, by simp⟩

/-! ## Machines -/

/-- There are synthesis functions, and one of them ends with the fault. -/
def SynthesisFaults {V : Type} (semantics : Option (Semantics V)) (fault : Fault) : Prop :=
  ∃ functions ∈ semantics, ∃ rule attributes, functions.apply rule attributes = .error fault

/-- The outcome is no fault, unless one of a synthesis function, and says nothing about the
table. -/
structure IsClean {V α : Type} (semantics : Option (Semantics V))
    (outcome : Except (Failure ParseError) α) : Prop where
  fault : ∀ fault, outcome = .error (.fault fault) → SynthesisFaults semantics fault
  corrupt : ∀ state contradiction, outcome ≠ .error (.error (.corruptTable state contradiction))

namespace Machine

variable {V : Type} {machine next origin : Machine V} {tokens : List Token}

/-- The machine is driven by the analysis, and the tokens in front of it are declared. -/
structure IsFed (analysis : Analysis) (machine : Machine V) : Prop
    extends machine.IsDrivenBy analysis where
  declares : ∀ token ∈ machine.remaining, analysis.grammar.Declares (.terminal token.terminal)

/-- A step takes at most the next token, and leaves the synthesis functions alone. -/
theorem IsDrivenBy.unchanged_of_step_eq (isAnalysis : analysis.IsAnalysisOf grammar method target)
    (driven : machine.IsDrivenBy analysis) {outcome : Except (Failure ParseError) Move}
    (steps : machine.step = (outcome, next)) :
    next.remaining ⊆ machine.remaining ∧ next.semantics = machine.semantics := by
  cases outcome with
  | error reason =>
      cases driven.fails isAnalysis steps with
      | missingEnd _ => exact ⟨List.Subset.refl _, rfl⟩
      | refused _ _ => exact ⟨List.Subset.refl _, rfl⟩
      | faulted _ => exact ⟨List.Subset.refl _, rfl⟩
  | ok move =>
      rcases rests_or_moves_or_accepts steps with ⟨_, rfl⟩ | moves | ⟨_, _, _, rfl⟩
      · exact ⟨List.Subset.refl _, rfl⟩
      · refine ⟨?_, moves.unchanged.2.2⟩
        cases moves with
        | shift _ _ _ => exact List.tail_subset _
        | reduce _ _ _ _ _ _ _ => exact List.Subset.refl _
      · exact ⟨List.Subset.refl _, rfl⟩

theorem IsFed.of_step_eq (isAnalysis : analysis.IsAnalysisOf grammar method target)
    (fed : machine.IsFed analysis) {outcome : Except (Failure ParseError) Move}
    (steps : machine.step = (outcome, next)) : next.IsFed analysis := by
  have fewer := (fed.toIsDrivenBy.unchanged_of_step_eq isAnalysis steps).1
  exact ⟨fed.toIsDrivenBy.of_step_eq isAnalysis steps,
    fun token member => fed.declares token (fewer member)⟩

/-- The reason for which a step fails is clean. -/
theorem Fails.isClean {α : Type} {reason : Failure ParseError} (fed : machine.IsFed analysis)
    (fails : machine.Fails reason next) :
    IsClean machine.semantics (.error reason : Except (Failure ParseError) α) := by
  refine ⟨fun fault same => ?_, fun state contradiction same => ?_⟩
  · cases same
    cases fails with
    | @refused token rest _ ahead refuses =>
        rcases eq_of_refuse_eq refuses with ⟨_, _, isError⟩ | ⟨_, unnamed, _⟩
        · cases isError
        · have declared := fed.declares token (by simp [ahead])
          obtain ⟨name, named⟩ := Grammar.returns_terminalName declared
          rw [fed.follows] at unnamed
          cases unnamed.symm.trans named
    | @faulted id rule _ faults =>
        rw [synthesised] at faults
        cases given : machine.semantics with
        | none =>
            rw [given] at faults
            cases faults
        | some semantics =>
            rw [given] at faults
            exact ⟨semantics, rfl, id, _, faults⟩
  · exact fails.ne_corruptTable state contradiction (Except.error.inj same)

theorem isClean_ok {α : Type} (semantics : Option (Semantics V)) (value : α) :
    IsClean semantics (.ok value) :=
  ⟨by simp, by simp⟩

/-- The outcome of a step is clean. -/
theorem IsFed.isClean_step (isAnalysis : analysis.IsAnalysisOf grammar method target)
    (fed : machine.IsFed analysis) : IsClean machine.semantics machine.step.1 := by
  cases outcome : machine.step.1 with
  | ok move => exact isClean_ok _ move
  | error reason => exact (fed.toIsDrivenBy.fails isAnalysis (Prod.ext outcome rfl)).isClean fed

/-- So is the outcome of a run, and the tokens that it leaves are declared. -/
theorem IsFed.of_run_eq (isAnalysis : analysis.IsAnalysisOf grammar method target)
    (fed : machine.IsFed analysis) {bound : Nat} {outcome : Except (Failure ParseError) (Parse V)}
    (runs : machine.run bound = some (outcome, next)) :
    next.IsFed analysis ∧ IsClean machine.semantics outcome := by
  induction bound generalizing machine with
  | zero => cases runs
  | succ bound ih =>
      rw [run] at runs
      split at runs
      · cases runs
        exact ⟨⟨⟨fed.follows, fed.path⟩, fed.declares⟩, isClean_ok _ _⟩
      · split at runs
        · rename_i after steps
          rw [← (fed.toIsDrivenBy.unchanged_of_step_eq isAnalysis steps).2]
          exact ih (fed.of_step_eq isAnalysis steps) runs
        · rename_i reason after steps
          cases runs
          exact ⟨fed.of_step_eq isAnalysis steps,
            (fed.toIsDrivenBy.fails isAnalysis steps).isClean fed⟩

/-- Whatever the machine is asked to do, the tokens in front of it are declared. -/
theorem Becomes.isFed (isAnalysis : analysis.IsAnalysisOf grammar method target)
    (fed : origin.IsFed analysis) (becomes : origin.Becomes machine) : machine.IsFed analysis := by
  induction becomes with
  | refl => exact fed
  | step _ steps ih => exact ih.of_step_eq isAnalysis steps
  | run _ runs ih => exact (ih.of_run_eq isAnalysis runs).1
  | withSemantics _ _ ih => exact ⟨⟨ih.follows, ih.path⟩, ih.declares⟩

/-! ## Accepted inputs -/

/-- A run that ends well goes on to a machine that has accepted, and hands out its rules. -/
theorem Proceeds.exists_accepted_of_run_eq (proceeds : origin.Proceeds machine) {bound : Nat}
    {parse : Parse V} (runs : machine.run bound = some (.ok parse, next)) :
    ∃ accepted, origin.Proceeds accepted ∧ accepted.isAccepted = true ∧
      parse.reductions = accepted.reductions := by
  induction bound generalizing machine with
  | zero => cases runs
  | succ bound ih =>
      rw [run] at runs
      split at runs
      · rename_i value result
        cases runs
        exact ⟨machine, proceeds, by simp [isAccepted, result], rfl⟩
      · split at runs
        · rename_i steps
          exact ih (proceeds.step steps) runs
        · cases runs

/-- A machine that has accepted has been about to accept, with the same rules reduced. -/
theorem Proceeds.exists_accepts (unfinished : origin.isAccepted = false)
    (proceeds : origin.Proceeds machine) (finished : machine.isAccepted = true) :
    ∃ accepting token rest, origin.Proceeds accepting ∧ accepting.Accepts token rest ∧
      machine.reductions = accepting.reductions := by
  induction proceeds with
  | refl =>
      rw [unfinished] at finished
      cases finished
  | @step machine next move earlier steps ih =>
      rcases rests_or_moves_or_accepts steps with ⟨_, rfl⟩ | moves |
        ⟨token, rest, accepts, rfl⟩
      · exact ih finished
      · rw [isAccepted, moves.unchanged.1] at finished
        cases finished
      · exact ⟨machine, token, rest, earlier, accepts, rfl⟩
  | withSemantics _ _ ih => exact ih finished

/-- When the input has been accepted, the rules reduced are a rightmost derivation of it. -/
theorem Proceeds.derivesRightmost (isAnalysis : analysis.IsAnalysisOf grammar method target)
    (taken : Token.checkEnd tokens = .ok ())
    (proceeds : (initial analysis.parser none tokens).Proceeds machine)
    (finished : machine.isAccepted = true) :
    ∃ terminals, grammar.DerivesRightmost [.nonterminal target] machine.reductions.reverse
      (word terminals) := by
  obtain ⟨accepting, token, rest, toAccepting, accepts, sameRules⟩ :=
    proceeds.exists_accepts rfl finished
  have driven := toAccepting.becomes.isDrivenBy isAnalysis (.initial none tokens)
  have retraces := (toAccepting.retraces accepts.unfinished).2.1
  obtain ⟨read, _, _, _, _, rightmost⟩ :=
    accepts.derivesRightmost isAnalysis driven retraces taken
  rw [sameRules]
  exact ⟨_, rightmost⟩

/-- A parse is a run of a machine that has been given the synthesis functions. -/
theorem exists_proceeds_of_parseWith_eq {parser : Parser} {semantics : Option (Semantics V)}
    {bound : Nat} {outcome : Except (Failure ParseError) (Parse V)}
    (taken : Token.checkEnd tokens = .ok ())
    (parsed : parser.parseWith semantics bound tokens = some outcome) :
    ∃ machine next, (initial parser none tokens).Proceeds machine ∧
      machine.semantics = semantics ∧ machine.run bound = some (outcome, next) := by
  rw [Parser.parseWith_eq_run taken, Option.map_eq_some_iff] at parsed
  obtain ⟨⟨_, next⟩, runs, rfl⟩ := parsed
  refine ⟨initial parser semantics tokens, next, ?_, rfl, runs⟩
  cases semantics with
  | none => exact .refl
  | some functions => exact Proceeds.refl.withSemantics functions

end Machine

/-! ## Analyses -/

/-- An analysis in which nothing is missing, and all of which can be written. -/
structure Analysis.IsComplete (analysis : Analysis) : Prop where
  /-- Every transition leads to a state. -/
  transition_lt : ∀ (id : Nat) (state : State) symbol next,
    analysis.automaton.states[id]? = some state → state.transitions.find? symbol = some next →
      next < analysis.automaton.states.length
  /-- The automaton can be written. -/
  automatonText : Returns (analysis.automaton.text analysis.grammar)
  /-- The table can be written. -/
  tableText : Returns (analysis.table.text analysis.grammar)
  /-- Every conflict can be written. -/
  conflictText : ∀ conflict ∈ analysis.table.conflicts, Returns (conflict.text analysis.grammar)
  /-- A witness is found, or there is an error that says why not. -/
  witness : ∀ conflict ∈ analysis.table.conflicts, IsFaultless (analysis.witness conflict)
  /-- A witness that is found can be written. -/
  witnessText : ∀ conflict ∈ analysis.table.conflicts, ∀ witness,
    analysis.witness conflict = .ok witness → Returns (witness.text analysis.grammar)

/-- The rules reduced grow a tree, both with the grammar given and with its augmentation. -/
def Analysis.GrowsTree (grammar : Grammar) (analysis : Analysis) (reductions : List Nat) : Prop :=
  DerivationTree.IsShown grammar (DerivationTree.ofRightParse grammar reductions) ∧
    DerivationTree.IsShown analysis.grammar
      (DerivationTree.ofRightParse analysis.grammar reductions)

/-- An input on which all outcomes are clean, and whose parses can be shown as trees. -/
structure Analysis.Handles (grammar : Grammar) (analysis : Analysis)
    (tokens : List Token) : Prop where
  /-- There is a machine in front of the input. -/
  start : ∀ V : Type,
    Returns (Machine.start analysis.parser tokens : Except ParseError (Machine V))
  /-- Whatever the machine has been asked to do, the outcome of the next step is clean. -/
  step : ∀ (V : Type) (origin machine : Machine V),
    Machine.start analysis.parser tokens = .ok origin → origin.Becomes machine →
      IsClean machine.semantics machine.step.1
  /-- So is the outcome of a run. -/
  run : ∀ (V : Type) (origin machine : Machine V),
    Machine.start analysis.parser tokens = .ok origin → origin.Becomes machine →
      ∀ bound outcome next, machine.run bound = some (outcome, next) →
        IsClean machine.semantics outcome
  /-- So is the outcome of a parse. -/
  parse : ∀ (V : Type) (semantics : Option (Semantics V)) bound outcome,
    analysis.parser.parseWith semantics bound tokens = some outcome → IsClean semantics outcome
  /-- The outcome of a run after steps that succeed grows a tree. -/
  runTree : ∀ (V : Type) (origin machine : Machine V),
    Machine.start analysis.parser tokens = .ok origin → origin.Proceeds machine →
      ∀ bound parse next, machine.run bound = some (.ok parse, next) →
        analysis.GrowsTree grammar parse.reductions
  /-- So does the outcome of a parse. -/
  parseTree : ∀ (V : Type) (semantics : Option (Semantics V)) bound parse,
    analysis.parser.parseWith semantics bound tokens = some (.ok parse) →
      analysis.GrowsTree grammar parse.reductions

theorem Analysis.IsFamilyOf.isComplete {augmented : Grammar} {first : FirstSets}
    {analyses : Method → Analysis} (family : IsFamilyOf grammar target analyses augmented first)
    (method : Method) : (analyses method).IsComplete where
  transition_lt _ _ _ _ found transition :=
    (family.isAnalysis method).built.lt_of_transition found transition
  automatonText := (family.isAnalysis method).built.returns_text (family.isAnalysis method).fresh
  tableText := Table.returns_text _ _
  conflictText _ isConflict := family.returns_conflictText isConflict
  witness _ isConflict := (family.isFaultless_witness isConflict).1
  witnessText _ isConflict := (family.isFaultless_witness isConflict).2

/-- The rules reduced in an accepted input grow a tree with either grammar. -/
theorem Machine.Proceeds.growsTree {V : Type} {machine : Machine V} {tokens : List Token}
    (isAnalysis : analysis.IsAnalysisOf grammar method target) (wellFormed : grammar.WellFormed)
    (taken : Token.checkEnd tokens = .ok ())
    (proceeds : (initial analysis.parser none tokens).Proceeds machine)
    (finished : machine.isAccepted = true) : analysis.GrowsTree grammar machine.reductions := by
  obtain ⟨terminals, rightmost⟩ := proceeds.derivesRightmost isAnalysis taken finished
  have inAugmented := isAnalysis.augments.derivesRightmost rightmost
  rw [← List.reverse_reverse machine.reductions]
  exact ⟨.of_derivesRightmost wellFormed.bodies rightmost,
    .of_derivesRightmost isAnalysis.fresh.bodies inAugmented⟩

theorem Analysis.IsAnalysisOf.handles {tokens : List Token}
    (isAnalysis : analysis.IsAnalysisOf grammar method target) (wellFormed : grammar.WellFormed)
    (taken : Token.checkEnd tokens = .ok ())
    (declared : ∀ token ∈ tokens, grammar.Declares (.terminal token.terminal)) :
    analysis.Handles grammar tokens := by
  have declaredToo (token : Token) (member : token ∈ tokens) :
      analysis.grammar.Declares (.terminal token.terminal) := by
    rw [Grammar.Declares, Arena.terminalCount, isAnalysis.augments.terminalNames_eq]
    exact declared token member
  have fed {V : Type} {origin machine : Machine V}
      (starts : Machine.start analysis.parser tokens = .ok origin)
      (becomes : origin.Becomes machine) :
      machine.IsFed analysis := by
    obtain rfl := Machine.start_eq_ok starts
    exact becomes.isFed isAnalysis ⟨.initial none tokens, declaredToo⟩
  have grows {V : Type} {machine next : Machine V} {bound : Nat} {parse : Parse V}
      (proceeds : (Machine.initial analysis.parser none tokens).Proceeds machine)
      (runs : machine.run bound = some (.ok parse, next)) :
      analysis.GrowsTree grammar parse.reductions := by
    obtain ⟨accepted, toAccepted, finished, sameRules⟩ :=
      proceeds.exists_accepted_of_run_eq runs
    rw [sameRules]
    exact toAccepted.growsTree isAnalysis wellFormed taken finished
  have starts (V : Type) : (Machine.start analysis.parser tokens : Except ParseError (Machine V)) =
      .ok (Machine.initial analysis.parser none tokens) := by
    simp [Machine.start, taken, Machine.initial]
  refine ⟨fun V => ⟨_, starts V⟩, ?_, ?_, ?_, ?_, ?_⟩
  · intro V origin machine isOrigin becomes
    exact (fed isOrigin becomes).isClean_step isAnalysis
  · intro V origin machine isOrigin becomes bound outcome next runs
    exact ((fed isOrigin becomes).of_run_eq isAnalysis runs).2
  · intro V semantics bound outcome parsed
    obtain ⟨machine, next, proceeds, rfl, runs⟩ :=
      Machine.exists_proceeds_of_parseWith_eq taken parsed
    exact ((fed (starts V) proceeds.becomes).of_run_eq isAnalysis runs).2
  · intro V origin machine isOrigin proceeds bound parse next runs
    obtain rfl := Machine.start_eq_ok isOrigin
    exact grows proceeds runs
  · intro V semantics bound parse parsed
    obtain ⟨machine, next, proceeds, _, runs⟩ :=
      Machine.exists_proceeds_of_parseWith_eq taken parsed
    exact grows proceeds runs

end DeterministicParsing.ShiftReduce
