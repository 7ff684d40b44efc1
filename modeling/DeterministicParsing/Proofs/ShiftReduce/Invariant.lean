/-
# What calls on a machine leave unchanged

Two things are true of a machine whatever it has been asked to do. As long as its steps succeed and
the input has not been accepted, the rules reduced lead back from its stack to the tokens shifted;
for that, the table may be any. And if the table is that of an analysis, its stack is a path of the
automaton at all times: after errors, after the input has been accepted and the outcome handed out,
and even when a synthesis function has faulted in the middle of a reduction. A rule to be reduced is
then always on top of the stack, and its head leads on from what is below it, so the machine never
finds its table corrupt.
-/
import DeterministicParsing.Proofs.Automaton.Recognition
import DeterministicParsing.Proofs.ShiftReduce.Completeness

namespace DeterministicParsing

/-! ## Walks along a stack -/

namespace Automaton

variable {automaton : Automaton} {string : List Symbol} {first last next : Nat} {visited : List Nat}

/-- A string leads to a state by its last symbol from where the others lead. -/
theorem reaches_snoc {symbol : Symbol} :
    automaton.Reaches (string ++ [symbol]) last ↔ ∃ id state, automaton.Reaches string id ∧
      automaton.states[id]? = some state ∧ state.transitions.find? symbol = some last := by
  constructor
  · intro reaches
    generalize whole : string ++ [symbol] = longer at reaches
    cases reaches with
    | start => simp at whole
    | read earlier found transition =>
        obtain ⟨rfl, same⟩ := List.append_inj' whole rfl
        cases same
        exact ⟨_, _, earlier, found, transition⟩
  · rintro ⟨id, state, earlier, found, transition⟩
    exact .read earlier found transition

/-- A string leads to one state at most. -/
theorem Reaches.unique (reaches : automaton.Reaches string first)
    (alsoReaches : automaton.Reaches string last) : first = last := by
  induction reaches generalizing last with
  | start =>
      generalize isEmpty : ([] : List Symbol) = string at alsoReaches
      cases alsoReaches with
      | start => rfl
      | read _ _ _ => simp at isEmpty
  | read _ found transition ih =>
      obtain ⟨id, state, earlier, alsoFound, alsoTransition⟩ := reaches_snoc.mp alsoReaches
      obtain rfl := ih earlier
      obtain rfl := Option.some.inj (found.symm.trans alsoFound)
      exact Option.some.inj (transition.symm.trans alsoTransition)

/-- A walk begins with the state it starts from. -/
theorem exists_cons_of_walk_eq (walks : automaton.walk first string = .ok (some visited)) :
    ∃ others, visited = first :: others := by
  cases string with
  | nil =>
      cases walks
      exact ⟨[], rfl⟩
  | cons symbol rest =>
      obtain ⟨target, _, goesOn⟩ := exists_of_bind_eq_ok walks
      cases target with
      | none => cases goesOn
      | some target =>
          obtain ⟨others, _, isVisited⟩ := exists_of_bind_eq_ok goesOn
          obtain ⟨later, _, rfl⟩ := Option.map_eq_some_iff.mp (Except.ok.inj isVisited)
          exact ⟨later, rfl⟩

/-- A walk is continued by the transition of its last state. -/
theorem walk_snoc {symbol : Symbol} {state : State}
    (walks : automaton.walk first string = .ok (some visited))
    (isLast : visited.getLast? = some last) (found : automaton.states[last]? = some state)
    (transition : state.transitions.find? symbol = some next) :
    automaton.walk first (string ++ [symbol]) = .ok (some (visited ++ [next])) := by
  induction string generalizing first visited with
  | nil =>
      cases walks
      obtain rfl : first = last := Option.some.inj isLast
      simp [walk, transition_eq_ok found, transition]
  | cons other rest ih =>
      obtain ⟨target, moves, goesOn⟩ := exists_of_bind_eq_ok walks
      cases target with
      | none => cases goesOn
      | some target =>
          obtain ⟨result, walksOn, isVisited⟩ := exists_of_bind_eq_ok goesOn
          obtain ⟨later, rfl, rfl⟩ := Option.map_eq_some_iff.mp (Except.ok.inj isVisited)
          obtain ⟨others, rfl⟩ := exists_cons_of_walk_eq walksOn
          rw [List.getLast?_cons_cons] at isLast
          simp [walk, moves, ih walksOn isLast]

end Automaton

namespace ShiftReduce

variable {grammar : Grammar} {method : Method} {target : Nat} {analysis : Analysis} {V : Type}
  {machine next : Machine V} {tokens : List Token}

/-- A path is what the automaton visits when it reads the symbols. -/
theorem IsPath.walk_eq {automaton : Automaton} {stack : List (Entry V)}
    (path : IsPath automaton stack) :
    automaton.walk Automaton.initial (symbolsOf stack) =
      .ok (some (Automaton.initial :: (stack.map Entry.state).reverse)) := by
  induction stack with
  | nil => rfl
  | cons entry below ih =>
      have pathBelow : IsPath automaton below := path.drop 1
      have reaches := path (entry :: below) (List.suffix_refl _)
      rw [symbolsOf, List.map_cons, List.reverse_cons, ← symbolsOf] at reaches ⊢
      obtain ⟨id, state, earlier, found, transition⟩ := Automaton.reaches_snoc.mp reaches
      obtain rfl := (pathBelow below (List.suffix_refl _)).unique earlier
      have isLast : (Automaton.initial :: (below.map Entry.state).reverse).getLast? =
          some (stateOf below) := by
        cases below with
        | nil => rfl
        | cons top rest =>
            rw [List.map_cons, List.reverse_cons, ← List.cons_append,
              List.getLast?_concat, stateOf]
      rw [Automaton.walk_snoc (ih pathBelow) isLast found transition, List.map_cons,
        List.reverse_cons, List.cons_append]
      rfl

namespace Machine

/-! ## Steps and runs along the automaton -/

/-- Why a step of a machine fails, unless the table is corrupt, and where that leaves the
machine. -/
inductive Fails (machine : Machine V) : Failure ParseError → Machine V → Prop where
  /-- The input has been shifted to its end. -/
  | missingEnd (atEnd : machine.remaining = []) : Fails machine (.error .missingEnd) machine
  /-- The next token has no action. -/
  | refused {token : Token} {rest : List Token} {reason : Failure ParseError}
      (ahead : machine.remaining = token :: rest) (refuses : machine.refuse token = .error reason) :
      Fails machine reason machine
  /-- The synthesis function of a rule faults. The body of the rule is off the stack by then. -/
  | faulted {id : Nat} {rule : Rule} {fault : Fault}
      (faults : machine.synthesised id (machine.stack.take rule.body.length).reverse =
        .error fault) :
      Fails machine (.fault fault) (machine.pop rule)

/-- The error for a token tells that it was unexpected, or its terminal is not declared. -/
theorem eq_of_refuse_eq {token : Token} {reason : Failure ParseError}
    (refuses : machine.refuse token = .error reason) :
    (∃ name, machine.parser.grammar.terminalName token.terminal = .ok name ∧
      reason = .error (.unexpectedToken machine.state name token.lexeme machine.position)) ∨
      ∃ fault, machine.parser.grammar.terminalName token.terminal = .error fault ∧
        reason = .fault fault := by
  unfold refuse at refuses
  cases named : machine.parser.grammar.terminalName token.terminal with
  | ok name =>
      rw [named] at refuses
      exact .inl ⟨name, rfl, (Except.error.inj refuses).symm⟩
  | error fault =>
      rw [named] at refuses
      exact .inr ⟨fault, rfl, (Except.error.inj refuses).symm⟩

/-- The machine fails without a word about its table. -/
theorem Fails.ne_corruptTable {reason : Failure ParseError} (fails : machine.Fails reason next)
    (state : Nat) (contradiction : Contradiction) :
    reason ≠ .error (.corruptTable state contradiction) := by
  cases fails with
  | missingEnd _ => simp
  | refused _ refuses =>
      rcases eq_of_refuse_eq refuses with ⟨_, _, rfl⟩ | ⟨_, _, rfl⟩ <;> simp
  | faulted _ => simp

/-- A reduction in a machine that is driven by an analysis finds its handle and a way to go on. -/
theorem IsDrivenBy.exists_goto (isAnalysis : analysis.IsAnalysisOf grammar method target)
    (driven : machine.IsDrivenBy analysis) {id terminal : Nat}
    (action : machine.parser.table.action? machine.state terminal = some (.reduce id)) :
    ∃ rule next, machine.parser.grammar.rules[id]? = some rule ∧
      (machine.stack.take rule.body.length).reverse.map Entry.symbol = rule.body ∧
      machine.parser.table.goto? (machine.pop rule).state rule.head = some next := by
  rw [driven.follows] at action ⊢
  obtain ⟨rule, before, after, found, other, frame, ends⟩ :=
    isAnalysis.exists_frame_of_mem_cell driven.reaches (Table.mem_cell_of_action?_eq_some action)
  obtain ⟨spelled, rfl⟩ := spelled_of_symbols_eq ends
  have below := driven.path.drop rule.body.length _ (List.suffix_refl _)
  obtain ⟨next, leads⟩ := isAnalysis.exists_goto?_eq_some below frame other
  exact ⟨rule, next, found, spelled, leads⟩

/-- A step of a machine that is driven by an analysis fails for one of these reasons only. -/
theorem IsDrivenBy.fails (isAnalysis : analysis.IsAnalysisOf grammar method target)
    (driven : machine.IsDrivenBy analysis) {reason : Failure ParseError}
    (steps : machine.step = (.error reason, next)) : machine.Fails reason next := by
  dsimp only [step] at steps
  split at steps
  · cases steps
  · split at steps
    · rename_i atEnd
      cases steps
      exact .missingEnd (List.head?_eq_none_iff.mp atEnd)
    · rename_i token isNext
      obtain ⟨rest, ahead⟩ := List.head?_eq_some_iff.mp isNext
      split at steps
      · obtain ⟨refuses, rfl⟩ := Prod.mk.inj steps
        exact .refused ahead refuses
      · cases steps
      · rename_i id action
        obtain ⟨rule, goal, found, spelled, leads⟩ := driven.exists_goto isAnalysis action
        simp only [reduce, Arena.rule_eq_ok.mpr found, handle_eq_ok spelled,
          pushHead_eq_bind leads] at steps
        cases computed : machine.synthesised id (machine.stack.take rule.body.length).reverse with
        | ok value =>
            rw [computed] at steps
            cases steps
        | error fault =>
            rw [computed] at steps
            cases steps
            exact .faulted computed
      · cases steps

/-- Every step keeps the stack a path of the automaton. -/
theorem IsDrivenBy.of_step_eq (isAnalysis : analysis.IsAnalysisOf grammar method target)
    (driven : machine.IsDrivenBy analysis) {outcome : Except (Failure ParseError) Move}
    (steps : machine.step = (outcome, next)) : next.IsDrivenBy analysis := by
  cases outcome with
  | error reason =>
      cases driven.fails isAnalysis steps with
      | missingEnd _ => exact driven
      | refused _ _ => exact driven
      | faulted _ => exact ⟨driven.follows, driven.path.drop _⟩
  | ok move =>
      rcases rests_or_moves_or_accepts steps with ⟨_, rfl⟩ | moves | ⟨_, _, _, rfl⟩
      · exact driven
      · exact driven.of_moves isAnalysis moves
      · refine ⟨driven.follows, ?_⟩
        rw [accept, ← List.drop_one]
        exact driven.path.drop 1

/-- Every run that returns keeps the stack a path of the automaton, and reports nothing about the
table. -/
theorem IsDrivenBy.of_run_eq (isAnalysis : analysis.IsAnalysisOf grammar method target)
    (driven : machine.IsDrivenBy analysis) {bound : Nat}
    {outcome : Except (Failure ParseError) (Parse V)}
    (runs : machine.run bound = some (outcome, next)) :
    next.IsDrivenBy analysis ∧
      ∀ state contradiction, outcome ≠ .error (.error (.corruptTable state contradiction)) := by
  induction bound generalizing machine with
  | zero => cases runs
  | succ bound ih =>
      rw [run] at runs
      split at runs
      · cases runs
        exact ⟨⟨driven.follows, driven.path⟩, by simp⟩
      · split at runs
        · rename_i steps
          exact ih (driven.of_step_eq isAnalysis steps) runs
        · rename_i reason after steps
          cases runs
          refine ⟨driven.of_step_eq isAnalysis steps, fun state contradiction same => ?_⟩
          exact (driven.fails isAnalysis steps).ne_corruptTable state contradiction
            (Except.error.inj same)

/-! ## Sequences of calls -/

/-- What successful steps make of a machine. Synthesis functions may be given to it in between. -/
inductive Proceeds (origin : Machine V) : Machine V → Prop where
  | refl : Proceeds origin origin
  | step {machine next : Machine V} {move : Move} (earlier : Proceeds origin machine)
      (steps : machine.step = (.ok move, next)) : Proceeds origin next
  | withSemantics {machine : Machine V} (earlier : Proceeds origin machine)
      (semantics : Semantics V) : Proceeds origin (machine.withSemantics semantics)

/-- What any calls make of a machine: steps, whether they succeed or not, and runs that return. -/
inductive Becomes (origin : Machine V) : Machine V → Prop where
  | refl : Becomes origin origin
  | step {machine next : Machine V} {outcome : Except (Failure ParseError) Move}
      (earlier : Becomes origin machine) (steps : machine.step = (outcome, next)) :
      Becomes origin next
  | run {machine next : Machine V} {bound : Nat} {outcome : Except (Failure ParseError) (Parse V)}
      (earlier : Becomes origin machine) (runs : machine.run bound = some (outcome, next)) :
      Becomes origin next
  | withSemantics {machine : Machine V} (earlier : Becomes origin machine)
      (semantics : Semantics V) : Becomes origin (machine.withSemantics semantics)

/-- Successful steps are calls. -/
theorem Proceeds.becomes {origin : Machine V} (proceeds : origin.Proceeds machine) :
    origin.Becomes machine := by
  induction proceeds with
  | refl => exact .refl
  | step _ steps ih => exact ih.step steps
  | withSemantics _ semantics ih => exact ih.withSemantics semantics

theorem start_eq_ok {parser : Parser} {origin : Machine V}
    (starts : Machine.start parser tokens = .ok origin) : origin = initial parser none tokens := by
  obtain ⟨_, _, isOrigin⟩ := exists_of_bind_eq_ok starts
  exact (Except.ok.inj isOrigin).symm

/-- The tokens that are counted as shifted and those that remain make up the input. -/
theorem Moves.position_eq (moves : machine.Moves next)
    (counted : machine.position + machine.remaining.length = tokens.length) :
    next.position + next.remaining.length = tokens.length := by
  cases moves with
  | shift _ ahead _ =>
      rw [← counted, ahead]
      simp only [Machine.shift, ahead, List.tail_cons, List.length_cons]
      omega
  | reduce _ _ _ _ _ _ _ => exact counted

/-- As long as steps succeed and the input is not accepted, the input can be retraced. -/
theorem Proceeds.retraces {parser : Parser}
    (proceeds : (initial parser none tokens).Proceeds machine)
    (unfinished : machine.result = none) :
    machine.parser = parser ∧ machine.Retraces tokens ∧
      machine.position + machine.remaining.length = tokens.length := by
  induction proceeds with
  | refl => exact ⟨rfl, retraces_initial parser none tokens, Nat.zero_add _⟩
  | @step machine next move earlier steps ih =>
      rcases rests_or_moves_or_accepts steps with ⟨_, rfl⟩ | moves | ⟨_, _, _, rfl⟩
      · exact ih unfinished
      · obtain ⟨sameParser, retraces, counted⟩ := ih moves.exists_step_eq.1
        exact ⟨moves.unchanged.2.1.trans sameParser, moves.retraces retraces,
          moves.position_eq counted⟩
      · cases unfinished
  | withSemantics _ _ ih => exact ih unfinished

/-- The rules reduced lead from the symbols on the stack to the tokens that are counted as
shifted. -/
theorem Retraces.derivesRightmost (retraces : machine.Retraces tokens)
    (counted : machine.position + machine.remaining.length = tokens.length) :
    machine.parser.grammar.DerivesRightmost machine.symbols machine.reductions.reverse
      (word ((tokens.take machine.position).map Token.terminal)) := by
  obtain ⟨read, rfl, rightmost⟩ := retraces
  rw [List.length_append] at counted
  rw [reductions, List.reverse_reverse, List.take_left' (by omega)]
  exact rightmost

/-- Whatever the machine is asked to do, its stack stays a path of the automaton. -/
theorem Becomes.isDrivenBy (isAnalysis : analysis.IsAnalysisOf grammar method target)
    {origin : Machine V} (driven : origin.IsDrivenBy analysis) (becomes : origin.Becomes machine) :
    machine.IsDrivenBy analysis := by
  induction becomes with
  | refl => exact driven
  | step _ steps ih => exact ih.of_step_eq isAnalysis steps
  | run _ runs ih => exact (ih.of_run_eq isAnalysis runs).1
  | withSemantics _ _ ih => exact ⟨ih.follows, ih.path⟩

end Machine

/-- With every grammar and every table: as long as steps succeed and the input is not accepted, the
rules reduced, from last to first, each applied to the rightmost nonterminal, lead from the symbols
on the stack to the terminals of the tokens shifted. With the table of an analysis, of a well-formed
grammar that is not augmented yet, by any method: whatever the machine has been asked to do, the
states on its stack are those that the automaton visits on reading the symbols, and neither a step
nor a run says that the table is corrupt. -/
theorem machines_retrace_their_input_along_the_automaton :
    (∀ (V : Type) (parser : Parser) (tokens : List Token) (origin machine : Machine V),
      Machine.start parser tokens = .ok origin → origin.Proceeds machine →
      machine.isAccepted = false →
      parser.grammar.DerivesRightmost machine.symbols machine.reductions.reverse
        (word ((tokens.take machine.position).map Token.terminal))) ∧
    ∀ grammar : Grammar, grammar.WellFormed → grammar.isAugmented = false →
      ∀ method : Method, ∃ analysis, Analysis.compute grammar method = .ok analysis ∧
        ∀ (V : Type) (tokens : List Token) (origin machine : Machine V),
          Machine.start analysis.parser tokens = .ok origin → origin.Becomes machine →
          analysis.automaton.walk Automaton.initial machine.symbols =
            .ok (some (Automaton.initial :: machine.stack.reverse.map Entry.state)) ∧
          ∀ state contradiction,
            machine.step.1 ≠ .error (.error (.corruptTable state contradiction)) ∧
            ∀ bound outcome next, machine.run bound = some (outcome, next) →
              outcome ≠ .error (.error (.corruptTable state contradiction)) := by
  constructor
  · intro V parser tokens origin machine starts proceeds unfinished
    obtain rfl := Machine.start_eq_ok starts
    have noResult : machine.result = none := by simpa [Machine.isAccepted] using unfinished
    obtain ⟨rfl, retraces, counted⟩ := proceeds.retraces noResult
    exact retraces.derivesRightmost counted
  · intro grammar wellFormed notAugmented method
    obtain ⟨analysis, target, computed, _, isAnalysis⟩ :=
      Analysis.exists_compute_eq_ok wellFormed notAugmented method
    refine ⟨analysis, computed, fun V tokens origin machine starts becomes => ?_⟩
    obtain rfl := Machine.start_eq_ok starts
    have driven := becomes.isDrivenBy isAnalysis (.initial none tokens)
    refine ⟨?_, fun state contradiction =>
      ⟨fun corrupt => ?_, fun bound outcome next runs => ?_⟩⟩
    · rw [List.map_reverse]
      exact driven.path.walk_eq
    · exact (driven.fails isAnalysis (Prod.ext corrupt rfl)).ne_corruptTable state
        contradiction rfl
    · exact (driven.of_run_eq isAnalysis runs).2 state contradiction

/-- Four steps into `a a`, by the table without lookaheads, the stack holds `a S`: the rules 1 and 0
have been reduced, and the states are those that `a S` leads through. The machine then runs to the
end, and a step after that still finds nothing wrong with the table. -/
theorem machine_retraces_repetition_along_the_automaton :
    ∃ analysis, Analysis.compute Grammar.repetition .lr0 = .ok analysis ∧
      ∃ origin machine final : Machine Unit, ∃ outcome,
        Machine.start analysis.parser [⟨"a", 1⟩, ⟨"a", 1⟩, Token.endToken] = .ok origin ∧
        origin.Proceeds machine ∧ machine.isAccepted = false ∧
        machine.symbols = [.terminal 1, .nonterminal 0] ∧
        analysis.grammar.DerivesRightmost machine.symbols [0, 1] (word [1, 1]) ∧
        analysis.automaton.walk Automaton.initial machine.symbols =
          .ok (some (Automaton.initial :: machine.stack.reverse.map Entry.state)) ∧
        machine.run 4 = some (outcome, final) ∧ final.reductions = [] ∧
        ∀ state contradiction,
          final.step.1 ≠ .error (.error (.corruptTable state contradiction)) := by
  obtain ⟨retraces, drives⟩ := machines_retrace_their_input_along_the_automaton
  obtain ⟨analysis, computed, driven⟩ :=
    drives Grammar.repetition Grammar.wellFormed_repetition rfl .lr0
  have evaluates : (Analysis.compute Grammar.repetition .lr0).map (fun analysis =>
      let origin : Machine Unit :=
        .initial analysis.parser none [⟨"a", 1⟩, ⟨"a", 1⟩, Token.endToken]
      let machine := origin.step.2.step.2.step.2.step.2
      decide (origin.step.1 = .ok (.shift 1) ∧ origin.step.2.step.1 = .ok (.shift 1) ∧
        origin.step.2.step.2.step.1 = .ok (.reduce 1) ∧
        origin.step.2.step.2.step.2.step.1 = .ok (.reduce 0) ∧
        machine.isAccepted = false ∧ machine.symbols = [.terminal 1, .nonterminal 0] ∧
        machine.reductions = [1, 0] ∧ machine.position = 2 ∧
        ((machine.run 4).map fun pair => pair.2.reductions) = some [])) = .ok true := by
    decide +kernel
  rw [computed] at evaluates
  obtain ⟨firstShift, secondShift, firstReduce, secondReduce, unfinished, symbols, reductions,
    position, ran⟩ := of_decide_eq_true (Except.ok.inj evaluates)
  obtain ⟨⟨outcome, final⟩, runs, forgotten⟩ := Option.map_eq_some_iff.mp ran
  have proceeds := ((((Machine.Proceeds.refl).step (Prod.ext firstShift rfl)).step
    (Prod.ext secondShift rfl)).step (Prod.ext firstReduce rfl)).step (Prod.ext secondReduce rfl)
  have starts : Machine.start analysis.parser [⟨"a", 1⟩, ⟨"a", 1⟩, Token.endToken] =
      .ok (.initial analysis.parser none
        [⟨"a", 1⟩, ⟨"a", 1⟩, Token.endToken] : Machine Unit) := rfl
  have rightmost := retraces _ analysis.parser _ _ _ starts proceeds unfinished
  rw [reductions, position] at rightmost
  exact ⟨analysis, computed, _, _, final, outcome, starts, proceeds, unfinished, symbols,
    rightmost, (driven _ _ _ _ starts proceeds.becomes).1, runs, forgotten,
    fun state contradiction =>
      ((driven _ _ _ _ starts (proceeds.becomes.run runs)).2 state contradiction).1⟩

end ShiftReduce

end DeterministicParsing
