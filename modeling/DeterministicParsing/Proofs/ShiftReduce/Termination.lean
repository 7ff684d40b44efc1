/-
# Parsers that return

A machine that is driven by a table without conflicts has accepted its input or failed after
finitely many steps, if its reductions come to an end in front of every token. With lookaheads they
do. Without, they do unless there is a nonterminal that derives neither the empty string nor one
that begins with a terminal: looking for it, the machine may go on to reduce empty rules for ever,
in front of a token that is awaited nowhere.
-/
import DeterministicParsing.Proofs.ShiftReduce.Settling

namespace DeterministicParsing

namespace Grammar

variable {grammar augmented : Grammar} {target : Nat} {before after : List Symbol}

/-! ## Frames of the augmented grammar -/

namespace IsAugmentationOf

variable (augments : augmented.IsAugmentationOf grammar target)
include augments

/-- Every nonterminal that is looked for, except the new start, occurs in what the old start
derives. -/
theorem reaches_of_frame
    (fresh : augmented.HasFreshStart grammar.nonterminalCount grammar.rules.length target)
    {nonterminal : Nat} (starts : grammar.start = .ok target)
    (frame : augmented.Frame before nonterminal after)
    (other : nonterminal ≠ grammar.nonterminalCount) : grammar.Reaches nonterminal := by
  obtain ⟨rest, _, derives⟩ := augments.exists_derives_of_frame fresh frame other
  exact ⟨target, before, rest, starts, derives⟩

/-- If every nonterminal that the start reaches derives the empty string or one that begins with a
terminal, something is awaited after every viable prefix. -/
theorem exists_awaits
    (fresh : augmented.HasFreshStart grammar.nonterminalCount grammar.rules.length target)
    (starts : grammar.start = .ok target)
    (opens : ∀ nonterminal, grammar.Reaches nonterminal → grammar.Opens nonterminal)
    {string : List Symbol} (viable : augmented.ViablePrefix string) :
    ∃ awaited, augmented.Awaits string awaited := by
  refine viable.exists_awaits fun before after head left right frame member => ?_
  refine derives_nil_or_exists_beginning fun nonterminal inRight => ?_
  obtain ⟨first, last, rfl⟩ := List.append_of_mem inRight
  have other : nonterminal ≠ grammar.nonterminalCount := by
    rintro rfl
    exact fresh.fresh _ member (by simp)
  rw [← List.append_assoc] at member
  rcases opens nonterminal (augments.reaches_of_frame fresh starts (frame.within member) other) with
    vanishes | ⟨terminal, rest, begins⟩
  · exact .inl (augments.derives vanishes)
  · exact .inr ⟨terminal, rest, augments.derives begins⟩

end IsAugmentationOf

/-! ## A nonterminal that nothing begins -/

/-- The rules `S → x B`, `S → y Z a`, `B → Z B b` and `Z → ε`. Whatever `B` derives has `B`
in it, and nothing that begins with a terminal, as `Z` derives the empty string only. -/
def bottomless : Grammar :=
  .ofLists ["x", "y", "a", "b"] ["S", "B", "Z"]
    [⟨0, [.terminal 1, .nonterminal 1]⟩, ⟨0, [.terminal 2, .nonterminal 2, .terminal 3]⟩,
      ⟨1, [.nonterminal 2, .nonterminal 1, .terminal 4]⟩, ⟨2, []⟩]
    (by decide) (by decide) (by decide)

theorem wellFormed_bottomless : bottomless.WellFormed := ⟨by decide, 0, rfl, by decide⟩

end Grammar

namespace ShiftReduce

variable {grammar : Grammar} {method : Method} {target : Nat} {analysis : Analysis} {V : Type}
  {machine next : Machine V}

/-! ## Runs that end -/

namespace Machine

/-- Given enough rounds, a run ends, with the input accepted or with an error. -/
def Returns (machine : Machine V) : Prop :=
  ∃ enough outcome, (∀ bound ≥ enough, (machine.run bound).map Prod.fst = some outcome) ∧
    ∀ fault, outcome ≠ .error (.fault fault)

theorem returns_of_finished {value : Option V} (finished : machine.result = some value) :
    machine.Returns := by
  refine ⟨1, .ok ⟨machine.reductions, value⟩, fun bound many => ?_, by simp⟩
  obtain ⟨bound, rfl⟩ := Nat.exists_eq_add_of_le' many
  simp [run, finished, collect]

theorem returns_of_step_eq_error {reason : Failure ParseError} (unfinished : machine.result = none)
    (steps : machine.step = (.error reason, next)) (noFault : ∀ fault, reason ≠ .fault fault) :
    machine.Returns := by
  refine ⟨1, .error reason, fun bound many => ?_, fun fault same => ?_⟩
  · obtain ⟨bound, rfl⟩ := Nat.exists_eq_add_of_le' many
    simp [run, unfinished, steps]
  · exact noFault fault (Except.error.inj same)

theorem Returns.of_step_eq {move : Move} (returns : next.Returns)
    (unfinished : machine.result = none)
    (steps : machine.step = (.ok move, next)) : machine.Returns := by
  obtain ⟨enough, outcome, runs, noFault⟩ := returns
  refine ⟨enough + 1, outcome, fun bound many => ?_, noFault⟩
  obtain ⟨bound, rfl⟩ := Nat.exists_eq_add_of_le' (Nat.le_of_add_left_le many)
  simp only [run, unfinished, steps]
  exact runs bound (Nat.le_of_succ_le_succ many)

variable (isAnalysis : analysis.IsAnalysisOf grammar method target)
  (underway : machine.IsUnderway analysis)

include isAnalysis underway

/-- In front of declared terminals and without synthesis functions, a step fails with an error that
the input is to blame for. -/
theorem IsUnderway.ne_fault {reason : Failure ParseError}
    (declared : ∀ token ∈ machine.remaining, token.terminal < analysis.grammar.terminalCount)
    (steps : machine.step = (.error reason, next)) (fault : Fault) : reason ≠ .fault fault := by
  cases underway.toIsDrivenBy.fails isAnalysis steps with
  | missingEnd _ => simp
  | @refused token rest _ ahead refuses =>
      have isDeclared := declared token (by simp [ahead])
      rcases eq_of_refuse_eq refuses with ⟨name, _, rfl⟩ | ⟨_, unnamed, _⟩
      · simp
      · rw [underway.follows] at unnamed
        have named : analysis.grammar.terminalName token.terminal =
            .ok analysis.grammar.terminalNames[token.terminal] :=
          Arena.terminalName_eq_ok.mpr (List.getElem?_eq_getElem isDeclared)
        cases named.symm.trans unnamed
  | faulted faults =>
      rw [synthesised, underway.silent] at faults
      cases faults

omit isAnalysis in
/-- A move that leaves the tokens as they are is a reduction in front of the next one. -/
theorem IsUnderway.reduces_or_shifts {token : Token} {rest : List Token}
    (ahead : machine.remaining = token :: rest) (moves : machine.Moves next) :
    next.remaining = rest ∨ (next.remaining = token :: rest ∧
      analysis.Reduces token.terminal machine.symbols next.symbols) := by
  cases moves with
  | shift _ alsoAhead _ => exact .inl (by rw [shift, ahead, List.tail_cons])
  | @reduce alsoToken _ id target rule value _ alsoAhead action found spelled _ _ =>
      cases ahead.symm.trans alsoAhead
      rw [underway.follows] at action found
      exact .inr ⟨ahead, _, id, rule, _, underway.reaches, action, found,
        symbols_of_spelled spelled, symbols_reducedTo id target rule value⟩

/-- If the reductions come to an end in front of every token, so does the run. -/
theorem IsUnderway.returns
    (settles : ∀ terminal string id, analysis.automaton.Reaches string id →
      analysis.Settles terminal string)
    (declared : ∀ token ∈ machine.remaining, token.terminal < analysis.grammar.terminalCount) :
    machine.Returns := by
  -- Between two shifts the induction is on the reductions.
  induction ahead : machine.remaining generalizing machine with
  | nil =>
      have steps : machine.step = (.error (.error .missingEnd), machine) := by
        simp [step, isAccepted, underway.unfinished, lookahead?, ahead, Failure.raise]
      exact returns_of_step_eq_error underway.unfinished steps (by simp)
  | cons token rest shifted =>
      have reductionsEnd := settles token.terminal machine.symbols _ underway.reaches
      generalize isString : machine.symbols = string at reductionsEnd
      induction reductionsEnd generalizing machine with
      | intro string _ reduced =>
          subst isString
          rcases steps : machine.step with ⟨reason | move, next⟩
          · exact returns_of_step_eq_error underway.unfinished steps
              (underway.ne_fault isAnalysis declared steps)
          · rcases moves_or_accepts underway.unfinished steps with moves | ⟨_, _, _, rfl⟩
            · have nextUnderway := underway.of_moves isAnalysis moves
              refine Returns.of_step_eq ?_ underway.unfinished steps
              rcases underway.reduces_or_shifts ahead moves with isRest | ⟨same, reduces⟩
              · refine shifted nextUnderway (fun other member => declared other ?_) isRest
                rw [ahead, ← isRest]
                exact List.mem_cons_of_mem token member
              · refine reduced _ reduces nextUnderway
                  (fun other member => declared other ?_) same rfl
                rwa [ahead, ← same]
            · exact (returns_of_finished rfl).of_step_eq underway.unfinished steps

end Machine

/-- Given enough rounds, the parser ends on the input, well or with an error. -/
def Parser.Returns (parser : Parser) (tokens : List Token) : Prop :=
  ∃ enough outcome, (∀ bound ≥ enough, parser.parse bound tokens = some outcome) ∧
    ∀ fault, outcome ≠ .error (.fault fault)

/-- A table without conflicts does not keep the parser busy for ever. For every well-formed grammar
that is not augmented yet and every method: if the table has no conflicts, the parser ends on every
input of declared terminals with its end in the right place, whether it is a sentence or not. With
the methods that do without lookaheads of items, every nonterminal that the start reaches is to
derive the empty string or one that begins with a terminal. -/
theorem conflict_free_parsers_return (grammar : Grammar) (wellFormed : grammar.WellFormed)
    (notAugmented : grammar.isAugmented = false) (method : Method)
    (opens : method = .lr0 ∨ method = .slr1 →
      ∀ nonterminal, grammar.Reaches nonterminal → grammar.Opens nonterminal) :
    ∃ analysis, Analysis.compute grammar method = .ok analysis ∧
      (analysis.table.isConflictFree = true → ∀ tokens, Token.checkEnd tokens = .ok () →
        (∀ token ∈ tokens, token.terminal < grammar.terminalCount) →
        analysis.parser.Returns tokens) := by
  obtain ⟨analysis, target, computed, starts, isAnalysis⟩ :=
    Analysis.exists_compute_eq_ok wellFormed notAugmented method
  refine ⟨analysis, computed, fun conflictFree tokens taken declared => ?_⟩
  have settles (terminal : Nat) (string : List Symbol) (id : Nat)
      (reaches : analysis.automaton.Reaches string id) : analysis.Settles terminal string := by
    by_cases marked : method.automatonKind.marked = true
    · exact isAnalysis.settles_of_reaches conflictFree marked string id reaches
    · have plain : method = .lr0 ∨ method = .slr1 := by
        cases method <;> simp_all [Method.automatonKind, AutomatonKind.marked]
      refine isAnalysis.settles_of_always_awaits conflictFree (fun string viable => ?_) reaches
      exact isAnalysis.augments.exists_awaits isAnalysis.fresh starts (opens plain) viable
  have underway : (Machine.initial analysis.parser (none : Option (Semantics Unit))
      tokens).IsUnderway analysis := ⟨.initial none tokens, rfl, rfl⟩
  have sameCount : analysis.grammar.terminalCount = grammar.terminalCount := by
    rw [Arena.terminalCount, isAnalysis.augments.terminalNames_eq, Arena.terminalCount]
  obtain ⟨enough, outcome, runs, noFault⟩ :=
    underway.returns isAnalysis settles (sameCount.symm ▸ declared)
  refine ⟨enough, outcome, fun bound many => ?_, noFault⟩
  rw [Parser.parse, Parser.parseWith_eq_run taken, runs bound many]

/-- With merged lookaheads the parser ends on `x a`, though `B` is of no use, and with Follow sets
the one for any number of `a` ends on `a a`, where `S` derives the empty string. -/
theorem parsers_of_bottomless_and_repetition_return :
    (∃ analysis, Analysis.compute Grammar.bottomless .lalr1 = .ok analysis ∧
      analysis.table.isConflictFree = true ∧
      analysis.parser.Returns [⟨"x", 1⟩, ⟨"a", 3⟩, Token.endToken]) ∧
    ∃ analysis, Analysis.compute Grammar.repetition .slr1 = .ok analysis ∧
      analysis.table.isConflictFree = true ∧
      analysis.parser.Returns [⟨"a", 1⟩, ⟨"a", 1⟩, Token.endToken] := by
  constructor
  · obtain ⟨analysis, computed, returns⟩ := conflict_free_parsers_return Grammar.bottomless
      Grammar.wellFormed_bottomless rfl .lalr1 (by simp)
    have evaluates : (Analysis.compute Grammar.bottomless .lalr1).map (·.table.isConflictFree) =
        .ok true := by
      decide +kernel
    rw [computed] at evaluates
    have conflictFree := Except.ok.inj evaluates
    exact ⟨analysis, computed, conflictFree, returns conflictFree _ rfl (by decide)⟩
  · have opens (nonterminal : Nat) (reaches : Grammar.repetition.Reaches nonterminal) :
        Grammar.repetition.Opens nonterminal := by
      obtain ⟨start, left, right, starts, derives⟩ := reaches
      cases starts
      have onlyStart : nonterminal = 0 := by
        have occurs :
            Symbol.nonterminal nonterminal ∈ left ++ .nonterminal nonterminal :: right := by
          simp
        simpa [Grammar.repetition] using derives.mem occurs
      subst onlyStart
      have empty : (⟨0, []⟩ : Rule) ∈ Grammar.repetition.rules := by decide
      exact .inl (.of_rule empty)
    obtain ⟨analysis, computed, returns⟩ := conflict_free_parsers_return Grammar.repetition
      Grammar.wellFormed_repetition rfl .slr1 fun _ => opens
    have evaluates : (Analysis.compute Grammar.repetition .slr1).map (·.table.isConflictFree) =
        .ok true := by
      decide +kernel
    rw [computed] at evaluates
    have conflictFree := Except.ok.inj evaluates
    exact ⟨analysis, computed, conflictFree, returns conflictFree _ rfl (by decide)⟩

/-! ## A parser that does not return -/

/-- A machine that moves has no more of an outcome than the one it becomes. -/
theorem Machine.Moves.run_eq_none (moves : machine.Moves next)
    (never : ∀ bound, next.run bound = none) (bound : Nat) : machine.run bound = none := by
  obtain ⟨unfinished, move, steps⟩ := moves.exists_step_eq
  cases bound with
  | zero => rfl
  | succ bound => simp only [Machine.run, unfinished, steps, never bound]

/-- A machine without synthesis functions that reduces an empty rule and comes to the same state
goes on with that for ever. -/
theorem Machine.run_eq_none_of_idle {token : Token} {rest : List Token} {state id head : Nat}
    (silent : machine.semantics = none) (unfinished : machine.result = none)
    (ahead : machine.remaining = token :: rest) (here : machine.state = state)
    (action : machine.parser.table.action? state token.terminal = some (.reduce id))
    (found : machine.parser.grammar.rules[id]? = some ⟨head, []⟩)
    (leads : machine.parser.table.goto? state head = some state) (bound : Nat) :
    machine.run bound = none := by
  induction bound generalizing machine with
  | zero => rfl
  | succ bound ih =>
      have moves : machine.Moves (machine.reducedTo id ⟨head, []⟩ none state) :=
        .reduce unfinished ahead (here ▸ action) found rfl (by subst here; exact leads)
          (by rw [synthesised, silent])
      obtain ⟨_, move, steps⟩ := moves.exists_step_eq
      simp only [run, unfinished, steps]
      exact ih silent unfinished ahead rfl action found leads

/-- Neither without lookaheads nor with Follow sets does the parser end on `x a`. In front of `a` it
reduces `Z → ε`, as if `y` had been read, and then does so again and again, as if `b` were to
come. -/
theorem parser_of_bottomless_never_returns :
    Grammar.bottomless.WellFormed ∧ Grammar.bottomless.isAugmented = false ∧
      Token.checkEnd [⟨"x", 1⟩, ⟨"a", 3⟩, Token.endToken] = .ok () ∧
      (∀ token ∈ [⟨"x", 1⟩, ⟨"a", 3⟩, Token.endToken],
        token.terminal < Grammar.bottomless.terminalCount) ∧
      ∀ method, method = .lr0 ∨ method = .slr1 → ∃ analysis,
        Analysis.compute Grammar.bottomless method = .ok analysis ∧
        analysis.table.isConflictFree = true ∧
        ∀ bound, analysis.parser.parse bound [⟨"x", 1⟩, ⟨"a", 3⟩, Token.endToken] =
          none := by
  refine ⟨Grammar.wellFormed_bottomless, rfl, rfl, by decide, fun method plain => ?_⟩
  obtain ⟨analysis, _, computed, _, _⟩ :=
    Analysis.exists_compute_eq_ok Grammar.wellFormed_bottomless rfl method
  have evaluates : (Analysis.compute Grammar.bottomless method).map (fun analysis =>
      decide (analysis.table.isConflictFree = true ∧
        analysis.grammar.rules[3]? = some ⟨2, []⟩ ∧
        analysis.table.action? 0 1 = some (.shift 1) ∧
        analysis.table.action? 1 3 = some (.reduce 3) ∧ analysis.table.goto? 1 2 = some 5 ∧
        analysis.table.action? 5 3 = some (.reduce 3) ∧ analysis.table.goto? 5 2 = some 5)) =
      .ok true := by
    rcases plain with rfl | rfl <;> decide +kernel
  rw [computed] at evaluates
  obtain ⟨conflictFree, found, shifts, reduces, leads, reducesAgain, leadsBack⟩ :=
    of_decide_eq_true (Except.ok.inj evaluates)
  refine ⟨analysis, computed, conflictFree, fun bound => ?_⟩
  let origin : Machine Unit :=
    .initial analysis.parser none [⟨"x", 1⟩, ⟨"a", 3⟩, Token.endToken]
  let shifted := origin.shift ⟨"x", 1⟩ 1
  have firstMove : origin.Moves shifted := .shift rfl rfl shifts
  have secondMove : shifted.Moves (shifted.reducedTo 3 ⟨2, []⟩ none 5) :=
    .reduce rfl rfl reduces found rfl leads rfl
  rw [Parser.parse, Parser.parseWith_eq_run rfl, Option.map_eq_none_iff]
  refine firstMove.run_eq_none (secondMove.run_eq_none ?_) bound
  exact Machine.run_eq_none_of_idle rfl rfl rfl rfl reducesAgain found leadsBack

end ShiftReduce

end DeterministicParsing
