/-
# Where the machine rejects

A machine without synthesis functions fails in front of a token only where its table has no action.
By then it has shifted nothing that the start could not begin with, since the symbols on its stack
are a viable prefix that derives what has been shifted. A table without lookaheads, or with merged
ones, may let it reduce in front of a token that cannot come next, but a reduction leaves the tokens
alone. If there are no conflicts, the machine cannot reject a token with which some sentence goes
on: in front of that sentence it would make the same moves up to the token, since none of them
depends on what comes after the token, and would be rejecting what it accepts.
-/
import DeterministicParsing.Proofs.ShiftReduce.Invariant
import DeterministicParsing.Proofs.ShiftReduce.Soundness

namespace DeterministicParsing.ShiftReduce

variable {grammar : Grammar} {method : Method} {target : Nat} {analysis : Analysis} {V : Type}
  {machine next final : Machine V} {tokens rest : List Token} {token : Token}

namespace Machine

open Relation (ReflTransGen)

/-! ## Machines that get stuck -/

/-- The table has no action for the next token. -/
structure Refuses (machine : Machine V) (token : Token) (rest : List Token) : Prop where
  unfinished : machine.result = none
  ahead : machine.remaining = token :: rest
  action : machine.parser.table.action? machine.state token.terminal = none

theorem Moves.unique {other : Machine V} (moves : machine.Moves next)
    (alsoMoves : machine.Moves other) : next = other := by
  obtain ⟨_, move, steps⟩ := moves.exists_step_eq
  obtain ⟨_, otherMove, alsoSteps⟩ := alsoMoves.exists_step_eq
  exact (Prod.mk.inj (steps.symm.trans alsoSteps)).2

theorem Refuses.not_moves (refuses : machine.Refuses token rest) : ¬ machine.Moves next := by
  obtain ⟨_, ahead, noAction⟩ := refuses
  rintro (⟨_, alsoAhead, action⟩ | ⟨_, alsoAhead, action, _⟩) <;>
  · cases ahead.symm.trans alsoAhead
    cases noAction.symm.trans action

theorem Accepts.not_moves (accepts : machine.Accepts token rest) : ¬ machine.Moves next := by
  obtain ⟨_, ahead, accept⟩ := accepts
  rintro (⟨_, alsoAhead, action⟩ | ⟨_, alsoAhead, action, _⟩) <;>
  · cases ahead.symm.trans alsoAhead
    cases accept.symm.trans action

/-- A machine that can accept does not come to a refusal as well. -/
theorem Refuses.false_of_accepts {origin : Machine V} {other : Token} {others : List Token}
    (refuses : next.Refuses token rest) (reaches : ReflTransGen Moves origin next)
    (accepts : final.Accepts other others)
    (alsoReaches : ReflTransGen Moves origin final) : False := by
  have unique : Relator.RightUnique (@Moves V) :=
    fun _ _ _ moves alsoMoves => moves.unique alsoMoves
  have same : next = final := by
    rcases reaches.total_of_right_unique unique alsoReaches with later | later
    · rcases later.cases_head with same | ⟨_, moves, _⟩
      · exact same
      · exact absurd moves refuses.not_moves
    · rcases later.cases_head with same | ⟨_, moves, _⟩
      · exact same.symm
      · exact absurd moves accepts.not_moves
  subst same
  cases refuses.ahead.symm.trans accepts.ahead
  cases refuses.action.symm.trans accepts.action

/-- Where the machine finds a token unexpected, the table has no action for it. -/
theorem IsUnderway.refuses_of_step_eq (isAnalysis : analysis.IsAnalysisOf grammar method target)
    (underway : machine.IsUnderway analysis) {state position : Nat} {terminal lexeme : String}
    (steps : machine.step =
      (.error (.error (.unexpectedToken state terminal lexeme position)), next)) :
    position = machine.position ∧ ∃ token rest, machine.Refuses token rest := by
  cases remaining : machine.remaining with
  | nil =>
      simp [step, isAccepted, underway.unfinished, lookahead?, remaining, Failure.raise] at steps
  | cons token rest =>
      cases isAction : machine.parser.table.action? machine.state token.terminal with
      | none =>
          have refused : machine.refuse token =
              .error (.error (.unexpectedToken state terminal lexeme position)) := by
            simp only [step, isAccepted, underway.unfinished, lookahead?, remaining,
              List.head?_cons, isAction] at steps
            exact (Prod.mk.inj steps).1
          refine ⟨?_, token, rest, underway.unfinished, remaining, isAction⟩
          rcases eq_of_refuse_eq refused with ⟨_, _, same⟩ | ⟨_, _, same⟩
          · cases same
            rfl
          · cases same
      | some action =>
          -- With an action the machine moves or accepts, since no function can fault.
          exfalso
          obtain ⟨move, other, alsoSteps⟩ : ∃ move other,
              machine.step = (.ok move, other) := by
            cases action with
            | shift goal =>
                obtain ⟨_, move, alsoSteps⟩ :=
                  (Moves.shift underway.unfinished remaining isAction).exists_step_eq
                exact ⟨move, _, alsoSteps⟩
            | reduce id =>
                obtain ⟨rule, goal, found, spelled, leads⟩ :=
                  underway.toIsDrivenBy.exists_goto isAnalysis isAction
                have silent : machine.synthesised id (machine.stack.take rule.body.length).reverse =
                    .ok none := by
                  rw [synthesised, underway.silent]
                obtain ⟨_, move, alsoSteps⟩ :=
                  (Moves.reduce underway.unfinished remaining isAction found spelled
                    leads silent).exists_step_eq
                exact ⟨move, _, alsoSteps⟩
            | accept =>
                have accepts : machine.Accepts token rest :=
                  ⟨underway.unfinished, remaining, isAction⟩
                exact ⟨_, _, accepts.step_eq⟩
          rw [steps] at alsoSteps
          cases (Prod.mk.inj alsoSteps).1

/-- A run that ends with an unexpected token consists of moves up to a refusal. -/
theorem IsUnderway.exists_refuses_of_run_eq
    (isAnalysis : analysis.IsAnalysisOf grammar method target)
    (underway : machine.IsUnderway analysis) {bound state position : Nat} {terminal lexeme : String}
    (ends : (machine.run bound).map Prod.fst =
      some (.error (.error (.unexpectedToken state terminal lexeme position)))) :
    ∃ final token rest, ReflTransGen Moves machine final ∧ final.IsUnderway analysis ∧
      final.Refuses token rest ∧ position = final.position := by
  induction bound generalizing machine with
  | zero => simp [run] at ends
  | succ bound ih =>
      rw [run, underway.unfinished] at ends
      dsimp only at ends
      rcases steps : machine.step with ⟨outcome, next⟩
      rw [steps] at ends
      cases outcome with
      | ok move =>
          rcases moves_or_accepts underway.unfinished steps with moves | ⟨token, rest, _, rfl⟩
          · obtain ⟨final, token, rest, reaches, finalUnderway, refuses, same⟩ :=
              ih (underway.of_moves isAnalysis moves) ends
            exact ⟨final, token, rest, .head moves reaches, finalUnderway, refuses, same⟩
          · cases bound <;> simp [run, accept] at ends
      | error reason =>
          obtain rfl : reason = .error (.unexpectedToken state terminal lexeme position) := by
            simpa using ends
          obtain ⟨same, token, rest, refuses⟩ := underway.refuses_of_step_eq isAnalysis steps
          exact ⟨machine, token, rest, .refl, underway, refuses, same⟩

/-! ## What has been shifted -/

/-- The start derives a string that begins with what has been shifted. -/
theorem IsDrivenBy.exists_derives (isAnalysis : analysis.IsAnalysisOf grammar method target)
    (driven : machine.IsDrivenBy analysis) (retraces : machine.Retraces tokens) :
    ∃ read others, tokens = read ++ machine.remaining ∧
      grammar.Derives [.nonterminal target] (word (read.map Token.terminal) ++ others) := by
  obtain ⟨read, split, rightmost⟩ := retraces
  rw [driven.follows] at rightmost
  have viable := isAnalysis.built.viablePrefix isAnalysis.fresh driven.reaches
  obtain ⟨others, derives⟩ :=
    isAnalysis.augments.exists_derives_of_viablePrefix isAnalysis.fresh viable
  have absent : .nonterminal grammar.nonterminalCount ∉ machine.symbols := by
    intro member
    obtain ⟨before, after, form⟩ := List.append_of_mem member
    rw [form, List.append_assoc, List.cons_append] at derives
    exact isAnalysis.ne_of_derives (isAnalysis.augments.derives derives) rfl
  have shifted := isAnalysis.augments.derivesRightmost_of_not_mem isAnalysis.fresh rightmost absent
  exact ⟨read, others, split, derives.trans (shifted.derives.append (.refl others))⟩

theorem position_eq_of_moves (reaches : ReflTransGen Moves machine final)
    (counted : machine.position + machine.remaining.length = tokens.length) :
    final.position + final.remaining.length = tokens.length := by
  induction reaches with
  | refl => exact counted
  | tail _ moves ih => exact moves.position_eq ih

/-! ## Another input that begins alike -/

/-- The machine in front of other tokens. -/
def before (machine : Machine V) (tokens : List Token) : Machine V :=
  { machine with remaining := tokens }

/-- A move that stays in front of a token does not depend on the tokens after it. -/
theorem Moves.before (moves : machine.Moves next) {ahead : List Token}
    (isAhead : next.remaining = ahead ++ token :: rest) :
    ∃ front, machine.remaining = front ++ token :: rest ∧ ∀ others,
      (machine.before (front ++ token :: others)).Moves
        (next.before (ahead ++ token :: others)) := by
  cases moves with
  | @shift read remaining goal unfinished isRemaining action =>
      have isTail : machine.remaining.tail = ahead ++ token :: rest := isAhead
      rw [isRemaining, List.tail_cons] at isTail
      refine ⟨read :: ahead, by rw [isRemaining, isTail]; rfl, fun others => ?_⟩
      have here : (machine.before (read :: ahead ++ token :: others)).remaining =
          read :: (ahead ++ token :: others) := rfl
      exact Moves.shift unfinished here action
  | @reduce read remaining id goal rule value unfinished isRemaining action found
      spelled leads computed =>
      have same : machine.remaining = ahead ++ token :: rest := isAhead
      refine ⟨ahead, same, fun others => ?_⟩
      obtain ⟨later, isNext⟩ : ∃ later, ahead ++ token :: others = read :: later := by
        rw [isRemaining] at same
        cases ahead with
        | nil => exact ⟨others, by rw [(List.cons.inj same).1]; rfl⟩
        | cons first ahead =>
            exact ⟨ahead ++ token :: others, by rw [(List.cons.inj same).1]; rfl⟩
      have here : (machine.before (ahead ++ token :: others)).remaining = read :: later := isNext
      exact Moves.reduce unfinished here action found spelled leads computed

/-- Moves up to a token do not depend on the tokens after it. -/
theorem moves_before {front : List Token} {origin : Machine V}
    (begins : origin.remaining = front ++ token :: rest) (others : List Token)
    (reaches : ReflTransGen Moves origin final) {ahead : List Token}
    (isAhead : final.remaining = ahead ++ token :: rest) :
    ReflTransGen Moves (origin.before (front ++ token :: others))
      (final.before (ahead ++ token :: others)) := by
  induction reaches generalizing ahead with
  | refl =>
      rw [List.append_cancel_right (begins.symm.trans isAhead)]
  | tail _ moves ih =>
      obtain ⟨between, isBetween, moved⟩ := moves.before isAhead
      exact (ih isBetween).tail (moved others)

end Machine

namespace Analysis.IsAnalysisOf

variable (isAnalysis : analysis.IsAnalysisOf grammar method target)
include isAnalysis

/-- A parser that finds a token unexpected has stopped there. -/
theorem exists_refuses_of_parse_eq {bound state position : Nat} {terminal lexeme : String}
    (rejected : analysis.parser.parse bound tokens =
      some (.error (.error (.unexpectedToken state terminal lexeme position)))) :
    ∃ final token rest, Relation.ReflTransGen Machine.Moves
        (Machine.initial analysis.parser (none : Option (Semantics Unit)) tokens) final ∧
      final.IsUnderway analysis ∧ final.Refuses token rest ∧ position = final.position := by
  cases taken : Token.checkEnd tokens with
  | error reason =>
      rw [Parser.parse, Parser.parseWith, Machine.start, taken] at rejected
      cases Option.some.inj rejected
      unfold Token.checkEnd at taken
      split at taken
      · dsimp only at taken
        split at taken <;> cases taken
      · cases taken
  | ok _ =>
      rw [Parser.parse, Parser.parseWith_eq_run taken] at rejected
      have underway : (Machine.initial analysis.parser (none : Option (Semantics Unit))
          tokens).IsUnderway analysis := ⟨.initial none tokens, rfl, rfl⟩
      exact underway.exists_refuses_of_run_eq isAnalysis rejected

/-- Without conflicts, no sentence goes on with a token that is refused. -/
theorem not_prefix_of_refuses (conflictFree : analysis.table.isConflictFree = true)
    {final : Machine Unit} {read : List Token}
    (reaches : Relation.ReflTransGen Machine.Moves
      (Machine.initial analysis.parser none (read ++ token :: rest)) final)
    (refuses : final.Refuses token rest) {sentence : List Nat}
    (generates : grammar.Generates [.nonterminal target] sentence) :
    ¬ (read ++ [token]).map Token.terminal <+: sentence ++ [endOfInput] := by
  intro begins
  rw [List.map_append, List.map_singleton] at begins
  obtain ⟨others, rfl, agrees⟩ := Token.exists_append_of_prefix begins
  obtain ⟨ahead, last, later, written, ends, rfl⟩ := Token.exists_append_eq_cons agrees
  -- In front of the sentence, the machine comes to the refusal, and it accepts.
  have moved := Machine.moves_before (show _ = read ++ token :: rest from rfl) later reaches
    (show final.remaining = [] ++ token :: rest from refuses.ahead)
  have stillRefuses : (final.before (token :: later)).Refuses token later :=
    ⟨refuses.unfinished, rfl, refuses.action⟩
  have underway : (Machine.initial analysis.parser (none : Option (Semantics Unit))
      (read ++ token :: later)).IsUnderway analysis := ⟨.initial none _, rfl, rfl⟩
  have isInput : (Machine.initial analysis.parser (none : Option (Semantics Unit))
      (read ++ token :: later)).remaining = read ++ ahead ++ [last] := by
    rw [List.append_assoc, written]
    rfl
  obtain ⟨rules, rightmost⟩ := generates.exists_rightmost
  rw [← List.map_append] at rightmost
  obtain ⟨accepting, _, _, alsoReaches, accepts, _⟩ :=
    isAnalysis.exists_accepts conflictFree underway (.inl rfl) isInput ends
      (isAnalysis.augments.derivesRightmost rightmost)
  exact stillRefuses.false_of_accepts moved accepts alsoReaches

end Analysis.IsAnalysisOf

/-- For every well-formed grammar that is not augmented yet and every method: if the parser finds
the token at some position unexpected, with whatever conflicts in its table, then what is in front
of the token begins a string that the start derives. If there are no conflicts, no sentence goes on
with the token, taking the end of the input for what comes after a sentence. -/
theorem unexpected_tokens_are_located (grammar : Grammar) (wellFormed : grammar.WellFormed)
    (notAugmented : grammar.isAugmented = false) (method : Method) :
    ∃ analysis start, Analysis.compute grammar method = .ok analysis ∧
      grammar.start = .ok start ∧ ∀ bound tokens state terminal lexeme position,
        analysis.parser.parse bound tokens =
          some (.error (.error (.unexpectedToken state terminal lexeme position))) →
        position < tokens.length ∧
        (∃ rest, grammar.Derives [.nonterminal start]
          (word ((tokens.take position).map Token.terminal) ++ rest)) ∧
        (analysis.table.isConflictFree = true → ∀ sentence,
          grammar.Generates [.nonterminal start] sentence →
          ¬ (tokens.take (position + 1)).map Token.terminal <+: sentence ++ [endOfInput]) := by
  obtain ⟨analysis, start, computed, starts, isAnalysis⟩ :=
    Analysis.exists_compute_eq_ok wellFormed notAugmented method
  refine ⟨analysis, start, computed, starts, ?_⟩
  intro bound tokens state terminal lexeme position rejected
  obtain ⟨final, token, rest, reaches, underway, refuses, rfl⟩ :=
    isAnalysis.exists_refuses_of_parse_eq rejected
  obtain ⟨driven, retraces⟩ :=
    (Machine.IsDrivenBy.initial none tokens).retraces_of_moves isAnalysis
      (Machine.retraces_initial _ _ tokens) reaches
  obtain ⟨read, others, split, derives⟩ := driven.exists_derives isAnalysis retraces
  have counted := Machine.position_eq_of_moves reaches
    (show 0 + tokens.length = tokens.length from Nat.zero_add _)
  rw [refuses.ahead] at split counted
  subst split
  have position : final.position = read.length := by
    rw [List.length_append] at counted
    exact Nat.add_right_cancel counted
  rw [position]
  refine ⟨by simp, ?_, fun conflictFree sentence generates => ?_⟩
  · rw [List.take_left]
    exact ⟨others, derives⟩
  · rw [List.take_length_add_append, List.take_succ_cons, List.take_zero]
    exact isAnalysis.not_prefix_of_refuses conflictFree reaches refuses generates

/-- The table for brackets has no conflicts, and the last token of `( ) )` is the one to reject. -/
theorem unexpected_token_of_brackets_is_located :
    ∃ analysis, Analysis.compute Grammar.brackets .slr1 = .ok analysis ∧
      analysis.table.isConflictFree = true ∧
      (∃ state,
        analysis.parser.parse 7 [⟨"(", 1⟩, ⟨")", 2⟩, ⟨")", 2⟩, Token.endToken] =
          some (.error (.error (.unexpectedToken state ")" ")" 2)))) ∧
      (∃ rest, Grammar.brackets.Derives [.nonterminal 0] (word [1, 2] ++ rest)) ∧
      ∀ sentence, Grammar.brackets.Generates [.nonterminal 0] sentence →
        ¬ [1, 2, 2] <+: sentence ++ [endOfInput] := by
  obtain ⟨analysis, start, computed, starts, located⟩ :=
    unexpected_tokens_are_located Grammar.brackets Grammar.wellFormed_brackets rfl .slr1
  cases starts
  have evaluates : (Analysis.compute Grammar.brackets .slr1).map (fun analysis =>
      (analysis.table.isConflictFree,
        analysis.parser.parse 7 [⟨"(", 1⟩, ⟨")", 2⟩, ⟨")", 2⟩, Token.endToken])) =
      .ok (true, some (.error (.error (.unexpectedToken 2 ")" ")" 2)))) := by
    decide +kernel
  rw [computed] at evaluates
  obtain ⟨conflictFree, rejected⟩ := Prod.mk.inj (Except.ok.inj evaluates)
  obtain ⟨_, begins, never⟩ := located _ _ _ _ _ _ rejected
  exact ⟨analysis, computed, conflictFree, ⟨_, rejected⟩, begins, never conflictFree⟩

end DeterministicParsing.ShiftReduce
