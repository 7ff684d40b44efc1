/-
# What a failing step leaves behind

Most steps that fail do so before they have changed anything. A reduction first takes the body of
its rule off the stack, and only then looks up where the head leads and calls the synthesis
function; if the head leads nowhere, or the function faults, the body stays off the stack.
Everything else is as it was, in either case. With the table of an analysis the head always leads
somewhere, so a step that ends with an error leaves the machine as it was, and fails again in the
same way.
-/
import DeterministicParsing.Proofs.Printer
import DeterministicParsing.Proofs.ShiftReduce.Invariant

namespace DeterministicParsing

namespace ShiftReduce

variable {V : Type} {machine next : Machine V} {id : Nat} {rule : Rule}
  {reason : Failure ParseError}

namespace Machine

/-- The table tells the machine to reduce a rule, and the body of the rule is on top of the
stack. -/
structure Reduces (machine : Machine V) (id : Nat) (rule : Rule) : Prop where
  unfinished : machine.result = none
  action : machine.action? = some (.reduce id)
  found : machine.parser.grammar.rules[id]? = some rule
  spelled : (machine.stack.take rule.body.length).reverse.map Entry.symbol = rule.body

/-- Why a reduction breaks off after the body of its rule has been taken off the stack. -/
inductive BreaksOff (machine : Machine V) (id : Nat) (rule : Rule) :
    Failure ParseError → Prop where
  /-- From the state below the body, the head of the rule leads nowhere. -/
  | noGoto {head : String}
      (leadsNowhere : machine.parser.table.goto? (machine.pop rule).state rule.head = none)
      (named : machine.parser.grammar.nonterminalName rule.head = .ok head) :
      BreaksOff machine id rule (.error (.corruptTable (machine.pop rule).state (.noGoto head)))
  /-- The synthesis function of the rule faults. -/
  | faulted {target : Nat} {fault : Fault}
      (leads : machine.parser.table.goto? (machine.pop rule).state rule.head = some target)
      (faults : machine.synthesised id (machine.stack.take rule.body.length).reverse =
        .error fault) :
      BreaksOff machine id rule (.fault fault)

/-- The head of a rule of the grammar is pushed unless the reduction breaks off. -/
theorem pushHead_eq_error_iff (found : machine.parser.grammar.rules[id]? = some rule) :
    (machine.pop rule).pushHead id rule (machine.stack.take rule.body.length).reverse =
      .error reason ↔ machine.BreaksOff id rule reason := by
  have headDeclared := machine.parser.grammar.head_lt rule (List.mem_of_getElem? found)
  obtain ⟨head, named⟩ := Grammar.returns_nonterminalName headDeclared
  cases leads : machine.parser.table.goto? (machine.pop rule).state rule.head with
  | none =>
      have raises :
        (machine.pop rule).pushHead id rule (machine.stack.take rule.body.length).reverse =
          Failure.raise (.corruptTable (machine.pop rule).state (.noGoto head)) := by
        have here : (machine.pop rule).parser.table.goto? (machine.pop rule).state rule.head =
            none := leads
        have alsoNamed : (machine.pop rule).parser.grammar.nonterminalName rule.head = .ok head :=
          named
        simp only [pushHead, here, alsoNamed, liftM_ok, ok_bind]
      rw [raises]
      constructor
      · rintro ⟨⟩
        exact .noGoto leads named
      · intro breaksOff
        cases breaksOff with
        | noGoto _ alsoNamed =>
            cases named.symm.trans alsoNamed
            rfl
        | faulted alsoLeads _ => cases leads.symm.trans alsoLeads
  | some target =>
      rw [pushHead_eq_bind leads]
      cases computed : machine.synthesised id (machine.stack.take rule.body.length).reverse with
      | ok value =>
          constructor
          · rintro ⟨⟩
          · intro breaksOff
            cases breaksOff with
            | noGoto leadsNowhere _ => cases leads.symm.trans leadsNowhere
            | faulted _ faults => cases computed.symm.trans faults
      | error fault =>
          constructor
          · rintro ⟨⟩
            exact .faulted leads computed
          · intro breaksOff
            cases breaksOff with
            | noGoto leadsNowhere _ => cases leads.symm.trans leadsNowhere
            | faulted _ faults =>
                cases computed.symm.trans faults
                rfl

/-- A reduction that breaks off leaves the body of its rule off the stack. -/
theorem Reduces.step_eq (reduces : machine.Reduces id rule)
    (breaksOff : machine.BreaksOff id rule reason) :
    machine.step = (.error reason, machine.pop rule) := by
  obtain ⟨token, isNext, action⟩ := Option.bind_eq_some_iff.mp reduces.action
  have pushed := (pushHead_eq_error_iff reduces.found).mpr breaksOff
  simp [step, isAccepted, reduces.unfinished, isNext, action, reduce,
    Arena.rule_eq_ok.mpr reduces.found, handle_eq_ok reduces.spelled, pushed]

/-- Reducing a rule fails because the reduction breaks off, or it leaves the machine as it was. -/
theorem eq_or_breaksOff_of_reduce_eq (reduced : machine.reduce id = (.error reason, next)) :
    next = machine ∨ ∃ rule, machine.parser.grammar.rules[id]? = some rule ∧
      (machine.stack.take rule.body.length).reverse.map Entry.symbol = rule.body ∧
      machine.BreaksOff id rule reason ∧ next = machine.pop rule := by
  dsimp only [reduce] at reduced
  split at reduced
  · cases reduced
    exact .inl rfl
  · rename_i rule ruled
    split at reduced
    · cases reduced
      exact .inl rfl
    · rename_i body isHandle
      obtain ⟨rfl, spelled⟩ := eq_of_handle_eq_ok isHandle
      have found := Arena.rule_eq_ok.mp ruled
      split at reduced
      · rename_i failed
        cases reduced
        exact .inr ⟨rule, found, spelled, (pushHead_eq_error_iff found).mp failed, rfl⟩
      · cases reduced

/-- A step fails because a reduction breaks off, or it leaves the machine as it was. -/
theorem eq_or_breaksOff_of_step_eq (steps : machine.step = (.error reason, next)) :
    next = machine ∨ ∃ id rule, machine.Reduces id rule ∧ machine.BreaksOff id rule reason ∧
      next = machine.pop rule := by
  dsimp only [step] at steps
  split at steps
  · cases steps
  · rename_i unfinished
    split at steps
    · cases steps
      exact .inl rfl
    · rename_i token isNext
      split at steps
      · exact .inl (Prod.mk.inj steps).2.symm
      · cases steps
      · rename_i id action
        rcases eq_or_breaksOff_of_reduce_eq steps with same |
          ⟨rule, found, spelled, breaksOff, isNext'⟩
        · exact .inl same
        · have reduces : machine.Reduces id rule :=
            ⟨by simpa [isAccepted] using unfinished, by simp [action?, isNext, action],
              found, spelled⟩
          exact .inr ⟨id, rule, reduces, breaksOff, isNext'⟩
      · cases steps

/-- A step that fails changes nothing but the stack. -/
theorem eq_with_stack_of_step_eq (steps : machine.step = (.error reason, next)) :
    next = { machine with stack := next.stack } := by
  rcases eq_or_breaksOff_of_step_eq steps with rfl | ⟨_, _, _, _, rfl⟩ <;> rfl

/-- A machine that is driven by an analysis is left as it was by a step that ends with an error. -/
theorem IsDrivenBy.eq_of_step_eq {analysis : Analysis} {grammar : Grammar} {method : Method}
    {target : Nat} (isAnalysis : analysis.IsAnalysisOf grammar method target)
    (driven : machine.IsDrivenBy analysis) {error : ParseError}
    (steps : machine.step = (.error (.error error), next)) : next = machine := by
  generalize isReason : (Failure.error error : Failure ParseError) = reason at steps
  cases driven.fails isAnalysis steps with
  | missingEnd _ => rfl
  | refused _ _ => rfl
  | faulted _ => cases isReason

end Machine

/-! ## Machines with any table -/

/-- With every grammar, every table and all synthesis functions: a step that ends with an error
changes nothing but the stack. It leaves the stack as it was as well, so that the next step ends
with the same error, unless it breaks off a reduction after the body of the rule has been taken off
the stack; and that happens where the head of the rule leads nowhere from the state below its body.
With the table of an analysis, of a well-formed grammar that is not augmented yet, by any method,
this does not happen, whatever the machine has been asked to do before. -/
theorem failing_steps_keep_all_but_a_handle (machine : Machine V) :
    (∀ (next : Machine V) (error : ParseError), machine.step = (.error (.error error), next) →
      next = { machine with stack := next.stack } ∧
      (next = machine ∧ next.step = (.error (.error error), next) ∨
        ∃ id rule head, machine.Reduces id rule ∧
          machine.parser.table.goto? (machine.pop rule).state rule.head = none ∧
          machine.parser.grammar.nonterminalName rule.head = .ok head ∧
          error = .corruptTable (machine.pop rule).state (.noGoto head) ∧
          next = machine.pop rule)) ∧
    (∀ (id : Nat) (rule : Rule), machine.Reduces id rule →
      machine.parser.table.goto? (machine.pop rule).state rule.head = none →
      ∃ error, machine.step = (.error (.error error), machine.pop rule)) ∧
    ∀ grammar : Grammar, grammar.WellFormed → grammar.isAugmented = false →
      ∀ method : Method, ∃ analysis, Analysis.compute grammar method = .ok analysis ∧
        ∀ (tokens : List Token) (origin next : Machine V) (error : ParseError),
          Machine.start analysis.parser tokens = .ok origin → origin.Becomes machine →
          machine.step = (.error (.error error), next) →
          next = machine ∧ next.step = (.error (.error error), next) := by
  refine ⟨?_, ?_, ?_⟩
  · intro next error steps
    refine ⟨Machine.eq_with_stack_of_step_eq steps, ?_⟩
    rcases Machine.eq_or_breaksOff_of_step_eq steps with rfl |
      ⟨id, rule, reduces, breaksOff, rfl⟩
    · exact .inl ⟨rfl, steps⟩
    · cases breaksOff with
      | noGoto leadsNowhere named =>
          exact .inr ⟨id, rule, _, reduces, leadsNowhere, named, rfl, rfl⟩
  · intro id rule reduces leadsNowhere
    have headDeclared := machine.parser.grammar.head_lt rule (List.mem_of_getElem? reduces.found)
    obtain ⟨head, named⟩ := Grammar.returns_nonterminalName headDeclared
    exact ⟨_, reduces.step_eq (.noGoto leadsNowhere named)⟩
  · intro grammar wellFormed notAugmented method
    obtain ⟨analysis, target, computed, _, isAnalysis⟩ :=
      Analysis.exists_compute_eq_ok wellFormed notAugmented method
    refine ⟨analysis, computed, fun tokens origin next error starts becomes steps => ?_⟩
    obtain rfl := Machine.start_eq_ok starts
    have driven := becomes.isDrivenBy isAnalysis (.initial none tokens)
    obtain rfl := driven.eq_of_step_eq isAnalysis steps
    exact ⟨rfl, steps⟩

end ShiftReduce

namespace Grammar

/-- The grammar `E → T q`, `T → p`. -/
def indirect : Grammar :=
  .ofLists ["p", "q"] ["E", "T"]
    [⟨0, [.nonterminal 1, .terminal 2]⟩, ⟨1, [.terminal 1]⟩]
    (by decide) (by decide) (by decide)

theorem wellFormed_indirect : indirect.WellFormed := ⟨by decide, 0, rfl, by decide⟩

/-- The grammar `E → E q`, `E → p`. -/
def direct : Grammar :=
  .ofLists ["p", "q"] ["E"]
    [⟨0, [.nonterminal 0, .terminal 2]⟩, ⟨0, [.terminal 1]⟩]
    (by decide) (by decide) (by decide)

end Grammar

namespace ShiftReduce

/-- A parser for the grammar `indirect`, but with the table of the grammar `direct`. -/
def Parser.mismatched : Except (Failure Automaton.Error) Parser := do
  let own ← Analysis.compute Grammar.indirect .lalr1
  let other ← Analysis.compute Grammar.direct .lalr1
  return ⟨own.grammar, other.table⟩

/-- The mismatched parser after one step into `p q`, and after two. -/
theorem Parser.exists_mismatched_eq_ok : ∃ parser, Parser.mismatched = .ok parser ∧
    ∃ origin machine next : Machine Unit,
      Machine.start parser [⟨"p", 1⟩, ⟨"q", 2⟩, Token.endToken] = .ok origin ∧
      origin.Proceeds machine ∧
      machine.step = (.error (.error (.corruptTable 0 (.noGoto "T"))), next) ∧
      machine.action? = some (.reduce 1) ∧
      machine.parser.grammar.rules[1]? = some ⟨1, [.terminal 1]⟩ ∧
      machine.symbols = [.terminal 1] ∧ next.symbols = [] ∧
      next.step.1 = .error (.error (.unexpectedToken 0 "q" "q" 1)) := by
  have evaluates : Parser.mismatched.map (fun parser =>
      let origin : Machine Unit := .initial parser none [⟨"p", 1⟩, ⟨"q", 2⟩, Token.endToken]
      let machine := origin.step.2
      let next := machine.step.2
      decide (origin.step.1 = .ok (.shift 1) ∧
        machine.step.1 = .error (.error (.corruptTable 0 (.noGoto "T"))) ∧
        machine.action? = some (.reduce 1) ∧
        machine.parser.grammar.rules[1]? = some ⟨1, [.terminal 1]⟩ ∧
        machine.symbols = [.terminal 1] ∧ next.symbols = [] ∧
        next.step.1 = .error (.error (.unexpectedToken 0 "q" "q" 1)))) = .ok true := by
    decide +kernel
  cases isParser : Parser.mismatched with
  | error reason =>
      rw [isParser] at evaluates
      cases evaluates
  | ok parser =>
      rw [isParser] at evaluates
      obtain ⟨shifts, fails, others⟩ := of_decide_eq_true (Except.ok.inj evaluates)
      exact ⟨parser, rfl, _, _, _, rfl, Machine.Proceeds.refl.step (Prod.ext shifts rfl),
        Prod.ext fails rfl, others⟩

/-- The parser for `indirect` with its own table, after one step into `p p`. -/
theorem Analysis.exists_indirect_eq_ok :
    ∃ analysis, Analysis.compute Grammar.indirect .lalr1 = .ok analysis ∧
      ∃ origin machine next : Machine Unit,
        Machine.start analysis.parser [⟨"p", 1⟩, ⟨"p", 1⟩, Token.endToken] = .ok origin ∧
      origin.Proceeds machine ∧ machine.symbols = [.terminal 1] ∧
      machine.step = (.error (.error (.unexpectedToken 1 "p" "p" 1)), next) := by
  have evaluates : (Analysis.compute Grammar.indirect .lalr1).map (fun analysis =>
      let origin : Machine Unit :=
        .initial analysis.parser none [⟨"p", 1⟩, ⟨"p", 1⟩, Token.endToken]
      let machine := origin.step.2
      decide (origin.step.1 = .ok (.shift 1) ∧ machine.symbols = [.terminal 1] ∧
        machine.step.1 = .error (.error (.unexpectedToken 1 "p" "p" 1)))) = .ok true := by
    decide +kernel
  cases computed : Analysis.compute Grammar.indirect .lalr1 with
  | error reason =>
      rw [computed] at evaluates
      cases evaluates
  | ok analysis =>
      rw [computed] at evaluates
      obtain ⟨shifts, symbols, fails⟩ := of_decide_eq_true (Except.ok.inj evaluates)
      exact ⟨analysis, rfl, _, _, _, rfl, Machine.Proceeds.refl.step (Prod.ext shifts rfl),
        symbols, Prod.ext fails rfl⟩

/-- With the table of another grammar, the second step into `p q` takes the `p` off the stack and
finds that `T` leads nowhere. With its own table, the machine refuses a second `p`, keeps the first
one, and refuses the second one again. -/
theorem failing_steps_of_indirect_keep_all_but_a_handle :
    (∃ parser, Parser.mismatched = .ok parser ∧ ∃ origin machine next : Machine Unit,
      Machine.start parser [⟨"p", 1⟩, ⟨"q", 2⟩, Token.endToken] = .ok origin ∧
      origin.Proceeds machine ∧
      machine.step = (.error (.error (.corruptTable 0 (.noGoto "T"))), next) ∧
      next = { machine with stack := next.stack } ∧ machine.Reduces 1 ⟨1, [.terminal 1]⟩ ∧
      next = machine.pop ⟨1, [.terminal 1]⟩) ∧
    ∃ analysis, Analysis.compute Grammar.indirect .lalr1 = .ok analysis ∧
      ∃ origin machine next : Machine Unit,
        Machine.start analysis.parser [⟨"p", 1⟩, ⟨"p", 1⟩, Token.endToken] = .ok origin ∧
        origin.Proceeds machine ∧ machine.symbols = [.terminal 1] ∧
        machine.step = (.error (.error (.unexpectedToken 1 "p" "p" 1)), next) ∧ next = machine ∧
        next.step = (.error (.error (.unexpectedToken 1 "p" "p" 1)), next) := by
  constructor
  · obtain ⟨parser, isParser, origin, machine, next, starts, proceeds, steps, action, isRule,
      symbols, fewer, _⟩ := Parser.exists_mismatched_eq_ok
    obtain ⟨onlyStack, ⟨rfl, _⟩ | ⟨id, rule, head, reduces, _, _, _, isNext⟩⟩ :=
      (failing_steps_keep_all_but_a_handle machine).1 _ _ steps
    · cases symbols.symm.trans fewer
    · cases action.symm.trans reduces.action
      cases isRule.symm.trans reduces.found
      exact ⟨parser, isParser, origin, machine, next, starts, proceeds, steps,
        onlyStack, reduces, isNext⟩
  · obtain ⟨analysis, computed, origin, machine, next, starts, proceeds, symbols, steps⟩ :=
      Analysis.exists_indirect_eq_ok
    obtain ⟨_, alsoComputed, keeps⟩ := (failing_steps_keep_all_but_a_handle machine).2.2
      Grammar.indirect Grammar.wellFormed_indirect rfl .lalr1
    cases computed.symm.trans alsoComputed
    exact ⟨analysis, computed, origin, machine, next, starts, proceeds, symbols, steps,
      keeps _ _ _ _ starts proceeds.becomes steps⟩

/-- The step that fails for want of a way to go on has changed the stack, and the next one fails in
another way. -/
theorem failing_steps_can_lose_a_handle :
    ∃ parser, Parser.mismatched = .ok parser ∧ ∃ origin machine next : Machine Unit,
      Machine.start parser [⟨"p", 1⟩, ⟨"q", 2⟩, Token.endToken] = .ok origin ∧
      origin.Proceeds machine ∧
      machine.step = (.error (.error (.corruptTable 0 (.noGoto "T"))), next) ∧
      machine.symbols = [.terminal 1] ∧ next.symbols = [] ∧
      next.step.1 = .error (.error (.unexpectedToken 0 "q" "q" 1)) := by
  obtain ⟨parser, isParser, origin, machine, next, starts, proceeds, steps, _, _,
    symbols, fewer, failsAgain⟩ :=
    Parser.exists_mismatched_eq_ok
  exact ⟨parser, isParser, origin, machine, next, starts, proceeds, steps,
    symbols, fewer, failsAgain⟩

end ShiftReduce

end DeterministicParsing
