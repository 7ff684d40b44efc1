/-
# What is derived is parsed

A rightmost derivation of a word, read backwards, tells a machine what to do: to shift up to the end
of the body that was put in last, and to reduce it. In the table of an analysis the cell that is
reached always proposes that action. Whatever stands in front of the body is a viable prefix, so the
shifts are there, and what comes next in the input can come after the rule, so that all four rules
for lookaheads allow for it. If the table has no conflicts, the machine has no choice but to do it.
-/
import DeterministicParsing.Proofs.ShiftReduce.Analysis

namespace DeterministicParsing

/-! ## Frames of rightmost derivations -/

namespace Grammar

variable {grammar : Grammar} {start nonterminal terminal : Nat} {before after : List Symbol}

/-- A nonterminal in a string that the start derives rightmost is looked for there, and what comes
after its frame leads to what comes after it in the string. -/
theorem DerivesRightmost.exists_frame (starts : grammar.start = .ok start) {rules : List Nat}
    {rest : List Symbol}
    (rightmost : grammar.DerivesRightmost [.nonterminal start] rules
      (before ++ .nonterminal nonterminal :: rest)) :
    ∃ after, grammar.Frame before nonterminal after ∧
      grammar.Derives after (rest ++ word [endOfInput]) := by
  induction rules using List.reverseRecOn generalizing before nonterminal rest with
  | nil =>
      have same := rightmost.eq_of_no_rules
      cases before with
      | nil =>
          obtain ⟨isStart, rfl⟩ := List.cons.inj same
          cases isStart
          exact ⟨_, .start starts, .refl _⟩
      | cons symbol before => simp at same
  | append_singleton rules id ih =>
      obtain ⟨rule, left, right, found, earlier, same⟩ := rightmost.exists_last
      have member := List.mem_of_getElem? found
      rcases append_eq_append_cons same.symm with ⟨between, rfl, rfl⟩ |
        ⟨within, rfl, inside⟩
      · -- The nonterminal stood in front of the one that was replaced.
        rw [List.append_assoc, List.cons_append] at earlier
        obtain ⟨after, frame, derives⟩ := ih earlier
        refine ⟨after, frame, derives.trans ?_⟩
        have replaced := Derives.head (.replace member between (word right ++ word [endOfInput]))
          (.refl _)
        simpa using replaced
      · rcases append_eq_append_cons inside with ⟨between, body, rfl⟩ | ⟨between, _, atEnd⟩
        · -- It belongs to the body that was put in.
          obtain ⟨after, frame, derives⟩ := ih earlier
          obtain ⟨head, symbols⟩ := rule
          obtain rfl := body
          refine ⟨between ++ after, .within frame member, ?_⟩
          simpa using (Derives.refl between).append derives
        · -- Nothing but terminals comes after that body.
          have absent := nonterminal_not_mem_word nonterminal right
          rw [atEnd] at absent
          simp at absent

/-- A terminal that can come after a frame follows the nonterminal that is looked for. -/
theorem Frame.follows (frame : grammar.Frame before nonterminal after)
    (begins : grammar.DerivesBeginning after terminal) : grammar.Follows nonterminal terminal := by
  induction frame with
  | start starts =>
      rw [derivesBeginning_word_cons.mp begins]
      exact follows_start starts
  | within _ member ih =>
      rcases derivesBeginning_append.mp begins with inRight | ⟨vanishes, inAfter⟩
      · exact follows_of_rest member rfl inRight
      · exact (ih inAfter).of_head member rfl vanishes

/-- A nonterminal that is looked for may be read, unless it is the start. -/
theorem Frame.viablePrefix_snoc (frame : grammar.Frame before nonterminal after)
    (other : grammar.start ≠ .ok nonterminal) :
    grammar.ViablePrefix (before ++ [.nonterminal nonterminal]) := by
  cases frame with
  | start starts => exact absurd starts other
  | @within outerBefore outerAfter left right head _ outer member =>
      obtain ⟨id, found⟩ := List.getElem?_of_mem member
      refine ⟨⟨id, left.length + 1⟩, outerAfter, _, outerBefore, found, by simp, outer, ?_⟩
      simp [List.take_append]

end Grammar

namespace ShiftReduce

variable {grammar : Grammar} {method : Method} {target : Nat} {analysis : Analysis} {V : Type}
  {machine next : Machine V}

/-! ## Actions that are proposed -/

/-- Every method permits a rule to be reduced in front of all terminals that can come after it. -/
theorem Analysis.IsAnalysisOf.permits_of_validLookahead
    (isAnalysis : analysis.IsAnalysisOf grammar method target) {string : List Symbol} {id : Nat}
    {state : State} (reaches : analysis.automaton.Reaches string id)
    (isState : analysis.automaton.states[id]? = some state) {core : Core} {rule : Rule}
    (found : analysis.grammar.rules[core.rule]? = some rule) {terminal : Nat}
    (valid : analysis.grammar.ValidLookahead string core terminal) :
    method.Permits analysis.grammar state.items core rule.head terminal := by
  have built := isAnalysis.built
  cases method with
  | lr0 => exact valid.declares isAnalysis.fresh.bodies
  | slr1 =>
      obtain ⟨after, ⟨other, before, alsoFound, _, frame, _⟩, begins⟩ := valid
      cases found.symm.trans alsoFound
      exact frame.follows begins
  | lr1 => exact built.allows_of_validLookahead isAnalysis.fresh rfl reaches isState valid
  | lalr1 => exact built.allows_of_validLookahead isAnalysis.fresh rfl reaches isState valid

/-- A rule is reduced on every terminal that can come after it. -/
theorem Analysis.IsAnalysisOf.mem_cell_reduce
    (isAnalysis : analysis.IsAnalysisOf grammar method target) {string after : List Symbol}
    {id ruleId terminal : Nat} {rule : Rule} (reaches : analysis.automaton.Reaches string id)
    (found : analysis.grammar.rules[ruleId]? = some rule)
    (other : rule.head ≠ grammar.nonterminalCount)
    (valid : analysis.grammar.ValidFor string ⟨ruleId, rule.body.length⟩ after)
    (begins : analysis.grammar.DerivesBeginning after terminal) :
    .reduce ruleId ∈ analysis.table.cell id terminal := by
  obtain ⟨state, isState⟩ := isAnalysis.built.exists_state reaches
  refine (isAnalysis.mem_cell_reduce_iff isState).mpr ⟨rule, found, other, ?_, ?_⟩
  · exact (isAnalysis.built.holds_iff isAnalysis.fresh reaches isState).mpr ⟨after, valid⟩
  · exact isAnalysis.permits_of_validLookahead reaches isState found ⟨after, valid, begins⟩

/-- The start is accepted at the end of the input. -/
theorem Analysis.IsAnalysisOf.mem_cell_accept
    (isAnalysis : analysis.IsAnalysisOf grammar method target) {id : Nat}
    (reaches : analysis.automaton.Reaches [.nonterminal target] id) :
    .accept ∈ analysis.table.cell id endOfInput := by
  obtain ⟨state, isState⟩ := isAnalysis.built.exists_state reaches
  have valid : analysis.grammar.ValidFor [.nonterminal target] ⟨grammar.rules.length, 1⟩
      (word [endOfInput]) :=
    ⟨_, [], isAnalysis.fresh.found, Nat.le_refl _, .start isAnalysis.fresh.start_eq, rfl⟩
  obtain ⟨lookahead, isFound⟩ :=
    (isAnalysis.built.holds_iff isAnalysis.fresh reaches isState).mpr ⟨_, valid⟩
  exact (isAnalysis.isTable.mem_cell isState).mpr
    ⟨⟨_, lookahead⟩, ItemSet.mem_items.mpr isFound, rfl, ⟨_, [.nonterminal target]⟩,
      ⟨isAnalysis.fresh.found, rfl⟩, rfl⟩

/-! ## What reductions ask for -/

namespace Analysis.IsAnalysisOf

variable (isAnalysis : analysis.IsAnalysisOf grammar method target)
include isAnalysis

/-- The new start is the start. -/
theorem start_ne_ok {nonterminal : Nat} :
    analysis.grammar.start ≠ .ok nonterminal ↔ nonterminal ≠ grammar.nonterminalCount := by
  rw [isAnalysis.fresh.start_eq, Ne, Ne, Except.ok.injEq, eq_comm]

/-- A rule is reduced only where the string ends with its body, and its head is looked for in front
of the body. -/
theorem exists_frame_of_mem_cell {string : List Symbol} {id ruleId terminal : Nat}
    (reaches : analysis.automaton.Reaches string id)
    (proposed : .reduce ruleId ∈ analysis.table.cell id terminal) :
    ∃ rule before after, analysis.grammar.rules[ruleId]? = some rule ∧
      rule.head ≠ grammar.nonterminalCount ∧ analysis.grammar.Frame before rule.head after ∧
      string = before ++ rule.body := by
  obtain ⟨state, found⟩ := isAnalysis.built.exists_state reaches
  obtain ⟨rule, ruleFound, other, holds, _⟩ :=
    (isAnalysis.mem_cell_reduce_iff found).mp proposed
  obtain ⟨after, alsoRule, before, alsoFound, _, frame, isString⟩ :=
    (isAnalysis.built.holds_iff isAnalysis.fresh reaches found).mp holds
  obtain rfl : rule = alsoRule := Option.some.inj (ruleFound.symm.trans alsoFound)
  rw [List.take_length] at isString
  exact ⟨rule, before, after, ruleFound, other, frame, isString⟩

/-- Where a nonterminal other than the start is looked for, it leads on. -/
theorem exists_goto?_eq_some {before after : List Symbol} {id nonterminal : Nat}
    (reaches : analysis.automaton.Reaches before id)
    (frame : analysis.grammar.Frame before nonterminal after)
    (other : nonterminal ≠ grammar.nonterminalCount) :
    ∃ next, analysis.table.goto? id nonterminal = some next := by
  obtain ⟨state, found⟩ := isAnalysis.built.exists_state reaches
  have viable := frame.viablePrefix_snoc (isAnalysis.start_ne_ok.mpr other)
  obtain ⟨next, transition⟩ :=
    isAnalysis.built.exists_transition isAnalysis.fresh reaches found viable
  exact ⟨next,
    (isAnalysis.isTable.goto?_eq isAnalysis.built found nonterminal).trans transition⟩

end Analysis.IsAnalysisOf

/-! ## A machine that has no choice -/

namespace Machine

/-- Where one action at most is proposed on the next token, the machine does what it may do. -/
theorem MayMove.moves (may : machine.MayMove next)
    (few : ∀ token, machine.lookahead? = some token →
      (machine.parser.table.cell machine.state token.terminal).length ≤ 1) :
        machine.Moves next := by
  cases may with
  | @shift token rest target unfinished ahead proposed =>
      have single := few token (by rw [lookahead?, ahead, List.head?_cons])
      exact .shift unfinished ahead (Table.action?_eq_some_of_alone single proposed)
  | @reduce token rest id target rule value unfinished ahead proposed found
      spelled leads computed =>
      have single := few token (by rw [lookahead?, ahead, List.head?_cons])
      exact .reduce unfinished ahead (Table.action?_eq_some_of_alone single proposed) found spelled
        leads computed

/-- A machine without synthesis functions on its way through an input. -/
structure IsUnderway (analysis : Analysis) (machine : Machine V) : Prop
    extends machine.IsDrivenBy analysis where
  silent : machine.semantics = none
  unfinished : machine.result = none

variable (isAnalysis : analysis.IsAnalysisOf grammar method target)
  (conflictFree : analysis.table.isConflictFree = true)
  (underway : machine.IsUnderway analysis)

include isAnalysis underway

theorem IsUnderway.of_mayMove (may : machine.MayMove next) : next.IsUnderway analysis := by
  obtain ⟨unfinished, _, sameSemantics⟩ := may.unchanged
  exact ⟨underway.toIsDrivenBy.of_mayMove isAnalysis may, sameSemantics.trans underway.silent,
    unfinished⟩

theorem IsUnderway.of_moves (moves : machine.Moves next) : next.IsUnderway analysis :=
  underway.of_mayMove isAnalysis moves.mayMove

/-- The next token may be shifted if the stack is a viable prefix with it. -/
theorem IsUnderway.exists_mayMove_shift {token : Token} {rest : List Token}
    (ahead : machine.remaining = token :: rest)
    (viable : analysis.grammar.ViablePrefix (machine.symbols ++ [.terminal token.terminal])) :
    ∃ next, machine.MayMove next ∧
      next.symbols = machine.symbols ++ [.terminal token.terminal] ∧ next.remaining = rest ∧
      next.reduced = machine.reduced := by
  have reaches := underway.reaches
  obtain ⟨state, found⟩ := isAnalysis.built.exists_state reaches
  obtain ⟨next, transition⟩ :=
    isAnalysis.built.exists_transition isAnalysis.fresh reaches found viable
  have proposed := (isAnalysis.isTable.mem_cell_shift isAnalysis.built found).mpr transition
  refine ⟨machine.shift token next, .shift underway.unfinished ahead ?_, symbols_shift token next,
    ?_, rfl⟩
  · rw [underway.follows]
    exact proposed
  · rw [shift, ahead, List.tail_cons]

/-- A rule may be reduced if this is proposed, its body is on top of the stack, and its head is
looked for below it. -/
theorem IsUnderway.exists_mayMove_reduce {id : Nat} {rule : Rule} {before after : List Symbol}
    {token : Token} {rest : List Token} (found : analysis.grammar.rules[id]? = some rule)
    (other : rule.head ≠ grammar.nonterminalCount)
    (frame : analysis.grammar.Frame before rule.head after)
    (ends : machine.symbols = before ++ rule.body) (ahead : machine.remaining = token :: rest)
    (proposed : .reduce id ∈ analysis.table.cell machine.state token.terminal) :
    ∃ next, machine.MayMove next ∧ next.symbols = before ++ [.nonterminal rule.head] ∧
      next.remaining = machine.remaining ∧ next.reduced = id :: machine.reduced := by
  obtain ⟨spelled, left⟩ := spelled_of_symbols_eq ends
  -- Below the body, the head leads on.
  have reaches := underway.path.drop rule.body.length _ (List.suffix_refl _)
  rw [← left] at frame
  obtain ⟨next, leadsOn⟩ := isAnalysis.exists_goto?_eq_some reaches frame other
  have leads : machine.parser.table.goto? (machine.pop rule).state rule.head = some next := by
    rw [underway.follows]
    exact leadsOn
  have computed : machine.synthesised id (machine.stack.take rule.body.length).reverse =
      .ok none := by
    rw [synthesised, underway.silent]
  have known : machine.parser.grammar.rules[id]? = some rule := by
    rw [underway.follows]
    exact found
  have inCell : .reduce id ∈ machine.parser.table.cell machine.state token.terminal := by
    rw [underway.follows]
    exact proposed
  refine ⟨_, .reduce underway.unfinished ahead inCell known spelled leads computed,
    ?_, rfl, rfl⟩
  rw [symbols_reducedTo, left]

include conflictFree

omit isAnalysis in
theorem IsUnderway.action?_eq_some {terminal : Nat} {action : Action}
    (proposed : action ∈ analysis.table.cell machine.state terminal) :
    machine.parser.table.action? machine.state terminal = some action := by
  rw [underway.follows]
  exact Table.action?_eq_some conflictFree proposed

omit isAnalysis in
/-- Without conflicts, whatever the machine may do it does. -/
theorem IsUnderway.moves_of_mayMove (may : machine.MayMove next) : machine.Moves next := by
  refine may.moves fun token _ => ?_
  rw [underway.follows]
  exact Table.isConflictFree_iff.mp conflictFree _ token.terminal

/-- The next token is shifted if the stack is a viable prefix with it. -/
theorem IsUnderway.exists_shift {token : Token} {rest : List Token}
    (ahead : machine.remaining = token :: rest)
    (viable : analysis.grammar.ViablePrefix (machine.symbols ++ [.terminal token.terminal])) :
    ∃ next, machine.Moves next ∧
      next.symbols = machine.symbols ++ [.terminal token.terminal] ∧ next.remaining = rest ∧
      next.reduced = machine.reduced := by
  obtain ⟨next, may, shifted⟩ := underway.exists_mayMove_shift isAnalysis ahead viable
  exact ⟨next, underway.moves_of_mayMove conflictFree may, shifted⟩

/-- Tokens are shifted as long as the stack stays a viable prefix. -/
theorem IsUnderway.exists_shifts {read rest : List Token} (ahead : machine.remaining = read ++ rest)
    (viable : analysis.grammar.ViablePrefix (machine.symbols ++ word (read.map Token.terminal))) :
    ∃ next, Relation.ReflTransGen Moves machine next ∧ next.IsUnderway analysis ∧
      next.symbols = machine.symbols ++ word (read.map Token.terminal) ∧ next.remaining = rest ∧
      next.reduced = machine.reduced := by
  induction read generalizing machine with
  | nil => exact ⟨machine, .refl, underway, by simp, ahead, rfl⟩
  | cons token read ih =>
      rw [List.map_cons, word_cons, List.append_cons] at viable
      obtain ⟨next, moves, sameSymbols, isRest, sameRules⟩ :=
        underway.exists_shift isAnalysis conflictFree ahead viable.of_append
      rw [← sameSymbols] at viable
      obtain ⟨last, later, lastUnderway, lastSymbols, lastRest, lastRules⟩ :=
        ih (underway.of_moves isAnalysis moves) isRest viable
      refine ⟨last, .head moves later, lastUnderway, ?_, lastRest, lastRules.trans sameRules⟩
      rw [lastSymbols, sameSymbols, List.map_cons, word_cons, ← List.append_cons]

/-- A rule is reduced if its body is on top of the stack, its head is looked for below it, and the
next token can come after it. -/
theorem IsUnderway.exists_reduce {id : Nat} {rule : Rule} {before after : List Symbol}
    {token : Token} {rest : List Token} (found : analysis.grammar.rules[id]? = some rule)
    (other : rule.head ≠ grammar.nonterminalCount)
    (frame : analysis.grammar.Frame before rule.head after)
    (ends : machine.symbols = before ++ rule.body) (ahead : machine.remaining = token :: rest)
    (begins : analysis.grammar.DerivesBeginning after token.terminal) :
    ∃ next, machine.Moves next ∧ next.symbols = before ++ [.nonterminal rule.head] ∧
      next.remaining = machine.remaining ∧ next.reduced = id :: machine.reduced := by
  have valid : analysis.grammar.ValidFor machine.symbols ⟨id, rule.body.length⟩ after :=
    ⟨rule, before, found, Nat.le_refl _, frame, by rw [ends, List.take_length]⟩
  obtain ⟨next, may, reduced⟩ :=
    underway.exists_mayMove_reduce isAnalysis found other frame ends ahead
      (isAnalysis.mem_cell_reduce underway.reaches found other valid begins)
  exact ⟨next, underway.moves_of_mayMove conflictFree may, reduced⟩

/-- A machine with nothing but the start on its stack accepts the end of the input. -/
theorem IsUnderway.accepts {token : Token} {rest : List Token}
    (onlyStart : machine.symbols = [.nonterminal target])
    (ahead : machine.remaining = token :: rest) (ends : token.terminal = endOfInput) :
    machine.Accepts token rest := by
  have reaches := underway.reaches
  rw [onlyStart] at reaches
  refine ⟨underway.unfinished, ahead, underway.action?_eq_some conflictFree ?_⟩
  rw [ends]
  exact isAnalysis.mem_cell_accept reaches

end Machine

/-! ## Following a derivation backwards -/

/-- No terminal has been shifted since the last reduction. -/
def HasReduced (symbols : List Symbol) : Prop :=
  symbols = [] ∨ ∃ before nonterminal, symbols = before ++ [.nonterminal nonterminal]

/-- After a reduction, every place with nothing but terminals after it is at the top of the stack or
still ahead of it. -/
theorem HasReduced.exists_word {symbols front : List Symbol} {ahead after : List Nat}
    (hasReduced : HasReduced symbols) (same : symbols ++ word ahead = front ++ word after) :
    ∃ shifted, front = symbols ++ word shifted ∧ ahead = shifted ++ after := by
  rcases List.append_eq_append_iff.mp same with ⟨middle, rfl, split⟩ | ⟨middle, rfl, split⟩
  · obtain ⟨shifted, others, rfl, rfl, isAfter⟩ := exists_word_of_append_eq_word split.symm
    rw [word_inj] at isAfter
    exact ⟨shifted, rfl, by rw [isAfter]⟩
  · obtain ⟨beyond, others, rfl, rfl, isAhead⟩ := exists_word_of_append_eq_word split.symm
    rw [word_inj] at isAhead
    rcases List.eq_nil_or_concat' beyond with rfl | ⟨beyond, terminal, rfl⟩
    · exact ⟨[], by simp, by simp [isAhead]⟩
    · rcases hasReduced with none | ⟨before, nonterminal, isLast⟩
      · simp at none
      · rw [word_append, ← List.append_assoc] at isLast
        have sameLast := List.append_inj_right' isLast rfl
        simp at sameLast

namespace Analysis.IsAnalysisOf

open Machine (Moves)

variable (isAnalysis : analysis.IsAnalysisOf grammar method target)
include isAnalysis

/-- The new start occurs in nothing that the old one derives. -/
theorem ne_of_derives {before after : List Symbol} {nonterminal : Nat}
    (derives : analysis.grammar.Derives [.nonterminal target]
      (before ++ .nonterminal nonterminal :: after)) :
    nonterminal ≠ grammar.nonterminalCount := by
  rintro rfl
  have inAccept := List.mem_of_getElem? isAnalysis.fresh.found
  have occurs : Symbol.nonterminal grammar.nonterminalCount ∈
      before ++ .nonterminal grammar.nonterminalCount :: after := by simp
  rcases derives.mem occurs with isTarget | ⟨rule, member, inBody⟩
  · exact isAnalysis.fresh.fresh _ inAccept isTarget
  · exact isAnalysis.fresh.fresh rule member inBody

/-- Without conflicts, a machine that has reduced as a rightmost derivation has it goes back through
the rest of the derivation and accepts. -/
theorem exists_accepts (conflictFree : analysis.table.isConflictFree = true)
    (underway : machine.IsUnderway analysis) (hasReduced : HasReduced machine.symbols)
    {read : List Token} {last : Token} (ahead : machine.remaining = read ++ [last])
    (ends : last.terminal = endOfInput) {rules : List Nat}
    (rightmost : analysis.grammar.DerivesRightmost [.nonterminal target] rules
      (machine.symbols ++ word (read.map Token.terminal))) :
    ∃ final token rest, Relation.ReflTransGen Moves machine final ∧ final.Accepts token rest ∧
      final.reduced = rules ++ machine.reduced := by
  induction rules using List.reverseRecOn generalizing machine read with
  | nil =>
      rcases List.append_eq_singleton_iff.mp rightmost.eq_of_no_rules with
        ⟨_, isWord⟩ | ⟨onlyStart, isEmpty⟩
      · have absent := nonterminal_not_mem_word target (read.map Token.terminal)
        simp [isWord] at absent
      · obtain rfl : read = [] := by simpa [word] using isEmpty
        exact ⟨machine, last, [], .refl,
          underway.accepts isAnalysis conflictFree onlyStart ahead ends, rfl⟩
  | append_singleton rules id ih =>
      obtain ⟨rule, before, after, found, earlier, same⟩ := rightmost.exists_last
      have fromStart := Grammar.DerivesRightmost.head isAnalysis.fresh.found [] []
        (by simpa using earlier)
      obtain ⟨frameAfter, frame, derives⟩ := fromStart.exists_frame isAnalysis.fresh.start_eq
      rw [← List.append_assoc] at same
      obtain ⟨shifted, isFront, isSplit⟩ := hasReduced.exists_word same
      obtain ⟨now, later, rfl, rfl, rfl⟩ := List.map_eq_append_iff.mp isSplit
      have valid :
          analysis.grammar.ValidFor (before ++ rule.body) ⟨id, rule.body.length⟩ frameAfter :=
        ⟨rule, before, found, Nat.le_refl _, frame, by rw [List.take_length]⟩
      rw [List.append_assoc] at ahead
      obtain ⟨middle, shifts, middleUnderway, middleSymbols, middleAhead, middleRules⟩ :=
        underway.exists_shifts isAnalysis conflictFree ahead (isFront ▸ ⟨_, _, valid⟩)
      obtain ⟨token, rest, split, begins⟩ : ∃ token rest, later ++ [last] = token :: rest ∧
          analysis.grammar.DerivesBeginning frameAfter token.terminal := by
        cases later with
        | nil => exact ⟨last, [], rfl, [], ends ▸ derives⟩
        | cons token later => exact ⟨token, later ++ [last], rfl, _, derives⟩
      obtain ⟨next, reduces, nextSymbols, nextAhead, nextRules⟩ :=
        middleUnderway.exists_reduce isAnalysis conflictFree found
          (isAnalysis.ne_of_derives earlier.derives) frame (middleSymbols.trans isFront.symm)
          (middleAhead.trans split) begins
      have nextRightmost : analysis.grammar.DerivesRightmost [.nonterminal target] rules
          (next.symbols ++ word (later.map Token.terminal)) := by
        rw [nextSymbols, ← List.append_cons]
        exact earlier
      obtain ⟨final, token, rest, moves, accepts, finalRules⟩ :=
        ih (middleUnderway.of_moves isAnalysis reduces) (.inr ⟨before, rule.head, nextSymbols⟩)
          (nextAhead.trans middleAhead) nextRightmost
      refine ⟨final, token, rest, (shifts.tail reduces).trans moves, accepts, ?_⟩
      rw [finalRules, nextRules, middleRules, List.append_assoc, List.singleton_append]

end Analysis.IsAnalysisOf

/-! ## Sentences -/

/-- Given enough rounds, the parser ends well on the input, with the given rules reduced. -/
def Parser.Parses (parser : Parser) (tokens : List Token) (reductions : List Nat) : Prop :=
  ∃ enough value, ∀ bound ≥ enough, parser.parse bound tokens =
    some (.ok ⟨reductions, value⟩)

/-- A parser ends in one way at most. -/
theorem Parser.Parses.unique {parser : Parser} {tokens : List Token} {first second : List Nat}
    (parses : parser.Parses tokens first) (alsoParses : parser.Parses tokens second) :
    first = second := by
  obtain ⟨enough, value, ends⟩ := parses
  obtain ⟨alsoEnough, alsoValue, alsoEnds⟩ := alsoParses
  have same := (ends _ (Nat.le_max_left enough alsoEnough)).symm.trans
    (alsoEnds _ (Nat.le_max_right enough alsoEnough))
  simp only [Option.some.injEq, Except.ok.injEq, Parse.mk.injEq] at same
  exact same.1

/-- Without conflicts, the parser finds every rightmost derivation. -/
theorem Analysis.IsAnalysisOf.parses (isAnalysis : analysis.IsAnalysisOf grammar method target)
    (conflictFree : analysis.table.isConflictFree = true) {read : List Token} {last : Token}
    (ends : last.terminal = endOfInput) (absent : endOfInput ∉ read.map Token.terminal)
    {rules : List Nat} (rightmost : grammar.DerivesRightmost [.nonterminal target] rules
      (word (read.map Token.terminal))) :
    analysis.parser.Parses (read ++ [last]) rules.reverse := by
  have underway : (Machine.initial analysis.parser (none : Option (Semantics Unit))
      (read ++ [last])).IsUnderway analysis := ⟨.initial none (read ++ [last]), rfl, rfl⟩
  obtain ⟨final, token, rest, moves, accepts, sameRules⟩ :=
    isAnalysis.exists_accepts conflictFree underway (.inl rfl) rfl ends
      (isAnalysis.augments.derivesRightmost rightmost)
  obtain ⟨enough, value, parses⟩ :=
    Parser.exists_parseWith_eq (Token.checkEnd_append ends absent) moves accepts
  refine ⟨enough, value, fun bound many => ?_⟩
  rw [Parser.parse, parses bound many, Machine.reductions, sameRules]
  simp [Machine.initial]

/-- Without conflicts, no word has two rightmost derivations. -/
theorem Analysis.IsAnalysisOf.eq_of_derivesRightmost
    (isAnalysis : analysis.IsAnalysisOf grammar method target)
    (conflictFree : analysis.table.isConflictFree = true) {terminals first second : List Nat}
    (absent : endOfInput ∉ terminals)
    (rightmost : grammar.DerivesRightmost [.nonterminal target] first (word terminals))
    (alsoRightmost : grammar.DerivesRightmost [.nonterminal target] second (word terminals)) :
    first = second := by
  -- Any tokens of the terminals will do.
  have spells : (terminals.map (Token.mk "")).map Token.terminal = terminals := by
    rw [List.map_map]
    exact List.map_id terminals
  have ends : Token.endToken.terminal = endOfInput := rfl
  rw [← spells] at absent rightmost alsoRightmost
  have parses := isAnalysis.parses conflictFree ends absent rightmost
  have alsoParses := isAnalysis.parses conflictFree ends absent alsoRightmost
  exact List.reverse_injective (parses.unique alsoParses)

/-- For every well-formed grammar that is not augmented yet: by every method without conflicts the
parser ends well on every sentence, and the rules reduced are, from last to first, the only
rightmost derivation of the sentence. So two different rightmost derivations of one sentence make a
conflict by every method, and all methods without conflicts reduce the same rules. The end of the
input, which a body may hold, is not to occur in the sentences. -/
theorem conflict_free_tables_parse_all_sentences (grammar : Grammar)
    (wellFormed : grammar.WellFormed) (notAugmented : grammar.isAugmented = false) :
    ∃ start, grammar.start = .ok start ∧
      (∀ method, ∃ analysis, Analysis.compute grammar method = .ok analysis ∧
        (analysis.table.isConflictFree = true → ∀ (read : List Token) (last : Token),
          last.terminal = endOfInput → endOfInput ∉ read.map Token.terminal →
          grammar.Generates [.nonterminal start] (read.map Token.terminal) →
          ∃ reductions, analysis.parser.Parses (read ++ [last]) reductions ∧
            ∀ rules, grammar.DerivesRightmost [.nonterminal start] rules
              (word (read.map Token.terminal)) ↔ rules = reductions.reverse)) ∧
      (∀ terminals first second, endOfInput ∉ terminals →
        grammar.DerivesRightmost [.nonterminal start] first (word terminals) →
        grammar.DerivesRightmost [.nonterminal start] second (word terminals) →
          first ≠ second →
        ∀ method analysis, Analysis.compute grammar method = .ok analysis →
          analysis.table.conflicts ≠ []) ∧
      ∀ firstMethod secondMethod first second,
        Analysis.compute grammar firstMethod = .ok first →
        Analysis.compute grammar secondMethod = .ok second →
        first.table.isConflictFree = true → second.table.isConflictFree = true →
        ∀ (read : List Token) (last : Token), last.terminal = endOfInput →
          endOfInput ∉ read.map Token.terminal →
          grammar.Generates [.nonterminal start] (read.map Token.terminal) →
          ∃ reductions, first.parser.Parses (read ++ [last]) reductions ∧
            second.parser.Parses (read ++ [last]) reductions := by
  obtain ⟨start, starts, _⟩ := wellFormed.start
  have isAnalysis {method : Method} {analysis : Analysis}
      (computed : Analysis.compute grammar method = .ok analysis) :
      analysis.IsAnalysisOf grammar method start :=
    Analysis.isAnalysisOf_of_compute_eq_ok wellFormed notAugmented starts computed
  refine ⟨start, starts, fun method => ?_, ?_, ?_⟩
  · obtain ⟨analysis, _, computed, _⟩ :=
      Analysis.exists_compute_eq_ok wellFormed notAugmented method
    refine ⟨analysis, computed, fun conflictFree read last ends absent generates => ?_⟩
    obtain ⟨rules, rightmost⟩ := generates.exists_rightmost
    refine ⟨rules.reverse, (isAnalysis computed).parses conflictFree ends absent rightmost,
      fun others => ?_⟩
    rw [List.reverse_reverse]
    constructor
    · intro alsoRightmost
      exact (isAnalysis computed).eq_of_derivesRightmost conflictFree absent alsoRightmost rightmost
    · rintro rfl
      exact rightmost
  · intro terminals first second absent rightmost alsoRightmost different method analysis computed
      none
    have conflictFree : analysis.table.isConflictFree = true := List.isEmpty_iff.mpr none
    exact different
      ((isAnalysis computed).eq_of_derivesRightmost conflictFree absent rightmost alsoRightmost)
  · intro firstMethod secondMethod first second computed alsoComputed conflictFree alsoConflictFree
      read last ends absent generates
    obtain ⟨rules, rightmost⟩ := generates.exists_rightmost
    exact ⟨rules.reverse, (isAnalysis computed).parses conflictFree ends absent rightmost,
      (isAnalysis alsoComputed).parses alsoConflictFree ends absent rightmost⟩

/-- With merged lookaheads, the table for any number of `a` has no conflicts, and `a a` is derived
by the rules 0, 0 and 1 only. -/
theorem conflict_free_table_parses_repetition :
    ∃ analysis, Analysis.compute Grammar.repetition .lalr1 = .ok analysis ∧
      analysis.table.isConflictFree = true ∧
      analysis.parser.Parses [⟨"a", 1⟩, ⟨"a", 1⟩, Token.endToken] [1, 0, 0] ∧
      ∀ rules, Grammar.repetition.DerivesRightmost [.nonterminal 0] rules (word [1, 1]) ↔
        rules = [0, 0, 1] := by
  obtain ⟨start, starts, parses, _⟩ :=
    conflict_free_tables_parse_all_sentences Grammar.repetition Grammar.wellFormed_repetition rfl
  cases starts
  obtain ⟨analysis, computed, parses⟩ := parses .lalr1
  have evaluates : (Analysis.compute Grammar.repetition .lalr1).map (·.table.isConflictFree) =
      .ok true := by
    decide +kernel
  rw [computed] at evaluates
  have conflictFree : analysis.table.isConflictFree = true := Except.ok.inj evaluates
  have repeats : Grammar.repetition.rules[0]? = some ⟨0, [.terminal 1, .nonterminal 0]⟩ := rfl
  have stops : Grammar.repetition.rules[1]? = some ⟨0, []⟩ := rfl
  have rightmost : Grammar.repetition.DerivesRightmost [.nonterminal 0] [0, 0, 1] (word [1, 1]) :=
    .head repeats [] [] (.head repeats [.terminal 1] []
      (.head stops [.terminal 1, .terminal 1] [] (.refl _)))
  obtain ⟨reductions, ends, unique⟩ :=
    parses conflictFree [⟨"a", 1⟩, ⟨"a", 1⟩] Token.endToken rfl
      (by decide) rightmost.derives
  have isReverse := (unique [0, 0, 1]).mp rightmost
  obtain rfl : reductions = [1, 0, 0] := by
    rw [← List.reverse_reverse reductions, ← isReverse]
    rfl
  exact ⟨analysis, computed, conflictFree, ends, unique⟩

end ShiftReduce

end DeterministicParsing
