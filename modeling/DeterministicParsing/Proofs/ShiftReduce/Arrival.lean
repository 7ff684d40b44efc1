/-
# Arrival at a conflict

A nonterminal on the path to a conflict is expanded by a rule that is reduced on the terminal after
it, so the machine can read what the rule was turned into and then reduce the rule. Going back from
the sentence to the path in this way, the table proposes every action, whatever the method. Only
where no rule is suitable and a shortest sentence is put in instead is there a question: does the
terminal after the nonterminal belong there? If it can come next, the shortest sentence is read as
well.

So actions that the table proposes lead to the conflict. The machine itself comes there, or it is at
another conflict on the way, where the action in force is not one that leads there. From then on
nothing leads there any more, or the machine goes on for ever.
-/
import DeterministicParsing.Proofs.ShiftReduce.Realisation
import DeterministicParsing.Proofs.ShiftReduce.Course

namespace DeterministicParsing

namespace ShiftReduce

variable {grammar : Grammar} {method : Method} {target : Nat} {analysis : Analysis}

open Relation (ReflTransGen)

/-! ## Falling back on shortest sentences -/

namespace Witness

variable {setting : Setting}

/-- The nonterminals that are replaced by shortest sentences for want of a suitable rule, each with
the symbols in front of it, together with the terminal after it. Every other step on a nonterminal
uses a rule. -/
def Expansion.fallbacks (setting : Setting) (terminal : Nat) :
    Nat → Expansion → List (List Symbol × Nat)
  | 0, _ => []
  | bound + 1, expansion =>
      match expansion.todo with
      | [] => []
      | (_, .terminal id) :: todo =>
          fallbacks setting terminal bound
            { expansion with todo, sentence := id :: expansion.sentence }
      | (state, .nonterminal id) :: todo =>
          let following := expansion.sentence.head?.getD terminal
          match expansion.expand setting todo state id following with
          | .error _ => []
          | .ok next =>
              let others := fallbacks setting terminal bound next
              if next.used = expansion.used then
                (todo.reverse.map Prod.snd ++ [.nonterminal id], following) :: others
              else
                others

/-- What is replaced by shortest sentences when a path is turned into a sentence. -/
def fallbacks (setting : Setting) (path : List (Nat × Symbol)) (terminal : Nat) :
    List (List Symbol × Nat) :=
  let bound := path.length + setting.automaton.states.length * setting.grammar.size + 1
  Expansion.fallbacks setting terminal bound ⟨path.reverse, [], [terminal]⟩

/-- What is reduced by the lookaheads of the items, or by what follows, is reduced by the table. -/
theorem Triggers.permits {items : ItemSet} {ruleId : Nat} {rule : Rule} {terminal : Nat}
    (bodies : grammar.BodiesDeclared)
    (triggers : Triggers method.automatonKind grammar items ruleId rule terminal) :
    method.Permits grammar items ⟨ruleId, rule.body.length⟩ rule.head terminal := by
  obtain ⟨⟨_, allows⟩, follows⟩ := triggers
  cases method with
  | lr0 => exact Grammar.declares_of_mem_bodyTerminals bodies (follows rfl).mem
  | slr1 => exact follows rfl
  | lr1 => exact allows rfl
  | lalr1 => exact allows rfl

namespace Expansion

variable {expansion next : Expansion} {symbols : List Symbol} {terminal state following : Nat}
  {todo : List (Nat × Symbol)} {V : Type}

/-- Wherever a machine has read what is left to be done, in front of the sentence so far, actions
that the table proposes lead on to the symbols, in front of the last terminal. -/
def IsRealised (V : Type) (analysis : Analysis) (symbols : List Symbol)
    (expansion : Expansion) : Prop :=
  ∀ (machine : Machine V) (read : List Token) (token : Token) (rest : List Token),
    machine.IsUnderway analysis → machine.symbols = expansion.todo.reverse.map Prod.snd →
    machine.remaining = read ++ token :: rest →
    (read ++ [token]).map Token.terminal = expansion.sentence →
    ∃ final : Machine V, ReflTransGen Machine.MayMove machine final ∧
      final.IsUnderway analysis ∧ final.symbols = symbols ∧ final.remaining = token :: rest

/-- What is left to be done is a viable prefix. -/
theorem IsOf.viablePrefix (isOf : expansion.IsOf setting symbols terminal)
    (isFor : setting.IsFor analysis grammar method target) :
    analysis.grammar.ViablePrefix (expansion.todo.reverse.map Prod.snd) := by
  obtain ⟨last, isRoute⟩ := isOf.isRoute
  rw [← isFor.grammar_eq]
  exact isFor.exact.built.viablePrefix isFor.exact.fresh (isRoute.reaches .start)

/-- The first of the tokens ahead has the first terminal of what they spell. -/
theorem exists_ahead {read : List Token} {token : Token} {sentence : List Nat}
    (spells : (read ++ [token]).map Token.terminal = sentence)
    (isFirst : sentence.head? = some following) (rest : List Token) :
    ∃ first others, read ++ token :: rest = first :: others ∧ first.terminal = following := by
  subst spells
  cases read with
  | nil => exact ⟨token, rest, rfl, by simpa using isFirst⟩
  | cons first read => exact ⟨first, read ++ token :: rest, rfl, by simpa using isFirst⟩

section Steps

variable (isAnalysis : analysis.IsAnalysisOf grammar method target)
  (isFor : setting.IsFor analysis grammar method target)
  (isOf : expansion.IsOf setting symbols terminal)
  (realised : expansion.IsRealised V analysis symbols)
include isAnalysis isFor isOf realised

/-- A terminal that is put in front of the sentence is shifted. -/
theorem IsRealised.read {id : Nat} (isNext : expansion.todo = (state, .terminal id) :: todo) :
    IsRealised V analysis symbols
      { expansion with todo, sentence := id :: expansion.sentence } := by
  intro machine read token rest underway isSymbols ahead spells
  obtain ⟨terminals, isSentence, _⟩ := isOf.derives
  have viable := isOf.viablePrefix isFor
  rw [isNext, List.reverse_cons, List.map_append] at viable
  cases read with
  | nil => simp [isSentence] at spells
  | cons first read =>
      obtain ⟨rfl, spellsRest⟩ := List.cons.inj spells
      obtain ⟨next, may, nextSymbols, nextAhead, _⟩ :=
        underway.exists_mayMove_shift isAnalysis ahead (by rwa [isSymbols])
      obtain ⟨final, later, reached⟩ := realised next read token rest
        (underway.of_mayMove isAnalysis may) (by simp [nextSymbols, isSymbols, isNext]) nextAhead
        spellsRest
      exact ⟨final, .head may later, reached⟩

/-- A sentence that is put in for a nonterminal is read, if the terminal after it can come next. -/
theorem IsRealised.splice {nonterminal : Nat}
    (isNext : expansion.todo = (state, .nonterminal nonterminal) :: todo) {sentence : List Nat}
    (generates : setting.grammar.Generates [.nonterminal nonterminal] sentence)
    (isFollowing : expansion.sentence.head? = some following)
    (anticipates : method.Anticipates analysis.grammar
      (todo.reverse.map Prod.snd ++ [.nonterminal nonterminal]) following) :
    IsRealised V analysis symbols
      { expansion with todo, sentence := sentence ++ expansion.sentence } := by
  intro machine read token rest underway isSymbols ahead spells
  obtain ⟨terminals, isSentence, _⟩ := isOf.derives
  rw [isFor.grammar_eq] at generates
  obtain ⟨forest, isOfForest, isRoots, isFrontier⟩ := Forest.exists_of_generates generates
  -- The tokens of the sentence that is put in, and those of the sentence so far.
  obtain ⟨first, second, rfl, spellsFirst, spellsSecond⟩ : ∃ first second,
    read = first ++ second ∧
      first.map Token.terminal = sentence ∧
      (second ++ [token]).map Token.terminal = expansion.sentence := by
    simp only [isSentence, List.map_append, ← List.append_assoc] at spells
    obtain ⟨spellsRead, isLast⟩ := List.append_inj' spells rfl
    obtain ⟨first, second, isRead, spellsFirst, rfl⟩ := List.map_eq_append_iff.mp spellsRead
    exact ⟨first, second, isRead, spellsFirst, by rw [isSentence, List.map_append, isLast]⟩
  obtain ⟨middle, others, isMiddle, rfl⟩ := exists_ahead spellsSecond isFollowing rest
  rw [List.append_assoc, isMiddle] at ahead
  rw [← isSymbols, ← isRoots] at anticipates
  obtain ⟨reached, earlier, reachedUnderway, reachedSymbols, reachedAhead⟩ :=
    underway.exists_mayMoves isAnalysis isOfForest ahead
      (spellsFirst.trans isFrontier.symm) anticipates
  rw [← isMiddle] at reachedAhead
  obtain ⟨final, later, arrived⟩ := realised reached second token rest reachedUnderway
    (by simp [reachedSymbols, isSymbols, isRoots, isNext]) reachedAhead spellsSecond
  exact ⟨final, earlier.trans later, arrived⟩

/-- A rule that a nonterminal is replaced by is reduced. -/
theorem IsRealised.replace {rule : Rule}
    (isNext : expansion.todo = (state, .nonterminal rule.head) :: todo) {route : Route}
    (follows : route.Follows setting method.automatonKind expansion.used state following rule)
    (isFollowing : expansion.sentence.head? = some following) :
    IsRealised V analysis symbols { expansion with
      todo := route.transitions.reverse ++ todo
      used := expansion.used ++ [(state, route.rule)] } := by
  intro machine read token rest underway isSymbols ahead spells
  have viable := isOf.viablePrefix isFor
  rw [isNext, List.reverse_cons, List.map_append] at viable
  obtain ⟨after, frame⟩ := viable.exists_frame
  have other := isAnalysis.ne_of_viablePrefix viable
  have found := follows.found
  rw [isFor.grammar_eq] at found
  have isStack : machine.symbols = todo.reverse.map Prod.snd ++ rule.body := by
    simp [isSymbols, follows.symbols]
  obtain ⟨first, others, isFirst, rfl⟩ := exists_ahead spells isFollowing rest
  have proposed : .reduce route.rule ∈ analysis.table.cell machine.state first.terminal := by
    obtain ⟨last, known, isRoute, isState, triggers⟩ := follows.isRoute
    have reaches := isRoute.reaches (isOf.exists_reaches isFor.exact isNext).1
    rw [follows.symbols, isFor.automaton_eq, ← isStack] at reaches
    rw [isFor.automaton_eq] at isState
    rw [isFor.grammar_eq] at triggers
    rw [underway.reaches.unique reaches]
    exact (isAnalysis.mem_cell_reduce_iff isState).mpr
      ⟨rule, found, other, triggers.1.1, triggers.permits isAnalysis.fresh.bodies⟩
  obtain ⟨next, may, nextSymbols, nextAhead, _⟩ :=
    underway.exists_mayMove_reduce isAnalysis found other frame isStack
      (ahead.trans isFirst) proposed
  obtain ⟨final, later, arrived⟩ :=
    realised next read token rest (underway.of_mayMove isAnalysis may)
      (by simp [nextSymbols, isNext]) (nextAhead.trans ahead) spells
  exact ⟨final, .head may later, arrived⟩

end Steps

/-- What an expansion is turned into is realised, if the terminals after all nonterminals that are
replaced by shortest sentences can come next. -/
theorem isRealised_of_run (isAnalysis : analysis.IsAnalysisOf grammar method target)
    (isFor : setting.IsFor analysis grammar method target) {bound : Nat}
    (isOf : expansion.IsOf setting symbols terminal) (enough : expansion.size setting ≤ bound)
    (realised : expansion.IsRealised V analysis symbols)
    (anticipates : ∀ found ∈ fallbacks setting terminal bound expansion,
      method.Anticipates analysis.grammar found.1 found.2) {sentence : List Nat}
    (ran : (run setting terminal bound expansion).1 = .ok sentence) :
    IsRealised V analysis symbols ⟨[], [], sentence⟩ := by
  have finished {expansion : Expansion} {sentence : List Nat} (isDone : expansion.todo = [])
      (isSentence : expansion.sentence = sentence)
      (realised : expansion.IsRealised V analysis symbols) :
      IsRealised V analysis symbols ⟨[], [], sentence⟩ := by
    rw [IsRealised, isDone, isSentence] at realised
    exact realised
  induction bound generalizing expansion with
  | zero =>
      have isDone : expansion.todo = [] := by
        rw [size] at enough
        exact List.length_eq_zero_iff.mp (by omega)
      exact finished isDone (Except.ok.inj ran) realised
  | succ bound ih =>
      rw [run] at ran
      rw [fallbacks] at anticipates
      cases isNext : expansion.todo with
      | nil =>
          rw [isNext] at ran
          exact finished isNext (Except.ok.inj ran) realised
      | cons transition todo =>
          obtain ⟨state, symbol⟩ := transition
          rw [isNext] at ran anticipates
          cases symbol with
          | terminal id =>
              refine ih (isOf.read isNext) ?_
                (realised.read isAnalysis isFor isOf isNext) anticipates ran
              simp only [size, isNext, List.length_cons] at enough ⊢
              omega
          | nonterminal id =>
              have isFollowing : expansion.sentence.head? =
                  some (expansion.sentence.head?.getD terminal) := by
                obtain ⟨terminals, isSentence, _⟩ := isOf.derives
                cases terminals <;> simp [isSentence]
              obtain ⟨reaches, declared⟩ := isOf.exists_reaches isFor.exact isNext
              rcases expand_eq isFor.exact reaches declared
                  (expansion.sentence.head?.getD terminal) with
                ⟨next, expanded, expands⟩ | ⟨reason, failed, _⟩
              · obtain ⟨isOfNext, smaller⟩ := isOf.expand isFor.exact isNext expands
                simp only [expanded] at ran anticipates
                cases expands with
                | replace follows =>
                    refine ih isOfNext (by omega)
                      (realised.replace isAnalysis isFor isOf isNext follows isFollowing) ?_ ran
                    simpa using anticipates
                | splice generates =>
                    simp only [if_true, List.forall_mem_cons] at anticipates
                    exact ih isOfNext (by omega)
                      (realised.splice isAnalysis isFor isOf isNext generates isFollowing
                        anticipates.1) anticipates.2 ran
              · simp only [failed] at ran
                cases ran

end Expansion

section Shown

variable (isAnalysis : analysis.IsAnalysisOf grammar method target)
  (isFor : setting.IsFor analysis grammar method target) {conflict : Conflict} {witness : Witness}
  (shows : witness.Shows setting conflict)

include isAnalysis isFor shows in
/-- A witness is realised if the terminals after all nonterminals that are replaced by shortest
sentences can come next. -/
theorem Shows.isRealised_of_fallbacks
    (anticipates : ∀ found ∈ fallbacks setting witness.path conflict.terminal,
      method.Anticipates analysis.grammar found.1 found.2) (V : Type) :
    witness.IsRealised V analysis := by
  have isOf := Expansion.isOf_start shows.isRoute conflict.terminal
  have enough := Expansion.size_start_le setting witness.path conflict.terminal
  have nothing : Expansion.IsRealised V analysis witness.symbols
      ⟨witness.path.reverse, [], [conflict.terminal]⟩ := by
    intro machine read token rest underway isSymbols ahead spells
    obtain rfl : read = [] := by simpa using congrArg List.length spells
    exact ⟨machine, .refl, underway, by rw [isSymbols, List.reverse_reverse]; rfl, ahead⟩
  have realised := Expansion.isRealised_of_run isAnalysis isFor isOf enough nothing anticipates
    shows.expanded
  exact fun read token rest spells => realised _ read token rest ⟨.initial none _,
    rfl, rfl⟩ rfl rfl spells

include isAnalysis isFor shows in
/-- Without lookaheads, or with canonical ones, every witness is realised. With others, it is if the
terminals after the nonterminals that are replaced by shortest sentences can come next there. -/
theorem Shows.isRealised (isConflict : conflict ∈ analysis.table.conflicts)
    (awaited : method = .slr1 ∨ method = .lalr1 →
      ∀ found ∈ fallbacks setting witness.path conflict.terminal,
        analysis.grammar.Awaits found.1 found.2) (V : Type) :
    witness.IsRealised V analysis := by
  have fallsBack (merged : method = .slr1 ∨ method = .lalr1) : witness.IsRealised V analysis :=
    shows.isRealised_of_fallbacks isAnalysis isFor
      (fun found member => isAnalysis.anticipates_of_awaits (awaited merged found member)) V
  have canonical (exact : method = .lr0 ∨ method = .lr1) : witness.IsRealised V analysis :=
    shows.isRealised_of_anticipates isAnalysis isFor
      (shows.anticipates isAnalysis isFor isConflict exact) V
  cases method with
  | lr0 => exact canonical (.inl rfl)
  | slr1 => exact fallsBack (.inl rfl)
  | lr1 => exact canonical (.inr rfl)
  | lalr1 => exact fallsBack (.inr rfl)

include isAnalysis isFor shows in
/-- The terminal of a conflict is declared. -/
theorem Shows.declares (isConflict : conflict ∈ analysis.table.conflicts) :
    analysis.grammar.Declares (.terminal conflict.terminal) := by
  obtain ⟨state, rule, isState, _, permits⟩ := shows.exists_permits isAnalysis isFor isConflict
  exact isAnalysis.declares_of_permits isState permits

include isAnalysis isFor shows in
/-- Outside its last place, the sentence of a witness holds the end of the input only if some body
does, and all of it is declared. -/
theorem Shows.exists_ofTerminals_eq_ok (endFree : grammar.BodiesEndFree)
    (declared : analysis.grammar.Declares (.terminal conflict.terminal)) :
    ∃ read token rest, Token.ofTerminals analysis.grammar witness.sentence =
        .ok (read ++ token :: rest) ∧ (read ++ [token]).map Token.terminal = witness.sentence ∧
      Token.checkEnd (read ++ token :: rest) = .ok () := by
  obtain ⟨terminals, isSentence, generates⟩ := shows.sentence
  rw [isFor.grammar_eq] at generates
  have occurs (terminal : Nat) (member : terminal ∈ terminals) :
      ∃ rule ∈ analysis.grammar.rules, .terminal terminal ∈ rule.body := by
    rcases Grammar.Derives.mem generates (terminal_mem_word.mpr member) with onPath | inBody
    · have route := shows.isRoute
      rw [isFor.automaton_eq] at route
      exact route.exists_mem_body isAnalysis.built onPath
    · exact inBody
  rw [isSentence]
  refine Token.exists_ofTerminals_eq_ok (fun terminal member => ?_) fun member => ?_
  · rcases List.mem_append.mp member with inFront | isLast
    · obtain ⟨rule, isRule, inBody⟩ := occurs terminal inFront
      exact isAnalysis.fresh.bodies rule isRule _ inBody
    · rw [List.mem_singleton.mp isLast]
      exact declared
  · obtain ⟨rule, isRule, inBody⟩ := occurs endOfInput member
    rw [isAnalysis.augments.rules_eq, List.mem_append] at isRule
    rcases isRule with old | new
    · exact endFree rule old inBody
    · rw [List.mem_singleton.mp new] at inBody
      simp at inBody

end Shown

end Witness

/-! ## Arrival -/

/-- In front of the sentence of a witness that is realised, actions that the table proposes lead to
the conflict, with the symbols on the path of the witness on the stack. -/
theorem Witness.IsRealised.exists_meets {setting : Witness.Setting}
    (isFor : setting.IsFor analysis grammar method target) {conflict : Conflict} {witness : Witness}
    (shows : witness.Shows setting conflict) {V : Type} (realised : witness.IsRealised V analysis)
    {read : List Token} {token : Token}
    (spells : (read ++ [token]).map Token.terminal = witness.sentence) (rest : List Token) :
    ∃ machine : Machine V, ReflTransGen Machine.MayMove
        (Machine.initial analysis.parser none (read ++ token :: rest)) machine ∧
      machine.Meets conflict witness.sentence.length ∧ machine.symbols = witness.symbols := by
  obtain ⟨final, mayMoves, underway, finalSymbols, finalRest⟩ := realised read token rest spells
  have counted := Machine.count_eq_of_mayMoves mayMoves
  have sentenceLength : read.length + 1 = witness.sentence.length := by simp [← spells]
  simp only [Machine.initial, finalRest, List.length_append, List.length_cons] at counted
  refine ⟨final, mayMoves, ⟨⟨shows.state_eq isFor underway finalSymbols, ?_⟩, by omega⟩,
    finalSymbols⟩
  rw [Machine.lookahead?, finalRest, List.head?_cons, Option.map_some, shows.terminal_eq spells]

/-- For every well-formed grammar that is not augmented yet and whose bodies do not hold the end of
the input, every method and every conflict of its table that has a witness: the machine can be
started in front of the sentence of the witness, and actions that the table proposes lead from there
to the conflict, in front of the last terminal and with the symbols on the path of the witness on
the stack. By steps that succeed the machine itself comes to the conflict in front of the last
terminal, unless it faces a conflict of the table where the action in force is not one that leads
there. From then on no actions lead there any more, or the steps of the machine go on for ever while
some actions would still lead there.

Where lookaheads come from Follow sets or are merged, this is asked of the witness: if a nonterminal
was replaced by a shortest sentence for want of a suitable rule, the terminal after it can come
next. -/
theorem witnesses_lead_to_conflicts (grammar : Grammar) (wellFormed : grammar.WellFormed)
    (notAugmented : grammar.isAugmented = false) (endFree : grammar.BodiesEndFree)
    (method : Method) :
    ∃ analysis setting, Analysis.compute grammar method = .ok analysis ∧
      analysis.setting = .ok setting ∧
      ∀ conflict ∈ analysis.table.conflicts, ∀ witness,
        analysis.witness conflict = .ok witness →
        (method = .slr1 ∨ method = .lalr1 →
          ∀ found ∈ Witness.fallbacks setting witness.path conflict.terminal,
            analysis.grammar.Awaits found.1 found.2) →
        ∃ tokens, Token.ofTerminals analysis.grammar witness.sentence = .ok tokens ∧
          ∀ V : Type, ∃ origin : Machine V,
            Machine.start analysis.parser tokens = .ok origin ∧
            (∃ final, ReflTransGen Machine.MayMove origin final ∧
              final.Meets conflict witness.sentence.length ∧ final.symbols = witness.symbols) ∧
            ((∃ final, ReflTransGen Machine.Steps origin final ∧
                final.Meets conflict witness.sentence.length) ∨
              ∃ last, ReflTransGen Machine.Steps origin last ∧
                (∃ other ∈ analysis.table.conflicts, last.Faces other) ∧
                last.DeviatesFrom (·.Meets conflict witness.sentence.length) ∧
                (last.StraysFrom (·.Meets conflict witness.sentence.length) ∨
                  last.LingersBefore (·.Meets conflict witness.sentence.length))) := by
  obtain ⟨target, analyses, augmented, first, _, family⟩ :=
    Analysis.exists_isFamilyOf wellFormed notAugmented
  have isAnalysis := family.isAnalysis method
  obtain ⟨setting, isSetting, isFor⟩ := isAnalysis.exists_setting_eq_ok
  refine ⟨analyses method, setting, family.computed method, isSetting,
    fun conflict isConflict witness given awaited => ?_⟩
  have shows := family.shows isSetting isFor isConflict given
  obtain ⟨read, token, rest, isTokens, spells, taken⟩ :=
    shows.exists_ofTerminals_eq_ok isAnalysis isFor endFree
      (shows.declares isAnalysis isFor isConflict)
  refine ⟨_, isTokens, fun V => ?_⟩
  have realised := shows.isRealised isAnalysis isFor isConflict awaited V
  obtain ⟨final, mayMoves, meets, symbols⟩ := realised.exists_meets isFor shows spells rest
  refine ⟨Machine.initial (analyses method).parser none (read ++ token :: rest), ?_,
    ⟨final, mayMoves, meets, symbols⟩,
    Machine.MayReach.reaches_or_misses ⟨final, mayMoves, meets⟩⟩
  simp only [Machine.start, taken, ok_bind]
  rfl

/-- The statement behind two `if`s is expanded by a rule that is reduced on `else`, and the machine
comes to the conflict when it reads the witness of the dangling `else`. -/
theorem dangling_else_witness_leads_to_the_conflict :
    ∃ analysis setting tokens, ∃ origin machine : Machine Unit,
      Analysis.compute Grammar.danglingElse .lalr1 = .ok analysis ∧
      analysis.setting = .ok setting ∧
      analysis.table.conflicts = [⟨4, 2, .shiftReduce, [.reduce 0, .shift 5]⟩] ∧
      Witness.fallbacks setting [(0, .terminal 1), (1, .terminal 1), (1, .nonterminal 0)] 2 = [] ∧
      Token.ofTerminals analysis.grammar [1, 1, 3, 2] = .ok tokens ∧
      Machine.start analysis.parser tokens = .ok origin ∧
      ReflTransGen Machine.Steps origin machine ∧
      machine.Faces ⟨4, 2, .shiftReduce, [.reduce 0, .shift 5]⟩ := by
  obtain ⟨analysis, setting, computed, isSetting, leads⟩ := witnesses_lead_to_conflicts
    Grammar.danglingElse Grammar.wellFormed_danglingElse rfl (by decide) .lalr1
  have evaluates : (Analysis.compute Grammar.danglingElse .lalr1).map (fun analysis =>
      (analysis.table.conflicts, analysis.witness ⟨4, 2, .shiftReduce, [.reduce 0, .shift 5]⟩,
        analysis.setting.toOption.map fun setting => (Witness.fallbacks setting
          [(0, .terminal 1), (1, .terminal 1), (1, .nonterminal 0)] 2).isEmpty)) =
      .ok ([⟨4, 2, .shiftReduce, [.reduce 0, .shift 5]⟩], .ok ⟨0, 4, 2,
        [(0, .terminal 1), (1, .terminal 1), (1, .nonterminal 0)], [1, 1, 3, 2]⟩,
        some true) := by
    decide +kernel
  rw [computed] at evaluates
  obtain ⟨conflicts, evaluates⟩ := Prod.mk.inj (Except.ok.inj evaluates)
  obtain ⟨given, fallsBack⟩ := Prod.mk.inj evaluates
  rw [isSetting] at fallsBack
  have never := List.isEmpty_iff.mp (Option.some.inj fallsBack)
  obtain ⟨tokens, isTokens, starts⟩ :=
    leads _ (by rw [conflicts]; simp) _ given (by simp [never])
  obtain ⟨origin, isOrigin, _, comes⟩ := starts Unit
  obtain ⟨machine, steps, faces⟩ : ∃ machine, ReflTransGen Machine.Steps origin machine ∧
      machine.Faces ⟨4, 2, .shiftReduce, [.reduce 0, .shift 5]⟩ := by
    rcases comes with ⟨final, steps, here, _⟩ | ⟨last, steps, ⟨other, isOther, there⟩, _⟩
    · exact ⟨final, steps, here⟩
    · rw [conflicts, List.mem_singleton] at isOther
      exact ⟨last, steps, isOther ▸ there⟩
  exact ⟨analysis, setting, tokens, origin, machine, computed, isSetting, conflicts, never,
    isTokens, isOrigin, steps, faces⟩

/-! ## Witnesses that miss their conflict -/

/-- The grammar is well-formed, not augmented yet and without the end of the input in its bodies,
the conflict of its table has a witness, and no steps that succeed bring the machine from the
beginning of the sentence to the conflict at the end of it. -/
def Misses (grammar : Grammar) (method : Method) (conflict : Conflict) : Prop :=
  grammar.WellFormed ∧ grammar.isAugmented = false ∧ grammar.BodiesEndFree ∧
    ∃ analysis witness tokens, Analysis.compute grammar method = .ok analysis ∧
      conflict ∈ analysis.table.conflicts ∧ analysis.witness conflict = .ok witness ∧
      Token.ofTerminals analysis.grammar witness.sentence = .ok tokens ∧
      ∃ origin : Machine Unit, Machine.start analysis.parser tokens = .ok origin ∧
        ∀ machine, ReflTransGen Machine.Steps origin machine →
          ¬ machine.Meets conflict witness.sentence.length

/-- The course of the machine tells that it misses a conflict. -/
theorem misses_of_course {conflict : Conflict} (wellFormed : grammar.WellFormed)
    (notAugmented : grammar.isAugmented = false) (endFree : grammar.BodiesEndFree) {bound : Nat}
    {witness : Witness} {course : List Place}
    (evaluates : (Analysis.compute grammar method).map (fun analysis =>
      (decide (conflict ∈ analysis.table.conflicts), analysis.witness conflict,
        analysis.parser.course? bound witness.sentence)) = .ok (true, .ok witness, some course))
    (absent : ⟨conflict.state, witness.sentence.length - 1,
      some conflict.terminal⟩ ∉ course) :
    Misses grammar method conflict := by
  obtain ⟨analysis, _, computed, _⟩ :=
    Analysis.exists_compute_eq_ok wellFormed notAugmented method
  rw [computed] at evaluates
  obtain ⟨isConflict, evaluates⟩ := Prod.mk.inj (Except.ok.inj evaluates)
  obtain ⟨given, isCourse⟩ := Prod.mk.inj evaluates
  unfold Parser.course? at isCourse
  split at isCourse
  · cases isCourse
  · rename_i tokens isTokens
    split at isCourse
    · cases isCourse
    · rename_i origin starts
      refine ⟨wellFormed, notAugmented, endFree, analysis, witness, tokens, computed,
        of_decide_eq_true isConflict, given, isTokens, origin, starts, ?_⟩
      rintro machine steps ⟨⟨isState, isTerminal⟩, isPosition⟩
      have member := Machine.place_mem isCourse steps
      rw [Machine.place, isState, isTerminal, isPosition] at member
      exact absent member

end ShiftReduce

/-- Two conflicts in a row, the first of which decides whether the second is met. -/
def Grammar.detour : Grammar :=
  .ofLists ["a", "x", "c"] ["S", "A", "B", "C", "D"]
    [⟨0, [.nonterminal 1, .terminal 2]⟩, ⟨0, [.nonterminal 2, .terminal 2, .nonterminal 3]⟩,
      ⟨0, [.nonterminal 2, .terminal 2, .nonterminal 4]⟩, ⟨1, [.terminal 1]⟩,
      ⟨2, [.terminal 1]⟩, ⟨3, [.terminal 3]⟩, ⟨4, [.terminal 3]⟩]
    (by decide) (by decide) (by decide)

/-- A rule that comes before the others in force, and leads nowhere. -/
def Grammar.roundabout : Grammar :=
  .ofLists ["x", "c", "z"] ["S", "A", "D", "E"]
    [⟨1, [.nonterminal 1]⟩, ⟨1, [.terminal 1]⟩,
      ⟨0, [.nonterminal 1, .terminal 2, .nonterminal 2]⟩,
      ⟨0, [.nonterminal 1, .terminal 2, .nonterminal 3]⟩,
      ⟨2, [.terminal 3]⟩, ⟨3, [.terminal 3]⟩]
    (by decide) (by decide) (by decide)

/-- Empty rules that a terminal follows only in another place than behind `Y`. -/
def Grammar.elsewhere : Grammar :=
  .ofLists ["y", "c", "e", "t"] ["S", "Y", "H", "K"]
    [⟨0, [.nonterminal 1, .nonterminal 2, .terminal 2]⟩,
      ⟨0, [.nonterminal 1, .nonterminal 3, .terminal 3]⟩,
      ⟨0, [.nonterminal 2, .terminal 4]⟩, ⟨0, [.nonterminal 3, .terminal 4]⟩,
      ⟨1, [.terminal 1]⟩, ⟨2, []⟩, ⟨3, []⟩]
    (by decide) (by decide) (by decide)

/-- Two contexts whose states are merged behind `A`, but not behind the `a` that `A` stands for. -/
def Grammar.mergedLater : Grammar :=
  .ofLists ["x", "y", "a", "u", "t"] ["S", "B", "A", "H", "K"]
    [⟨0, [.terminal 1, .nonterminal 1, .terminal 4]⟩,
      ⟨0, [.terminal 1, .terminal 3, .terminal 1]⟩,
      ⟨0, [.terminal 2, .nonterminal 1, .terminal 5]⟩,
      ⟨1, [.nonterminal 2, .nonterminal 3]⟩, ⟨1, [.nonterminal 2, .nonterminal 4]⟩,
      ⟨2, [.terminal 3]⟩, ⟨3, []⟩, ⟨4, []⟩]
    (by decide) (by decide) (by decide)

namespace ShiftReduce

/-- The sentence of a witness need not lead the machine to the conflict. Another conflict on the way
can divert it, or send it round for ever, even with canonical lookaheads. A terminal that a Follow
set brings in, or that was merged from another context, can be refused before the conflict is
met. -/
theorem witnesses_can_miss_their_conflict :
    Misses Grammar.detour .lr1 ⟨7, 0, .reduceReduce, [.reduce 5, .reduce 6]⟩ ∧
      Misses Grammar.roundabout .lr1 ⟨5, 0, .reduceReduce, [.reduce 4, .reduce 5]⟩ ∧
      Misses Grammar.elsewhere .slr1 ⟨3, 4, .reduceReduce, [.reduce 5, .reduce 6]⟩ ∧
      Misses Grammar.mergedLater .lalr1 ⟨6, 5, .reduceReduce, [.reduce 6, .reduce 7]⟩ := by
  refine ⟨?_, ?_, ?_, ?_⟩
  · exact @misses_of_course Grammar.detour .lr1 _ ⟨by decide, 0, rfl, by decide⟩ rfl
      (by decide) 8 ⟨5, 7, 0, [(0, .nonterminal 2), (4, .terminal 2), (6, .terminal 3)],
        [1, 2, 3, 0]⟩
      [⟨0, 0, some 1⟩, ⟨1, 1, some 2⟩, ⟨3, 1, some 2⟩, ⟨5, 2, some 3⟩]
      (by decide +kernel) (by decide)
  · exact @misses_of_course Grammar.roundabout .lr1 _ ⟨by decide, 0, rfl, by decide⟩ rfl
      (by decide) 8 ⟨4, 5, 0, [(0, .nonterminal 1), (3, .terminal 2), (4, .terminal 3)],
        [1, 2, 3, 0]⟩
      [⟨0, 0, some 1⟩, ⟨1, 1, some 2⟩, ⟨3, 1, some 2⟩] (by decide +kernel) (by decide)
  · exact @misses_of_course Grammar.elsewhere .slr1 _ ⟨by decide, 0, rfl, by decide⟩ rfl
      (by decide) 8 ⟨5, 3, 4, [(0, .nonterminal 1)], [1, 4]⟩
      [⟨0, 0, some 1⟩, ⟨1, 1, some 4⟩] (by decide +kernel) (by decide)
  · exact @misses_of_course Grammar.mergedLater .lalr1 _ ⟨by decide, 0, rfl, by decide⟩ rfl
      (by decide) 8 ⟨6, 6, 5, [(0, .terminal 1), (1, .nonterminal 2)], [1, 3, 5]⟩
      [⟨0, 0, some 1⟩, ⟨1, 1, some 3⟩, ⟨4, 2, some 5⟩] (by decide +kernel) (by decide)

end ShiftReduce

end DeterministicParsing
