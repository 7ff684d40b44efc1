/-
# Witnesses are realised by the actions of the table

The sentence of a witness is derived from the symbols on its path, so there are trees with these
symbols at their roots and the sentence, up to the terminal of the conflict, at their leaves.
Following the trees from left to right and from the leaves up, the machine shifts a leaf where it
stands and reduces a rule after all that is below it. Each of these actions is proposed by the
table, provided that the terminal of the conflict can come next behind the symbols on the path: then
the terminal after a tree can come next behind the root of the tree, and so it can behind the body
below the root.

A canonical state allows nothing but what can come next, so its witnesses are always realised in
this way, and the method without lookaheads does not ask.
-/
import DeterministicParsing.Proofs.Forest.Derivation
import DeterministicParsing.Proofs.ShiftReduce.Witness

namespace DeterministicParsing

/-! ## What can come next -/

namespace Grammar

variable {grammar : Grammar} {string before : List Symbol} {nonterminal terminal : Nat}

/-- The last symbol of a viable prefix is read within a rule that is looked for. -/
theorem ViablePrefix.exists_rule {symbol : Symbol}
    (viable : grammar.ViablePrefix (string ++ [symbol])) :
    ∃ before after left right head, grammar.Frame before head after ∧
      ⟨head, left ++ symbol :: right⟩ ∈ grammar.rules ∧ string = before ++ left := by
  obtain ⟨core, after, rest, ⟨rule, before, found, _, frame, isString⟩, other,
    alsoFound, expected⟩ :=
    viablePrefix_snoc.mp viable
  obtain rfl := Option.some.inj (found.symm.trans alsoFound)
  refine ⟨before, after, rule.body.take core.marker, rest, rule.head, frame, ?_, isString⟩
  rw [← expected, List.take_append_drop]
  exact List.mem_of_getElem? found

/-- A terminal that is read can come next in front of it. -/
theorem ViablePrefix.awaits (viable : grammar.ViablePrefix (string ++ [.terminal terminal])) :
    grammar.Awaits string terminal := by
  obtain ⟨before, after, left, right, head, frame, member, isString⟩ := viable.exists_rule
  exact ⟨before, after, left, _, head, frame, member, isString, right ++ after, .refl _⟩

/-- A nonterminal that is read is looked for in front of it. -/
theorem ViablePrefix.exists_frame
    (viable : grammar.ViablePrefix (before ++ [.nonterminal nonterminal])) :
    ∃ after, grammar.Frame before nonterminal after := by
  obtain ⟨_, _, _, _, _, frame, member, rfl⟩ := viable.exists_rule
  exact ⟨_, .within frame member⟩

theorem Awaits.viablePrefix (awaits : grammar.Awaits string terminal) :
    grammar.ViablePrefix string := by
  obtain ⟨before, after, left, right, head, frame, member, rfl, _⟩ := awaits
  obtain ⟨id, found⟩ := List.getElem?_of_mem member
  exact ⟨⟨id, left.length⟩, after, _, before, found, by simp, frame, by simp⟩

end Grammar

namespace ShiftReduce

variable {grammar : Grammar} {method : Method} {target : Nat} {analysis : Analysis}

/-- The terminal can come next behind the string, as far as the method asks for that. -/
structure Method.Anticipates (method : Method) (grammar : Grammar) (string : List Symbol)
    (terminal : Nat) : Prop where
  viable : grammar.ViablePrefix string
  declared : grammar.Declares (.terminal terminal)
  awaits : method ≠ .lr0 → grammar.Awaits string terminal

namespace Analysis.IsAnalysisOf

variable (isAnalysis : analysis.IsAnalysisOf grammar method target) {string before : List Symbol}
  {terminal : Nat} {rule : Rule}
include isAnalysis

theorem anticipates_of_awaits (awaits : analysis.grammar.Awaits string terminal) :
    method.Anticipates analysis.grammar string terminal :=
  ⟨awaits.viablePrefix, Grammar.declares_of_mem_bodyTerminals isAnalysis.fresh.bodies awaits.mem,
    fun _ => awaits⟩

/-- The start that augmentation adds is never read. -/
theorem ne_of_viablePrefix {nonterminal : Nat}
    (viable : analysis.grammar.ViablePrefix (before ++ [.nonterminal nonterminal])) :
    nonterminal ≠ grammar.nonterminalCount := by
  obtain ⟨_, _, _, _, _, _, member, _⟩ := viable.exists_rule
  rintro rfl
  exact isAnalysis.fresh.fresh _ member (by simp)

/-- What can come next behind a nonterminal can come next behind the bodies of its rules. -/
theorem anticipates_body (member : rule ∈ analysis.grammar.rules)
    (anticipates : method.Anticipates analysis.grammar
      (before ++ [.nonterminal rule.head]) terminal) :
    method.Anticipates analysis.grammar (before ++ rule.body) terminal := by
  obtain ⟨after, frame⟩ := anticipates.viable.exists_frame
  obtain ⟨id, found⟩ := List.getElem?_of_mem member
  have other := isAnalysis.ne_of_viablePrefix anticipates.viable
  refine ⟨?_, anticipates.declared, fun looks => ?_⟩
  · exact ⟨⟨id, rule.body.length⟩, after, rule, before, found,
      Nat.le_refl _, frame, by simp⟩
  · exact (Grammar.Contracts.replace member (isAnalysis.start_ne_ok.mpr other) before).awaits
      (anticipates.awaits looks)

/-- Behind the body of a rule, the table proposes to reduce the rule on what can come next behind
the head. -/
theorem mem_cell_reduce_of_anticipates {id ruleId : Nat}
    (reaches : analysis.automaton.Reaches (before ++ rule.body) id)
    (found : analysis.grammar.rules[ruleId]? = some rule)
    (anticipates : method.Anticipates analysis.grammar
      (before ++ [.nonterminal rule.head]) terminal) :
    .reduce ruleId ∈ analysis.table.cell id terminal := by
  have other := isAnalysis.ne_of_viablePrefix anticipates.viable
  have valid {after : List Symbol} (frame : analysis.grammar.Frame before rule.head after) :
      analysis.grammar.ValidFor (before ++ rule.body) ⟨ruleId, rule.body.length⟩ after :=
    ⟨rule, before, found, Nat.le_refl _, frame, by simp⟩
  by_cases looks : method = .lr0
  · subst looks
    obtain ⟨state, isState⟩ := isAnalysis.built.exists_state reaches
    obtain ⟨after, frame⟩ := anticipates.viable.exists_frame
    refine (isAnalysis.mem_cell_reduce_iff isState).mpr ⟨rule, found, other,
      ?_, anticipates.declared⟩
    exact (isAnalysis.built.holds_iff isAnalysis.fresh reaches isState).mpr ⟨after, valid frame⟩
  · obtain ⟨after, frame, begins⟩ := (anticipates.awaits looks).exists_frame
    exact isAnalysis.mem_cell_reduce reaches found other (valid frame) begins

/-! ## Following trees -/

/-- Where a terminal can come next behind the roots of trees, the first leaf of the trees, or the
terminal itself, can come next in front of them. -/
theorem anticipates_head {forest : Forest} (isOf : forest.IsOf analysis.grammar)
    (anticipates : method.Anticipates analysis.grammar (string ++ forest.roots) terminal)
    {next : Nat} (isNext : (forest.frontier ++ [terminal]).head? = some next) :
    method.Anticipates analysis.grammar string next := by
  induction isOf generalizing string terminal next with
  | nil =>
      obtain rfl : terminal = next := by simpa [Forest.frontier] using isNext
      simpa [Forest.roots] using anticipates
  | @leaf first others _ _ =>
      obtain rfl : first = next := by simpa [Forest.frontier] using isNext
      have viable := anticipates.viable
      rw [Forest.roots, List.append_cons] at viable
      exact isAnalysis.anticipates_of_awaits viable.of_append.awaits
  | @branch id nonterminal below others found _ _ inside rest =>
      rw [Forest.roots, List.append_cons] at anticipates
      obtain ⟨middle, tail, isMiddle⟩ : ∃ middle tail,
          others.frontier ++ [terminal] = middle :: tail :=
        List.exists_cons_of_ne_nil (by simp)
      have behind := rest anticipates (by rw [isMiddle, List.head?_cons])
      refine inside (isAnalysis.anticipates_body (List.mem_of_getElem? found) behind) ?_
      rw [Forest.frontier, List.append_assoc, isMiddle] at isNext
      rw [← isNext]
      cases below.frontier <;> rfl

end Analysis.IsAnalysisOf

namespace Machine

variable {V : Type} {machine next final : Machine V} {read rest : List Token} {token : Token}

open Relation (ReflTransGen)

/-- Actions that the table proposes lead from the leaves of trees to their roots, if the token after
the leaves can come next behind the roots. -/
theorem IsUnderway.exists_mayMoves (isAnalysis : analysis.IsAnalysisOf grammar method target)
    (underway : machine.IsUnderway analysis) {forest : Forest} (isOf : forest.IsOf analysis.grammar)
    (ahead : machine.remaining = read ++ token :: rest)
    (spells : read.map Token.terminal = forest.frontier)
    (anticipates : method.Anticipates analysis.grammar (machine.symbols ++ forest.roots)
      token.terminal) :
    ∃ final, ReflTransGen MayMove machine final ∧ final.IsUnderway analysis ∧
      final.symbols = machine.symbols ++ forest.roots ∧ final.remaining = token :: rest := by
  induction isOf generalizing machine read token rest with
  | nil =>
      obtain rfl := List.map_eq_nil_iff.mp spells
      exact ⟨machine, .refl, underway, by simp [Forest.roots], ahead⟩
  | @leaf terminal others _ ih =>
      obtain ⟨first, read, rfl, rfl, spellsOthers⟩ := List.map_eq_cons_iff.mp spells
      rw [Forest.roots, List.append_cons] at anticipates ⊢
      obtain ⟨next, may, nextSymbols, isAhead, _⟩ :=
        underway.exists_mayMove_shift isAnalysis ahead anticipates.viable.of_append
      rw [← nextSymbols] at anticipates ⊢
      obtain ⟨final, later, finalUnderway, finalSymbols, finalRest⟩ :=
        ih (underway.of_mayMove isAnalysis may) isAhead spellsOthers anticipates
      exact ⟨final, .head may later, finalUnderway, finalSymbols, finalRest⟩
  | @branch id nonterminal below others found _ othersAreOf inside outside =>
      obtain ⟨first, second, rfl, spellsBelow, spellsOthers⟩ := List.map_eq_append_iff.mp spells
      rw [Forest.roots, List.append_cons] at anticipates ⊢
      -- The token after the leaves below the nonterminal.
      obtain ⟨middle, tail, isMiddle⟩ : ∃ middle tail,
          second ++ token :: rest = middle :: tail :=
        List.exists_cons_of_ne_nil (by simp)
      rw [List.append_assoc, isMiddle] at ahead
      have isNext : (others.frontier ++ [token.terminal]).head? = some middle.terminal := by
        rw [← spellsOthers]
        cases second <;> simp_all
      have behind := isAnalysis.anticipates_head othersAreOf anticipates isNext
      obtain ⟨reached, earlier, reachedUnderway, reachedSymbols, isAhead⟩ :=
        inside underway ahead spellsBelow
          (isAnalysis.anticipates_body (List.mem_of_getElem? found) behind)
      have reaches := reachedUnderway.reaches
      rw [reachedSymbols] at reaches
      obtain ⟨after, frame⟩ := behind.viable.exists_frame
      obtain ⟨next, may, nextSymbols, nextAhead, _⟩ :=
        reachedUnderway.exists_mayMove_reduce isAnalysis found
          (isAnalysis.ne_of_viablePrefix behind.viable) frame reachedSymbols isAhead
        (isAnalysis.mem_cell_reduce_of_anticipates reaches found behind)
      rw [isAhead, ← isMiddle] at nextAhead
      rw [← nextSymbols] at anticipates ⊢
      obtain ⟨final, later, finalUnderway, finalSymbols, finalRest⟩ :=
        outside (reachedUnderway.of_mayMove isAnalysis may) nextAhead spellsOthers anticipates
      exact ⟨final, earlier.trans (.head may later), finalUnderway, finalSymbols, finalRest⟩

end Machine

/-! ## Witnesses -/

/-- From the empty stack, in front of the sentence of the witness, actions that the table proposes
lead to the symbols on the path of the witness, in front of the last terminal. -/
def Witness.IsRealised (V : Type) (analysis : Analysis) (witness : Witness) : Prop :=
  ∀ (read : List Token) (token : Token) (rest : List Token),
    (read ++ [token]).map Token.terminal = witness.sentence →
    ∃ final : Machine V, Relation.ReflTransGen Machine.MayMove
        (Machine.initial analysis.parser none (read ++ token :: rest)) final ∧
      final.IsUnderway analysis ∧ final.symbols = witness.symbols ∧
      final.remaining = token :: rest

section Shown

variable (isAnalysis : analysis.IsAnalysisOf grammar method target) {setting : Witness.Setting}
  (isFor : setting.IsFor analysis grammar method target) {conflict : Conflict} {witness : Witness}
  (shows : witness.Shows setting conflict)

include isFor shows in
/-- The symbols on the path lead to the state of the conflict. -/
theorem Witness.Shows.reaches : analysis.automaton.Reaches witness.symbols conflict.state := by
  rw [← isFor.automaton_eq]
  exact shows.isRoute.reaches .start

include isFor shows in
/-- With the symbols on the path on its stack, a machine is in the state of the conflict. -/
theorem Witness.Shows.state_eq {V : Type} {machine : Machine V}
    (underway : machine.IsUnderway analysis) (isSymbols : machine.symbols = witness.symbols) :
    machine.state = conflict.state := by
  have reaches := underway.reaches
  rw [isSymbols] at reaches
  exact reaches.unique (shows.reaches isFor)

include shows in
/-- Tokens that spell the sentence end with the terminal of the conflict. -/
theorem Witness.Shows.terminal_eq {read : List Token} {token : Token}
    (spells : (read ++ [token]).map Token.terminal = witness.sentence) :
    token.terminal = conflict.terminal := by
  obtain ⟨terminals, isSentence, _⟩ := shows.sentence
  rw [isSentence, List.map_append] at spells
  exact List.singleton_inj.mp (List.append_inj' spells rfl).2

include isAnalysis isFor shows in
/-- A witness is realised if the terminal of the conflict can come next behind the symbols on its
path. -/
theorem Witness.Shows.isRealised_of_anticipates
    (anticipates : method.Anticipates analysis.grammar witness.symbols conflict.terminal)
    (V : Type) :
    witness.IsRealised V analysis := by
  intro read token rest spells
  have sameTerminal := shows.terminal_eq spells
  obtain ⟨terminals, isSentence, generates⟩ := shows.sentence
  rw [isSentence, List.map_append] at spells
  have spellsRead := (List.append_inj' spells rfl).1
  rw [isFor.grammar_eq] at generates
  obtain ⟨forest, isOf, isRoots, isFrontier⟩ := Forest.exists_of_generates generates
  have underway : (Machine.initial analysis.parser none (read ++ token :: rest) :
      Machine V).IsUnderway analysis := ⟨.initial none _, rfl, rfl⟩
  rw [← isRoots, ← sameTerminal] at anticipates
  obtain ⟨final, moves, finalUnderway, finalSymbols, finalRest⟩ :=
    underway.exists_mayMoves isAnalysis isOf rfl (spellsRead.trans isFrontier.symm) anticipates
  exact ⟨final, moves, finalUnderway, finalSymbols.trans isRoots, finalRest⟩

include isAnalysis isFor shows in
/-- The method reduces the rule of the witness on the terminal of the conflict. -/
theorem Witness.Shows.exists_permits (isConflict : conflict ∈ analysis.table.conflicts) :
    ∃ state rule, analysis.automaton.states[conflict.state]? = some state ∧
      analysis.grammar.rules[witness.rule]? = some rule ∧
      method.Permits analysis.grammar state.items ⟨witness.rule, rule.body.length⟩ rule.head
        conflict.terminal := by
  obtain ⟨state, isState⟩ := isAnalysis.built.exists_state (shows.reaches isFor)
  have inCell := shows.reduces
  rw [(Table.actions_of_mem_conflicts isConflict).1] at inCell
  obtain ⟨rule, found, _, _, permits⟩ := (isAnalysis.mem_cell_reduce_iff isState).mp inCell
  exact ⟨state, rule, isState, found, permits⟩

include isAnalysis isFor shows in
/-- The terminal of a conflict can come next behind the symbols on the path of its witness, if the
method does not look at terminals or its states allow nothing else. -/
theorem Witness.Shows.anticipates (isConflict : conflict ∈ analysis.table.conflicts)
    (exact : method = .lr0 ∨ method = .lr1) :
    method.Anticipates analysis.grammar witness.symbols conflict.terminal := by
  have reaches := shows.reaches isFor
  obtain ⟨state, rule, isState, found, permits⟩ :=
    shows.exists_permits isAnalysis isFor isConflict
  rcases exact with rfl | rfl
  · exact ⟨isAnalysis.built.viablePrefix isAnalysis.fresh reaches, permits,
      fun looks => absurd rfl looks⟩
  · have valid :=
      isAnalysis.built.validLookahead_of_allows isAnalysis.fresh
        (by decide) rfl reaches isState permits
    exact isAnalysis.anticipates_of_awaits (valid.awaits found rfl)

end Shown

/-- A witness that is handed out shows its conflict. -/
theorem Analysis.IsFamilyOf.shows {augmented : Grammar} {analyses : Method → Analysis}
    {first : FirstSets} (family : Analysis.IsFamilyOf grammar target analyses augmented first)
    {setting : Witness.Setting} (isSetting : (analyses method).setting = .ok setting)
    (isFor : setting.IsFor (analyses method) grammar method target)
    {conflict : Conflict} (isConflict : conflict ∈ (analyses method).table.conflicts)
    {witness : Witness} (given : (analyses method).witness conflict = .ok witness) :
    witness.Shows setting conflict := by
  have computes : (analyses method).witness conflict = Witness.ofConflict setting conflict := by
    simp [Analysis.witness, isSetting]
  rw [computes] at given
  rcases family.ofConflict_eq isFor isConflict with
    ⟨other, alsoGiven, shows⟩ | ⟨reason, failed, _⟩
  · obtain rfl := Except.ok.inj (given.symm.trans alsoGiven)
    exact shows
  · cases given.symm.trans failed

/-- For every well-formed grammar that is not augmented yet and every conflict of its canonical
table that has a witness: in front of the sentence of the witness, with nothing on its stack, the
machine can take some of the actions that the table proposes, one after another, so that it has
shifted all but the last terminal, has the symbols on the path of the witness on its stack, and is
in the state of the conflict with the terminal of the conflict next. -/
theorem canonical_witnesses_are_realisable (grammar : Grammar) (wellFormed : grammar.WellFormed)
    (notAugmented : grammar.isAugmented = false) :
    ∃ analysis, Analysis.compute grammar .lr1 = .ok analysis ∧
      ∀ conflict ∈ analysis.table.conflicts, ∀ witness,
        analysis.witness conflict = .ok witness →
        ∀ (V : Type) (tokens : List Token), tokens.map Token.terminal = witness.sentence →
          ∃ (machine : Machine V) (last : Token),
            Relation.ReflTransGen Machine.MayMove (Machine.initial analysis.parser none tokens)
              machine ∧
            machine.symbols = witness.symbols ∧ machine.state = conflict.state ∧
            machine.remaining = [last] ∧ last.terminal = conflict.terminal := by
  obtain ⟨target, analyses, augmented, first, _, family⟩ :=
    Analysis.exists_isFamilyOf wellFormed notAugmented
  refine ⟨analyses .lr1, family.computed .lr1,
    fun conflict isConflict witness given V tokens spells => ?_⟩
  have isAnalysis := family.isAnalysis .lr1
  obtain ⟨setting, isSetting, isFor⟩ := isAnalysis.exists_setting_eq_ok
  have shows := family.shows isSetting isFor isConflict given
  have anticipates := shows.anticipates isAnalysis isFor isConflict (.inr rfl)
  obtain ⟨terminals, isSentence, _⟩ := shows.sentence
  obtain ⟨read, last, rfl⟩ : ∃ read last, tokens = read ++ [last] := by
    rcases List.eq_nil_or_concat' tokens with rfl | isLast
    · simp [isSentence] at spells
    · exact isLast
  obtain ⟨machine, moves, underway, symbols, isAhead⟩ :=
    shows.isRealised_of_anticipates isAnalysis isFor anticipates V read last [] spells
  exact ⟨machine, last, moves, symbols, shows.state_eq isFor underway symbols, isAhead,
    shows.terminal_eq spells⟩

/-- The witness of the dangling `else` is realised: two `if`s and a statement are on the stack, with
the `else` next. -/
theorem dangling_else_witness_is_realisable :
    ∃ analysis, ∃ machine : Machine Unit,
      Analysis.compute Grammar.danglingElse .lr1 = .ok analysis ∧
      analysis.table.conflicts = [⟨7, 2, .shiftReduce, [.reduce 0, .shift 9]⟩] ∧
      Relation.ReflTransGen Machine.MayMove (Machine.initial analysis.parser none
        [⟨"if", 1⟩, ⟨"if", 1⟩, ⟨"x", 3⟩, ⟨"else", 2⟩]) machine ∧
      machine.symbols = [.terminal 1, .terminal 1, .nonterminal 0] ∧ machine.state = 7 ∧
      machine.remaining.map Token.terminal = [2] := by
  obtain ⟨analysis, computed, realisable⟩ :=
    canonical_witnesses_are_realisable Grammar.danglingElse Grammar.wellFormed_danglingElse rfl
  have evaluates : (Analysis.compute Grammar.danglingElse .lr1).map (fun analysis =>
      (analysis.table.conflicts,
        analysis.witness ⟨7, 2, .shiftReduce, [.reduce 0, .shift 9]⟩)) =
      .ok ([⟨7, 2, .shiftReduce, [.reduce 0, .shift 9]⟩], .ok ⟨0, 7, 2,
        [(0, .terminal 1), (1, .terminal 1), (4, .nonterminal 0)], [1, 1, 3, 2]⟩) := by
    decide +kernel
  rw [computed] at evaluates
  obtain ⟨conflicts, given⟩ := Prod.mk.inj (Except.ok.inj evaluates)
  obtain ⟨machine, last, moves, symbols, state, isAhead, isLast⟩ :=
    realisable _ (by rw [conflicts]; simp)
    _ given Unit [⟨"if", 1⟩, ⟨"if", 1⟩, ⟨"x", 3⟩, ⟨"else", 2⟩] rfl
  exact ⟨analysis, machine, computed, conflicts, moves, symbols,
    state, by simp [isAhead, isLast]⟩

end ShiftReduce

end DeterministicParsing
