/-
# Witnesses of predictive conflicts show the terminal

The sentences of a witness should run into the conflict: when the nonterminal in the hole of the
context is about to be expanded, the next terminal is the one of the conflict. It comes from the
body of the rule if the body derives a terminal string that begins with it. If the body can be
empty, it comes from what is after the hole, since a context is chosen that has it there, or it is
the end of the input.

A third case is left. The First sets do not ask whether a string that begins with a terminal can be
completed to a terminal string, so a rule may compete for a terminal with which none of its
sentences begins. No sentence can then show the conflict, and the rule is shown by its shortest one
instead.
-/
import DeterministicParsing.Proofs.Predictive.Witness

namespace DeterministicParsing

namespace Grammar

variable {grammar : Grammar}

/-- A terminal string of two parts consists of terminal strings of the parts. -/
theorem Generates.of_append {first second : List Symbol} {terminals : List Nat}
    (generates : grammar.Generates (first ++ second) terminals) :
    ∃ left right, terminals = left ++ right ∧ grammar.Generates first left ∧
      grammar.Generates second right := by
  obtain ⟨_, _, same, fromFirst, fromSecond⟩ := Derives.of_append generates
  obtain ⟨left, right, rfl, rfl, rfl⟩ := exists_word_of_append_eq_word same.symm
  exact ⟨left, right, rfl, fromFirst, fromSecond⟩

/-- What has a terminal string that begins with a terminal can begin with it. -/
theorem Generates.canBegin {symbols : List Symbol} {terminal : Nat} {rest : List Nat}
    (generates : grammar.Generates symbols (terminal :: rest)) :
    grammar.CanBegin symbols terminal := by
  induction symbols with
  | nil => cases @eq_of_derives_word _ [] _ generates
  | cons symbol others ih =>
      rw [← List.singleton_append] at generates
      obtain ⟨left, right, same, fromSymbol, fromOthers⟩ := generates.of_append
      rw [canBegin_cons]
      cases left with
      | nil =>
          rw [List.nil_append] at same
          exact .inr ⟨fromSymbol, ih (same ▸ fromOthers)⟩
      | cons first left =>
          obtain ⟨rfl, _⟩ := List.cons.inj same
          exact .inl ⟨left, fromSymbol⟩

/-- Where every symbol has a terminal string, one that can begin with a terminal has one that
does. -/
theorem CanBegin.exists_generates {symbols : List Symbol} {terminal : Nat} {terminals : List Nat}
    (begins : grammar.CanBegin symbols terminal) (generates : grammar.Generates symbols terminals) :
    ∃ rest, grammar.Generates symbols (terminal :: rest) := by
  obtain ⟨left, symbol, right, rest, rfl, vanishes, first⟩ := begins
  obtain ⟨_, _, _, _, fromSymbols⟩ := generates.of_append
  rw [← List.singleton_append] at fromSymbols
  obtain ⟨_, tail, _, _, fromRight⟩ := fromSymbols.of_append
  refine ⟨rest ++ tail, ?_⟩
  rw [Generates, ← List.cons_append, word_append]
  exact vanishes.append (Derives.append first fromRight)

end Grammar

namespace Context

variable {context : Context} {body : List Symbol}

theorem take_fill (inRange : context.hole < context.symbols.length) :
    (context.fill body).take context.hole = context.symbols.take context.hole := by
  rw [fill, List.append_assoc, List.take_left' (by rw [List.length_take]; omega)]

theorem drop_fill (inRange : context.hole < context.symbols.length) :
    (context.fill body).drop context.hole = body ++ context.symbols.drop (context.hole + 1) := by
  rw [fill, List.append_assoc, List.drop_left' (by rw [List.length_take]; omega)]

/-- What comes after suits the terminal also behind a part that can be empty. -/
theorem Suits.append_of_derives_nil {grammar : Grammar} {wanted : Option Nat} {after : List Symbol}
    (suits : Suits grammar wanted after) (vanishes : grammar.Derives body []) :
    Suits grammar wanted (body ++ after) := by
  intro terminal isWanted
  rcases suits terminal isWanted with begins | ⟨isEnd, empty⟩
  · exact .inl (Grammar.canBegin_append.mpr (.inr ⟨vanishes, begins⟩))
  · exact .inr ⟨isEnd, Grammar.derives_append_nil.mpr ⟨vanishes, empty⟩⟩

end Context

namespace Predictive.Witness

variable {grammar : Grammar} {context : Context} {body : List Symbol} {conflict : Conflict}
  {witness : Witness} {terminal start id : Nat} {rule : Rule} {sentence before after : List Nat}

/-- A sentence divides into what comes from the context before the hole, and what comes from the
body and the context after the hole. -/
structure DividesInto (grammar : Grammar) (context : Context) (body : List Symbol)
    (sentence before after : List Nat) : Prop where
  eq_append : sentence = before ++ after
  before : grammar.Generates (context.symbols.take context.hole) before
  after : grammar.Generates (body ++ context.symbols.drop (context.hole + 1)) after

/-- The terminal is the next one in the sentence when the body is put into the hole. -/
def ComesNext (grammar : Grammar) (context : Context) (body : List Symbol) (terminal : Nat)
    (sentence : List Nat) : Prop :=
  ∃ before after, DividesInto grammar context body sentence before after ∧
    (after ++ [endOfInput]).head? = some terminal

/-- The body derives the empty string or a terminal string that begins with the terminal. -/
def LetsThrough (grammar : Grammar) (body : List Symbol) (terminal : Nat) : Prop :=
  grammar.Derives body [] ∨ ∃ rest, grammar.Generates body (terminal :: rest)

/-- The next terminal is one that the body lets through. -/
theorem ComesNext.letsThrough (next : ComesNext grammar context body terminal sentence) :
    LetsThrough grammar body terminal := by
  obtain ⟨before, after, divides, isNext⟩ := next
  obtain ⟨fromBody, rest, rfl, generates, _⟩ := divides.after.of_append
  cases fromBody with
  | nil => exact .inl generates
  | cons first others =>
      obtain rfl : first = terminal := by simpa using isNext
      exact .inr ⟨others, generates⟩

/-- A sentence that meets the terminal at the hole divides there. -/
theorem Meets.exists_dividesInto (inRange : context.hole < context.symbols.length)
    (meets : Meets grammar (context.fill body) context.hole terminal sentence) :
    ∃ before after, DividesInto grammar context body sentence before after ∧
      (Context.Suits grammar (some terminal) (body ++ context.symbols.drop (context.hole + 1)) →
        (after ++ [endOfInput]).head? = some terminal) := by
  rw [Meets, Context.take_fill inRange, Context.drop_fill inRange] at meets
  obtain ⟨before, after, same, fromBefore, fromAfter, isNext⟩ := meets
  exact ⟨before, after, ⟨same, fromBefore, fromAfter⟩, isNext⟩

/-- What comes into the hole and after it suits the terminal if the body lets it through. -/
theorem Shows.suits_of_letsThrough (shows : Shows grammar start conflict witness)
    (member : id ∈ conflict.rules) (found : grammar.rules[id]? = some rule)
    (lets : LetsThrough grammar rule.body conflict.terminal) :
    Context.Suits grammar (some conflict.terminal)
      (rule.body ++ witness.context.symbols.drop (witness.context.hole + 1)) := by
  by_cases begins : grammar.CanBegin rule.body conflict.terminal
  · rintro _ ⟨⟩
    exact .inl (Grammar.canBegin_append.mpr (.inl begins))
  · rcases lets with vanishes | ⟨rest, generates⟩
    · exact (shows.suits id member ⟨rule, found, begins⟩).append_of_derives_nil vanishes
    · exact absurd generates.canBegin begins

/-- The sentence of a rule shows the terminal exactly if the body lets it through. -/
theorem Shows.comesNext_iff (shows : Shows grammar start conflict witness)
    (member : id ∈ conflict.rules) (found : grammar.rules[id]? = some rule)
    (meets : Meets grammar (witness.context.fill rule.body) witness.context.hole conflict.terminal
      sentence) :
    ComesNext grammar witness.context rule.body conflict.terminal sentence ↔
      LetsThrough grammar rule.body conflict.terminal := by
  refine ⟨ComesNext.letsThrough, fun lets => ?_⟩
  obtain ⟨before, after, divides, isNext⟩ :=
    meets.exists_dividesInto (List.getElem?_eq_some_iff.mp shows.hole).1
  exact ⟨before, after, divides, isNext (shows.suits_of_letsThrough member found lets)⟩

/-- Where every nonterminal derives a terminal string, a rule lets through the terminals that
predict it. -/
theorem letsThrough_of_predicts {nonterminal : Nat} (bodies : grammar.BodiesDeclared)
    (productive : ∀ id < grammar.nonterminalCount, grammar.Productive id)
    (predicted : Predicts grammar nonterminal terminal id) (found : grammar.rules[id]? = some rule)
    (generates : grammar.Generates rule.body sentence) :
    LetsThrough grammar rule.body terminal := by
  obtain ⟨other, isOther, _, begins | ⟨vanishes, _⟩⟩ := predicted
  all_goals obtain rfl := Option.some.inj (found.symm.trans isOther)
  · have ofBodies := productive_of_mem_body bodies productive
    have canBegin := begins.canBegin (ofBodies rule (List.mem_of_getElem? found)) ofBodies
    exact .inr (canBegin.exists_generates generates)
  · exact .inl vanishes

end Predictive.Witness

/-! ## Examples -/

/-- `P → S t`, `S → X y`, `S → t`, `X → t U`, `X → z` and `U → U u`. A string from `X y`
begins with `t`, but since `U` derives no terminal string, no sentence of `X y` does. -/
def Grammar.uncompletable : Grammar :=
  .ofLists ["t", "y", "z", "u"] ["P", "S", "X", "U"]
    [⟨0, [.nonterminal 1, .terminal 1]⟩, ⟨1, [.nonterminal 2, .terminal 2]⟩,
      ⟨1, [.terminal 1]⟩, ⟨2, [.terminal 1, .nonterminal 3]⟩, ⟨2, [.terminal 3]⟩,
      ⟨3, [.nonterminal 3, .terminal 4]⟩]
    (by decide) (by decide) (by decide)

theorem Grammar.wellFormed_uncompletable : uncompletable.WellFormed :=
  ⟨by decide, 0, rfl, by decide⟩

/-- `S → A t`, `A → ε`, `A → B` and `B → ε`. Both rules of `A` are empty, and `t` comes
after them. -/
def Grammar.twiceEmpty : Grammar :=
  .ofLists ["t"] ["S", "A", "B"]
    [⟨0, [.nonterminal 1, .terminal 1]⟩, ⟨1, []⟩, ⟨1, [.nonterminal 2]⟩, ⟨2, []⟩]
    (by decide) (by decide) (by decide)

theorem Grammar.wellFormed_twiceEmpty : twiceEmpty.WellFormed :=
  ⟨by decide, 0, rfl, by decide⟩

namespace Predictive

open Witness

/-- For every well-formed grammar, every conflict of its predictive table that has a witness, and
every rule of the witness: the sentence of the rule divides into a part that is derived from the
context before the hole, and a part that is derived from the body of the rule with the context after
the hole behind it. It divides in such a way that the second part, followed by the end of the input,
begins with the terminal of the conflict exactly if the body of the rule derives the empty string or
a terminal string that begins with that terminal, and it always does if every nonterminal derives a
terminal string. -/
theorem predictive_witnesses_show_the_terminal (grammar : Grammar)
    (wellFormed : grammar.WellFormed) :
    ∃ analysis, Analysis.compute grammar = .ok analysis ∧
      Table.build grammar = .ok analysis.table ∧
      ∀ conflict ∈ analysis.table.conflicts, ∀ witness,
        analysis.witness conflict = .ok witness →
        witness.context.symbols[witness.context.hole]? =
          some (.nonterminal conflict.nonterminal) ∧
        witness.rules = conflict.rules ∧
        List.Forall₂ (fun id sentence => ∃ rule, grammar.rules[id]? = some rule ∧
          (∃ before after,
            DividesInto grammar witness.context rule.body sentence before after) ∧
          (ComesNext grammar witness.context rule.body conflict.terminal sentence ↔
            LetsThrough grammar rule.body conflict.terminal) ∧
          ((∀ id < grammar.nonterminalCount, grammar.Productive id) →
            ComesNext grammar witness.context rule.body conflict.terminal sentence))
          witness.rules witness.sentences := by
  obtain ⟨analysis, computed, rfl, isTable⟩ := Analysis.exists_compute_eq_ok wellFormed
  obtain ⟨start, starts, _⟩ := wellFormed.start
  obtain ⟨sentences, found, exact⟩ := Sentences.exists_compute_eq_ok wellFormed.bodies
  refine ⟨analysis, computed, Analysis.build_eq_ok computed,
    fun conflict isConflict witness given => ?_⟩
  have predicted : ∀ id ∈ conflict.rules,
      Predicts analysis.grammar conflict.nonterminal conflict.terminal id :=
    fun _ => isTable.predicts_of_mem_conflicts isConflict
  have computes : Witness.ofConflict analysis.grammar sentences conflict = .ok witness := by
    simpa [Analysis.witness, found] using given
  have shows : Shows analysis.grammar start conflict witness := by
    rcases Witness.ofConflict_eq exact wellFormed starts (Table.rules_of_mem_conflicts isConflict).2
      predicted with ⟨other, isOther, _, shows⟩ | ⟨reason, failed, _⟩
    · obtain rfl := Except.ok.inj (isOther.symm.trans computes)
      exact shows
    · cases failed.symm.trans computes
  refine ⟨shows.hole, shows.rules_eq,
    List.forall₂_iff_get.mpr ⟨shows.meets.length_eq, ?_⟩⟩
  intro place ofRule ofSentence
  obtain ⟨rule, isRule, meets⟩ := shows.meets.get ofRule ofSentence
  have member : witness.rules.get ⟨place, ofRule⟩ ∈ conflict.rules :=
    shows.rules_eq ▸ List.get_mem _ _
  obtain ⟨before, after, divides, _⟩ :=
    meets.exists_dividesInto (List.getElem?_eq_some_iff.mp shows.hole).1
  have next_iff := shows.comesNext_iff member isRule meets
  obtain ⟨_, _, _, fromBody, _⟩ := divides.after.of_append
  refine ⟨rule, isRule, ⟨before, after, divides⟩, next_iff,
    fun productive => next_iff.mpr ?_⟩
  exact letsThrough_of_predicts wellFormed.bodies productive (predicted _ member) isRule fromBody

/-- Where `A` is empty by two rules, both sentences show the terminal that comes after `A`. -/
theorem witness_of_twiceEmpty_shows_the_terminal :
    Grammar.twiceEmpty.WellFormed ∧ (∀ id < 3, Grammar.twiceEmpty.Productive id) ∧
      ∃ analysis witness, Analysis.compute Grammar.twiceEmpty = .ok analysis ∧
      analysis.table.conflicts = [⟨1, 1, .followFollow, [1, 2]⟩] ∧
      analysis.witness ⟨1, 1, .followFollow, [1, 2]⟩ = .ok witness ∧
      witness.context = ⟨[.nonterminal 1, .terminal 1], 0⟩ ∧
      witness.sentences = [[1], [1]] ∧ ComesNext Grammar.twiceEmpty witness.context [] 1 [1] ∧
      ComesNext Grammar.twiceEmpty witness.context [.nonterminal 2] 1 [1] := by
  have ofLast : Grammar.twiceEmpty.Generates [.nonterminal 2] [] :=
    @Grammar.Derives.of_rule Grammar.twiceEmpty ⟨2, []⟩ (by decide)
  have ofMiddle : Grammar.twiceEmpty.Generates [.nonterminal 1] [] :=
    @Grammar.Derives.of_rule Grammar.twiceEmpty ⟨1, []⟩ (by decide)
  have ofStart : Grammar.twiceEmpty.Generates [.nonterminal 0] [1] :=
    (@Grammar.Derives.of_rule Grammar.twiceEmpty ⟨0, [.nonterminal 1, .terminal 1]⟩
      (by decide)).trans (Grammar.Derives.append ofMiddle (.refl [.terminal 1]))
  have productive : ∀ id < 3, Grammar.twiceEmpty.Productive id := by
    intro id declared
    match id, declared with
    | 0, _ => exact ⟨[1], ofStart⟩
    | 1, _ => exact ⟨[], ofMiddle⟩
    | 2, _ => exact ⟨[], ofLast⟩
  obtain ⟨analysis, computed, _, shown⟩ :=
    predictive_witnesses_show_the_terminal Grammar.twiceEmpty Grammar.wellFormed_twiceEmpty
  have evaluates : (Analysis.compute Grammar.twiceEmpty).map (fun analysis =>
      (analysis.table.conflicts, analysis.witness ⟨1, 1, .followFollow, [1, 2]⟩)) =
      .ok ([⟨1, 1, .followFollow, [1, 2]⟩],
        .ok ⟨1, 1, ⟨[.nonterminal 1, .terminal 1], 0⟩, [1, 2], [[1], [1]]⟩) := by
    decide +kernel
  rw [computed] at evaluates
  obtain ⟨conflicts, given⟩ := Prod.mk.inj (Except.ok.inj evaluates)
  obtain ⟨_, _, each⟩ := shown ⟨1, 1, .followFollow, [1, 2]⟩ (by simp [conflicts]) _ given
  obtain ⟨⟨_, isFirst, _, _, first⟩, later⟩ := List.forall₂_cons.mp each
  obtain ⟨⟨_, isSecond, _, _, second⟩, _⟩ := List.forall₂_cons.mp later
  cases isFirst
  cases isSecond
  exact ⟨Grammar.wellFormed_twiceEmpty, productive, analysis, _, computed,
    conflicts, given, rfl, rfl,
    first productive, second productive⟩

/-- `X y` competes with `t` for the terminal `t`. Its sentence in the witness is `z y t`, which goes
on with `z` where `S` is expanded, however it is divided. -/
theorem witness_of_uncompletable_misses_the_terminal :
    Grammar.uncompletable.WellFormed ∧
      ∃ analysis conflict witness, Analysis.compute Grammar.uncompletable = .ok analysis ∧
      Table.build Grammar.uncompletable = .ok analysis.table ∧
      conflict ∈ analysis.table.conflicts ∧ analysis.witness conflict = .ok witness ∧
      conflict.terminal = 1 ∧ witness.rules[0]? = some 1 ∧
      witness.sentences[0]? = some [3, 2, 1] ∧
      ∃ rule, Grammar.uncompletable.rules[1]? = some rule ∧
        ¬ ComesNext Grammar.uncompletable witness.context rule.body conflict.terminal
          [3, 2, 1] := by
  obtain ⟨analysis, computed, _⟩ :=
    Analysis.exists_compute_eq_ok Grammar.wellFormed_uncompletable
  have evaluates : (Analysis.compute Grammar.uncompletable).map (fun analysis =>
      (analysis.table.conflicts, analysis.witness ⟨1, 1, .firstFirst, [1, 2]⟩)) =
      .ok ([⟨1, 1, .firstFirst, [1, 2]⟩],
        .ok ⟨1, 1, ⟨[.nonterminal 1, .terminal 1], 0⟩, [1, 2], [[3, 2, 1], [1, 1]]⟩) := by
    decide +kernel
  rw [computed] at evaluates
  obtain ⟨conflicts, given⟩ := Prod.mk.inj (Except.ok.inj evaluates)
  refine ⟨Grammar.wellFormed_uncompletable, analysis, _, _, computed,
    Analysis.build_eq_ok computed, conflicts ▸ List.mem_singleton_self _, given,
    rfl, rfl, rfl, _, rfl, ?_⟩
  rintro ⟨before, after, divides, isNext⟩
  -- Nothing comes before the hole, so all of the sentence comes after it.
  obtain rfl : before = [] := word_inj.mp (@Grammar.eq_of_derives_word _ [] _ divides.before)
  obtain rfl : [3, 2, 1] = after := divides.eq_append
  simp at isNext

end Predictive

end DeterministicParsing
