/-
# Witnesses of predictive conflicts are derivable

A conflict is reported because of the First and Follow sets, and its witness is put together from a
context and from short sentences, which are found in other ways. All three are exact, so they fit
together: a witness fails only if the nonterminal cannot be reached, if a symbol of the context
derives no terminal string, or if the terminal comes after the nonterminal only where such a symbol
is in the way. In a grammar without useless symbols, none of this happens.
-/
import DeterministicParsing.Proofs.Context
import DeterministicParsing.Proofs.Predictive.Soundness

namespace DeterministicParsing.Predictive

variable {grammar : Grammar} {sentences : Sentences} {symbols : List Symbol}
  {conflict : Conflict} {table : Table} {terminal : Nat}

/-! ## Conflicts -/

theorem Table.IsTableOf.predicts_of_mem_conflicts (isTable : table.IsTableOf grammar)
    (isConflict : conflict ∈ table.conflicts) {id : Nat} (member : id ∈ conflict.rules) :
    Predicts grammar conflict.nonterminal conflict.terminal id := by
  rw [(Table.rules_of_mem_conflicts isConflict).1] at member
  exact (isTable _ _ _).mp member

/-- A terminal that predicts a rule is declared. -/
theorem Predicts.declares {nonterminal id : Nat}
    (predicts : Predicts grammar nonterminal terminal id) (bodies : grammar.BodiesDeclared) :
    grammar.Declares (.terminal terminal) := by
  obtain ⟨rule, found, rfl, ⟨rest, derives⟩ | ⟨_, follows⟩⟩ := predicts
  · exact bodies.declares (bodies rule (List.mem_of_getElem? found)) derives (.head _)
  · exact Grammar.declares_of_mem_bodyTerminals bodies follows.mem

/-- A nonterminal and a terminal with several rules are declared. -/
theorem declares_of_predicts (bodies : grammar.BodiesDeclared) (many : 2 ≤ conflict.rules.length)
    (predicted : ∀ id ∈ conflict.rules,
      Predicts grammar conflict.nonterminal conflict.terminal id) :
    grammar.Declares (.nonterminal conflict.nonterminal) ∧
      grammar.Declares (.terminal conflict.terminal) := by
  obtain ⟨id, member⟩ := List.exists_mem_of_length_pos (Nat.lt_of_lt_of_le Nat.zero_lt_two many)
  refine ⟨?_, (predicted id member).declares bodies⟩
  obtain ⟨rule, found, isHead, _⟩ := predicted id member
  rw [← isHead]
  exact grammar.head_lt rule (List.mem_of_getElem? found)

theorem productive_of_mem_body (bodies : grammar.BodiesDeclared)
    (productive : ∀ id < grammar.nonterminalCount, grammar.Productive id) :
    ∀ rule ∈ grammar.rules, ∀ id, .nonterminal id ∈ rule.body → grammar.Productive id :=
  fun rule member id inBody => productive id (bodies rule member _ inBody)

/-- In a grammar without useless symbols, a terminal that follows a nonterminal comes after it in
some context. -/
theorem exists_leads_of_follows {start nonterminal : Nat} (starts : grammar.start = .ok start)
    (bodies : grammar.BodiesDeclared)
    (useful : ∀ id < grammar.nonterminalCount, grammar.Productive id ∧ grammar.Reaches id)
    (follows : grammar.Follows nonterminal terminal) :
    ∃ chain before after, grammar.Leads nonterminal start chain before after ∧
      Context.Suits grammar (some terminal) after := by
  have bodiesProductive := productive_of_mem_body bodies fun id declared => (useful id declared).1
  rcases follows with ⟨head, left, right, derives⟩ | ⟨rfl, other, left, isStart, derives⟩
  · obtain ⟨chain, before, after, leads, _, toRight⟩ :=
      derives.exists_leads left nonterminal _ rfl
    have declared : head < grammar.nonterminalCount := by
      cases leads with
      | here => cases @Grammar.eq_of_derives_word _ [] _ toRight
      | through found _ _ => exact grammar.head_lt _ (List.mem_of_getElem? found)
    obtain ⟨upper, outerBefore, outerAfter, outer⟩ :=
      (Grammar.reaches_iff_exists_leads starts).mp (useful head declared).2
    refine ⟨_, _, _, outer.trans leads, ?_⟩
    rintro _ ⟨⟩
    refine .inl (Grammar.canBegin_append.mpr (.inl ?_))
    refine Grammar.DerivesBeginning.canBegin ⟨right, toRight⟩
      (fun id member => ?_) bodiesProductive
    obtain ⟨rule, isRule, inBody⟩ := leads.mem_after member
    exact bodiesProductive rule isRule id inBody
  · obtain rfl : start = other := Except.ok.inj (starts.symm.trans isStart)
    obtain ⟨chain, before, after, leads, _, toRight⟩ :=
      derives.exists_leads left nonterminal [] rfl
    refine ⟨chain, before, after, leads, ?_⟩
    rintro _ ⟨⟩
    exact .inr ⟨rfl, toRight⟩

namespace Witness

/-! ## Sentences -/

/-- The place that is found stands for the first symbol that is not left empty, and the sentence for
what it derives. -/
theorem exists_findBeginning_eq_ok (exact : Sentences.Exact grammar sentences)
    (declared : ∀ symbol ∈ symbols, grammar.Declares symbol) (terminal place : Nat) :
    ∃ found, findBeginning sentences terminal place symbols = .ok found ∧
      (found = none ↔ ¬ grammar.CanBegin symbols terminal) ∧
      ∀ index sentence, found = some (index, sentence) → ∃ left symbol right,
        symbols = left ++ symbol :: right ∧ index = place + left.length ∧
        grammar.Derives left [] ∧ grammar.Generates [symbol] sentence ∧
        sentence.head? = some terminal := by
  induction symbols generalizing place with
  | nil => exact ⟨none, rfl, by simp [Grammar.not_canBegin_nil], by simp⟩
  | cons symbol rest ih =>
      have isDeclared := declared symbol (by simp)
      rw [findBeginning, exact.startingWith_eq_ok isDeclared, ok_bind, Grammar.canBegin_cons,
        ← exact.exists_knownStart_iff]
      cases starts : sentences.knownStart symbol terminal with
      | some sentence =>
          refine ⟨some (place, sentence), rfl, by simp, ?_⟩
          rintro _ _ ⟨⟩
          obtain ⟨generates, begins⟩ := exact.generates_knownStart starts
          exact ⟨[], symbol, rest, rfl, rfl, .refl _, generates, begins⟩
      | none =>
          rw [exact.isNullable_eq_ok isDeclared, ok_bind]
          by_cases empty : sentences.known symbol = some []
          · obtain ⟨found, answer, none_iff, isSome⟩ :=
              ih (fun other member => declared other (by simp [member])) (place + 1)
            have vanishes := exact.known_eq_nil_iff.mp empty
            refine ⟨found, by simp [empty, answer], ?_, fun index sentence isFound => ?_⟩
            · simp [none_iff, vanishes]
            · obtain ⟨left, other, right, rfl, rfl, leftVanishes, isSentence⟩ :=
                isSome index sentence isFound
              exact ⟨symbol :: left, other, right, rfl, by simp; omega,
                vanishes.append leftVanishes, isSentence⟩
          · refine ⟨none, by simp [empty], ?_, by simp⟩
            simp [← exact.known_eq_nil_iff, empty]

/-- The sentence divides at a place of the string, and if what comes from there on can begin with
the terminal, it does. The end of the input comes after everything. -/
def Meets (grammar : Grammar) (symbols : List Symbol) (place terminal : Nat) (sentence : List Nat) :
    Prop :=
  ∃ before after, sentence = before ++ after ∧ grammar.Generates (symbols.take place) before ∧
    grammar.Generates (symbols.drop place) after ∧
    (Context.Suits grammar (some terminal) (symbols.drop place) →
      (after ++ [endOfInput]).head? = some terminal)

theorem Meets.generates {place : Nat} {sentence : List Nat}
    (meets : Meets grammar symbols place terminal sentence) :
    grammar.Generates symbols sentence := by
  obtain ⟨before, after, rfl, fromTake, fromDrop, _⟩ := meets
  have whole := Grammar.Derives.append fromTake fromDrop
  rwa [List.take_append_drop, ← word_append] at whole

/-- A sentence of the string is given that meets the terminal, unless some nonterminal of the string
derives none. -/
theorem sentenceWith_eq (exact : Sentences.Exact grammar sentences)
    (declared : ∀ symbol ∈ symbols, grammar.Declares symbol) (place terminal : Nat) :
    (∃ sentence, sentenceWith grammar sentences symbols place terminal = .ok sentence ∧
        Meets grammar symbols place terminal sentence) ∨
      ∃ reason, sentenceWith grammar sentences symbols place terminal = .error reason ∧
        grammar.Blames symbols reason := by
  have fromDeclared : ∀ symbol ∈ symbols.drop place, grammar.Declares symbol :=
    fun symbol member => declared symbol (List.mem_of_mem_drop member)
  obtain ⟨found, answer, none_iff, isSome⟩ :=
    exists_findBeginning_eq_ok exact fromDeclared terminal place
  rw [sentenceWith, answer, liftM_ok, ok_bind]
  cases found with
  | none =>
      have divided := @Sentences.requireAll_append grammar sentences (symbols.take place)
        (symbols.drop place)
      rw [List.take_append_drop] at divided
      simp only [divided]
      rcases exact.requireAll_ends declared place place [] with
        ⟨before, after, given, givenAfter, fromTake, fromDrop⟩ | ⟨reason, failed, blames⟩
      · refine .inl
          ⟨before ++ after, by rw [given, givenAfter]; rfl, before, after, rfl, fromTake,
            fromDrop, fun suits => ?_⟩
        obtain ⟨rfl, vanishes⟩ := (suits terminal rfl).resolve_left (none_iff.mp rfl)
        obtain rfl : after = [] :=
          Except.ok.inj (givenAfter.symm.trans (exact.requireAll_eq_nil fromDeclared vanishes))
        rfl
      · exact .inr ⟨reason, by simpa using failed, blames⟩
  | some beginning =>
      obtain ⟨index, sentence⟩ := beginning
      obtain ⟨left, symbol, right, divided, rfl, vanishes, generates, begins⟩ :=
        isSome index sentence rfl
      have isRight : symbols.drop (place + left.length + 1) = right := by
        rw [Nat.add_assoc, ← List.drop_drop, divided, List.drop_length_add_append]
        rfl
      rcases exact.requireAll_ends declared place (place + left.length + 1) sentence with
        ⟨before, after, given, givenAfter, fromTake, fromRight⟩ | ⟨reason, failed, blames⟩
      · refine .inl ⟨before ++ sentence ++ after, by simp only [given, givenAfter]; rfl, before,
          sentence ++ after, List.append_assoc _ _ _, fromTake, ?_, fun _ => ?_⟩
        · rw [isRight] at fromRight
          rw [divided, Grammar.Generates, word_append]
          exact vanishes.append (Grammar.Derives.append generates fromRight)
        · obtain ⟨rest, rfl⟩ := List.head?_eq_some_iff.mp begins
          rfl
      · exact .inr ⟨reason, failed, blames⟩

/-! ## The witness -/

/-- The rule cannot begin with the terminal, which then has to come after it. -/
def Lacks (grammar : Grammar) (terminal id : Nat) : Prop :=
  ∃ rule, grammar.rules[id]? = some rule ∧ ¬ grammar.CanBegin rule.body terminal

/-- The witness shows the conflict: the start derives the context, the nonterminal is in its hole,
what comes after the hole suits the rules that cannot begin with the terminal themselves, and for
each rule there is a sentence that is derived with the body of the rule in the hole and meets the
terminal there. -/
structure Shows (grammar : Grammar) (start : Nat) (conflict : Conflict)
    (witness : Witness) : Prop where
  derives : grammar.Derives [.nonterminal start] witness.context.symbols
  hole : witness.context.symbols[witness.context.hole]? = some (.nonterminal conflict.nonterminal)
  rules_eq : witness.rules = conflict.rules
  suits : ∀ id ∈ conflict.rules, Lacks grammar conflict.terminal id →
    Context.Suits grammar (some conflict.terminal)
      (witness.context.symbols.drop (witness.context.hole + 1))
  meets : List.Forall₂ (fun id sentence => ∃ rule, grammar.rules[id]? = some rule ∧
    Meets grammar (witness.context.fill rule.body) witness.context.hole conflict.terminal sentence)
    witness.rules witness.sentences

theorem Shows.generates {start : Nat} {witness : Witness}
    (shows : Shows grammar start conflict witness) :
    List.Forall₂ (fun id sentence => ∃ rule, grammar.rules[id]? = some rule ∧
      grammar.Generates (witness.context.fill rule.body) sentence)
        witness.rules witness.sentences :=
  shows.meets.imp fun _ _ ⟨rule, found, meets⟩ => ⟨rule, found, meets.generates⟩

/-- Why a conflict has no witness. -/
inductive Excuses (grammar : Grammar) (start : Nat) (conflict : Conflict) :
    Failure WitnessError → Prop where
  /-- The nonterminal cannot be reached. -/
  | unreachable {name : String} (named : grammar.nonterminalName conflict.nonterminal = .ok name)
      (isolated : ¬ grammar.Reaches conflict.nonterminal) :
      Excuses grammar start conflict (.error (.unreachable name))
  /-- Some rule cannot begin with the terminal, and in no context does the terminal come after
  it. -/
  | noContext {name terminalName : String} {id : Nat}
      (named : grammar.nonterminalName conflict.nonterminal = .ok name)
      (terminalNamed : grammar.terminalName conflict.terminal = .ok terminalName)
      (reaches : grammar.Reaches conflict.nonterminal) (member : id ∈ conflict.rules)
      (lacks : Lacks grammar conflict.terminal id)
      (unsuited : ∀ chain before after,
        grammar.Leads conflict.nonterminal start chain before after →
          ¬ Context.Suits grammar (some conflict.terminal) after) :
      Excuses grammar start conflict (.error (.noContext name terminalName))
  /-- A nonterminal derives no terminal string. -/
  | underivable {symbols : List Symbol} {reason : Failure WitnessError}
      (reaches : grammar.Reaches conflict.nonterminal) (blames : grammar.Blames symbols reason) :
      Excuses grammar start conflict reason

variable {start : Nat}

theorem exists_lacksBeginning_eq_ok {nonterminal id : Nat}
    (predicted : Predicts grammar nonterminal terminal id)
    (exact : Sentences.Exact grammar sentences) (bodies : grammar.BodiesDeclared) :
    ∃ lacks, lacksBeginning grammar sentences terminal id = .ok lacks ∧
      (lacks = true ↔ Lacks grammar terminal id) := by
  obtain ⟨rule, found, _⟩ := predicted
  have lacks_iff : Lacks grammar terminal id ↔ ¬ grammar.CanBegin rule.body terminal := by
    simp [Lacks, found]
  rw [lacksBeginning, Arena.rule_eq_ok.mpr found, ok_bind, lacks_iff]
  rcases Context.beginning_eq_ok exact (bodies rule (List.mem_of_getElem? found)) terminal with
    ⟨answer, begins⟩ | ⟨answer, blocked, _⟩ | ⟨answer, blocked, _⟩
  · exact ⟨false, by rw [answer]; rfl, by simp [begins]⟩
  · exact ⟨true, by rw [answer]; rfl, by simp [blocked]⟩
  · exact ⟨true, by rw [answer]; rfl, by simp [blocked]⟩

/-- A context of the nonterminal is found that suits the rules, or there is an excuse. -/
theorem contextFor_eq (exact : Sentences.Exact grammar sentences) (bodies : grammar.BodiesDeclared)
    (starts : grammar.start = .ok start) (many : 2 ≤ conflict.rules.length)
    (predicted : ∀ id ∈ conflict.rules,
      Predicts grammar conflict.nonterminal conflict.terminal id) :
    (∃ chain before after, grammar.Leads conflict.nonterminal start chain before after ∧
        (∀ id ∈ conflict.rules, Lacks grammar conflict.terminal id →
          Context.Suits grammar (some conflict.terminal) after) ∧
        contextFor grammar sentences conflict =
          .ok ⟨before ++ .nonterminal conflict.nonterminal :: after, before.length⟩) ∨
      ∃ reason, contextFor grammar sentences conflict = .error reason ∧
        Excuses grammar start conflict reason := by
  obtain ⟨declared, terminalDeclared⟩ := declares_of_predicts bodies many predicted
  obtain ⟨owed, answer, owed_iff⟩ := exists_anyM_eq_ok fun id member =>
    exists_lacksBeginning_eq_ok (predicted id member) exact bodies
  have unfolded : contextFor grammar sentences conflict =
      Context.find grammar sentences conflict.nonterminal
        (if owed then some conflict.terminal else none) := by
    rw [contextFor, if_neg (by omega), answer]
    rfl
  have wantedDeclared : ∀ terminal ∈ (if owed then some conflict.terminal else none),
      grammar.Declares (.terminal terminal) := by
    intro terminal isWanted
    obtain rfl : conflict.terminal = terminal := by
      cases owed <;> simp_all
    exact terminalDeclared
  rw [unfolded]
  rcases Context.find_eq exact bodies starts declared wantedDeclared with
    ⟨chain, before, after, leads, suits, found⟩ |
    ⟨name, named,
      ⟨isolated, failed⟩ | ⟨terminal, terminalName, isWanted, terminalNamed,
        reaches, unsuited, failed⟩⟩
  · refine .inl ⟨chain, before, after, leads, fun id member lacks => ?_, found⟩
    rwa [if_pos (owed_iff.mpr ⟨id, member, lacks⟩)] at suits
  · exact .inr ⟨_, failed, .unreachable named isolated⟩
  · cases owed with
    | false => cases isWanted
    | true =>
        obtain ⟨other, isRule, lacks⟩ := owed_iff.mp rfl
        cases isWanted
        exact .inr ⟨_, failed, .noContext named terminalNamed reaches isRule lacks unsuited⟩

/-- There is a witness that shows the conflict, or an excuse. -/
theorem ofConflict_eq (exact : Sentences.Exact grammar sentences) (wellFormed : grammar.WellFormed)
    (starts : grammar.start = .ok start) (many : 2 ≤ conflict.rules.length)
    (predicted : ∀ id ∈ conflict.rules,
      Predicts grammar conflict.nonterminal conflict.terminal id) :
    (∃ witness, ofConflict grammar sentences conflict = .ok witness ∧
        grammar.Reaches conflict.nonterminal ∧ Shows grammar start conflict witness) ∨
      ∃ reason, ofConflict grammar sentences conflict = .error reason ∧
        Excuses grammar start conflict reason := by
  have bodies := wellFormed.bodies
  rcases contextFor_eq exact bodies starts many predicted with
    ⟨chain, before, after, leads, suits, found⟩ | ⟨reason, failed, excuses⟩
  · have derives := leads.derives
    have reaches : grammar.Reaches conflict.nonterminal :=
      ⟨start, before, after, starts, derives⟩
    have startDeclared : ∀ symbol ∈ [Symbol.nonterminal start], grammar.Declares symbol := by
      obtain ⟨other, isStart, declared⟩ := wellFormed.start
      obtain rfl : start = other := Except.ok.inj (starts.symm.trans isStart)
      intro symbol member
      rw [List.mem_singleton.mp member]
      exact declared
    let context : Context :=
      ⟨before ++ .nonterminal conflict.nonterminal :: after, before.length⟩
    have each : ∀ id ∈ conflict.rules,
        (∃ sentence, sentenceFor grammar sentences context conflict.terminal id = .ok sentence ∧
          ∃ rule, grammar.rules[id]? = some rule ∧
            Meets grammar (context.fill rule.body) context.hole conflict.terminal sentence) ∨
        ∃ reason, sentenceFor grammar sentences context conflict.terminal id = .error reason ∧
          ∃ symbols, grammar.Blames symbols reason := by
      intro id member
      obtain ⟨rule, isRule, isHead, _⟩ := predicted id member
      have filled : context.fill rule.body = before ++ (rule.body ++ after) := by
        simp [context, Context.fill, List.drop_length_add_append]
      have expands := Grammar.Expands.replace (List.mem_of_getElem? isRule) before after
      rw [isHead, ← filled] at expands
      have declared : ∀ symbol ∈ context.fill rule.body, grammar.Declares symbol :=
        fun symbol => bodies.declares startDeclared (derives.trans (.head expands (.refl _)))
      rw [sentenceFor, Arena.rule_eq_ok.mpr isRule, liftM_ok, ok_bind]
      rcases sentenceWith_eq exact declared context.hole conflict.terminal with
        ⟨sentence, given, meets⟩ | ⟨reason, failed, blames⟩
      · exact .inl ⟨sentence, given, rule, isRule, meets⟩
      · exact .inr ⟨reason, failed, _, blames⟩
    rcases mapM_eq_ok_or_error each with ⟨shown, given, met⟩ | ⟨reason, failed, _, blames⟩
    · refine .inl ⟨⟨conflict.nonterminal, conflict.terminal, context, conflict.rules, shown⟩,
        by simp [ofConflict, found, given, context], reaches, derives, ?_, rfl, ?_, met⟩
      · simp [context]
      · simpa [context, List.drop_length_add_append] using suits
    · exact .inr ⟨reason, by simp only [ofConflict, found, ok_bind]; rw [failed]; rfl,
        .underivable reaches blames⟩
  · exact .inr ⟨reason, by simp only [ofConflict, failed]; rfl, excuses⟩

/-- Where no symbol is useless, there is no excuse. -/
theorem Excuses.false_of_useful {reason : Failure WitnessError}
    (excuses : Excuses grammar start conflict reason) (bodies : grammar.BodiesDeclared)
    (starts : grammar.start = .ok start)
    (predicted : ∀ id ∈ conflict.rules,
      Predicts grammar conflict.nonterminal conflict.terminal id)
    (useful : ∀ id < grammar.nonterminalCount, grammar.Productive id ∧ grammar.Reaches id) :
    False := by
  cases excuses with
  | unreachable named isolated =>
      exact isolated (useful _ (Grammar.lt_of_nonterminalName_eq_ok named)).2
  | @noContext _ _ id _ _ _ member lacks unsuited =>
      obtain ⟨rule, found, blocked⟩ := lacks
      obtain ⟨other, isOther, _, begins | ⟨_, follows⟩⟩ := predicted id member
      · obtain rfl := Option.some.inj (found.symm.trans isOther)
        have productive := productive_of_mem_body bodies fun id declared => (useful id declared).1
        exact blocked (begins.canBegin (productive rule (List.mem_of_getElem? found)) productive)
      · obtain ⟨chain, before, after, leads, suits⟩ :=
          exists_leads_of_follows starts bodies useful follows
        exact unsuited chain before after leads suits
  | underivable _ blames =>
      obtain ⟨id, name, _, unproductive, named, _⟩ := blames
      exact unproductive (useful id (Grammar.lt_of_nonterminalName_eq_ok named)).1

end Witness

/-- For every well-formed grammar and every conflict of its predictive table: the nonterminal is
reported as unreachable exactly if nothing that the start derives contains it. The only other
failures are that the terminal never comes after the nonterminal, and that a nonterminal, which is
named, derives no terminal string; if all nonterminals can be reached and derive terminal strings,
there is a witness. A witness has a context that the start derives, with the nonterminal at its
hole, the rules of the conflict in order, and for each of them a terminal string that is derived
from the context with the body of the rule in the hole. -/
theorem predictive_conflicts_have_derivable_witnesses (grammar : Grammar)
    (wellFormed : grammar.WellFormed) :
    ∃ analysis start, Analysis.compute grammar = .ok analysis ∧
      Table.build grammar = .ok analysis.table ∧ grammar.start = .ok start ∧
      ∀ conflict ∈ analysis.table.conflicts, ∃ name terminalName,
        grammar.nonterminalName conflict.nonterminal = .ok name ∧
        grammar.terminalName conflict.terminal = .ok terminalName ∧
        (analysis.witness conflict = .error (.error (.unreachable name)) ↔
          ¬ grammar.Reaches conflict.nonterminal) ∧
        (∀ reason, analysis.witness conflict = .error reason →
          reason = .error (.unreachable name) ∨ reason = .error (.noContext name terminalName) ∨
          ∃ id other, ¬ grammar.Productive id ∧ grammar.nonterminalName id = .ok other ∧
            reason = .error (.underivable other)) ∧
        ((∀ id < grammar.nonterminalCount, grammar.Productive id ∧ grammar.Reaches id) →
          ∃ witness, analysis.witness conflict = .ok witness) ∧
        ∀ witness, analysis.witness conflict = .ok witness →
          grammar.Derives [.nonterminal start] witness.context.symbols ∧
          witness.context.symbols[witness.context.hole]? =
            some (.nonterminal conflict.nonterminal) ∧
          witness.rules = conflict.rules ∧
          List.Forall₂ (fun id sentence => ∃ rule, grammar.rules[id]? = some rule ∧
            grammar.Generates (witness.context.fill rule.body) sentence)
            witness.rules witness.sentences := by
  obtain ⟨analysis, computed, rfl, isTable⟩ := Analysis.exists_compute_eq_ok wellFormed
  obtain ⟨start, starts, _⟩ := wellFormed.start
  obtain ⟨sentences, found, exact⟩ := Sentences.exists_compute_eq_ok wellFormed.bodies
  refine ⟨analysis, start, computed, Analysis.build_eq_ok computed, starts,
    fun conflict isConflict => ?_⟩
  obtain ⟨_, many⟩ := Table.rules_of_mem_conflicts isConflict
  have predicted : ∀ id ∈ conflict.rules,
      Predicts analysis.grammar conflict.nonterminal conflict.terminal id :=
    fun _ => isTable.predicts_of_mem_conflicts isConflict
  obtain ⟨declared, terminalDeclared⟩ := declares_of_predicts wellFormed.bodies many predicted
  obtain ⟨name, named⟩ := Grammar.exists_symbolName_eq_ok declared
  obtain ⟨terminalName, terminalNamed⟩ := Grammar.exists_symbolName_eq_ok terminalDeclared
  change analysis.grammar.nonterminalName conflict.nonterminal = .ok name at named
  change analysis.grammar.terminalName conflict.terminal = .ok terminalName at terminalNamed
  refine ⟨name, terminalName, named, terminalNamed, ?_⟩
  have computes : analysis.witness conflict =
      Witness.ofConflict analysis.grammar sentences conflict := by simp [Analysis.witness, found]
  rw [computes]
  rcases Witness.ofConflict_eq exact wellFormed starts many predicted with
    ⟨witness, given, reaches, shows⟩ | ⟨reason, failed, excuses⟩
  · rw [given]
    refine ⟨by simp [reaches], by simp, fun _ => ⟨witness, rfl⟩, ?_⟩
    rintro _ ⟨⟩
    exact ⟨shows.derives, shows.hole, shows.rules_eq, shows.generates⟩
  · rw [failed]
    refine ⟨?_, ?_, fun useful => ?_, by simp⟩
    · cases excuses with
      | unreachable otherNamed isolated =>
          obtain rfl := Except.ok.inj (named.symm.trans otherNamed)
          exact iff_of_true rfl isolated
      | noContext _ _ reaches => exact iff_of_false (by simp) (not_not_intro reaches)
      | underivable reaches blames =>
          obtain ⟨_, _, _, _, _, rfl⟩ := blames
          exact iff_of_false (by simp) (not_not_intro reaches)
    · rintro _ ⟨⟩
      cases excuses with
      | unreachable otherNamed =>
          obtain rfl := Except.ok.inj (named.symm.trans otherNamed)
          exact .inl rfl
      | noContext otherNamed otherTerminalNamed =>
          obtain rfl := Except.ok.inj (named.symm.trans otherNamed)
          obtain rfl := Except.ok.inj (terminalNamed.symm.trans otherTerminalNamed)
          exact .inr (.inl rfl)
      | underivable _ blames =>
          obtain ⟨id, other, _, unproductive, isOther, rfl⟩ := blames
          exact .inr (.inr ⟨id, other, unproductive, isOther, rfl⟩)
    · exact (excuses.false_of_useful wellFormed.bodies starts predicted useful).elim

/-- In lists of `x`, two rules begin with `x`, and the witness shows both of them. -/
theorem conflict_of_unfactored_has_derivable_witness :
    ∃ analysis witness, Analysis.compute Grammar.unfactored = .ok analysis ∧
      analysis.table.conflicts = [⟨0, 1, .firstFirst, [0, 1]⟩] ∧
      analysis.witness ⟨0, 1, .firstFirst, [0, 1]⟩ = .ok witness ∧
      witness.context = ⟨[.nonterminal 0], 0⟩ ∧ witness.sentences = [[1], [1]] ∧
      Grammar.unfactored.Generates [.terminal 1, .nonterminal 0] [1] := by
  obtain ⟨analysis, start, computed, _, _, shown⟩ :=
    predictive_conflicts_have_derivable_witnesses Grammar.unfactored Grammar.wellFormed_unfactored
  have evaluates : (Analysis.compute Grammar.unfactored).map (fun analysis =>
      (analysis.table.conflicts, analysis.witness ⟨0, 1, .firstFirst, [0, 1]⟩)) =
      .ok ([⟨0, 1, .firstFirst, [0, 1]⟩],
        .ok ⟨0, 1, ⟨[.nonterminal 0], 0⟩, [0, 1], [[1], [1]]⟩) := by
    decide +kernel
  rw [computed] at evaluates
  obtain ⟨conflicts, given⟩ := Prod.mk.inj (Except.ok.inj evaluates)
  obtain ⟨_, _, _, _, _, _, _, derivable⟩ :=
    shown ⟨0, 1, .firstFirst, [0, 1]⟩ (by simp [conflicts])
  obtain ⟨_, _, _, generated⟩ := derivable _ given
  obtain ⟨⟨rule, isRule, generates⟩, _⟩ := List.forall₂_cons.mp generated
  cases isRule
  exact ⟨analysis, _, computed, conflicts, given, rfl, rfl, generates⟩

end DeterministicParsing.Predictive
