/-
# Predictive analyses are free of faults

A table predicts only rules of the grammar, and only by declared terminals, so its conflicts can be
written. A witness is derived from the start, so that everything in it is declared, and where there
is none, an error says why. The symbols that the parser has still to recognise are derived from the
start as well, and the tokens in front of it are declared, so that it can name what it did not
expect.
-/
import DeterministicParsing.Proofs.Printer
import DeterministicParsing.Proofs.Predictive.Soundness
import DeterministicParsing.Proofs.Predictive.Witness

namespace DeterministicParsing.Predictive

variable {grammar : Grammar} {table : Table} {conflict : Conflict} {start : Nat}

/-! ## Tables and conflicts -/

/-- Every table can be written. -/
theorem Table.returns_text (grammar : Grammar) (table : Table) : Returns (table.text grammar) := by
  refine grammar.returns_mapM_terminalName.bind fun _ _ => ?_
  refine Returns.bind (.mapM fun nonterminal member => ?_) fun _ _ => .ok _
  exact (Grammar.returns_nonterminalName (List.mem_range.mp member)).bind fun _ _ => .ok _

/-- What a conflict names is declared. -/
theorem Table.IsTableOf.declares_of_mem_conflicts (isTable : table.IsTableOf grammar)
    (bodies : grammar.BodiesDeclared) (isConflict : conflict ∈ table.conflicts) :
    grammar.Declares (.nonterminal conflict.nonterminal) ∧
      grammar.Declares (.terminal conflict.terminal) :=
  declares_of_predicts bodies (Table.rules_of_mem_conflicts isConflict).2
    fun _ member => isTable.predicts_of_mem_conflicts isConflict member

/-- The conflicts of a table can be written. -/
theorem Table.IsTableOf.returns_conflictText (isTable : table.IsTableOf grammar)
    (bodies : grammar.BodiesDeclared) (isConflict : conflict ∈ table.conflicts) :
    Returns (conflict.text grammar) := by
  obtain ⟨declared, terminalDeclared⟩ := isTable.declares_of_mem_conflicts bodies isConflict
  refine (Grammar.returns_nonterminalName declared).bind fun _ _ => ?_
  refine (Grammar.returns_terminalName terminalDeclared).bind fun _ _ => ?_
  refine Returns.bind (.mapM fun id member => ?_) fun _ _ => .ok _
  obtain ⟨rule, found, _⟩ := isTable.predicts_of_mem_conflicts isConflict member
  exact bodies.returns_ruleIdText found

/-! ## Witnesses -/

namespace Witness

variable {witness : Witness}

/-- A context of declared symbols stays one when declared symbols are put into its hole. -/
theorem declares_of_mem_fill {context : Context} {body : List Symbol}
    (inContext : ∀ symbol ∈ context.symbols, grammar.Declares symbol)
    (inBody : ∀ symbol ∈ body, grammar.Declares symbol) :
    ∀ symbol ∈ context.fill body, grammar.Declares symbol := by
  intro symbol member
  rcases List.mem_append.mp member with inFront | inBack
  · rcases List.mem_append.mp inFront with isBefore | isInside
    · exact inContext symbol (List.mem_of_mem_take isBefore)
    · exact inBody symbol isInside
  · exact inContext symbol (List.mem_of_mem_drop inBack)

/-- A witness of a conflict can be written. -/
theorem Shows.returns_text (shows : Shows grammar start conflict witness)
    (bodies : grammar.BodiesDeclared) (declared : grammar.Declares (.nonterminal start))
    (terminalDeclared : grammar.Declares (.terminal witness.terminal)) :
    Returns (witness.text grammar) := by
  have inContext : ∀ symbol ∈ witness.context.symbols, grammar.Declares symbol :=
    fun symbol member =>
    bodies.declares (by simpa using declared) shows.derives member
  refine (Grammar.returns_sentenceText inContext).bind fun _ _ => ?_
  refine (Grammar.returns_terminalName terminalDeclared).bind fun _ _ => ?_
  refine Returns.bind (.mapM fun (id, sentence) member => ?_) fun _ _ => .ok _
  obtain ⟨rule, found, generates⟩ := (List.forall₂_iff_zip.mp shows.generates).2 member
  have inForm := declares_of_mem_fill inContext (bodies rule (List.mem_of_getElem? found))
  refine (bodies.returns_ruleIdText found).bind fun _ _ => ?_
  refine (Grammar.returns_terminalsText fun terminal inSentence => ?_).bind fun _ _ => .ok _
  exact bodies.declares inForm generates (terminal_mem_word.mpr inSentence)

/-- The witness is one for the nonterminal and the terminal of the conflict. -/
theorem eq_of_ofConflict_eq_ok {sentences : Sentences}
    (given : ofConflict grammar sentences conflict = .ok witness) :
    witness.nonterminal = conflict.nonterminal ∧ witness.terminal = conflict.terminal := by
  obtain ⟨_, _, goesOn⟩ := exists_of_bind_eq_ok given
  obtain ⟨_, _, isWitness⟩ := exists_of_bind_eq_ok goesOn
  cases isWitness
  exact ⟨rfl, rfl⟩

/-- The reasons why there is no witness are errors. -/
theorem Excuses.exists_error {reason : Failure WitnessError}
    (excuses : Excuses grammar start conflict reason) : ∃ error, reason = .error error := by
  cases excuses with
  | unreachable named isolated => exact ⟨_, rfl⟩
  | noContext named terminalNamed reaches member lacks unsuited => exact ⟨_, rfl⟩
  | underivable _ blames =>
      obtain ⟨_, _, _, _, _, rfl⟩ := blames
      exact ⟨_, rfl⟩

end Witness

/-- Looking for the witness of a conflict does not fault. A witness that is found has its
nonterminal in the hole of its context, and can be written. -/
theorem Analysis.isFaultless_witness {analysis : Analysis}
    (wellFormed : analysis.grammar.WellFormed) (isTable : analysis.table.IsTableOf analysis.grammar)
    (isConflict : conflict ∈ analysis.table.conflicts) :
    IsFaultless (analysis.witness conflict) ∧
      ∀ witness, analysis.witness conflict = .ok witness →
        witness.context.symbols[witness.context.hole]? = some (.nonterminal witness.nonterminal) ∧
          Returns (witness.text analysis.grammar) := by
  have ⟨bodies, start, starts, startDeclared⟩ := wellFormed
  obtain ⟨sentences, computed, exact⟩ := Sentences.exists_compute_eq_ok bodies
  have computes : analysis.witness conflict =
      Witness.ofConflict analysis.grammar sentences conflict := by
    simp [Analysis.witness, computed]
  rw [computes]
  rcases Witness.ofConflict_eq exact wellFormed starts (Table.rules_of_mem_conflicts isConflict).2
    (fun _ member => isTable.predicts_of_mem_conflicts isConflict member) with
    ⟨witness, given, _, shows⟩ | ⟨reason, failed, excuses⟩
  · obtain ⟨sameNonterminal, sameTerminal⟩ := Witness.eq_of_ofConflict_eq_ok given
    have terminalDeclared := (isTable.declares_of_mem_conflicts bodies isConflict).2
    rw [given]
    refine ⟨.ok witness, ?_⟩
    rintro _ ⟨⟩
    refine ⟨by rw [shows.hole, sameNonterminal], ?_⟩
    exact shows.returns_text bodies startDeclared (sameTerminal ▸ terminalDeclared)
  · obtain ⟨error, rfl⟩ := excuses.exists_error
    rw [failed]
    exact ⟨.error error, by simp⟩

/-! ## The parser -/

/-- What is left of a declared input, and what has still to be recognised, is declared. -/
theorem Configuration.Retraces.declares {configuration : Configuration} {tokens : List Token}
    (bodies : grammar.BodiesDeclared) (declared : grammar.Declares (.nonterminal start))
    (tokensDeclared : ∀ token ∈ tokens, grammar.Declares (.terminal token.terminal))
    (retraces : configuration.Retraces grammar start tokens) :
    (∀ symbol ∈ configuration.stack, grammar.Declares symbol) ∧
      ∀ token ∈ configuration.remaining, grammar.Declares (.terminal token.terminal) := by
  obtain ⟨recognised, rfl, leftmost⟩ := retraces
  refine ⟨fun symbol member => ?_, fun token member => tokensDeclared token (by simp [member])⟩
  exact bodies.declares (by simpa using declared) leftmost.derives (List.mem_append_right _ member)

namespace Parser

variable {parser : Parser} {configuration : Configuration} {tokens : List Token}

/-- The parser is in front of its input. -/
theorem start_eq_ok (starts : parser.grammar.start = .ok start)
    (declared : start < parser.grammar.nonterminalCount) (taken : Token.checkEnd tokens = .ok ()) :
    parser.start tokens = .ok ⟨[.nonterminal start], 0, tokens, []⟩ := by
  have nonempty := Grammar.isEmpty_nonterminalNames_of_lt declared
  simp [Parser.start, taken, nonempty, starts]

/-- An error that names two symbols is raised if both have names. -/
theorem isFaultless_raise {α : Type} {first second : Except Fault String}
    (firstReturns : Returns first) (secondReturns : Returns second)
    (error : String → String → ParseError) :
    IsFaultless (do
      let expected ← first
      let found ← second
      Failure.raise (error expected found) : Except (Failure ParseError) α) := by
  obtain ⟨expected, rfl⟩ := firstReturns
  obtain ⟨found, rfl⟩ := secondReturns
  exact .error _

/-- A round does not fault if what is to be recognised and what is ahead is declared. -/
theorem isFaultless_step (isTable : parser.table.IsTableOf parser.grammar)
    {symbol : Symbol} {stack : List Symbol} (declared : parser.grammar.Declares symbol)
    (tokensDeclared : ∀ token ∈ configuration.remaining,
      parser.grammar.Declares (.terminal token.terminal)) :
    IsFaultless (parser.step configuration symbol stack) := by
  rw [step]
  split
  · exact .error _
  · rename_i token rest ahead
    have named := Grammar.returns_terminalName (tokensDeclared token (by simp [ahead]))
    cases symbol with
    | terminal terminal =>
        simp only [recognise]
        split
        · exact .ok _
        · exact isFaultless_raise (Grammar.returns_terminalName declared) named
            (.mismatch · · configuration.position)
    | nonterminal nonterminal =>
        simp only [expand]
        split
        · exact isFaultless_raise (Grammar.returns_nonterminalName declared) named
            (.unpredicted · · configuration.position)
        · rename_i id predicted
          obtain ⟨rule, found, _⟩ := isTable.predicts_of_rule?_eq_some predicted
          simp only [Arena.rule_eq_ok.mpr found, liftM_ok, ok_bind]
          exact .ok _

/-- A run in front of declared tokens does not fault. -/
theorem isFaultless_of_run_eq (isTable : parser.table.IsTableOf parser.grammar)
    (bodies : parser.grammar.BodiesDeclared)
    (declared : parser.grammar.Declares (.nonterminal start))
    (tokensDeclared : ∀ token ∈ tokens, parser.grammar.Declares (.terminal token.terminal))
    (retraces : configuration.Retraces parser.grammar start tokens) {bound : Nat}
    {outcome : Except (Failure ParseError) (List Nat)}
    (runs : parser.run bound configuration = some outcome) : IsFaultless outcome := by
  induction bound generalizing configuration with
  | zero => cases runs
  | succ bound ih =>
      obtain ⟨stackDeclared, aheadDeclared⟩ := retraces.declares bodies declared tokensDeclared
      rw [run] at runs
      split at runs
      · cases runs
        rw [finish]
        split
        · exact .ok _
        · exact .error _
      · rename_i symbol stack isStack
        have faultless := @isFaultless_step parser configuration isTable symbol stack
          (stackDeclared symbol (by simp [isStack])) aheadDeclared
        split at runs
        · rename_i next stepped
          exact ih ((moves_of_step_eq_ok isStack stepped).retraces isTable retraces) runs
        · rename_i reason failed
          cases runs
          rw [failed] at faultless
          intro fault same
          cases same
          exact faultless fault rfl

end Parser

/-! ## Analyses -/

/-- An analysis in which nothing is missing, and all of which can be written. -/
structure Analysis.IsComplete (analysis : Analysis) : Prop where
  /-- The table can be written. -/
  tableText : Returns (analysis.table.text analysis.grammar)
  /-- Every conflict can be written. -/
  conflictText : ∀ conflict ∈ analysis.table.conflicts, Returns (conflict.text analysis.grammar)
  /-- A witness is found, or there is an error that says why not. -/
  witness : ∀ conflict ∈ analysis.table.conflicts, IsFaultless (analysis.witness conflict)
  /-- A witness that is found has its nonterminal in the hole of its context. -/
  hole : ∀ conflict ∈ analysis.table.conflicts, ∀ witness,
    analysis.witness conflict = .ok witness → witness.context.symbols[witness.context.hole]? =
      some (.nonterminal witness.nonterminal)
  /-- It can be written. -/
  witnessText : ∀ conflict ∈ analysis.table.conflicts, ∀ witness,
    analysis.witness conflict = .ok witness → Returns (witness.text analysis.grammar)

/-- An input that is parsed without faults, and whose parses can be shown as trees. -/
structure Analysis.Handles (analysis : Analysis) (tokens : List Token) : Prop where
  /-- The parser can be put in front of the input. -/
  start : Returns (analysis.parser.start tokens)
  /-- Whatever moves it has made, the next round does not fault. -/
  step : ∀ origin configuration symbol stack, analysis.parser.start tokens = .ok origin →
    Relation.ReflTransGen analysis.parser.Moves origin configuration →
    configuration.stack = symbol :: stack →
      IsFaultless (analysis.parser.step configuration symbol stack)
  /-- Nor does a parse. -/
  parse : ∀ bound outcome, analysis.parser.parse bound tokens = some outcome →
    IsFaultless outcome
  /-- The outcome of a parse grows a tree. -/
  tree : ∀ bound rules, analysis.parser.parse bound tokens = some (.ok rules) →
    DerivationTree.IsShown analysis.grammar (DerivationTree.ofLeftParse analysis.grammar rules)

variable {analysis : Analysis}

theorem Analysis.isComplete (wellFormed : analysis.grammar.WellFormed)
    (isTable : analysis.table.IsTableOf analysis.grammar) : analysis.IsComplete where
  tableText := Table.returns_text _ _
  conflictText _ isConflict := isTable.returns_conflictText wellFormed.bodies isConflict
  witness _ isConflict := (isFaultless_witness wellFormed isTable isConflict).1
  hole _ isConflict witness given :=
    ((isFaultless_witness wellFormed isTable isConflict).2 witness given).1
  witnessText _ isConflict witness given :=
    ((isFaultless_witness wellFormed isTable isConflict).2 witness given).2

theorem Analysis.handles {tokens : List Token} (wellFormed : analysis.grammar.WellFormed)
    (isTable : analysis.table.IsTableOf analysis.grammar) (taken : Token.checkEnd tokens = .ok ())
    (declared : ∀ token ∈ tokens, analysis.grammar.Declares (.terminal token.terminal)) :
    analysis.Handles tokens := by
  obtain ⟨bodies, start, starts, startDeclared⟩ := wellFormed
  have begins : analysis.parser.start tokens = .ok ⟨[.nonterminal start], 0, tokens, []⟩ :=
    Parser.start_eq_ok starts startDeclared taken
  have atStart := Parser.retraces_start analysis.grammar start tokens
  have isDeclared : analysis.grammar.Declares (.nonterminal start) := startDeclared
  refine ⟨⟨_, begins⟩, ?_, fun bound outcome parsed => ?_, fun bound rules parsed => ?_⟩
  · intro origin configuration symbol stack isOrigin moves isStack
    obtain rfl := Except.ok.inj (begins.symm.trans isOrigin)
    have retraces := Parser.retraces_of_moves isTable moves atStart
    obtain ⟨stackDeclared, aheadDeclared⟩ := retraces.declares bodies isDeclared declared
    exact Parser.isFaultless_step isTable (stackDeclared symbol (by simp [isStack])) aheadDeclared
  · rw [Parser.parse, begins] at parsed
    exact Parser.isFaultless_of_run_eq isTable bodies isDeclared declared atStart parsed
  · obtain ⟨read, last, _, _, _, leftmost⟩ :=
      Parser.derivesLeftmost_of_parse_eq isTable starts parsed
    exact .of_derivesLeftmost bodies leftmost

end DeterministicParsing.Predictive
