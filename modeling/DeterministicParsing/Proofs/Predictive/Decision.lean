/-
# The predictive parser decides

Without conflicts, the predictive parser comes to an end on every input. It is stuck then. If it is
done, the rules applied are the only leftmost derivation of the input. Otherwise it answers with the
position at which it is stuck, and this is exact: what is in front of it begins some string that the
start derives, and no sentence goes on with the token at it.
-/
import DeterministicParsing.Proofs.Forest.Derivation
import DeterministicParsing.Proofs.Grammar.Augmentation
import DeterministicParsing.Proofs.Predictive.Completeness

namespace DeterministicParsing

/-- The position of the token to which the predictive parser objects. -/
def ParseError.objection? : ParseError → Option Nat
  | unpredicted _ _ position => some position
  | mismatch _ _ position => some position
  | trailingInput position => some position
  | _ => none

namespace Predictive

variable {grammar : Grammar} {parser : Parser} {configuration next final : Configuration}
  {tokens : List Token} {start : Nat}

namespace Parser

/-! ## Runs -/

/-- The parser comes to the same end with every bound that is large enough. -/
def Ends (parser : Parser) (tokens : List Token)
    (outcome : Except (Failure ParseError) (List Nat)) : Prop :=
  ∃ enough, ∀ bound, enough ≤ bound → parser.parse bound tokens = some outcome

/-- A move is what the next round makes. -/
theorem Moves.run_succ (moves : parser.Moves configuration next) (bound : Nat) :
    parser.run (bound + 1) configuration = parser.run bound next := by
  cases moves with
  | recognise => simp [run, step, Parser.recognise]
  | expand predicted found =>
      simp [run, step, Parser.expand, predicted, Arena.rule_eq_ok.mpr found]

/-- A run goes through all moves before it ends. -/
theorem exists_run_eq_of_moves {outcome : Except (Failure ParseError) (List Nat)}
    (moves : Relation.ReflTransGen parser.Moves configuration final)
    (ends : ∀ bound, parser.run (bound + 1) final = some outcome) :
    ∃ enough, ∀ bound, enough ≤ bound → parser.run bound configuration = some outcome := by
  induction moves using Relation.ReflTransGen.head_induction_on with
  | refl =>
      refine ⟨1, fun bound large => ?_⟩
      obtain ⟨bound, rfl⟩ := Nat.exists_eq_add_of_le' large
      exact ends bound
  | head moves _ ih =>
      obtain ⟨enough, later⟩ := ih
      refine ⟨enough + 1, fun bound large => ?_⟩
      obtain ⟨bound, rfl⟩ := Nat.exists_eq_add_of_le' (Nat.le_of_add_left_le large)
      rw [moves.run_succ]
      exact later bound (Nat.le_of_succ_le_succ large)

/-- A parser that is done hands out the rules applied. -/
theorem IsDone.run_eq (done : IsDone configuration) (bound : Nat) :
    parser.run (bound + 1) configuration = some (.ok configuration.applied.reverse) := by
  obtain ⟨noStack, token, rest, ahead, atEnd⟩ := done
  simp [run, noStack, finish, ahead, Token.isEnd, atEnd]

/-- A parser that is stuck with a token ahead, and not done, objects to that token. -/
theorem IsStuck.exists_run_eq (isTable : parser.table.IsTableOf parser.grammar)
    (stuck : parser.IsStuck configuration) {token : Token} {rest : List Token}
    (ahead : configuration.remaining = token :: rest)
    (tokenDeclared : parser.grammar.Declares (.terminal token.terminal))
    (stackDeclared : ∀ symbol ∈ configuration.stack, parser.grammar.Declares symbol)
    (notDone : ¬ IsDone configuration) :
    ∃ reason, reason.objection? = some configuration.position ∧ ∀ bound,
      parser.run (bound + 1) configuration = some (.error (.error reason)) := by
  obtain ⟨stack, position, remaining, applied⟩ := configuration
  subst ahead
  obtain ⟨found, isFound⟩ := Grammar.exists_symbolName_eq_ok tokenDeclared
  change parser.grammar.terminalName token.terminal = .ok found at isFound
  cases stack with
  | nil =>
      have goesOn : ¬ token.terminal = endOfInput :=
        fun atEnd => notDone ⟨rfl, token, rest, rfl, atEnd⟩
      exact ⟨.trailingInput position, rfl, fun bound => by
        simp [run, finish, Token.isEnd, goesOn, Failure.raise]⟩
  | cons symbol stack =>
      obtain ⟨expected, isExpected⟩ :=
        Grammar.exists_symbolName_eq_ok (stackDeclared symbol List.mem_cons_self)
      cases symbol with
      | terminal terminal =>
          change parser.grammar.terminalName terminal = .ok expected at isExpected
          have other : ¬ terminal = token.terminal := by
            rintro rfl
            exact stuck _ (.recognise stack position token rest applied)
          exact ⟨.mismatch expected found position, rfl, fun bound => by
            simp [run, step, Parser.recognise, other, isFound, isExpected, Failure.raise]⟩
      | nonterminal nonterminal =>
          change parser.grammar.nonterminalName nonterminal = .ok expected at isExpected
          have noRule : parser.table.rule? nonterminal token.terminal = none := by
            rw [Option.eq_none_iff_forall_ne_some]
            intro id inForce
            obtain ⟨rule, isRule, _⟩ := isTable.predicts_of_rule?_eq_some inForce
            exact stuck _ (.expand inForce isRule stack position rest applied)
          exact ⟨.unpredicted expected found position, rfl, fun bound => by
            simp [run, step, Parser.expand, noRule, isFound, isExpected, Failure.raise]⟩

/-- An input with its end in the right place is parsed by a run. -/
theorem parse_eq_run (starts : parser.grammar.start = .ok start)
    (declared : parser.grammar.Declares (.nonterminal start))
    (taken : Token.checkEnd tokens = .ok ()) (bound : Nat) :
    parser.parse bound tokens = parser.run bound ⟨[.nonterminal start], 0, tokens, []⟩ := by
  have inhabited : parser.grammar.nonterminalNames ≠ [] := by
    intro isEmpty
    simp [Grammar.Declares, Arena.nonterminalCount, isEmpty] at declared
  simp [parse, Parser.start, taken, starts, inhabited]

/-! ## The last configuration -/

section

variable {read : List Token} {last : Token}

/-- What is ahead of the parser always ends as the input does, since no derived string holds the end
of the input. -/
theorem exists_split_of_retraces (endFree : grammar.BodiesEndFree)
    (ends : last.terminal = endOfInput)
    (retraces : configuration.Retraces grammar start (read ++ [last])) :
    ∃ recognised ahead, read = recognised ++ ahead ∧
      configuration.remaining = ahead ++ [last] ∧
      grammar.DerivesLeftmost [.nonterminal start] configuration.applied.reverse
        (word (recognised.map Token.terminal) ++ configuration.stack) := by
  obtain ⟨recognised, split, leftmost⟩ := retraces
  rcases append_eq_append_cons split.symm with ⟨others, rfl, _⟩ | ⟨ahead, rfl, isRemaining⟩
  · have occurs : Symbol.terminal endOfInput ∈
        word ((read ++ last :: others).map Token.terminal) ++ configuration.stack := by
      simp [← ends]
    exact absurd occurs (endFree.not_mem leftmost.derives)
  · exact ⟨recognised, ahead, rfl, isRemaining, leftmost⟩

variable (isTable : parser.table.IsTableOf parser.grammar)
  (conflictFree : parser.table.isConflictFree = true) (endFree : parser.grammar.BodiesEndFree)
  (starts : parser.grammar.start = .ok start) (ends : last.terminal = endOfInput)
include isTable conflictFree endFree starts ends

/-- In the end the parser is stuck, and if a derivation of a word fits what it has seen, then it is
done, and the derivation is by the rules applied. -/
theorem exists_final (read : List Token) :
    ∃ final recognised ahead,
      Relation.ReflTransGen parser.Moves ⟨[.nonterminal start], 0, read ++ [last], []⟩ final ∧
      parser.IsStuck final ∧ read = recognised ++ ahead ∧ final.remaining = ahead ++ [last] ∧
      final.position = recognised.length ∧
      parser.grammar.DerivesLeftmost [.nonterminal start] final.applied.reverse
        (word (recognised.map Token.terminal) ++ final.stack) ∧
      ∀ rules others,
        parser.grammar.DerivesLeftmost [.nonterminal start] rules
          (word (recognised.map Token.terminal ++ others)) →
        (others ++ [endOfInput]).head? = (ahead ++ [last]).head?.map Token.terminal →
        IsDone final ∧ rules = final.applied.reverse := by
  obtain ⟨final, moves, stuck⟩ :=
    exists_isStuck isTable conflictFree ⟨[.nonterminal start], 0, read ++ [last], []⟩
  have atStart := retraces_start parser.grammar start (read ++ [last])
  have retraces := retraces_of_moves isTable moves atStart
  obtain ⟨again, split, position, fits⟩ :=
    anticipates_of_moves isTable conflictFree starts moves atStart
      (anticipates_start parser.grammar start (read ++ [last]))
  obtain ⟨recognised, ahead, rfl, isRemaining, leftmost⟩ :=
    exists_split_of_retraces endFree ends retraces
  obtain rfl : again = recognised := by
    rw [isRemaining, List.append_assoc] at split
    exact (List.append_cancel_right split).symm
  refine ⟨final, again, ahead, moves, stuck, rfl, isRemaining, position, leftmost, ?_⟩
  intro rules others derives isNext
  rw [← isRemaining] at isNext
  obtain ⟨later, rfl, goesOn⟩ := fits rules others derives isNext
  obtain ⟨done, rfl⟩ := stuck.isDone isTable conflictFree starts retraces isNext goesOn
  exact ⟨done, List.append_nil _⟩

/-- The parser ends well on a sentence, with the rules of its only leftmost derivation. -/
theorem exists_ends_ok (declared : parser.grammar.Declares (.nonterminal start))
    (absent : endOfInput ∉ read.map Token.terminal)
    (generates : parser.grammar.Generates [.nonterminal start] (read.map Token.terminal)) :
    ∃ rules, parser.Ends (read ++ [last]) (.ok rules) ∧ ∀ others,
      parser.grammar.DerivesLeftmost [.nonterminal start] others
        (word (read.map Token.terminal)) ↔ others = rules := by
  obtain ⟨final, recognised, ahead, moves, _, rfl, _, _, _, fits⟩ :=
    exists_final isTable conflictFree endFree starts ends read
  have isNext : (ahead.map Token.terminal ++ [endOfInput]).head? =
      (ahead ++ [last]).head?.map Token.terminal := by
    rw [← ends, ← List.head?_map, List.map_append, List.map_singleton]
  have taken := Token.checkEnd_append ends absent
  rw [List.map_append] at generates ⊢
  obtain ⟨rules, leftmost⟩ := generates.exists_leftmost
  obtain ⟨done, rfl⟩ := fits rules _ leftmost isNext
  refine ⟨final.applied.reverse, ?_, fun others => ⟨?_, ?_⟩⟩
  · obtain ⟨enough, runs⟩ := exists_run_eq_of_moves moves done.run_eq
    refine ⟨enough, fun bound large => ?_⟩
    rw [parse_eq_run starts declared taken]
    exact runs bound large
  · intro derives
    exact (fits others _ derives isNext).2
  · rintro rfl
    exact leftmost

/-- On anything else the parser objects to the first token with which no sentence goes on. -/
theorem exists_ends_error (bodies : parser.grammar.BodiesDeclared)
    (startDeclared : parser.grammar.Declares (.nonterminal start))
    (tokensDeclared : ∀ token ∈ read, parser.grammar.Declares (.terminal token.terminal))
    (absent : endOfInput ∉ read.map Token.terminal)
    (other : ¬ parser.grammar.Generates [.nonterminal start] (read.map Token.terminal)) :
    ∃ reason position, parser.Ends (read ++ [last]) (.error (.error reason)) ∧
      reason.objection? = some position ∧ position < (read ++ [last]).length ∧
      (∃ rest, parser.grammar.Derives [.nonterminal start]
        (word (((read ++ [last]).take position).map Token.terminal) ++ rest)) ∧
      ∀ sentence, parser.grammar.Generates [.nonterminal start] sentence →
        ¬ ((read ++ [last]).take (position + 1)).map Token.terminal <+: sentence ++
          [endOfInput] := by
  obtain ⟨final, recognised, ahead, moves, stuck, rfl, isRemaining,
    isPosition, leftmost, fits⟩ :=
    exists_final isTable conflictFree endFree starts ends read
  obtain ⟨token, rest, isNext⟩ : ∃ token rest, ahead ++ [last] = token :: rest :=
    List.exists_cons_of_ne_nil (by simp)
  have split : recognised ++ ahead ++ [last] = recognised ++ token :: rest := by
    rw [List.append_assoc, isNext]
  have notDone : ¬ IsDone final := by
    rintro ⟨noStack, first, others, isFirst, atEnd⟩
    rw [isRemaining, isNext, List.cons.injEq] at isFirst
    obtain ⟨rfl, rfl⟩ := isFirst
    rw [← Token.eq_of_append_cons_eq absent atEnd split] at other
    rw [noStack, List.append_nil] at leftmost
    exact other leftmost.derives
  have tokenDeclared : parser.grammar.Declares (.terminal token.terminal) := by
    have isRead : token ∈ ahead ++ [last] := by simp [isNext]
    rcases List.mem_append.mp isRead with inAhead | isLast
    · exact tokensDeclared token (List.mem_append_right recognised inAhead)
    · rw [List.mem_singleton.mp isLast, ends]
      exact Grammar.declares_of_mem_bodyTerminals bodies List.mem_cons_self
  have stackDeclared : ∀ symbol ∈ final.stack, parser.grammar.Declares symbol :=
    fun symbol inStack =>
    bodies.declares (List.forall_mem_singleton.mpr startDeclared) leftmost.derives
      (List.mem_append_right _ inStack)
  obtain ⟨reason, objects, runs⟩ :=
    stuck.exists_run_eq isTable (isRemaining.trans isNext) tokenDeclared stackDeclared notDone
  rw [isPosition] at objects
  refine ⟨reason, recognised.length, ?_, objects, by simp [split], ?_, ?_⟩
  · obtain ⟨enough, parses⟩ := exists_run_eq_of_moves moves runs
    refine ⟨enough, fun bound large => ?_⟩
    rw [parse_eq_run starts startDeclared (Token.checkEnd_append ends absent)]
    exact parses bound large
  · rw [split, List.take_left]
    exact ⟨final.stack, leftmost.derives⟩
  · rintro sentence generates begins
    rw [split, List.take_length_add_append, List.take_succ_cons, List.take_zero, List.map_append,
      List.map_singleton] at begins
    obtain ⟨others, rfl, agrees⟩ := Token.exists_append_of_prefix begins
    obtain ⟨rules, derives⟩ := generates.exists_leftmost
    have isHead : (ahead ++ [last]).head?.map Token.terminal = some token.terminal := by
      rw [isNext]; rfl
    exact notDone (fits rules others derives (agrees.trans isHead.symm)).1

end

end Parser

/-- For every well-formed grammar whose bodies do not hold the end of the input, if its predictive
table has no conflicts, then the parser comes to an end on every input over declared terminals. If
the input is a sentence, it ends well with the rules of the only leftmost derivation. Otherwise it
objects to a token: what is in front of the token begins a string that the start derives, and no
sentence goes on with the token, taking the end of the input for what comes after a sentence. -/
theorem conflict_free_tables_decide (grammar : Grammar) (wellFormed : grammar.WellFormed)
    (endFree : grammar.BodiesEndFree) :
    ∃ table start, Table.build grammar = .ok table ∧ grammar.start = .ok start ∧
      (table.isConflictFree = true → ∀ (read : List Token) (last : Token),
        last.terminal = endOfInput → endOfInput ∉ read.map Token.terminal →
        (∀ token ∈ read, grammar.Declares (.terminal token.terminal)) →
        (grammar.Generates [.nonterminal start] (read.map Token.terminal) →
          ∃ rules, Parser.Ends ⟨grammar, table⟩ (read ++ [last]) (.ok rules) ∧
            ∀ others, grammar.DerivesLeftmost [.nonterminal start] others
              (word (read.map Token.terminal)) ↔ others = rules) ∧
        (¬ grammar.Generates [.nonterminal start] (read.map Token.terminal) →
          ∃ reason position,
            Parser.Ends ⟨grammar, table⟩ (read ++ [last]) (.error (.error reason)) ∧
            reason.objection? = some position ∧ position < (read ++ [last]).length ∧
            (∃ rest, grammar.Derives [.nonterminal start]
              (word (((read ++ [last]).take position).map Token.terminal) ++ rest)) ∧
            ∀ sentence, grammar.Generates [.nonterminal start] sentence →
              ¬ ((read ++ [last]).take (position + 1)).map Token.terminal <+:
                sentence ++ [endOfInput])) := by
  obtain ⟨table, built, isTable⟩ := Table.exists_build_eq_ok wellFormed
  obtain ⟨start, starts, declared⟩ := wellFormed.start
  refine ⟨table, start, built, starts,
    fun conflictFree read last ends absent tokensDeclared => ?_⟩
  have ownTable : (⟨grammar, table⟩ : Parser).table.IsTableOf grammar := isTable
  exact ⟨Parser.exists_ends_ok ownTable conflictFree endFree starts ends declared absent,
    Parser.exists_ends_error ownTable conflictFree endFree starts ends wellFormed.bodies declared
      tokensDeclared absent⟩

/-- The table for brackets has no conflicts. The parser ends well on `( )`, which has one leftmost
derivation, and objects to the first token of `)`. -/
theorem conflict_free_table_decides_brackets :
    ∃ table, Table.build Grammar.brackets = .ok table ∧ table.isConflictFree = true ∧
      (∃ rules, Parser.Ends ⟨Grammar.brackets, table⟩
        [⟨"(", 1⟩, ⟨")", 2⟩, Token.endToken] (.ok rules) ∧
        ∀ others, Grammar.brackets.DerivesLeftmost [.nonterminal 0] others (word [1, 2]) ↔
          others = rules) ∧
      ∃ reason position,
        Parser.Ends ⟨Grammar.brackets, table⟩ [⟨")", 2⟩, Token.endToken]
            (.error (.error reason)) ∧
          reason.objection? = some position ∧
          ∀ sentence, Grammar.brackets.Generates [.nonterminal 0] sentence →
            ¬ ([⟨")", 2⟩, Token.endToken].take (position + 1)).map Token.terminal <+:
              sentence ++ [endOfInput] := by
  obtain ⟨table, start, built, starts, decides⟩ :=
    conflict_free_tables_decide Grammar.brackets Grammar.wellFormed_brackets (by decide)
  cases starts
  have evaluates : (Table.build Grammar.brackets).map Table.isConflictFree = .ok true := by
    decide +kernel
  rw [built] at evaluates
  have conflictFree : table.isConflictFree = true := Except.ok.inj evaluates
  have pair : Grammar.brackets.rules[0]? =
      some ⟨0, [.terminal 1, .nonterminal 0, .terminal 2, .nonterminal 0]⟩ := rfl
  have nothing : Grammar.brackets.rules[1]? = some ⟨0, []⟩ := rfl
  have generated : Grammar.brackets.DerivesLeftmost [.nonterminal 0] [0, 1, 1] (word [1, 2]) :=
    .head pair [] [] (.head nothing [1] [.terminal 2, .nonterminal 0]
      (.head nothing [1, 2] [] (.refl _)))
  have notGenerated : ¬ Grammar.brackets.Generates [.nonterminal 0] [2] := by
    intro generates
    obtain ⟨rules, leftmost⟩ := generates.exists_leftmost
    obtain ⟨id, rule, later, _, found, _, derives⟩ := leftmost.exists_first
    match id, found with
    | 0, found =>
        cases found
        obtain ⟨rest, same, _⟩ := derives.of_word_append [1]
        simp at same
    | 1, found =>
        cases found
        have isWord := (Grammar.DerivesLeftmost.eq_nil_of_word [] derives).2
        cases isWord
  obtain ⟨parses, _⟩ :=
    decides conflictFree [⟨"(", 1⟩, ⟨")", 2⟩] Token.endToken rfl (by decide) (by decide)
  obtain ⟨_, objects⟩ :=
    decides conflictFree [⟨")", 2⟩] Token.endToken rfl (by decide) (by decide)
  obtain ⟨reason, position, ends, objects, _, _, never⟩ := objects notGenerated
  exact ⟨table, built, conflictFree, parses generated.derives, reason,
    position, ends, objects, never⟩

end Predictive

end DeterministicParsing
