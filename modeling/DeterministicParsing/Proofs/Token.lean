/-
# The end of the input

The parsers take only inputs that end with the end of the input and have it nowhere else. A parser
that finds it ahead of itself has therefore read everything in front of the last token.
-/
import DeterministicParsing.ParseError
import DeterministicParsing.Proofs.FixedPoint
import DeterministicParsing.Proofs.Grammar.Derivation

namespace DeterministicParsing.Token

/-- An input is taken if it ends with the end of the input and has it nowhere else. -/
theorem checkEnd_eq_ok {tokens : List Token} (taken : checkEnd tokens = .ok ()) :
    ∃ read last, tokens = read ++ [last] ∧ last.terminal = endOfInput ∧
      endOfInput ∉ read.map Token.terminal := by
  unfold checkEnd at taken
  split at taken
  · rename_i isEnded
    obtain ⟨last, isLast, ends⟩ := (Option.any_eq_true _ _).mp isEnded
    obtain ⟨read, rfl⟩ := List.getLast?_eq_some_iff.mp isLast
    refine ⟨read, last, rfl, by simpa [isEnd] using ends, fun member => ?_⟩
    obtain ⟨token, inRead, isEndOfInput⟩ := List.mem_map.mp member
    have early : read.findIdx isEnd < read.length :=
      List.findIdx_lt_length_of_exists ⟨token, inRead, by simp [isEnd, isEndOfInput]⟩
    have trailing : (read ++ [last]).findIdx isEnd + 1 < (read ++ [last]).length := by
      rw [List.findIdx_append, if_pos early]
      simpa using early
    rw [if_pos trailing] at taken
    cases taken
  · cases taken

theorem checkEnd_append {read : List Token} {last : Token}
    (ends : last.terminal = endOfInput) (absent : endOfInput ∉ read.map Token.terminal) :
    checkEnd (read ++ [last]) = .ok () := by
  have none (token : Token) (member : token ∈ read) : isEnd token = false := by
    simp only [isEnd, beq_eq_false_iff_ne]
    exact fun same => absent (same ▸ List.mem_map_of_mem member)
  have position : (read ++ [last]).findIdx isEnd = read.length := by
    have late : read.findIdx isEnd = read.length := List.findIdx_eq_length.mpr none
    simp [List.findIdx_append, late, List.findIdx_cons, isEnd, ends]
  simp [checkEnd, position, isEnd, ends]

/-- When the end of the input is ahead, all of the input before it has been read. -/
theorem eq_of_append_cons_eq {read shifted rest : List Token} {last token : Token}
    (absent : endOfInput ∉ read.map Token.terminal) (atEnd : token.terminal = endOfInput)
    (split : read ++ [last] = shifted ++ token :: rest) : shifted = read := by
  rcases append_eq_append_cons split with ⟨others, rfl, _⟩ | ⟨others, rfl, isLast⟩
  · exact absurd (List.mem_map.mpr ⟨token, by simp, atEnd⟩) absent
  · cases others with
    | nil => rw [List.append_nil]
    | cons other others => simp at isLast

/-- A sentence that has a token after what has been read goes on with it, or ends there if the token
is the end of the input. -/
theorem exists_append_of_prefix {sentence read : List Nat} {terminal : Nat}
    (begins : read ++ [terminal] <+: sentence ++ [endOfInput]) :
    ∃ others, sentence = read ++ others ∧ (others ++ [endOfInput]).head? = some terminal := by
  obtain ⟨rest, same⟩ := begins
  rw [List.append_assoc, List.singleton_append] at same
  rcases append_eq_append_cons same.symm with ⟨others, rfl, _⟩ | ⟨others, rfl, isEnd⟩
  · exact ⟨terminal :: others, rfl, rfl⟩
  · cases others with
    | nil => exact ⟨[], by simp, by rw [List.nil_append, isEnd]; rfl⟩
    | cons => simp at isEnd

/-- Terminals that begin with that of a token can be written out as tokens from this one on, with
the end of the input after them. -/
theorem exists_append_eq_cons {terminals : List Nat} {token : Token}
    (agrees : (terminals ++ [endOfInput]).head? = some token.terminal) :
    ∃ ahead last rest, ahead ++ [last] = token :: rest ∧ last.terminal = endOfInput ∧
      terminals = ahead.map Token.terminal := by
  cases terminals with
  | nil => exact ⟨[], token, [], rfl, (Option.some.inj agrees).symm, rfl⟩
  | cons first others =>
      have isFirst : first = token.terminal := Option.some.inj agrees
      exact ⟨token :: others.map (Token.mk ""), endToken, _, rfl,
        rfl, by simp [isFirst, Function.comp_def]⟩

/-- Declared terminals can be written by their names. -/
theorem exists_mapM_ofTerminal_eq_ok {grammar : Grammar} {terminals : List Nat}
    (declared : ∀ terminal ∈ terminals, grammar.Declares (.terminal terminal)) :
    ∃ tokens, terminals.mapM (ofTerminal grammar) = .ok tokens ∧
      tokens.map Token.terminal = terminals := by
  induction terminals with
  | nil => exact ⟨[], rfl, rfl⟩
  | cons terminal rest ih =>
      obtain ⟨name, named⟩ := Grammar.exists_symbolName_eq_ok (declared terminal (by simp))
      obtain ⟨tokens, written, same⟩ := ih fun other member => declared other (by simp [member])
      have isFirst : ofTerminal grammar terminal = .ok ⟨name, terminal⟩ := by
        rw [ofTerminal, show grammar.terminalName terminal = .ok name from named]
        rfl
      exact ⟨⟨name, terminal⟩ :: tokens, by simp [isFirst, written], by simp [same]⟩

/-- A sequence of declared terminals with the end of the input nowhere but in its last place can be
written out as tokens that the parsers take. -/
theorem exists_ofTerminals_eq_ok {grammar : Grammar} {terminals : List Nat} {last : Nat}
    (declared : ∀ terminal ∈ terminals ++ [last], grammar.Declares (.terminal terminal))
    (absent : endOfInput ∉ terminals) :
    ∃ read token rest, ofTerminals grammar (terminals ++ [last]) = .ok (read ++ token :: rest) ∧
      (read ++ [token]).map Token.terminal = terminals ++ [last] ∧
      checkEnd (read ++ token :: rest) = .ok () := by
  have kept : terminals.filter (· != endOfInput) = terminals :=
    List.filter_eq_self.mpr fun terminal member =>
      bne_iff_ne.mpr fun same => absent (same ▸ member)
  by_cases atEnd : last = endOfInput
  · obtain ⟨read, written, same⟩ := exists_mapM_ofTerminal_eq_ok fun terminal member =>
      declared terminal (List.mem_append_left _ member)
    refine ⟨read, endToken, [], ?_, by simp [same, atEnd, endToken],
      checkEnd_append rfl (same ▸ absent)⟩
    simp [ofTerminals, List.filter_append, kept, atEnd, written]
  · obtain ⟨tokens, written, same⟩ := exists_mapM_ofTerminal_eq_ok declared
    obtain ⟨read, others, rfl, _, isLast⟩ := List.map_eq_append_iff.mp same
    obtain ⟨token, rfl, _⟩ := List.map_eq_singleton_iff.mp isLast
    refine ⟨read, token, [endToken], ?_, same, ?_⟩
    · simp [ofTerminals, List.filter_append, kept, atEnd, written]
    · rw [List.append_cons]
      refine checkEnd_append rfl ?_
      rw [same, List.mem_append, List.mem_singleton]
      exact not_or.mpr ⟨absent, Ne.symm atEnd⟩

/-- Words that are classified are read as declared terminals, with the end of the input after
them. -/
theorem exists_of_ofWords_eq_ok {grammar : Grammar} {position : Nat} {words : List String}
    {tokens : List Token} (classified : ofWords grammar position words = .ok tokens) :
    ∃ read, tokens = read ++ [endToken] ∧ ∀ token ∈ read,
      grammar.Declares (.terminal token.terminal) ∧ token.terminal ≠ endOfInput := by
  induction words generalizing position tokens with
  | nil =>
      cases classified
      exact ⟨[], rfl, by simp⟩
  | cons word rest ih =>
      rw [ofWords] at classified
      cases found : grammar.terminal? word with
      | none =>
          rw [found] at classified
          cases classified
      | some terminal =>
          simp only [found] at classified
          split at classified
          · cases classified
            exact ⟨[], rfl, by simp⟩
          · rename_i notEnd
            obtain ⟨others, classifiedRest, isTokens⟩ := exists_of_bind_eq_ok classified
            cases isTokens
            obtain ⟨read, rfl, each⟩ := ih classifiedRest
            have declared : grammar.Declares (.terminal terminal) :=
              Grammar.lt_of_terminal?_eq_some found
            exact ⟨⟨word, terminal⟩ :: read, rfl,
              List.forall_mem_cons.mpr ⟨⟨declared, notEnd⟩, each⟩⟩

/-- The tokens of a text are taken by the parsers, and their terminals are declared. -/
theorem of_tokenize_eq_ok {grammar : Grammar} {text : String} {tokens : List Token}
    (tokenized : tokenize grammar text = .ok tokens) :
    checkEnd tokens = .ok () ∧
    ∀ token ∈ tokens, grammar.Declares (.terminal token.terminal) := by
  obtain ⟨read, rfl, each⟩ := exists_of_ofWords_eq_ok tokenized
  constructor
  · refine checkEnd_append rfl fun member => ?_
    obtain ⟨token, inRead, atEnd⟩ := List.mem_map.mp member
    exact (each token inRead).2 atEnd
  · intro token member
    rcases List.mem_append.mp member with inRead | isEnd
    · exact (each token inRead).1
    · rw [List.mem_singleton.mp isEnd]
      exact (List.getElem?_eq_some_iff.mp grammar.end_first).1

end DeterministicParsing.Token
