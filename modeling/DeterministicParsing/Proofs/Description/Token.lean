/-
# Texts are tiled by their tokens

What a text consists of is stated here by relations between stretches of characters and tokens: gaps
made of blanks and comments, and between them names, quoted names and punctuation. Every text can be
cut up in this way, and the scanner finds what it is cut into, so there is only one way to do it.
Since the tiles are known, so is where the tokens stand, and that they are found again when only
they are written down, with blanks between them.
-/
import DeterministicParsing.Description.Token
import Mathlib.Data.List.Forall2
import Mathlib.Data.String.Basic

namespace DeterministicParsing

namespace Description

/-! ## What a text consists of -/

/-- A comment begins here. -/
def BeginsComment (chars : List Char) : Prop := ['/', '/'] <+: chars ∨ ['/', '*'] <+: chars

/-- Blanks and comments. A comment lasts to the end of the line or to its first closing mark,
depending on how it begins. -/
inductive IsGap : List Char → Prop where
  | nil : IsGap []
  | blank {char : Char} {rest : List Char}
      (isBlank : Text.isBlank char = true) (isGap : IsGap rest) :
      IsGap (char :: rest)
  | line {comment rest : List Char} (isLine : '\n' ∉ comment) (isGap : IsGap rest) :
      IsGap ('/' :: '/' :: (comment ++ '\n' :: rest))
  | block {comment rest : List Char} (isBlock : ¬ ['*', '/'] <:+: comment) (isGap : IsGap rest) :
      IsGap ('/' :: '*' :: (comment ++ '*' :: '/' :: rest))

/-- Blanks and comments at the end of a text, where the last comment need not be closed. -/
inductive IsLastGap : List Char → Prop where
  | closed {gap : List Char} (isGap : IsGap gap) : IsLastGap gap
  | line {gap comment : List Char} (isGap : IsGap gap) (isLine : '\n' ∉ comment) :
      IsLastGap (gap ++ '/' :: '/' :: comment)
  | block {gap comment : List Char} (isGap : IsGap gap) (isBlock : ¬ ['*', '/'] <:+: comment) :
      IsLastGap (gap ++ '/' :: '*' :: comment)

/-- A name as it is written between quotes. Quotes and backslashes have a backslash in front of
them, and other characters may have one. -/
inductive Spells : List Char → List Char → Prop where
  | nil : Spells [] []
  | plain {char : Char} {written name : List Char} (noQuote : char ≠ '\x27')
      (noBackslash : char ≠ '\x5c') (spells : Spells written name) :
      Spells (char :: written) (char :: name)
  | escaped {char : Char} {written name : List Char} (spells : Spells written name) :
      Spells ('\x5c' :: char :: written) (char :: name)

/-- What follows an opening quote that is never closed. -/
inductive IsUnclosed : List Char → Prop where
  | name {written name : List Char} (spells : Spells written name) : IsUnclosed written
  | escape {written name : List Char} (spells : Spells written name) :
      IsUnclosed (written ++ ['\x5c'])

/-- How a token is written in front of the rest of a text. A word is as long as it can be. -/
inductive IsWritten : List Char → List Char → Token → Prop where
  | colon {rest : List Char} : IsWritten [':'] rest .colon
  | semicolon {rest : List Char} : IsWritten [';'] rest .semicolon
  | bar {rest : List Char} : IsWritten ['|'] rest .bar
  | quoted {written name rest : List Char} (spells : Spells written name) :
      IsWritten ('\x27' :: (written ++ ['\x27'])) rest (.name (String.ofList name))
  | word {first : Char} {others rest : List Char} (isName : ∀ char ∈ first :: others,
      isNameChar char = true) (noQuote : first ≠ '\x27') (noComment :
        ¬ BeginsComment (first :: others))
      (isLongest : ∀ char ∈ rest.head?, isNameChar char = false) :
      IsWritten (first :: others) rest (.ofWord (String.ofList (first :: others)))

/-- The text that begins at the offset consists of the tokens, with gaps in front of them and behind
the last one, or else of tokens and gaps and a quote that is never closed. -/
inductive Tiles : Nat → List Char → Scan → Prop where
  | done {offset : Nat} {gap : List Char} (isLastGap : IsLastGap gap) :
      Tiles offset gap ⟨[], none⟩
  | openQuote {offset : Nat} {gap rest : List Char} (isGap : IsGap gap)
      (isUnclosed : IsUnclosed rest) :
      Tiles offset (gap ++ '\x27' :: rest) ⟨[], some (offset + byteLength gap)⟩
  | token {offset start stop : Nat} {gap written rest : List Char} {token : Token} {others : Scan}
      (isGap : IsGap gap) (isWritten : IsWritten written rest token)
      (isStart : start = offset + byteLength gap) (isStop : stop = start + byteLength written)
      (tiles : Tiles stop rest others) :
      Tiles offset (gap ++ written ++ rest)
        ⟨⟨start, stop, token⟩ :: others.lexemes, others.openQuote⟩

variable {chars comment gap other written rest name : List Char} {char first : Char} {token : Token}
  {offset bound : Nat} {result : Scan}

/-! ## Gaps -/

theorem IsGap.append (isGap : IsGap gap) (isOther : IsGap other) : IsGap (gap ++ other) := by
  induction isGap with
  | nil => exact isOther
  | blank isBlank _ ih => exact .blank isBlank ih
  | line isLine _ ih => simpa using IsGap.line isLine ih
  | block isBlock _ ih => simpa using IsGap.block isBlock ih

theorem IsGap.isLastGap (isGap : IsGap gap) (isLastGap : IsLastGap other) :
    IsLastGap (gap ++ other) := by
  cases isLastGap with
  | closed isOther => exact .closed (isGap.append isOther)
  | line isOther isLine => simpa using IsLastGap.line (isGap.append isOther) isLine
  | block isOther isBlock => simpa using IsLastGap.block (isGap.append isOther) isBlock

/-- The first closing mark of a comment. -/
theorem exists_closing (closed : ['*', '/'] <:+: chars) : ∃ comment rest,
    chars = comment ++ '*' :: '/' :: rest ∧ ¬ ['*', '/'] <:+: comment := by
  induction chars with
  | nil => simp at closed
  | cons char others ih =>
      by_cases here : ['*', '/'] <+: char :: others
      · obtain ⟨rest, split⟩ := here
        exact ⟨[], rest, by simpa using split.symm, by simp⟩
      · obtain ⟨comment, rest, rfl, isBlock⟩ :=
          ih ((List.infix_cons_iff.mp closed).resolve_left here)
        refine ⟨char :: comment, rest, rfl, fun closedBefore => ?_⟩
        rcases List.infix_cons_iff.mp closedBefore with earlier | earlier
        · exact here (earlier.trans ⟨'*' :: '/' :: rest, rfl⟩)
        · exact isBlock earlier

/-- A text is a gap, or a gap and the beginning of something else. -/
def IsDivided (chars : List Char) : Prop :=
  IsLastGap chars ∨ ∃ gap first rest, chars = gap ++ first :: rest ∧ IsGap gap ∧
    Text.isBlank first = false ∧ ¬ BeginsComment (first :: rest)

theorem IsDivided.append (isGap : IsGap gap) (isDivided : IsDivided rest) :
    IsDivided (gap ++ rest) := by
  rcases isDivided with isLastGap | ⟨others, first, rest, rfl, isOthers, isStart⟩
  · exact .inl (isGap.isLastGap isLastGap)
  · exact .inr ⟨gap ++ others, first, rest, by simp, isGap.append isOthers, isStart⟩

/-- A comment that is closed is followed by a shorter text, and one that is not is the end of the
gap. -/
theorem isDivided (chars : List Char) : IsDivided chars := by
  induction length : chars.length using Nat.strongRecOn generalizing chars with
  | ind length ih =>
      subst length
      by_cases isLine : ['/', '/'] <+: chars
      · obtain ⟨others, rfl⟩ := isLine
        by_cases ends : '\n' ∈ others
        · obtain ⟨comment, rest, rfl, isLine⟩ := List.eq_append_cons_of_mem ends
          simpa using (ih _ (by simp; omega) rest rfl).append (.line isLine .nil)
        · exact .inl (.line .nil ends)
      by_cases isBlock : ['/', '*'] <+: chars
      · obtain ⟨others, rfl⟩ := isBlock
        by_cases ends : ['*', '/'] <:+: others
        · obtain ⟨comment, rest, rfl, isBlock⟩ := exists_closing ends
          simpa using (ih _ (by simp; omega) rest rfl).append (.block isBlock .nil)
        · exact .inl (.block .nil ends)
      cases chars with
      | nil => exact .inl (.closed .nil)
      | cons first rest =>
          by_cases isBlank : Text.isBlank first = true
          · exact (ih _ (by simp) rest rfl).append (.blank isBlank .nil)
          · have noComment : ¬ BeginsComment (first :: rest) :=
              fun begins => begins.elim isLine isBlock
            exact .inr ⟨[], first, rest, rfl, .nil, by simpa using isBlank, noComment⟩

@[simp]
theorem consumed_consumed (first second : List Char) (split : List Char × List Char) :
    consumed first (consumed second split) = consumed (first ++ second) split := by
  simp [consumed]

@[simp]
theorem splitGap_nil (gap : Gap) : splitGap gap [] = ([], []) := by cases gap <;> rfl

@[simp]
theorem splitGap_openLine (rest : List Char) :
    splitGap .blank ('/' :: '/' :: rest) = consumed ['/', '/'] (splitGap .line rest) := rfl

@[simp]
theorem splitGap_closeLine (rest : List Char) :
    splitGap .line ('\n' :: rest) = consumed ['\n'] (splitGap .blank rest) := rfl

@[simp]
theorem splitGap_openBlock (rest : List Char) :
    splitGap .blank ('/' :: '*' :: rest) = consumed ['/', '*'] (splitGap .block rest) := rfl

@[simp]
theorem splitGap_closeBlock (rest : List Char) :
    splitGap .block ('*' :: '/' :: rest) = consumed ['*', '/'] (splitGap .blank rest) := rfl

theorem splitGap_line_cons (noNewline : char ≠ '\n') :
    splitGap .line (char :: rest) = consumed [char] (splitGap .line rest) := by
  rw [splitGap.eq_def]
  split <;> simp_all

/-- One character of a comment is skipped, unless it begins the closing mark. -/
theorem splitGap_block_cons (isBlock : ¬ ['*', '/'] <+: char :: rest) :
    splitGap .block (char :: rest) = consumed [char] (splitGap .block rest) := by
  rw [splitGap.eq_def]
  split <;> simp_all

/-- A character that does not begin a comment is skipped if it is a blank, and else nothing is. -/
theorem splitGap_blank_cons (noComment : ¬ BeginsComment (char :: rest)) :
    splitGap .blank (char :: rest) =
      if Text.isBlank char then consumed [char] (splitGap .blank rest) else ([], char :: rest) := by
  rw [splitGap.eq_def]
  split <;> simp_all [BeginsComment]

/-- A line without its end is skipped. -/
theorem splitGap_line (isLine : '\n' ∉ comment) (rest : List Char) :
    splitGap .line (comment ++ rest) = consumed comment (splitGap .line rest) := by
  induction comment with
  | nil => simp [consumed]
  | cons char others ih =>
      obtain ⟨differs, isLine⟩ := List.ne_and_not_mem_of_not_mem_cons isLine
      simp [splitGap_line_cons differs.symm, ih isLine]

/-- A stretch without a closing mark is skipped, unless its last star is the beginning of one. -/
theorem splitGap_block (isBlock : ¬ ['*', '/'] <:+: comment) (rest : List Char)
    (isEnd : rest.head? ≠ some '/') :
    splitGap .block (comment ++ rest) = consumed comment (splitGap .block rest) := by
  induction comment with
  | nil => simp [consumed]
  | cons char others ih =>
      rw [List.infix_cons_iff, not_or] at isBlock
      have noMark : ¬ ['*', '/'] <+: char :: (others ++ rest) := by
        cases others with
        | nil =>
            rintro ⟨after, split⟩
            obtain ⟨rfl, rfl⟩ : '*' = char ∧ '/' :: after = rest := by simpa using split
            exact isEnd rfl
        | cons next => simpa using isBlock.1
      simp [splitGap_block_cons noMark, ih isBlock.2]

/-- A gap is split off, and then what follows it. -/
theorem splitGap_of_isGap (isGap : IsGap gap) (rest : List Char) :
    splitGap .blank (gap ++ rest) = consumed gap (splitGap .blank rest) := by
  induction isGap with
  | nil => simp [consumed]
  | @blank char others isBlank _ ih =>
      have noComment : ¬ BeginsComment (char :: (others ++ rest)) := by
        rintro (isLine | isBlock)
        · obtain rfl : '/' = char := (List.cons_prefix_cons.mp isLine).1
          exact absurd isBlank (by decide)
        · obtain rfl : '/' = char := (List.cons_prefix_cons.mp isBlock).1
          exact absurd isBlank (by decide)
      rw [List.cons_append, splitGap_blank_cons noComment, if_pos isBlank, ih]
      simp
  | line isLine _ ih => simp [splitGap_line isLine, ih]
  | @block comment others isBlock _ ih =>
      have comments := splitGap_block isBlock ('*' :: '/' :: (others ++ rest)) (by simp)
      simp [comments, ih]

/-- A gap is split off as a whole if something else begins after it. -/
theorem splitGap_append (isGap : IsGap gap) (notBlank : Text.isBlank first = false)
    (noComment : ¬ BeginsComment (first :: rest)) :
    splitGap .blank (gap ++ first :: rest) = (gap, first :: rest) := by
  rw [splitGap_of_isGap isGap, splitGap_blank_cons noComment, notBlank]
  simp [consumed]

theorem splitGap_of_isLastGap (isLastGap : IsLastGap gap) : splitGap .blank gap = (gap, []) := by
  cases isLastGap with
  | closed isGap =>
      have split := splitGap_of_isGap isGap []
      simpa [consumed] using split
  | line isGap isLine =>
      have comments := splitGap_line isLine []
      rw [List.append_nil] at comments
      simp [splitGap_of_isGap isGap, comments, consumed]
  | block isGap isBlock =>
      have comments := splitGap_block isBlock [] (by simp)
      rw [List.append_nil] at comments
      simp [splitGap_of_isGap isGap, comments, consumed]

/-! ## Tokens -/

/-- What spells a name is read before anything else. -/
theorem splitQuoted_append (spells : Spells written name) (rest : List Char) :
    splitQuoted (written ++ rest) = (splitQuoted rest).map fun (more, writtenMore, after) =>
      (name ++ more, written ++ writtenMore, after) := by
  induction spells with
  | nil => simp
  | plain noQuote noBackslash _ ih => simp [splitQuoted, noBackslash, ih, Function.comp_def]
  | escaped _ ih => simp [splitQuoted, ih, Function.comp_def]

theorem splitQuoted_of_spells (spells : Spells written name) (rest : List Char) :
    splitQuoted (written ++ '\x27' :: rest) = some (name, written ++ ['\x27'], rest) := by
  simp [splitQuoted_append spells, splitQuoted]

theorem splitQuoted_of_isUnclosed (isUnclosed : IsUnclosed rest) : splitQuoted rest = none := by
  cases isUnclosed with
  | name spells => simpa [splitQuoted] using splitQuoted_append spells []
  | escape spells => simp [splitQuoted_append spells, splitQuoted]

/-- Behind an opening quote a name is spelled, whether or not it ends with a closing quote. -/
theorem isUnclosed_or_spells (chars : List Char) : IsUnclosed chars ∨
    ∃ written name rest, chars = written ++ '\x27' :: rest ∧ Spells written name := by
  fun_induction splitQuoted chars with
  | case1 => exact .inl (.name .nil)
  | case2 rest => exact .inr ⟨[], [], rest, rfl, .nil⟩
  | case3 => exact .inl (.escape .nil)
  | case4 char rest ih =>
      rcases ih with isUnclosed | ⟨written, name, rest, rfl, spells⟩
      · cases isUnclosed with
        | name spells => exact .inl (.name spells.escaped)
        | escape spells => exact .inl (.escape spells.escaped)
      · exact .inr ⟨'\x5c' :: char :: written, char :: name, rest, rfl, spells.escaped⟩
  | case5 char rest noQuote noLast noEscape ih =>
      have noBackslash : char ≠ '\x5c' := by
        intro isBackslash
        cases rest with
        | nil => exact noLast isBackslash rfl
        | cons next others => exact noEscape next others isBackslash rfl
      rcases ih with isUnclosed | ⟨written, name, others, rfl, spells⟩
      · cases isUnclosed with
        | name spells => exact .inl (.name (spells.plain noQuote noBackslash))
        | escape spells => exact .inl (.escape (spells.plain noQuote noBackslash))
      · exact .inr ⟨char :: written, char :: name, others, rfl,
          spells.plain noQuote noBackslash⟩

/-- A word is not a comment, whatever follows it. -/
theorem not_beginsComment_append (noComment : ¬ BeginsComment (first :: other))
    (isLongest : ∀ char ∈ rest.head?, isNameChar char = false) :
    ¬ BeginsComment (first :: (other ++ rest)) := by
  cases other with
  | cons next others => simpa [BeginsComment] using noComment
  | nil =>
      cases rest with
      | nil => simp [BeginsComment]
      | cons next others =>
          have notName := isLongest next rfl
          rintro (isLine | isBlock)
          · obtain rfl : '/' = next := by simpa using (List.cons_prefix_cons.mp isLine).2
            exact absurd notName (by decide)
          · obtain rfl : '*' = next := by simpa using (List.cons_prefix_cons.mp isBlock).2
            exact absurd notName (by decide)

/-- A token that is written in front of a text is not a part of a gap, and is what is split off. -/
theorem exists_splitToken (isWritten : IsWritten written rest token) : ∃ first others,
    written = first :: others ∧ Text.isBlank first = false ∧
      ¬ BeginsComment (first :: (others ++ rest)) ∧
      splitToken first (others ++ rest) = some (token, written, rest) := by
  cases isWritten with
  | colon => exact ⟨':', [], rfl, by decide, by simp [BeginsComment], by simp [splitToken]⟩
  | semicolon => exact ⟨';', [], rfl, by decide, by simp [BeginsComment], by simp [splitToken]⟩
  | bar => exact ⟨'|', [], rfl, by decide, by simp [BeginsComment], by simp [splitToken]⟩
  | quoted spells =>
      refine ⟨'\x27', _, rfl, by decide, by simp [BeginsComment], ?_⟩
      simp [splitToken, splitQuoted_of_spells spells]
  | @word first others _ isName noQuote noComment isLongest =>
      obtain ⟨isFirst, areNames⟩ := List.forall_mem_cons.mp isName
      obtain ⟨notBlank, noPunctuation⟩ : Text.isBlank first = false ∧
          isPunctuation first = false := by
        simpa [isNameChar] using isFirst
      have isWord : (others ++ rest).takeWhile isNameChar = others ∧
          (others ++ rest).dropWhile isNameChar = rest := by
        rw [List.takeWhile_append_of_pos areNames, List.dropWhile_append_of_pos areNames]
        cases rest with
        | nil => simp
        | cons next after => simp [isLongest next rfl]
      refine ⟨first, others, rfl, notBlank, not_beginsComment_append noComment isLongest, ?_⟩
      obtain ⟨⟨noColon, noSemicolon⟩, noBar⟩ : (first ≠ ':' ∧ first ≠ ';') ∧
          first ≠ '|' := by
        simpa [isPunctuation] using noPunctuation
      simp [splitToken, noColon, noSemicolon, noBar, noQuote, isWord]

/-- A text that does not begin with a gap begins with a token, unless it begins with a quote that is
never closed. -/
theorem isUnclosed_or_isWritten (notBlank : Text.isBlank first = false)
    (noComment : ¬ BeginsComment (first :: rest)) : first = '\x27' ∧ IsUnclosed rest ∨
      ∃ written others token, first :: rest = written ++ others ∧
        IsWritten written others token := by
  by_cases isPunctuated : isPunctuation first = true
  · refine .inr ?_
    rw [isPunctuation, Bool.or_eq_true, Bool.or_eq_true, beq_iff_eq, beq_iff_eq,
      beq_iff_eq] at isPunctuated
    rcases isPunctuated with (rfl | rfl) | rfl
    · exact ⟨[':'], rest, _, rfl, .colon⟩
    · exact ⟨[';'], rest, _, rfl, .semicolon⟩
    · exact ⟨['|'], rest, _, rfl, .bar⟩
  by_cases isQuote : first = '\x27'
  · subst isQuote
    rcases isUnclosed_or_spells rest with isUnclosed | ⟨written, name, others, rfl, spells⟩
    · exact .inl ⟨rfl, isUnclosed⟩
    · exact .inr ⟨_, others, _, by simp, .quoted spells⟩
  · have isName : isNameChar first = true := by simp [isNameChar, notBlank, isPunctuated]
    have split : rest = rest.takeWhile isNameChar ++ rest.dropWhile isNameChar := by simp
    refine .inr ⟨_, rest.dropWhile isNameChar, _, congrArg (first :: ·) split,
      .word ?_ isQuote ?_ ?_⟩
    · exact List.forall_mem_cons.mpr ⟨isName, List.all_eq_true.mp List.all_takeWhile⟩
    · rw [split] at noComment
      exact fun begins => noComment (begins.imp (·.trans ⟨_, rfl⟩) (·.trans ⟨_, rfl⟩))
    · intro char isNext
      have notName := List.head?_dropWhile_not isNameChar rest
      rwa [isNext] at notName

/-! ## Tilings -/

theorem byteLength_eq_utf8Len (chars : List Char) : byteLength chars = String.utf8Len chars := by
  have fromAny (length : Nat) :
      chars.foldl (fun length char => length + char.utf8Size) length =
        length + String.utf8Len chars := by
    induction chars generalizing length with
    | nil => rfl
    | cons char others ih =>
        rw [List.foldl_cons, ih, String.utf8Len_cons]
        omega
  rw [byteLength, fromAny, Nat.zero_add]

/-- Every text can be cut up into tokens. -/
theorem exists_tiles (offset : Nat) (chars : List Char) :
    ∃ result, Tiles offset chars result := by
  induction length : chars.length using Nat.strongRecOn generalizing offset chars with
  | ind length ih =>
      subst length
      rcases isDivided chars with isLastGap |
        ⟨gap, first, rest, rfl, isGap, notBlank, noComment⟩
      · exact ⟨_, .done isLastGap⟩
      rcases isUnclosed_or_isWritten notBlank noComment with
        ⟨rfl, isUnclosed⟩ | ⟨written, others, token, split, isWritten⟩
      · exact ⟨_, .openQuote isGap isUnclosed⟩
      · -- A token is not empty, so there is less behind it.
        have isShorter : others.length < (gap ++ first :: rest).length := by
          obtain ⟨_, _, rfl, _⟩ := exists_splitToken isWritten
          simp [split]
          omega
        obtain ⟨result, tiles⟩ :=
          ih _ isShorter (offset + byteLength gap + byteLength written) others rfl
        rw [split, ← List.append_assoc]
        exact ⟨_, .token isGap isWritten rfl rfl tiles⟩

/-- The scanner cuts a text up in the only way there is. -/
theorem scanFrom_of_tiles (tiles : Tiles offset chars result) (isBound : chars.length < bound) :
    scanFrom bound offset chars = result := by
  induction tiles generalizing bound with
  | done isLastGap =>
      obtain ⟨bound, rfl⟩ := Nat.exists_eq_add_one_of_ne_zero (Nat.ne_zero_of_lt isBound)
      simp [scanFrom, splitGap_of_isLastGap isLastGap]
  | @openQuote _ gap rest isGap isUnclosed =>
      obtain ⟨bound, rfl⟩ := Nat.exists_eq_add_one_of_ne_zero (Nat.ne_zero_of_lt isBound)
      have split : splitGap .blank (gap ++ '\x27' :: rest) = (gap, '\x27' :: rest) :=
        splitGap_append isGap (by decide) (by simp [BeginsComment])
      simp [scanFrom, split, splitToken, splitQuoted_of_isUnclosed isUnclosed]
  | @token offset start stop gap written rest token others isGap isWritten
      isStart isStop tiles ih =>
      obtain ⟨bound, rfl⟩ := Nat.exists_eq_add_one_of_ne_zero (Nat.ne_zero_of_lt isBound)
      obtain ⟨first, after, rfl, notBlank, noComment, isToken⟩ := exists_splitToken isWritten
      have isShorter : rest.length < bound := by
        simp at isBound
        omega
      subst isStart isStop
      rw [List.append_assoc, List.cons_append]
      simp [scanFrom, splitGap_append isGap notBlank noComment, isToken, ih isShorter]

/-- What the scanner answers is the only tiling of the text. -/
theorem tiles_iff {text : String} : Tiles 0 text.toList result ↔ scan text = result := by
  have answers {result : Scan} (tiles : Tiles 0 text.toList result) : scan text = result :=
    scanFrom_of_tiles tiles (Nat.lt_succ_self _)
  refine ⟨answers, ?_⟩
  rintro rfl
  obtain ⟨result, tiles⟩ := exists_tiles 0 text.toList
  rwa [answers tiles]

/-! ## Where tokens stand -/

/-- The piece of a text in which a token is written. -/
def Lexeme.source (text : String) (lexeme : Lexeme) : String :=
  String.Pos.Raw.extract text ⟨lexeme.start⟩ ⟨lexeme.stop⟩

theorem byteLength_append (first second : List Char) :
    byteLength (first ++ second) = byteLength first + byteLength second := by
  simp [byteLength_eq_utf8Len]

/-- Every token is cut out of the text. -/
theorem Tiles.exists_isWritten (tiles : Tiles offset chars result) : ∀ lexeme ∈ result.lexemes,
    ∃ before written after, chars = before ++ written ++ after ∧
      IsWritten written after lexeme.token ∧ lexeme.start = offset + byteLength before ∧
      lexeme.stop = lexeme.start + byteLength written := by
  induction tiles with
  | done => simp
  | openQuote => simp
  | @token offset start stop gap written rest token others isGap isWritten isStart isStop _ ih =>
      refine List.forall_mem_cons.mpr
        ⟨⟨gap, written, rest, rfl, isWritten, isStart, isStop⟩, ?_⟩
      intro lexeme member
      obtain ⟨before, piece, after, rfl, isPiece, pieceStart, pieceStop⟩ := ih lexeme member
      refine ⟨gap ++ written ++ before, piece, after, by simp, isPiece, ?_, pieceStop⟩
      rw [pieceStart, isStop, isStart, byteLength_append, byteLength_append]
      omega

theorem Tiles.le_openQuote (tiles : Tiles offset chars result) : ∀ opened ∈ result.openQuote,
    offset ≤ opened ∧ ∀ lexeme ∈ result.lexemes, lexeme.stop ≤ opened := by
  induction tiles with
  | done => simp
  | openQuote => simp
  | token isGap isWritten isStart isStop _ ih =>
      intro opened isOpen
      obtain ⟨after, othersAfter⟩ := ih opened isOpen
      exact ⟨by omega, List.forall_mem_cons.mpr ⟨after, othersAfter⟩⟩

theorem Tiles.pairwise (tiles : Tiles offset chars result) :
    result.lexemes.Pairwise fun first second => first.stop ≤ second.start := by
  induction tiles with
  | done => exact .nil
  | openQuote => exact .nil
  | token isGap isWritten isStart isStop tiles ih =>
      refine .cons (fun lexeme member => ?_) ih
      obtain ⟨before, _, _, _, _, isNext, _⟩ := tiles.exists_isWritten lexeme member
      simp [isNext]

theorem byteLength_pos (isWritten : IsWritten written rest token) : 0 < byteLength written := by
  obtain ⟨first, others, rfl, _⟩ := exists_splitToken isWritten
  rw [byteLength_eq_utf8Len, String.utf8Len_cons]
  have positive := first.utf8Size_pos
  omega

/-- A place with a number of whole characters in front of it is a boundary. -/
theorem isValid_byteLength (before after : List Char) :
    String.Pos.Raw.IsValid (String.ofList (before ++ after)) ⟨byteLength before⟩ := by
  rw [String.Pos.Raw.isValid_iff_exists_append, byteLength_eq_utf8Len]
  exact ⟨String.ofList before, String.ofList after, by simp, by simp⟩

/-- The piece in which a token is written, and its ends. -/
theorem source_of_mem_scan {text : String} {lexeme : Lexeme}
    (member : lexeme ∈ (scan text).lexemes) :
    lexeme.start < lexeme.stop ∧ String.Pos.Raw.IsValid text ⟨lexeme.start⟩ ∧
      String.Pos.Raw.IsValid text ⟨lexeme.stop⟩ ∧
      ∃ rest, IsWritten (lexeme.source text).toList rest lexeme.token := by
  obtain ⟨before, written, after, split, isWritten, isStart, isStop⟩ :=
    (tiles_iff.mpr rfl).exists_isWritten lexeme member
  obtain rfl : text = String.ofList (before ++ written ++ after) := by
    rw [← split, String.ofList_toList]
  rw [Nat.zero_add] at isStart
  have isSource : lexeme.source (String.ofList (before ++ written ++ after)) =
      String.ofList written := by
    rw [Lexeme.source, isStop, isStart, byteLength_eq_utf8Len, byteLength_eq_utf8Len]
    exact String.extract_of_valid before written after
  refine ⟨?_, ?_, ?_, after, by rwa [isSource, String.toList_ofList]⟩
  · have positive := byteLength_pos isWritten
    omega
  · rw [isStart, List.append_assoc]
    exact isValid_byteLength before (written ++ after)
  · rw [isStop, isStart, ← byteLength_append]
    exact isValid_byteLength (before ++ written) after

/-! ## Writing tokens -/

/-- How a token is written does not depend on what follows it, as long as that does not go on with
it. -/
theorem IsWritten.replace (isWritten : IsWritten written rest token)
    (isLongest : ∀ char ∈ other.head?, isNameChar char = false) :
    IsWritten written other token := by
  cases isWritten with
  | colon => exact .colon
  | semicolon => exact .semicolon
  | bar => exact .bar
  | quoted spells => exact .quoted spells
  | word isName noQuote noComment _ => exact .word isName noQuote noComment isLongest

/-- Tokens that are written with blanks between them are found again. -/
theorem exists_tiles_intercalate {pieces : List (List Char)} {tokens : List Token}
    (areWritten :
      List.Forall₂ (fun piece token => ∃ rest, IsWritten piece rest token) pieces tokens)
    (isGap : IsGap gap) (offset : Nat) : ∃ lexemes,
      Tiles offset (gap ++ [' '].intercalate pieces) ⟨lexemes, none⟩ ∧
      lexemes.map (·.token) = tokens := by
  induction areWritten generalizing gap offset with
  | nil => exact ⟨[], .done (by simpa using IsLastGap.closed isGap), rfl⟩
  | @cons piece token pieces tokens isWritten areOthers ih =>
      obtain ⟨rest, isWritten⟩ := isWritten
      cases pieces with
      | nil =>
          cases areOthers
          have isLast : IsWritten piece [] token := isWritten.replace (by simp)
          have tiles : Tiles offset _ _ := .token isGap isLast rfl rfl (.done (.closed .nil))
          exact ⟨_, by simpa using tiles, rfl⟩
      | cons next others =>
          -- The blank between two pieces is the gap in front of the second one, and ends the first
          -- one.
          have separates : IsGap [' '] := .blank (by decide) .nil
          obtain ⟨lexemes, tiles, areTokens⟩ :=
            ih separates (offset + byteLength gap + byteLength piece)
          have isNotLast : IsWritten piece ([' '] ++ [' '].intercalate (next :: others)) token :=
            isWritten.replace (by simp; decide)
          have allTiles := Tiles.token isGap isNotLast rfl rfl tiles
          rw [List.intercalate_cons_cons]
          exact ⟨_, by simpa using allTiles, congrArg _ areTokens⟩

/-- The tokens of a text as they are written there, with single blanks between them. -/
def respaced (text : String) : String := " ".intercalate ((scan text).lexemes.map (·.source text))

/-- The tokens of a text are found again without its gaps. -/
theorem exists_scan_respaced (text : String) :
    ∃ lexemes, scan (respaced text) = ⟨lexemes, none⟩ ∧ lexemes.map (·.token) =
      (scan text).lexemes.map (·.token) := by
  have areWritten : List.Forall₂ (fun piece token => ∃ rest, IsWritten piece rest token)
      ((scan text).lexemes.map fun lexeme => (lexeme.source text).toList)
      ((scan text).lexemes.map (·.token)) := by
    rw [List.forall₂_map_left_iff, List.forall₂_map_right_iff, List.forall₂_same]
    exact fun lexeme member => (source_of_mem_scan member).2.2.2
  obtain ⟨lexemes, tiles, areTokens⟩ := exists_tiles_intercalate areWritten .nil 0
  refine ⟨lexemes, ?_, areTokens⟩
  rw [← tiles_iff, respaced, String.toList_intercalate, List.map_map]
  exact tiles

/-- A name as it can always be written: every quote and every backslash gets a backslash in front of
it. -/
def escape (name : List Char) : List Char :=
  name.flatMap fun char => if char = '\x27' ∨ char = '\x5c' then ['\x5c', char] else [char]

/-- A name in quotes. -/
def quoted (name : String) : String := String.ofList ('\x27' :: (escape name.toList ++ ['\x27']))

theorem spells_escape (name : List Char) : Spells (escape name) name := by
  induction name with
  | nil => exact .nil
  | cons char others ih =>
      rw [escape, List.flatMap_cons]
      split
      · exact .escaped ih
      · rename_i isPlain
        rw [not_or] at isPlain
        exact .plain isPlain.1 isPlain.2 ih

/-- Every name can be written. -/
theorem scan_quoted (name : String) :
    scan (quoted name) = ⟨[⟨0, (quoted name).utf8ByteSize, .name name⟩], none⟩ := by
  have isWritten : IsWritten (quoted name).toList [] (.name name) := by
    have isQuoted : IsWritten _ [] _ := .quoted (spells_escape name.toList)
    simpa [quoted] using isQuoted
  have isWhole : (quoted name).utf8ByteSize = 0 + byteLength (quoted name).toList := by
    rw [Nat.zero_add, byteLength_eq_utf8Len, String.utf8Len_toList]
  have isStart : 0 = 0 + byteLength [] := rfl
  have tiles := Tiles.token .nil isWritten isStart isWhole (.done (.closed .nil))
  rw [← tiles_iff]
  simpa using tiles

/-- A text is tiled by its tokens, in one way only: between them there are gaps, and behind the last
one there is a gap or a quote that is never closed. Tokens are not empty, consist of whole
characters and stand one after the other. They are found again when only they are written down, with
blanks between them, and every text can be written as a name. -/
theorem texts_are_tiled_by_their_tokens (text : String) :
    (∀ result, Tiles 0 text.toList result ↔ scan text = result) ∧
    (∀ lexeme ∈ (scan text).lexemes, lexeme.start < lexeme.stop ∧
      String.Pos.Raw.IsValid text ⟨lexeme.start⟩ ∧
      String.Pos.Raw.IsValid text ⟨lexeme.stop⟩) ∧
    (scan text).lexemes.Pairwise (fun first second => first.stop ≤ second.start) ∧
    (∀ opened ∈ (scan text).openQuote, ∀ lexeme ∈ (scan text).lexemes,
      lexeme.stop ≤ opened) ∧
    (scan (respaced text)).lexemes.map (·.token) = (scan text).lexemes.map (·.token) ∧
    (scan (respaced text)).openQuote = none ∧
    scan (quoted text) = ⟨[⟨0, (quoted text).utf8ByteSize, .name text⟩], none⟩ := by
  have tiles : Tiles 0 text.toList (scan text) := tiles_iff.mpr rfl
  obtain ⟨lexemes, isRespaced, areTokens⟩ := exists_scan_respaced text
  rw [isRespaced]
  refine ⟨fun _ => tiles_iff, fun lexeme member => ?_, tiles.pairwise, ?_, areTokens,
    rfl, scan_quoted text⟩
  · obtain ⟨nonempty, validStart, validStop, _⟩ := source_of_mem_scan member
    exact ⟨nonempty, validStart, validStop⟩
  · exact fun opened isOpen => (tiles.le_openQuote opened isOpen).2

example : scan "a//b /*/ c */ \x27d" = ⟨[⟨0, 4, .name "a//b"⟩], some 14⟩ := by
    decide +kernel

end Description

end DeterministicParsing
