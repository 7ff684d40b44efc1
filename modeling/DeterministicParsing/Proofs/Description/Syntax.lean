/-
# The syntax of descriptions

A description is a sequence of declarations, each of them closed by a semicolon. The syntax is
stated here as relations between stretches of tokens and what they declare, apart from the reader,
which goes from one token to the next and knows only what it is in the middle of. Both agree: the
reader has always read complete declarations and the beginning of one more, and every beginning that
it accepts can be completed. So it reads exactly the descriptions, and the first token that it
refuses is the first one after which no description could follow.
-/
import Mathlib.Data.List.Forall2
import DeterministicParsing.Description.Parser
import DeterministicParsing.Proofs.FixedPoint

namespace DeterministicParsing

namespace Description

/-! ## Syntax -/

/-- The declarations of two descriptions, one after the other. -/
def append (first second : Description) : Description where
  tokens := first.tokens ++ second.tokens
  rules := first.rules ++ second.rules
  starts := first.starts ++ second.starts

instance : Append Description := ⟨append⟩

/-- The token is a name, and that is where it is written. -/
def IsName (lexeme : Lexeme) (name : Name) : Prop :=
  lexeme.token = .name name.text ∧ lexeme.start = name.offset

/-- A variant of a rule: the keyword for an empty one, or names, of which there may be none. -/
inductive IsVariant : List Lexeme → List Name → Prop where
  | epsilon {keyword : Lexeme} (isKeyword : keyword.token = .keyword .epsilon) :
      IsVariant [keyword] []
  | names {lexemes : List Lexeme} {names : List Name}
      (areNames : List.Forall₂ IsName lexemes names) :
      IsVariant lexemes names

/-- The variants of a rule, at least one, with bars between them. -/
inductive AreVariants : List Lexeme → List (List Name) → Prop where
  | single {lexemes : List Lexeme} {names : List Name} (isVariant : IsVariant lexemes names) :
      AreVariants lexemes [names]
  | cons {lexemes rest : List Lexeme} {bar : Lexeme} {names : List Name} {others : List (List Name)}
      (isVariant : IsVariant lexemes names) (isBar : bar.token = .bar)
      (areVariants : AreVariants rest others) :
      AreVariants (lexemes ++ bar :: rest) (names :: others)

/-- A declaration, and what it declares. A semicolon alone declares nothing. -/
inductive IsDeclaration : List Lexeme → Description → Prop where
  | empty {semicolon : Lexeme} (closes : semicolon.token = .semicolon) :
      IsDeclaration [semicolon] {}
  | tokens {keyword semicolon : Lexeme} {lexemes : List Lexeme} {names : List Name}
      (isKeyword : keyword.token = .keyword .token) (areNames : List.Forall₂ IsName lexemes names)
      (closes : semicolon.token = .semicolon) :
      IsDeclaration (keyword :: (lexemes ++ [semicolon])) { tokens := names }
  | start {keyword lexeme semicolon : Lexeme} {name : Name}
      (isKeyword : keyword.token = .keyword .start) (isName : IsName lexeme name)
      (closes : semicolon.token = .semicolon) :
      IsDeclaration [keyword, lexeme, semicolon] { starts := [name] }
  | rule {head colon semicolon : Lexeme} {lexemes : List Lexeme} {name : Name}
      {variants : List (List Name)} (isName : IsName head name) (isColon : colon.token = .colon)
      (areVariants : AreVariants lexemes variants) (closes : semicolon.token = .semicolon) :
      IsDeclaration (head :: colon :: (lexemes ++ [semicolon])) { rules := [⟨name, variants⟩] }

/-- A description, and what it declares, in the order in which it is written. -/
inductive Describes : List Lexeme → Description → Prop where
  | nil : Describes [] {}
  | cons {first rest : List Lexeme} {declared others : Description}
      (isDeclaration : IsDeclaration first declared) (describes : Describes rest others) :
      Describes (first ++ rest) (declared ++ others)

/-- The tokens are the beginning of a description. -/
def IsViable (lexemes : List Lexeme) : Prop :=
  ∃ rest description, Describes (lexemes ++ rest) description

variable {lexemes rest : List Lexeme} {lexeme : Lexeme} {description other third : Description}
  {progress next : Progress}

theorem append_def (first second : Description) : first ++ second =
    ⟨first.tokens ++ second.tokens, first.rules ++ second.rules,
      first.starts ++ second.starts⟩ := rfl

@[simp]
theorem append_empty : description ++ ({} : Description) = description := by simp [append_def]

@[simp]
theorem empty_append : ({} : Description) ++ description = description := by simp [append_def]

theorem append_assoc : description ++ other ++ third = description ++ (other ++ third) := by
  simp [append_def]

/-- One more declaration at the end. -/
theorem Describes.snoc (describes : Describes lexemes description)
    (isDeclaration : IsDeclaration rest other) :
    Describes (lexemes ++ rest) (description ++ other) := by
  induction describes with
  | nil => simpa using Describes.cons isDeclaration .nil
  | cons first _ ih =>
      rw [List.append_assoc, append_assoc]
      exact .cons first ih

/-! ## Descriptions are read -/

section Reading

variable (description : Description) (name : Name) (complete : List (List Name)) {names : List Name}
  {variants : List (List Name)}

theorem read_names_of_tokens (areNames : List.Forall₂ IsName lexemes names) :
    lexemes.foldlM Progress.read ⟨.tokenNames, description⟩ =
      .ok ⟨.tokenNames, description ++ { tokens := names }⟩ := by
  induction areNames generalizing description with
  | nil => simp
  | cons isName _ ih =>
      simp only [List.foldlM_cons, Progress.read, isName.1, isName.2, ok_bind, ih]
      simp [append_def]

theorem read_names_of_variant (current : List Name)
    (areNames : List.Forall₂ IsName lexemes names) :
    lexemes.foldlM Progress.read ⟨.variants name complete current false, description⟩ =
      .ok ⟨.variants name complete (current ++ names) false, description⟩ := by
  induction areNames generalizing current with
  | nil => simp
  | cons isName _ ih =>
      simp [Progress.read, isName.1, isName.2, ih]

theorem read_variant (isVariant : IsVariant lexemes names) : ∃ marked,
    lexemes.foldlM Progress.read ⟨.variants name complete [] false, description⟩ =
      .ok ⟨.variants name complete names marked, description⟩ := by
  cases isVariant with
  | epsilon isKeyword => exact ⟨true, by simp [Progress.read, isKeyword]⟩
  | names areNames => exact ⟨false, read_names_of_variant description name complete [] areNames⟩

theorem read_variants (areVariants : AreVariants lexemes variants) : ∃ earlier last marked,
    earlier ++ [last] = complete ++ variants ∧
    lexemes.foldlM Progress.read ⟨.variants name complete [] false, description⟩ =
      .ok ⟨.variants name earlier last marked, description⟩ := by
  induction areVariants generalizing complete with
  | single isVariant =>
      obtain ⟨marked, reads⟩ := read_variant description name complete isVariant
      exact ⟨complete, _, marked, rfl, reads⟩
  | @cons lexemes rest bar names others isVariant isBar _ ih =>
      obtain ⟨marked, reads⟩ := read_variant description name complete isVariant
      obtain ⟨earlier, last, lastMarked, split, readsOn⟩ := ih (complete ++ [names])
      refine ⟨earlier, last, lastMarked, by simpa using split, ?_⟩
      rw [List.foldlM_append, reads, ok_bind, List.foldlM_cons]
      simp only [Progress.read, isBar, ok_bind, readsOn]

/-- A declaration is read from outside any other to its end. -/
theorem read_declaration (isDeclaration : IsDeclaration lexemes other) :
    lexemes.foldlM Progress.read ⟨.outside, description⟩ =
      .ok ⟨.outside, description ++ other⟩ := by
  cases isDeclaration with
  | empty closes => simp [Progress.read, closes]
  | tokens isKeyword areNames closes =>
      simp [Progress.read, isKeyword, List.foldlM_append,
        read_names_of_tokens description areNames, closes]
  | start isKeyword isName closes =>
      simp [Progress.read, isKeyword, isName.1, isName.2, closes, append_def]
  | @rule head colon semicolon lexemes name variants isName isColon areVariants closes =>
      obtain ⟨earlier, last, marked, split, reads⟩ :=
        read_variants description name [] areVariants
      simp [Progress.read, isName.1, isName.2, isColon, List.foldlM_append, reads,
        closes, split, append_def]

/-- A description is read to its end. -/
theorem Describes.read (describes : Describes lexemes other) :
    lexemes.foldlM Progress.read ⟨.outside, description⟩ =
      .ok ⟨.outside, description ++ other⟩ := by
  induction describes generalizing description with
  | nil => simp
  | cons isDeclaration _ ih =>
      rw [List.foldlM_append, read_declaration description isDeclaration, ok_bind, ih, append_assoc]

end Reading

/-! ## What is read is the beginning of a description -/

/-- A token leads from one context to the next, and something may be declared with it. -/
inductive Takes (lexeme : Lexeme) : Context → Context → Description → Prop where
  | empty (closes : lexeme.token = .semicolon) : Takes lexeme .outside .outside {}
  | tokens (isKeyword : lexeme.token = .keyword .token) : Takes lexeme .outside .tokenNames {}
  | start (isKeyword : lexeme.token = .keyword .start) : Takes lexeme .outside .startName {}
  | head {name : Name} (isName : IsName lexeme name) : Takes lexeme .outside (.ruleColon name) {}
  | tokenName {name : Name} (isName : IsName lexeme name) :
      Takes lexeme .tokenNames .tokenNames { tokens := [name] }
  | tokensEnd (closes : lexeme.token = .semicolon) : Takes lexeme .tokenNames .outside {}
  | startName {name : Name} (isName : IsName lexeme name) :
      Takes lexeme .startName (.startEnd name) {}
  | startEnd {name : Name} (closes : lexeme.token = .semicolon) :
      Takes lexeme (.startEnd name) .outside { starts := [name] }
  | colon {name : Name} (isColon : lexeme.token = .colon) :
      Takes lexeme (.ruleColon name) (.variants name [] [] false) {}
  | ruleEnd {name : Name} {complete : List (List Name)} {current : List Name} {marked : Bool}
      (closes : lexeme.token = .semicolon) :
      Takes lexeme (.variants name complete current marked) .outside
        { rules := [⟨name, complete ++ [current]⟩] }
  | bar {name : Name} {complete : List (List Name)} {current : List Name} {marked : Bool}
      (isBar : lexeme.token = .bar) :
      Takes lexeme (.variants name complete current marked)
        (.variants name (complete ++ [current]) [] false) {}
  | epsilon {name : Name} {complete : List (List Name)}
      (isKeyword : lexeme.token = .keyword .epsilon) :
      Takes lexeme (.variants name complete [] false) (.variants name complete [] true) {}
  | variantName {name added : Name} {complete : List (List Name)} {current : List Name}
      (isName : IsName lexeme added) :
      Takes lexeme (.variants name complete current false)
        (.variants name complete (current ++ [added]) false) {}

/-- A token that declares nothing by itself leaves the description as it is. -/
theorem Takes.exists_declared {context later : Context} (takes : Takes lexeme context later {})
    (description : Description) :
    ∃ declared, Takes lexeme context later declared ∧ description = description ++ declared :=
  ⟨{}, takes, append_empty.symm⟩

/-- Outside a declaration, the tokens that begin one are accepted. -/
theorem takes_of_read_outside_eq_ok
    (reads : Progress.read ⟨.outside, description⟩ lexeme = .ok next) :
    ∃ declared, Takes lexeme .outside next.context declared ∧
      next.description = description ++ declared := by
  cases token : lexeme.token with
  | semicolon =>
      obtain rfl : _ = next := by simpa [Progress.read, token] using reads
      exact Takes.exists_declared (.empty token) description
  | keyword keyword =>
      cases keyword with
      | token =>
          obtain rfl : _ = next := by simpa [Progress.read, token] using reads
          exact Takes.exists_declared (.tokens token) description
      | start =>
          obtain rfl : _ = next := by simpa [Progress.read, token] using reads
          exact Takes.exists_declared (.start token) description
      | epsilon => simp [Progress.read, Progress.refuse, token] at reads
  | name text =>
      obtain rfl : _ = next := by simpa [Progress.read, token] using reads
      exact Takes.exists_declared (.head ⟨token, rfl⟩) description
  | _ => simp [Progress.read, Progress.refuse, token] at reads

/-- Among the variants of a rule, bars and names are accepted, the keyword for an empty variant only
in place of names, and the end of the rule. -/
theorem takes_of_read_variants_eq_ok {name : Name} {complete : List (List Name)}
    {current : List Name} {marked : Bool}
    (reads : Progress.read ⟨.variants name complete current marked, description⟩ lexeme =
      .ok next) :
    ∃ declared, Takes lexeme (.variants name complete current marked) next.context declared ∧
      next.description = description ++ declared := by
  cases token : lexeme.token with
  | semicolon =>
      obtain rfl : _ = next := by simpa [Progress.read, token] using reads
      exact ⟨_, .ruleEnd token, by simp [append_def]⟩
  | bar =>
      obtain rfl : _ = next := by simpa [Progress.read, token] using reads
      exact Takes.exists_declared (.bar token) description
  | keyword keyword =>
      cases keyword with
      | epsilon =>
          cases marked with
          | true => simp [Progress.read, Progress.refuse, token] at reads
          | false =>
              cases current with
              | nil =>
                  obtain rfl : _ = next := by simpa [Progress.read, token] using reads
                  exact Takes.exists_declared (.epsilon token) description
              | cons first others => simp [Progress.read, Progress.refuse, token] at reads
      | _ => simp [Progress.read, Progress.refuse, token] at reads
  | name text =>
      cases marked with
      | true => simp [Progress.read, Progress.refuse, token] at reads
      | false =>
          obtain rfl : _ = next := by simpa [Progress.read, token] using reads
          exact Takes.exists_declared (.variantName ⟨token, rfl⟩) description
  | colon => simp [Progress.read, Progress.refuse, token] at reads

/-- That is all that the reader accepts. -/
theorem takes_of_read_eq_ok (reads : progress.read lexeme = .ok next) :
    ∃ declared, Takes lexeme progress.context next.context declared ∧
      next.description = progress.description ++ declared := by
  obtain ⟨context, description⟩ := progress
  -- In each context, the tokens that are accepted are named, and all others are refused.
  cases context with
  | outside => exact takes_of_read_outside_eq_ok reads
  | tokenNames =>
      cases token : lexeme.token with
      | semicolon =>
          obtain rfl : _ = next := by simpa [Progress.read, token] using reads
          exact Takes.exists_declared (.tokensEnd token) description
      | name text =>
          obtain rfl : _ = next := by simpa [Progress.read, token] using reads
          have isName : IsName lexeme ⟨text, lexeme.start⟩ := ⟨token, rfl⟩
          exact ⟨_, .tokenName isName, by simp [append_def]⟩
      | _ => simp [Progress.read, Progress.refuse, token] at reads
  | startName =>
      cases token : lexeme.token with
      | name text =>
          obtain rfl : _ = next := by simpa [Progress.read, token] using reads
          exact Takes.exists_declared (.startName ⟨token, rfl⟩) description
      | _ => simp [Progress.read, Progress.refuse, token] at reads
  | startEnd name =>
      cases token : lexeme.token with
      | semicolon =>
          obtain rfl : _ = next := by simpa [Progress.read, token] using reads
          exact ⟨_, .startEnd token, by simp [append_def]⟩
      | _ => simp [Progress.read, Progress.refuse, token] at reads
  | ruleColon name =>
      cases token : lexeme.token with
      | colon =>
          obtain rfl : _ = next := by simpa [Progress.read, token] using reads
          exact Takes.exists_declared (.colon token) description
      | _ => simp [Progress.read, Progress.refuse, token] at reads
  | variants => exact takes_of_read_variants_eq_ok reads

/-- Every token that the reader does not accept is unexpected. -/
theorem unexpected_of_read_eq_error {reason : Error}
    (fails : progress.read lexeme = .error reason) :
    ∃ expected, reason = .unexpected lexeme.start lexeme.token expected := by
  unfold Progress.read at fails
  split at fails <;> try split at fails
  all_goals cases fails <;> exact ⟨_, rfl⟩

/-- Variants, each with a bar after it. -/
inductive AreBarred : List Lexeme → List (List Name) → Prop where
  | nil : AreBarred [] []
  | snoc {lexemes part : List Lexeme} {bar : Lexeme} {complete : List (List Name)}
      {names : List Name} (areBarred : AreBarred lexemes complete)
      (isVariant : IsVariant part names) (isBar : bar.token = .bar) :
      AreBarred (lexemes ++ part ++ [bar]) (complete ++ [names])

/-- The beginning of a variant, and whether the keyword for an empty one has been read. -/
inductive IsPart : List Lexeme → List Name → Bool → Prop where
  | marked {keyword : Lexeme} (isKeyword : keyword.token = .keyword .epsilon) :
      IsPart [keyword] [] true
  | names {lexemes : List Lexeme} {names : List Name}
      (areNames : List.Forall₂ IsName lexemes names) :
      IsPart lexemes names false

/-- The beginning of a declaration, the context that it leads to, and what is declared by then. -/
inductive Begins : List Lexeme → Context → Description → Prop where
  | outside : Begins [] .outside {}
  | tokenNames {keyword : Lexeme} {lexemes : List Lexeme} {names : List Name}
      (isKeyword : keyword.token = .keyword .token)
      (areNames : List.Forall₂ IsName lexemes names) :
      Begins (keyword :: lexemes) .tokenNames { tokens := names }
  | startName {keyword : Lexeme} (isKeyword : keyword.token = .keyword .start) :
      Begins [keyword] .startName {}
  | startEnd {keyword lexeme : Lexeme} {name : Name} (isKeyword : keyword.token = .keyword .start)
      (isName : IsName lexeme name) : Begins [keyword, lexeme] (.startEnd name) {}
  | ruleColon {head : Lexeme} {name : Name} (isName : IsName head name) :
      Begins [head] (.ruleColon name) {}
  | variants {head colon : Lexeme} {lexemes part : List Lexeme} {name : Name}
      {complete : List (List Name)} {current : List Name} {marked : Bool}
      (isName : IsName head name) (isColon : colon.token = .colon)
      (areBarred : AreBarred lexemes complete) (isPart : IsPart part current marked) :
      Begins (head :: colon :: (lexemes ++ part)) (.variants name complete current marked) {}

/-- The reader has read complete declarations and the beginning of one more. -/
def Progress.HasRead (progress : Progress) (lexemes : List Lexeme) : Prop :=
  ∃ earlier description part declared, Describes earlier description ∧
    Begins part progress.context declared ∧ lexemes = earlier ++ part ∧
    progress.description = description ++ declared

theorem IsPart.isVariant {names : List Name} {marked : Bool}
    (isPart : IsPart lexemes names marked) :
    IsVariant lexemes names := by
  cases isPart with
  | marked isKeyword => exact .epsilon isKeyword
  | names areNames => exact .names areNames

theorem AreBarred.areVariants {complete others : List (List Name)}
    (areBarred : AreBarred lexemes complete) (areVariants : AreVariants rest others) :
    AreVariants (lexemes ++ rest) (complete ++ others) := by
  induction areBarred generalizing rest others with
  | nil => exact areVariants
  | snoc _ isVariant isBar ih => simpa using ih (.cons isVariant isBar areVariants)

/-- The variants of a rule that has begun go on with one more token. -/
theorem Begins.takes_variants {name : Name} {complete : List (List Name)} {current : List Name}
    {marked : Bool} {later : Context} {declared : Description}
    (begins : Begins lexemes (.variants name complete current marked) description)
    (takes : Takes lexeme (.variants name complete current marked) later declared) :
    Begins (lexemes ++ [lexeme]) later (description ++ declared) ∨
      later = .outside ∧ IsDeclaration (lexemes ++ [lexeme]) (description ++ declared) := by
  cases begins with
  | variants isName isColon areBarred isPart =>
      cases takes with
      | ruleEnd closes =>
          have areVariants := areBarred.areVariants (.single isPart.isVariant)
          exact .inr ⟨rfl, .rule isName isColon areVariants closes⟩
      | bar isBar =>
          have areBarredNow := areBarred.snoc isPart.isVariant isBar
          exact .inl (by simpa using Begins.variants isName isColon areBarredNow (.names .nil))
      | epsilon isKeyword =>
          cases isPart with
          | names areNames =>
              cases areNames
              exact .inl (by
                simpa using Begins.variants isName isColon areBarred (.marked isKeyword))
      | variantName isAdded =>
          cases isPart with
          | names areNames =>
              have longer := IsPart.names (List.rel_append areNames (.cons isAdded .nil))
              exact .inl (by simpa using Begins.variants isName isColon areBarred longer)

/-- A declaration that has begun goes on with one more token, or is completed by it. -/
theorem Begins.takes {context later : Context} {declared : Description}
    (begins : Begins lexemes context description) (takes : Takes lexeme context later declared) :
    Begins (lexemes ++ [lexeme]) later (description ++ declared) ∨
      later = .outside ∧ IsDeclaration (lexemes ++ [lexeme]) (description ++ declared) := by
  cases takes with
  | empty closes =>
      cases begins
      exact .inr ⟨rfl, .empty closes⟩
  | tokens isKeyword =>
      cases begins
      exact .inl (.tokenNames isKeyword .nil)
  | start isKeyword =>
      cases begins
      exact .inl (.startName isKeyword)
  | head isName =>
      cases begins
      exact .inl (.ruleColon isName)
  | tokenName isName =>
      cases begins with
      | tokenNames isKeyword areNames =>
          exact .inl (.tokenNames isKeyword (List.rel_append areNames (.cons isName .nil)))
  | tokensEnd closes =>
      cases begins with
      | tokenNames isKeyword areNames =>
          rw [append_empty]
          exact .inr ⟨rfl, .tokens isKeyword areNames closes⟩
  | startName isName =>
      cases begins with
      | startName isKeyword => exact .inl (.startEnd isKeyword isName)
  | startEnd closes =>
      cases begins with
      | startEnd isKeyword isName => exact .inr ⟨rfl, .start isKeyword isName closes⟩
  | colon isColon =>
      cases begins with
      | ruleColon isName => exact .inl (.variants isName isColon .nil (.names .nil))
  | ruleEnd closes => exact begins.takes_variants (.ruleEnd closes)
  | bar isBar => exact begins.takes_variants (.bar isBar)
  | epsilon isKeyword => exact begins.takes_variants (.epsilon isKeyword)
  | variantName isAdded => exact begins.takes_variants (.variantName isAdded)

/-- A declaration that has begun can be completed. -/
theorem Begins.exists_isDeclaration {context : Context}
    (begins : Begins lexemes context description) :
    ∃ rest declared, IsDeclaration (lexemes ++ rest) declared := by
  let semicolon : Lexeme := ⟨0, 0, .semicolon⟩
  let colon : Lexeme := ⟨0, 0, .colon⟩
  let name : Lexeme := ⟨0, 0, .name ""⟩
  cases begins with
  | outside => exact ⟨[semicolon], _, .empty rfl⟩
  | tokenNames isKeyword areNames => exact ⟨[semicolon], _, .tokens isKeyword areNames rfl⟩
  | startName isKeyword =>
      have isName : IsName name ⟨"", 0⟩ := ⟨rfl, rfl⟩
      exact ⟨[name, semicolon], _, .start isKeyword isName rfl⟩
  | startEnd isKeyword isName => exact ⟨[semicolon], _, .start isKeyword isName rfl⟩
  | ruleColon isName =>
      have areVariants : AreVariants [] [[]] := .single (.names .nil)
      exact ⟨[colon, semicolon], _, .rule isName rfl areVariants rfl⟩
  | variants isName isColon areBarred isPart =>
      have areVariants := areBarred.areVariants (.single isPart.isVariant)
      exact ⟨[semicolon], _, by simpa using IsDeclaration.rule isName isColon areVariants rfl⟩

namespace Progress

theorem HasRead.read (hasRead : progress.HasRead lexemes)
    (reads : progress.read lexeme = .ok next) :
    next.HasRead (lexemes ++ [lexeme]) := by
  obtain ⟨earlier, described, part, underway, describes, begins, rfl, isDescription⟩ := hasRead
  obtain ⟨declared, takes, grows⟩ := takes_of_read_eq_ok reads
  have grown : next.description = described ++ (underway ++ declared) := by
    rw [grows, isDescription, append_assoc]
  rcases begins.takes takes with further | ⟨isOutside, isDeclaration⟩
  · exact ⟨earlier, described, part ++ [lexeme], _, describes, further, by simp, grown⟩
  · refine ⟨_, _, [], {}, describes.snoc isDeclaration, isOutside ▸ .outside, by simp, ?_⟩
    rw [grown, append_empty]

theorem HasRead.foldlM (hasRead : progress.HasRead lexemes)
    (reads : rest.foldlM Progress.read progress = .ok next) : next.HasRead (lexemes ++ rest) := by
  induction rest generalizing progress lexemes with
  | nil =>
      cases reads
      simpa using hasRead
  | cons lexeme others ih =>
      rw [List.foldlM_cons] at reads
      obtain ⟨further, here, readsOn⟩ := exists_of_bind_eq_ok reads
      simpa using ih (hasRead.read here) readsOn

/-- All tokens in front of where the reader is belong to complete declarations and the beginning of
one. -/
theorem hasRead_of_foldlM_eq_ok (reads : lexemes.foldlM Progress.read {} = .ok next) :
    next.HasRead lexemes := by
  have start : HasRead {} [] := ⟨[], {}, [], {}, .nil, .outside, rfl, rfl⟩
  exact start.foldlM reads

end Progress

/-! ## What the reader answers -/

/-- The reader accepts exactly the beginnings of descriptions. -/
theorem isViable_iff : IsViable lexemes ↔
    ∃ progress, lexemes.foldlM Progress.read {} = .ok progress := by
  constructor
  · rintro ⟨rest, description, describes⟩
    have reads := describes.read {}
    rw [List.foldlM_append] at reads
    obtain ⟨progress, here, _⟩ := exists_of_bind_eq_ok reads
    exact ⟨progress, here⟩
  · rintro ⟨progress, reads⟩
    obtain ⟨earlier, described, part, _, describes, begins, rfl, _⟩ :=
      Progress.hasRead_of_foldlM_eq_ok reads
    obtain ⟨rest, declared, isDeclaration⟩ := begins.exists_isDeclaration
    exact ⟨rest, described ++ declared, by simpa using describes.snoc isDeclaration⟩

/-- The text may end where every declaration is complete. -/
theorem finish_eq_ok_iff : progress.finish = .ok description ↔
    progress.context = .outside ∧ progress.description = description := by
  obtain ⟨context, described⟩ := progress
  cases context <;> simp [Progress.finish, Context.awaits]

theorem unexpectedEnd_of_finish_eq_error {reason : Error}
    (fails : progress.finish = .error reason) :
    ∃ expected, reason = .unexpectedEnd expected := by
  unfold Progress.finish at fails
  split at fails <;> cases fails
  exact ⟨_, rfl⟩

theorem describes_iff : Describes lexemes description ↔
    lexemes.foldlM Progress.read {} = .ok ⟨.outside, description⟩ := by
  constructor
  · intro describes
    simpa using describes.read {}
  · intro reads
    obtain ⟨earlier, described, part, declared, describes, begins, rfl, isDescription⟩ :=
      Progress.hasRead_of_foldlM_eq_ok reads
    cases begins
    obtain rfl : description = described := by simpa using isDescription
    simpa using describes

variable {result : Scan}

/-- Only a text without an open quote is a description, and it has to be one from beginning to
end. -/
theorem ofScan_eq_ok_iff : ofScan result = .ok description ↔
    result.openQuote = none ∧ Describes result.lexemes description := by
  rw [describes_iff, ofScan]
  cases reads : result.lexemes.foldlM Progress.read {} with
  | error reason => simp [Bind.bind, Except.bind]
  | ok progress =>
      obtain ⟨context, described⟩ := progress
      cases result.openQuote <;> simp [finish_eq_ok_iff, throw, throwThe, MonadExceptOf.throw]

/-- The token that is refused is the first one after which no description could follow. -/
theorem ofScan_eq_unexpected_iff {offset : Nat} {found : Token} :
    (∃ expected, ofScan result = .error (.unexpected offset found expected)) ↔
      ∃ earlier lexeme rest, result.lexemes = earlier ++ lexeme :: rest ∧ IsViable earlier ∧
        ¬ IsViable (earlier ++ [lexeme]) ∧ lexeme.start = offset ∧ lexeme.token = found := by
  constructor
  · rintro ⟨expected, fails⟩
    rw [ofScan] at fails
    cases reads : result.lexemes.foldlM Progress.read {} with
    | ok progress =>
        rw [reads, ok_bind] at fails
        split at fails
        · cases fails
        · obtain ⟨_, isEnd⟩ := unexpectedEnd_of_finish_eq_error fails
          cases isEnd
    | error reason =>
        rw [reads] at fails
        cases fails
        obtain ⟨earlier, lexeme, rest, reached, split, before, here⟩ :=
          exists_of_foldlM_eq_error reads
        obtain ⟨_, isUnexpected⟩ := unexpected_of_read_eq_error here
        cases isUnexpected
        refine ⟨earlier, lexeme, rest, split,
          isViable_iff.mpr ⟨reached, before⟩, ?_, rfl, rfl⟩
        simp [isViable_iff, List.foldlM_append, before, here, Bind.bind, Except.bind]
  · rintro ⟨earlier, lexeme, rest, split, isViable, isEnd, rfl, rfl⟩
    obtain ⟨reached, before⟩ := isViable_iff.mp isViable
    cases here : reached.read lexeme with
    | ok next =>
        refine absurd (isViable_iff.mpr ⟨next, ?_⟩) isEnd
        simp [List.foldlM_append, before, here]
    | error reason =>
        obtain ⟨expected, rfl⟩ := unexpected_of_read_eq_error here
        refine ⟨expected, ?_⟩
        simp [ofScan, split, List.foldlM_append, before, here, Bind.bind, Except.bind]

/-- An open quote is noticed when the tokens in front of it could be followed by more. -/
theorem ofScan_eq_unterminated_iff {offset : Nat} :
    ofScan result = .error (.unterminated offset) ↔
      result.openQuote = some offset ∧ IsViable result.lexemes := by
  rw [isViable_iff, ofScan]
  cases reads : result.lexemes.foldlM Progress.read {} with
  | error reason =>
      obtain ⟨_, _, _, _, _, _, here⟩ := exists_of_foldlM_eq_error reads
      obtain ⟨_, rfl⟩ := unexpected_of_read_eq_error here
      simp [Bind.bind, Except.bind]
  | ok progress =>
      cases result.openQuote with
      | some opened => simp [throw, throwThe, MonadExceptOf.throw]
      | none =>
          suffices progress.finish ≠ .error (.unterminated offset) by simpa
          intro fails
          obtain ⟨_, isEnd⟩ := unexpectedEnd_of_finish_eq_error fails
          cases isEnd

/-- A text that ends too early is the beginning of a description, but not a description. -/
theorem ofScan_eq_unexpectedEnd_iff :
    (∃ expected, ofScan result = .error (.unexpectedEnd expected)) ↔
      result.openQuote = none ∧ IsViable result.lexemes ∧
        ∀ declared, ¬ Describes result.lexemes declared := by
  simp only [isViable_iff, describes_iff, ofScan]
  cases reads : result.lexemes.foldlM Progress.read {} with
  | error reason =>
      obtain ⟨_, _, _, _, _, _, here⟩ := exists_of_foldlM_eq_error reads
      obtain ⟨_, rfl⟩ := unexpected_of_read_eq_error here
      simp [Bind.bind, Except.bind]
  | ok progress =>
      cases result.openQuote with
      | some opened => simp [throw, throwThe, MonadExceptOf.throw]
      | none =>
          obtain ⟨context, described⟩ := progress
          cases context <;> simp [Progress.finish, Context.awaits]

/-- A text is a description exactly if its tokens are and no quote is open, and then what is
declared is what they declare. Of all other texts, the ones with a token after which no description
could follow are refused at the first such token, the others at an open quote, if there is one, and
else at the end. -/
theorem texts_are_read_up_to_the_first_bad_token (text : String) :
    (∀ description, parse text = .ok description ↔
      (scan text).openQuote = none ∧ Describes (scan text).lexemes description) ∧
    (∀ offset found, (∃ expected, parse text = .error (.unexpected offset found expected)) ↔
      ∃ earlier lexeme rest, (scan text).lexemes = earlier ++ lexeme :: rest ∧
        IsViable earlier ∧ ¬ IsViable (earlier ++ [lexeme]) ∧ lexeme.start = offset ∧
        lexeme.token = found) ∧
    (∀ offset, parse text = .error (.unterminated offset) ↔
      (scan text).openQuote = some offset ∧ IsViable (scan text).lexemes) ∧
    ((∃ expected, parse text = .error (.unexpectedEnd expected)) ↔
      (scan text).openQuote = none ∧ IsViable (scan text).lexemes ∧
        ∀ description, ¬ Describes (scan text).lexemes description) :=
  ⟨fun _ => ofScan_eq_ok_iff, fun _ _ => ofScan_eq_unexpected_iff,
    fun _ => ofScan_eq_unterminated_iff, ofScan_eq_unexpectedEnd_iff⟩

example : parse "start a; a: b | epsilon | ;" =
    .ok { rules := [⟨⟨"a", 9⟩, [[⟨"b", 12⟩], [], []]⟩], starts := [⟨"a", 6⟩] } := by
  decide +kernel

example : parse "a: epsilon b 'c" = .error (.unexpected 11 (.name "b") .variantEnd) := by
    decide +kernel

end Description

end DeterministicParsing
