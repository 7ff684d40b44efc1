/-
# Items in front of a terminal

After a string has been read, the items that are valid for it are the ends of spines. A spine leads
down from the start: a rule is entered, some symbols of its body are passed, then a rule for the
next symbol is entered, and so on until the marker is reached. In a grammar where no terminal
predicts two rules of one nonterminal, the string and the terminal after it tell the way down. The
rule to enter is the only one that the terminal with which everything begins predicts. Two spines
that enter a rule in the same place can only part if one of them goes on below a symbol that the
other passes. The string then begins, below that symbol, with the symbol itself, and this is a left
recursion, which such a grammar does not have.
-/
import DeterministicParsing.Proofs.Automaton.ViablePrefix
import DeterministicParsing.Proofs.Predictive.Expansion

namespace DeterministicParsing

namespace Grammar

variable {grammar : Grammar} {nonterminal terminal start id : Nat} {string rest after : List Symbol}
  {core : Core}

/-! ## What comes next -/

/-- What is left of a nonterminal goes on with the terminal: a string derived from it begins with
the terminal, or nothing more comes of it and the terminal follows the nonterminal. -/
def GoesOnWith (grammar : Grammar) (nonterminal : Nat) (rest : List Symbol)
    (terminal : Nat) : Prop :=
  grammar.DerivesBeginning rest terminal ∨
    (grammar.Derives rest [] ∧ grammar.Follows nonterminal terminal)

theorem goesOnWith_append {first second : List Symbol} :
    grammar.GoesOnWith nonterminal (first ++ second) terminal ↔
      grammar.DerivesBeginning first terminal ∨
        (grammar.Derives first [] ∧ grammar.GoesOnWith nonterminal second terminal) := by
  rw [GoesOnWith, GoesOnWith, derivesBeginning_append, derives_append_nil]
  tauto

theorem Derives.goesOnWith {first second : List Symbol} (derives : grammar.Derives first second)
    (goesOn : grammar.GoesOnWith nonterminal second terminal) :
    grammar.GoesOnWith nonterminal first terminal := by
  rcases goesOn with begins | ⟨vanishes, follows⟩
  · exact .inl (derives.beginning begins)
  · exact .inr ⟨derives.trans vanishes, follows⟩

/-- What goes on inside a rule goes on inside each nonterminal of its body. -/
theorem GoesOnWith.inner {head : Nat} {left right : List Symbol}
    (member : ⟨head, left ++ .nonterminal nonterminal :: right⟩ ∈ grammar.rules)
    (goesOn : grammar.GoesOnWith head (rest ++ right) terminal) :
    grammar.GoesOnWith nonterminal rest terminal := by
  rcases goesOnWith_append.mp goesOn with begins |
    ⟨vanishes, begins | ⟨rightVanishes, follows⟩⟩
  · exact .inl begins
  · exact .inr ⟨vanishes, follows_of_rest member rfl begins⟩
  · exact .inr ⟨vanishes, follows.of_head member rfl rightVanishes⟩

/-! ## Spines -/

/-- A spine leads from a nonterminal down to a core. The string is what is passed on the way, and
the last argument is what is left of all the rules entered. -/
inductive Spine (grammar : Grammar) : Nat → List Symbol → Core → List Symbol → Prop where
  /-- The marker is reached in the rule that is entered. -/
  | here {head id : Nat} {left right : List Symbol}
      (found : grammar.rules[id]? = some ⟨head, left ++ right⟩) :
      Spine grammar head left ⟨id, left.length⟩ right
  /-- The spine goes on below a symbol of the body. -/
  | within {head id nonterminal : Nat} {left right string rest : List Symbol} {core : Core}
      (found : grammar.rules[id]? = some ⟨head, left ++ .nonterminal nonterminal :: right⟩)
      (inner : Spine grammar nonterminal string core rest) :
      Spine grammar head (left ++ string) core (rest ++ right)

namespace Spine

/-- A nonterminal derives what a spine passes and leaves. -/
theorem derives (spine : grammar.Spine nonterminal string core rest) :
    grammar.Derives [.nonterminal nonterminal] (string ++ rest) := by
  induction spine with
  | here found => exact .of_rule (List.mem_of_getElem? found)
  | @within head id inner left right string rest core found _ ih =>
      have entered := Derives.of_rule (List.mem_of_getElem? found)
      have below := ih.context left right
      simpa using entered.trans below

/-- What a spine passes stands in bodies. -/
theorem exists_mem_body (spine : grammar.Spine nonterminal string core rest) {symbol : Symbol}
    (member : symbol ∈ string) : ∃ rule ∈ grammar.rules, symbol ∈ rule.body := by
  induction spine with
  | here found => exact ⟨_, List.mem_of_getElem? found, List.mem_append_left _ member⟩
  | within found _ ih =>
      rcases List.mem_append.mp member with inLeft | inString
      · exact ⟨_, List.mem_of_getElem? found, List.mem_append_left _ inLeft⟩
      · exact ih inString

end Spine

/-- A spine below a nonterminal that is looked for can be followed up to the start. -/
theorem Frame.exists_spine (starts : grammar.start = .ok start) {before : List Symbol}
    (frame : grammar.Frame before nonterminal after)
    (spine : grammar.Spine nonterminal string core rest) :
    ∃ whole, grammar.Spine start (before ++ string) core whole ∧
      rest ++ after = whole ++ word [endOfInput] := by
  induction frame generalizing string rest with
  | start isStart =>
      obtain rfl := Except.ok.inj (isStart.symm.trans starts)
      exact ⟨rest, spine, rfl⟩
  | within _ member ih =>
      obtain ⟨id, found⟩ := List.getElem?_of_mem member
      obtain ⟨whole, longer, same⟩ := ih (.within found spine)
      exact ⟨whole, by rwa [List.append_assoc], by rw [← same, List.append_assoc]⟩

/-- The core is valid for the string, and what is left of its rule, together with what comes after
it, begins with the terminal. -/
def ValidBefore (grammar : Grammar) (string : List Symbol) (core : Core) (terminal : Nat) : Prop :=
  ∃ rule after, grammar.rules[core.rule]? = some rule ∧ grammar.ValidFor string core after ∧
    grammar.DerivesBeginning (rule.body.drop core.marker ++ after) terminal

/-- A core that is valid is the end of a spine. -/
theorem ValidBefore.exists_spine (starts : grammar.start = .ok start)
    (valid : grammar.ValidBefore string core terminal) :
    ∃ rest, grammar.Spine start string core rest ∧ grammar.GoesOnWith start rest terminal := by
  obtain ⟨rule, after, found, ⟨other, before, isOther, within, frame, rfl⟩, begins⟩ := valid
  obtain rfl := Option.some.inj (found.symm.trans isOther)
  have here : grammar.Spine rule.head (rule.body.take core.marker)
      ⟨core.rule, (rule.body.take core.marker).length⟩ (rule.body.drop core.marker) :=
    .here (by rw [List.take_append_drop, found])
  rw [List.length_take_of_le within] at here
  obtain ⟨rest, spine, same⟩ := frame.exists_spine starts here
  refine ⟨rest, spine, ?_⟩
  rw [same, derivesBeginning_append, derivesBeginning_word_cons] at begins
  rcases begins with begins | ⟨vanishes, rfl⟩
  · exact .inl begins
  · exact .inr ⟨vanishes, follows_start starts⟩

/-- A complete core is valid before the terminals that can come after its rule. -/
theorem ValidLookahead.validBefore (valid : grammar.ValidLookahead string core terminal)
    (complete : grammar.Completes core) : grammar.ValidBefore string core terminal := by
  obtain ⟨after, isValid, begins⟩ := valid
  obtain ⟨rule, found, isMarker⟩ := complete
  refine ⟨rule, after, found, isValid, ?_⟩
  rwa [isMarker, List.drop_length, List.nil_append]

/-- A core that expects a terminal is valid before it. -/
theorem ValidFor.validBefore (valid : grammar.ValidFor string core after)
    (expects : grammar.Expects core (.terminal terminal) rest) :
    grammar.ValidBefore string core terminal := by
  obtain ⟨rule, found, split⟩ := expects
  refine ⟨rule, after, found, valid, rest ++ after, ?_⟩
  rw [split]
  exact .refl _

end Grammar

namespace Predictive

variable {grammar : Grammar} {nonterminal terminal front start : Nat}
  {string rest otherRest : List Symbol} {core other : Core}

/-- A rule is predicted by what its body goes on with. -/
theorem predicts_of_goesOnWith {id : Nat} {body whole : List Symbol}
    (found : grammar.rules[id]? = some ⟨nonterminal, body⟩)
    (derives : grammar.Derives body whole) (goesOn : grammar.GoesOnWith nonterminal whole front) :
    Predicts grammar nonterminal front id :=
  ⟨_, found, rfl, derives.goesOnWith goesOn⟩

/-- The rule of a body is predicted by what a spine that goes on below the body goes on with. -/
theorem predicts_of_inner {id head : Nat} {left right : List Symbol}
    (found : grammar.rules[id]? = some ⟨head, left ++ .nonterminal nonterminal :: right⟩)
    (inner : grammar.Spine nonterminal string core rest)
    (goesOn : grammar.GoesOnWith head (left ++ string ++ (rest ++ right)) front) :
    Predicts grammar head front id := by
  have below := inner.derives.context left right
  refine predicts_of_goesOnWith found below ?_
  simpa using goesOn

/-- A spine that passes a nonterminal first expands the one it begins at into a string that begins
with that nonterminal. -/
theorem unfolds_of_spine {passed : Nat} {others : List Symbol}
    (spine : grammar.Spine nonterminal (.nonterminal passed :: others) core rest)
    (goesOn : grammar.GoesOnWith nonterminal (.nonterminal passed :: others ++ rest) front) :
    ∃ behind, Relation.TransGen (Unfolds grammar front) [.nonterminal nonterminal]
      (.nonterminal passed :: behind) := by
  generalize isString : Symbol.nonterminal passed :: others = string at spine goesOn
  induction spine with
  | @here head id left right found =>
      have predicted := predicts_of_goesOnWith found (.refl _) goesOn
      subst isString
      exact ⟨_, .single (.expand predicted found [])⟩
  | @within head id inner left right string rest core found below ih =>
      have predicted := predicts_of_inner found below goesOn
      have entered : Unfolds grammar front [.nonterminal head]
          (left ++ .nonterminal inner :: right ++ []) := .expand predicted found []
      cases left with
      | cons symbol left =>
          obtain ⟨rfl, _⟩ := List.cons.inj isString
          exact ⟨_, .single entered⟩
      | nil =>
          -- Nothing is passed in this rule, so the next one has the whole string to pass.
          have goesOnBelow : grammar.GoesOnWith inner (string ++ rest) front := by
            refine .inner (List.mem_of_getElem? found) ?_
            simpa using goesOn
          obtain ⟨behind, unfolds⟩ := ih isString goesOnBelow
          have inPlace := unfolds.lift (· ++ right) fun _ _ step => step.append right
          rw [List.append_nil] at entered
          exact ⟨behind ++ right, .head entered inPlace⟩

/-- The nonterminals in bodies all derive the empty string or a string that begins with a
terminal. -/
def BodiesOpen (grammar : Grammar) : Prop :=
  ∀ rule ∈ grammar.rules, ∀ nonterminal, .nonterminal nonterminal ∈ rule.body →
    grammar.Opens nonterminal

/-- What a spine passes begins with the same terminal whatever comes after it, as long as the
terminal after it is the same. -/
theorem BodiesOpen.exists_goesOnWith_append (opens : BodiesOpen grammar)
    (spine : grammar.Spine nonterminal string core rest) (terminal : Nat) :
    ∃ front, ∀ nonterminal rest, grammar.GoesOnWith nonterminal rest terminal →
      grammar.GoesOnWith nonterminal (string ++ rest) front := by
  have allOpen (inner : Nat) (member : .nonterminal inner ∈ string) : grammar.Opens inner := by
    obtain ⟨rule, isRule, inBody⟩ := spine.exists_mem_body member
    exact opens rule isRule inner inBody
  rcases Grammar.derives_nil_or_exists_beginning allOpen with vanishes | ⟨front, begins⟩
  · exact ⟨terminal,
      fun _ _ goesOn => Grammar.goesOnWith_append.mpr (.inr ⟨vanishes, goesOn⟩)⟩
  · exact ⟨front, fun _ _ _ => Grammar.goesOnWith_append.mpr (.inl begins)⟩

section

variable (unique : HasUniquePredictions grammar) (opens : BodiesOpen grammar)
include unique opens

/-- No spine first passes the nonterminal it begins at. -/
theorem not_spine_itself {others : List Symbol}
    (goesOn : grammar.GoesOnWith nonterminal rest terminal) :
    ¬ grammar.Spine nonterminal (.nonterminal nonterminal :: others) core rest := by
  intro spine
  obtain ⟨front, begins⟩ := opens.exists_goesOnWith_append spine terminal
  obtain ⟨behind, unfolds⟩ := unfolds_of_spine spine (begins _ _ goesOn)
  exact not_unfolds_itself unique behind unfolds

/-- Where a spine goes on below a symbol of a body, a marker in that body that has passed the same
symbols stands in front of the symbol. -/
theorem next?_of_inner {id head : Nat} {left right back : List Symbol}
    (found : grammar.rules[id]? = some ⟨head, left ++ .nonterminal nonterminal :: right⟩)
    (inner : grammar.Spine nonterminal string core rest)
    (goesOn : grammar.GoesOnWith nonterminal rest terminal)
    (split : left ++ .nonterminal nonterminal :: right = left ++ string ++ back) :
    grammar.next? ⟨id, (left ++ string).length⟩ = some (.nonterminal nonterminal) := by
  rw [List.append_assoc, List.append_cancel_left_eq] at split
  cases string with
  | nil => simp [Grammar.next?, found]
  | cons symbol others =>
      obtain ⟨rfl, _⟩ := List.cons.inj split
      exact absurd inner (not_spine_itself unique opens goesOn)

omit opens in
/-- Without conflicts, a spine enters the rule that is predicted. -/
theorem spine_enters {id : Nat} {body : List Symbol}
    (predicted : Predicts grammar nonterminal front id)
    (found : grammar.rules[id]? = some ⟨nonterminal, body⟩)
    (spine : grammar.Spine nonterminal string core rest)
    (goesOn : grammar.GoesOnWith nonterminal (string ++ rest) front) :
    (core = ⟨id, string.length⟩ ∧ body = string ++ rest) ∨
      ∃ left inner right passed behind, body = left ++ .nonterminal inner :: right ∧
        string = left ++ passed ∧ rest = behind ++ right ∧
        grammar.Spine inner passed core behind := by
  cases spine with
  | here isFound =>
      obtain rfl := unique _ _ _ _ predicted (predicts_of_goesOnWith isFound (.refl _) goesOn)
      exact .inl ⟨rfl, (Rule.mk.inj (Option.some.inj (found.symm.trans isFound))).2⟩
  | within isFound below =>
      obtain rfl := unique _ _ _ _ predicted (predicts_of_inner isFound below goesOn)
      exact .inr ⟨_, _, _, _, _, (Rule.mk.inj (Option.some.inj (found.symm.trans isFound))).2,
        rfl, rfl, below⟩

/-- Spines that enter the same rule and pass the same string go on below the same symbol of its
body, since otherwise one of them would pass that symbol twice. -/
theorem eq_of_inner {inner otherInner : Nat} {left right passed behind : List Symbol}
    {otherLeft otherRight otherPassed otherBehind : List Symbol}
    (sameBody : left ++ .nonterminal inner :: right =
      otherLeft ++ .nonterminal otherInner :: otherRight)
    (sameString : left ++ passed = otherLeft ++ otherPassed)
    (below : grammar.Spine inner passed core behind)
    (otherBelow : grammar.Spine otherInner otherPassed other otherBehind)
    (goesOn : grammar.GoesOnWith inner behind terminal)
    (otherGoesOn : grammar.GoesOnWith otherInner otherBehind terminal) :
    otherInner = inner ∧ otherPassed = passed := by
  rcases append_eq_append_cons sameBody with ⟨between, rfl, _⟩ | ⟨between, rfl, isRest⟩
  · rw [List.append_assoc, List.append_cancel_left_eq] at sameString
    rw [← sameString] at otherBelow
    exact absurd otherBelow (not_spine_itself unique opens otherGoesOn)
  · rw [List.append_assoc, List.append_cancel_left_eq] at sameString
    cases between with
    | nil =>
        obtain ⟨sameInner, _⟩ := List.cons.inj isRest
        exact ⟨(Symbol.nonterminal.inj sameInner).symm, sameString.symm⟩
    | cons symbol between =>
        obtain ⟨rfl, _⟩ := List.cons.inj isRest
        rw [sameString] at below
        exact absurd below (not_spine_itself unique opens goesOn)

/-- Without conflicts, all spines that pass the same string and go on with the same terminal lead to
the same core, unless they stop in front of a nonterminal. -/
theorem core_eq_of_spines (first : grammar.Spine nonterminal string core rest)
    (second : grammar.Spine nonterminal string other otherRest)
    (goesOn : grammar.GoesOnWith nonterminal rest terminal)
    (otherGoesOn : grammar.GoesOnWith nonterminal otherRest terminal)
    (stops : ∀ inner, grammar.next? core ≠ some (.nonterminal inner))
    (otherStops : ∀ inner, grammar.next? other ≠ some (.nonterminal inner)) : core = other := by
  -- Both spines enter the same rule, and then both stop in it or go on below the same symbol.
  induction first generalizing other otherRest with
  | @here head id string rest found =>
      obtain ⟨front, begins⟩ := opens.exists_goesOnWith_append (.here found) terminal
      have predicted := predicts_of_goesOnWith found (.refl _) (begins _ _ goesOn)
      rcases spine_enters unique predicted found second (begins _ _ otherGoesOn) with
        ⟨rfl, _⟩ | ⟨left, inner, right, passed, behind, isBody, rfl, rfl, below⟩
      · rfl
      · rw [isBody] at found
        have goesOnBelow := otherGoesOn.inner (List.mem_of_getElem? found)
        exact absurd (next?_of_inner unique opens found below goesOnBelow isBody.symm) (stops inner)
  | @within head id inner left right passed behind core found below ih =>
      obtain ⟨front, begins⟩ := opens.exists_goesOnWith_append (.within found below) terminal
      have predicted := predicts_of_inner found below (begins _ _ goesOn)
      have goesOnBelow := goesOn.inner (List.mem_of_getElem? found)
      rcases spine_enters unique predicted found second (begins _ _ otherGoesOn) with
        ⟨rfl, isBody⟩ | ⟨otherLeft, otherInner, otherRight, otherPassed, otherBehind, isBody,
          isString, rfl, otherBelow⟩
      · exact absurd (next?_of_inner unique opens found below goesOnBelow isBody)
          (otherStops inner)
      · have otherGoesOnBelow : grammar.GoesOnWith otherInner otherBehind terminal :=
          otherGoesOn.inner (isBody ▸ List.mem_of_getElem? found)
        obtain ⟨rfl, rfl⟩ :=
          eq_of_inner unique opens isBody isString below otherBelow goesOnBelow otherGoesOnBelow
        exact ih otherBelow goesOnBelow otherGoesOnBelow stops otherStops

/-- Without conflicts, one core at most is valid for a string before a terminal, apart from those in
front of nonterminals. -/
theorem core_eq_of_validBefore (starts : grammar.start = .ok start)
    (valid : grammar.ValidBefore string core terminal)
    (otherValid : grammar.ValidBefore string other terminal)
    (stops : ∀ inner, grammar.next? core ≠ some (.nonterminal inner))
    (otherStops : ∀ inner, grammar.next? other ≠ some (.nonterminal inner)) : core = other := by
  obtain ⟨rest, spine, goesOn⟩ := valid.exists_spine starts
  obtain ⟨otherRest, otherSpine, otherGoesOn⟩ := otherValid.exists_spine starts
  exact core_eq_of_spines unique opens spine otherSpine goesOn otherGoesOn stops otherStops

end

end Predictive

end DeterministicParsing
