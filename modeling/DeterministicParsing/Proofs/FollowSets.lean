/-
# Follow sets are exact

A terminal follows a nonterminal if the two stand side by side in a derived string, and the end of
the input follows every nonterminal with which a string derived from the start can end. The Follow
sets hold exactly these terminals. A visit of an occurrence adds only what the rule around it
justifies, and sets that all visits leave alone pass on from every string to the strings derived
from it what can stand behind its nonterminals.
-/
import DeterministicParsing.FollowSets
import DeterministicParsing.Proofs.FirstSets

namespace DeterministicParsing

namespace Grammar

variable {grammar : Grammar}

/-- The terminal can stand right behind the nonterminal, or it is the end of the input and the
nonterminal can stand at the end. -/
def Follows (grammar : Grammar) (nonterminal terminal : Nat) : Prop :=
  (∃ head left right, grammar.Derives [.nonterminal head]
      (left ++ .nonterminal nonterminal :: .terminal terminal :: right)) ∨
    (terminal = endOfInput ∧ ∃ start left, grammar.start = .ok start ∧
      grammar.Derives [.nonterminal start] (left ++ [.nonterminal nonterminal]))

/-- The end of the input follows the start. -/
theorem follows_start {start : Nat} (starts : grammar.start = .ok start) :
    grammar.Follows start endOfInput :=
  .inr ⟨rfl, start, [], starts, .refl _⟩

/-- What can begin the rest of a body follows the nonterminal in front of that rest. -/
theorem follows_of_rest {rule : Rule} {nonterminal terminal : Nat} {left rest : List Symbol}
    (member : rule ∈ grammar.rules) (body : rule.body = left ++ .nonterminal nonterminal :: rest)
    (begins : grammar.DerivesBeginning rest terminal) : grammar.Follows nonterminal terminal := by
  obtain ⟨right, derives⟩ := begins
  have inPlace := derives.context (left ++ [.nonterminal nonterminal]) []
  simp only [List.append_nil, List.append_assoc, List.singleton_append] at inPlace
  refine .inl ⟨rule.head, left, right, (Derives.of_rule member).trans ?_⟩
  rw [body]
  exact inPlace

/-- What follows the head of a rule follows a nonterminal of its body if what comes after that can
be empty. -/
theorem Follows.of_head {rule : Rule} {nonterminal terminal : Nat} {left rest : List Symbol}
    (follows : grammar.Follows rule.head terminal) (member : rule ∈ grammar.rules)
    (body : rule.body = left ++ .nonterminal nonterminal :: rest)
    (vanishes : grammar.Derives rest []) : grammar.Follows nonterminal terminal := by
  have replaced (before after : List Symbol) :
      grammar.Derives (before ++ .nonterminal rule.head :: after)
        ((before ++ left) ++ .nonterminal nonterminal :: after) := by
    have ruled := (Derives.of_rule member).context before after
    have emptied := vanishes.context (before ++ (left ++ [.nonterminal nonterminal])) after
    rw [body] at ruled
    simp only [List.append_assoc, List.cons_append, List.nil_append] at ruled emptied ⊢
    exact ruled.trans emptied
  rcases follows with ⟨head, before, after, derives⟩ | ⟨rfl, start, before, starts, derives⟩
  · exact .inl ⟨head, before ++ left, after, derives.trans (replaced before _)⟩
  · exact .inr ⟨rfl, start, before ++ left, starts, derives.trans (replaced before [])⟩

/-- Nothing follows a nonterminal but the end of the input and the terminals in the bodies. -/
theorem Follows.mem {nonterminal terminal : Nat} (follows : grammar.Follows nonterminal terminal) :
    terminal ∈ endOfInput :: grammar.bodyTerminals := by
  rcases follows with ⟨head, left, right, derives⟩ | ⟨rfl, _⟩
  · have occurs : Symbol.terminal terminal ∈
        left ++ .nonterminal nonterminal :: .terminal terminal :: right := by simp
    rcases derives.mem occurs with impossible | inBody
    · simp at impossible
    · exact List.mem_cons_of_mem _ (mem_bodyTerminals.mpr inBody)
  · exact List.mem_cons_self

/-- What can stand behind a nonterminal comes from a declared one. Only such a nonterminal has
rules. -/
theorem follows_iff {start nonterminal terminal : Nat} (starts : grammar.start = .ok start) :
    grammar.Follows nonterminal terminal ↔
      (∃ head < grammar.nonterminalCount, ∃ left right, grammar.Derives [.nonterminal head]
        (left ++ .nonterminal nonterminal :: .terminal terminal :: right)) ∨
      (terminal = endOfInput ∧ ∃ left, grammar.Derives [.nonterminal start]
        (left ++ [.nonterminal nonterminal])) := by
  refine or_congr ⟨?_, ?_⟩ (and_congr_right fun _ => ⟨?_, ?_⟩)
  · rintro ⟨head, left, right, derives⟩
    refine ⟨head, derives.declares_of_ne fun same => ?_, left, right, derives⟩
    have lengths := congrArg List.length same
    simp only [List.length_append, List.length_cons, List.length_nil] at lengths
    omega
  · rintro ⟨head, _, left, right, derives⟩
    exact ⟨head, left, right, derives⟩
  · rintro ⟨other, left, otherStarts, derives⟩
    obtain rfl : start = other := Except.ok.inj (starts.symm.trans otherStarts)
    exact ⟨left, derives⟩
  · rintro ⟨left, derives⟩
    exact ⟨start, left, starts, derives⟩

/-- Where the start reaches everything, what follows is what stands behind in the strings derived
from the start with the end of the input after it. -/
theorem follows_iff_of_reaches {start nonterminal terminal : Nat}
    (starts : grammar.start = .ok start)
    (reaches : ∀ id < grammar.nonterminalCount, grammar.Reaches id) :
    grammar.Follows nonterminal terminal ↔
      ∃ left right, grammar.Derives [.nonterminal start, .terminal endOfInput]
        (left ++ .nonterminal nonterminal :: .terminal terminal :: right) := by
  have ended {string : List Symbol} (derives : grammar.Derives [.nonterminal start] string) :
      grammar.Derives [.nonterminal start, .terminal endOfInput]
        (string ++ [.terminal endOfInput]) :=
    derives.append (.refl [.terminal endOfInput])
  constructor
  · intro follows
    rcases (follows_iff starts).mp follows with
      ⟨head, declared, left, right, derives⟩ | ⟨rfl, left, derives⟩
    · obtain ⟨other, before, after, otherStarts, reached⟩ := reaches head declared
      obtain rfl : start = other := Except.ok.inj (starts.symm.trans otherStarts)
      have whole := ended (reached.trans (derives.context before after))
      exact ⟨before ++ left, right ++ (after ++ [.terminal endOfInput]), by simpa using whole⟩
    · exact ⟨left, [], by simpa using ended derives⟩
  · rintro ⟨left, right, derives⟩
    obtain ⟨string, last, same, fromStart, fromEnd⟩ :=
      @Derives.of_append grammar [.nonterminal start] [.terminal endOfInput] _ derives
    obtain rfl : last = word [endOfInput] := eq_of_derives_word fromEnd
    rcases append_eq_append_cons same.symm with ⟨rest, rfl, behind⟩ | ⟨rest, _, isEnd⟩
    · cases rest with
      | nil =>
          obtain ⟨isEnd, _⟩ := List.cons.inj behind
          exact .inr ⟨Symbol.terminal.inj isEnd, start, left, starts, fromStart⟩
      | cons symbol rest =>
          obtain ⟨rfl, _⟩ := List.cons.inj behind
          exact .inl ⟨start, left, rest, fromStart⟩
    · have occurs : Symbol.nonterminal nonterminal ∈ word [endOfInput] := by simp [isEnd]
      exact absurd occurs (nonterminal_not_mem_word _ _)

/-- Properties of strings that replacements keep hold of everything that is derived. -/
theorem Derives.induction_tail {first last : List Symbol} {holds : List Symbol → Prop}
    (derives : grammar.Derives first last) (base : holds first)
    (step : ∀ string next, holds string → grammar.Expands string next → holds next) :
    holds last := by
  induction derives with
  | refl => exact base
  | head expands _ ih => exact ih (step _ _ base expands)

end Grammar

namespace FollowSets

variable {grammar : Grammar} {first : FirstSets} {follow : FollowSets}

/-- The set of the nonterminal holds the terminal. -/
def Holds (follow : FollowSets) (nonterminal terminal : Nat) : Prop :=
  ∃ set, follow.sets[nonterminal]? = some set ∧ terminal ∈ set

/-- Which nonterminals are followed by which terminals, going by the sets. -/
def facts (follow : FollowSets) : Set (Nat × Nat) := fun fact => follow.Holds fact.1 fact.2

/-- Whatever the sets say is justified by a derivation. -/
structure Sound (grammar : Grammar) (follow : FollowSets) : Prop where
  /-- Every nonterminal has a set. -/
  length_eq : follow.sets.length = grammar.nonterminalCount
  /-- What a set holds does follow. -/
  follows : ∀ nonterminal terminal, follow.Holds nonterminal terminal →
    grammar.Follows nonterminal terminal

/-- Addition to the set of a nonterminal that has one. -/
theorem exists_add_eq_ok {nonterminal : Nat} (covered : nonterminal < follow.sets.length)
    (set : TerminalSet) :
    ∃ next, follow.add nonterminal set = .ok next ∧ next.sets.length = follow.sets.length ∧
      ∀ id terminal, next.Holds id terminal ↔
        follow.Holds id terminal ∨ (id = nonterminal ∧ terminal ∈ set) := by
  have found : follow.sets[nonterminal]? = some follow.sets[nonterminal] :=
    List.getElem?_eq_getElem covered
  refine ⟨⟨follow.sets.set nonterminal (follow.sets[nonterminal] ∪ set)⟩, ?_, ?_, ?_⟩
  · simp [add, get, found]
  · simp
  · intro id terminal
    by_cases same : id = nonterminal
    · subst same
      simp [Holds, covered]
    · simp [Holds, same, Ne.symm same]

/-- A visit of an occurrence adds what can begin the rest of the body, and what follows the head if
that rest can be empty. -/
theorem exists_visitOccurrence_eq_ok (exact : FirstSets.Exact grammar first)
    {head nonterminal : Nat} {rest : List Symbol} (headCovered : head < follow.sets.length)
    (covered : nonterminal < follow.sets.length)
    (declared : ∀ symbol ∈ rest, grammar.Declares symbol) :
    ∃ next, visitOccurrence first head follow nonterminal rest = .ok next ∧
      next.sets.length = follow.sets.length ∧
      ∀ id terminal, next.Holds id terminal ↔ follow.Holds id terminal ∨
        (id = nonterminal ∧ (grammar.DerivesBeginning rest terminal ∨
          (grammar.Derives rest [] ∧ follow.Holds head terminal))) := by
  obtain ⟨set, setFound, vanish, begins⟩ := exact.exists_ofSequence_eq_ok declared
  obtain ⟨extended, extendedFound, sameLength, extendedHolds⟩ :=
    exists_add_eq_ok covered set.terminals
  by_cases passes : (set.nullable && head != nonterminal) = true
  · rw [Bool.and_eq_true, bne_iff_ne] at passes
    have headFound : extended.sets[head]? = some extended.sets[head] :=
      List.getElem?_eq_getElem (sameLength ▸ headCovered)
    obtain ⟨next, nextFound, nextLength, nextHolds⟩ :=
      exists_add_eq_ok (sameLength ▸ covered) extended.sets[head]
    refine ⟨next, ?_, nextLength.trans sameLength, ?_⟩
    · simp [visitOccurrence, setFound, extendedFound, passes, get, headFound, nextFound]
    · intro id terminal
      have headHolds : terminal ∈ extended.sets[head] ↔ follow.Holds head terminal := by
        have here := extendedHolds head terminal
        simpa [Holds, headFound, passes.2] using here
      rw [nextHolds, extendedHolds, headHolds, begins, ← vanish]
      simp only [passes.1, true_and]
      tauto
  · refine ⟨extended, ?_, sameLength, ?_⟩
    · simp only [visitOccurrence, setFound, extendedFound, ok_bind, if_neg passes]
      rfl
    · intro id terminal
      rw [extendedHolds, begins]
      simp only [Bool.and_eq_true, bne_iff_ne, not_and, not_not, vanish] at passes
      constructor
      · rintro (known | ⟨same, inSet⟩)
        · exact .inl known
        · exact .inr ⟨same, .inl inSet⟩
      · rintro (known | ⟨rfl, inSet | ⟨vanishes, known⟩⟩)
        · exact .inl known
        · exact .inr ⟨rfl, inSet⟩
        · exact .inl (passes vanishes ▸ known)

/-! ## Passes over the occurrences -/

/-- The occurrences of nonterminals in a string, each with what comes after it. -/
def occurrences : List Symbol → List (Nat × List Symbol)
  | [] => []
  | .terminal _ :: rest => occurrences rest
  | .nonterminal id :: rest => (id, rest) :: occurrences rest

theorem mem_occurrences {symbols rest : List Symbol} {nonterminal : Nat} :
    (nonterminal, rest) ∈ occurrences symbols ↔
      ∃ left, symbols = left ++ .nonterminal nonterminal :: rest := by
  induction symbols with
  | nil => simp [occurrences]
  | cons symbol others ih =>
      have split : (∃ left, symbol :: others = left ++ .nonterminal nonterminal :: rest) ↔
          (symbol = .nonterminal nonterminal ∧ others = rest) ∨
            ∃ left, others = left ++ .nonterminal nonterminal :: rest := by
        constructor
        · rintro ⟨left, same⟩
          cases left with
          | nil => exact .inl (List.cons.inj same)
          | cons other left => exact .inr ⟨left, (List.cons.inj same).2⟩
        · rintro (⟨rfl, rfl⟩ | ⟨left, rfl⟩)
          · exact ⟨[], rfl⟩
          · exact ⟨symbol :: left, rfl⟩
      rw [split, ← ih]
      cases symbol with
      | terminal id => simp [occurrences]
      | nonterminal id => simp [occurrences, eq_comm]

theorem visitBody_eq_foldlM (head : Nat) (symbols : List Symbol) :
    visitBody first head follow symbols =
      (occurrences symbols).foldlM
        (fun follow occurrence => visitOccurrence first head follow occurrence.1 occurrence.2)
        follow := by
  induction symbols generalizing follow with
  | nil => rfl
  | cons symbol rest ih =>
      cases symbol with
      | terminal id => exact ih
      | nonterminal id =>
          rw [visitBody, occurrences, List.foldlM_cons]
          congr 1
          funext next
          exact ih

/-- A visit of an occurrence in the body of a rule succeeds on sound sets. -/
theorem Sound.exists_visitOccurrence_eq_ok (sound : Sound grammar follow)
    (exact : FirstSets.Exact grammar first) {rule : Rule} (member : rule ∈ grammar.rules)
    (declared : ∀ symbol ∈ rule.body, grammar.Declares symbol) {left rest : List Symbol}
    {nonterminal : Nat} (body : rule.body = left ++ .nonterminal nonterminal :: rest) :
    ∃ next, visitOccurrence first rule.head follow nonterminal rest = .ok next ∧
      next.sets.length = grammar.nonterminalCount ∧
      ∀ id terminal, next.Holds id terminal ↔ follow.Holds id terminal ∨
        (id = nonterminal ∧ (grammar.DerivesBeginning rest terminal ∨
          (grammar.Derives rest [] ∧ follow.Holds rule.head terminal))) := by
  have headCovered : rule.head < follow.sets.length := by
    rw [sound.length_eq]
    exact grammar.head_lt rule member
  have covered : nonterminal < follow.sets.length := by
    rw [sound.length_eq]
    exact declared (.nonterminal nonterminal) (by simp [body])
  have restDeclared : ∀ symbol ∈ rest, grammar.Declares symbol :=
    fun symbol inRest => declared symbol (by simp [body, inRest])
  obtain ⟨next, found, sameLength, holds⟩ :=
    FollowSets.exists_visitOccurrence_eq_ok exact headCovered covered restDeclared
  exact ⟨next, found, sameLength.trans sound.length_eq, holds⟩

/-- A visit of an occurrence in the body of a rule adds what the rule justifies. -/
theorem grows_visitOccurrence (exact : FirstSets.Exact grammar first) {rule : Rule}
    (member : rule ∈ grammar.rules) (declared : ∀ symbol ∈ rule.body, grammar.Declares symbol)
    {occurrence : Nat × List Symbol} (occurs : occurrence ∈ occurrences rule.body) :
    Grows (Sound grammar) facts
      (visitOccurrence first rule.head · occurrence.1 occurrence.2) := by
  obtain ⟨nonterminal, rest⟩ := occurrence
  obtain ⟨left, body⟩ := mem_occurrences.mp occurs
  intro follow sound
  obtain ⟨next, found, length_eq, holds⟩ :=
    sound.exists_visitOccurrence_eq_ok exact member declared body
  refine ⟨next, found, ⟨length_eq, ?_⟩, ?_⟩
  · intro id terminal held
    rcases (holds id terminal).mp held with known | ⟨rfl, begins | ⟨vanishes, known⟩⟩
    · exact sound.follows id terminal known
    · exact Grammar.follows_of_rest member body begins
    · exact (sound.follows _ terminal known).of_head member body vanishes
  · rintro ⟨id, terminal⟩ known
    exact (holds id terminal).mpr (.inl known)

/-- Good sets are told apart by what they hold. -/
theorem distinguishes_facts : Distinguishes (Sound grammar) facts := by
  intro left right leftSound rightSound same
  have holds (id terminal : Nat) : left.Holds id terminal ↔ right.Holds id terminal :=
    iff_of_eq (congrFun same (id, terminal))
  obtain ⟨leftSets⟩ := left
  obtain ⟨rightSets⟩ := right
  congr 1
  apply List.ext_getElem
  · rw [leftSound.length_eq, rightSound.length_eq]
  · intro id leftRange rightRange
    apply TerminalSet.ext
    intro terminal
    simpa [Holds, leftRange, rightRange] using holds id terminal

/-- A visit of the body of a rule adds what the rule justifies. -/
theorem grows_visitBody (exact : FirstSets.Exact grammar first) {rule : Rule}
    (member : rule ∈ grammar.rules)
    (declared : ∀ symbol ∈ rule.body, grammar.Declares symbol) :
    Grows (Sound grammar) facts (visitBody first rule.head · rule.body) := by
  have visits := Grows.foldlM fun _ occurs => grows_visitOccurrence exact member declared occurs
  simpa only [visitBody_eq_foldlM] using visits

/-- All that sound sets can hold: the end of the input and the terminals of the bodies. -/
theorem Sound.facts_subset (sound : Sound grammar follow) :
    follow.facts ⊆ Set.Iio grammar.nonterminalCount ×ˢ
      {terminal | terminal ∈ endOfInput :: grammar.bodyTerminals} := by
  rintro ⟨id, terminal⟩ holds
  have follows := sound.follows id terminal holds
  obtain ⟨set, found, _⟩ := holds
  constructor
  · rw [Set.mem_Iio, ← sound.length_eq]
    exact (List.getElem?_eq_some_iff.mp found).1
  · exact follows.mem

/-- The set of each nonterminal of the string holds what can stand behind it, including what follows
`head` if nothing need stand there. -/
def PassesOn (grammar : Grammar) (follow : FollowSets) (head : Nat) (string : List Symbol) : Prop :=
  ∀ left nonterminal rest, string = left ++ .nonterminal nonterminal :: rest →
    ∀ terminal, (grammar.DerivesBeginning rest terminal ∨
      (grammar.Derives rest [] ∧ follow.Holds head terminal)) →
        follow.Holds nonterminal terminal

/-- The sets pass on what they hold to the bodies of all rules. -/
def Closed (grammar : Grammar) (follow : FollowSets) : Prop :=
  ∀ rule ∈ grammar.rules, follow.PassesOn grammar rule.head rule.body

/-- Sound sets that a pass leaves alone are closed. -/
theorem Sound.closed_of_pass (sound : Sound grammar follow) (exact : FirstSets.Exact grammar first)
    (bodies : grammar.BodiesDeclared) (fixed : pass grammar first follow = .ok follow) :
    Closed grammar follow := by
  intro rule member left nonterminal rest body terminal called
  have bodyFixed := Grows.eq_of_foldlM_eq
    (fun rule member => grows_visitBody exact member (bodies rule member)) distinguishes_facts
    sound fixed rule member
  rw [visitBody_eq_foldlM] at bodyFixed
  have occurrenceFixed := Grows.eq_of_foldlM_eq
    (fun _ occurs => grows_visitOccurrence exact member (bodies rule member) occurs)
    distinguishes_facts sound bodyFixed (nonterminal, rest) (mem_occurrences.mpr ⟨left, body⟩)
  obtain ⟨next, found, _, holds⟩ :=
    sound.exists_visitOccurrence_eq_ok exact member (bodies rule member) body
  obtain rfl : next = follow := Except.ok.inj (found.symm.trans occurrenceFixed)
  exact (holds nonterminal terminal).mpr (.inr ⟨rfl, called⟩)

theorem passesOn_singleton (head : Nat) : follow.PassesOn grammar head [.nonterminal head] := by
  intro left nonterminal rest same terminal called
  cases left with
  | nil =>
      obtain ⟨sameHead, rfl⟩ := List.cons.inj same
      cases sameHead
      rcases called with ⟨right, derives⟩ | ⟨_, holds⟩
      · cases (Grammar.eq_of_derives_word derives : _ = word [])
      · exact holds
  | cons symbol left => simp at same

/-- Closed sets pass on to a string what they pass on to a string it was derived from. -/
theorem Closed.passesOn_expands (closed : Closed grammar follow) {head : Nat}
    {string next : List Symbol} (passes : follow.PassesOn grammar head string)
    (expands : grammar.Expands string next) : follow.PassesOn grammar head next := by
  obtain ⟨member, before, after⟩ := expands
  rename_i rule
  have ruled := Grammar.Derives.of_rule member
  intro left nonterminal rest same terminal called
  rcases append_eq_append_cons same with ⟨middle, rfl, rfl⟩ | ⟨middle, rfl, restEq⟩
  · have derives : grammar.Derives (middle ++ .nonterminal rule.head :: after)
        (middle ++ (rule.body ++ after)) := by
      simpa using ruled.context middle after
    refine passes left nonterminal (middle ++ .nonterminal rule.head :: after) (by simp) terminal ?_
    rcases called with begins | ⟨vanishes, holds⟩
    · exact .inl (derives.beginning begins)
    · exact .inr ⟨derives.trans vanishes, holds⟩
  · rcases append_eq_append_cons restEq with ⟨inner, bodyEq, rfl⟩ | ⟨inner, rfl, rfl⟩
    · refine closed rule member middle nonterminal inner bodyEq terminal ?_
      rw [Grammar.derivesBeginning_append, Grammar.derives_append_nil] at called
      rcases called with (inBody | ⟨vanishes, inAfter⟩) |
        ⟨⟨vanishes, afterVanishes⟩, holds⟩
      · exact .inl inBody
      · exact .inr ⟨vanishes, passes before rule.head after rfl terminal (.inl inAfter)⟩
      · exact .inr ⟨vanishes,
          passes before rule.head after rfl terminal (.inr ⟨afterVanishes, holds⟩)⟩
    · exact passes (before ++ .nonterminal rule.head :: inner) nonterminal rest (by simp) terminal
        called

/-- What follows a nonterminal is in its set, if the sets are closed and that of the start holds the
end of the input. -/
theorem Closed.holds_of_follows (closed : Closed grammar follow)
    (ends : ∀ start, grammar.start = .ok start → follow.Holds start endOfInput)
    {nonterminal terminal : Nat} (follows : grammar.Follows nonterminal terminal) :
    follow.Holds nonterminal terminal := by
  have passes {head : Nat} {string : List Symbol}
      (derives : grammar.Derives [.nonterminal head] string) :
      follow.PassesOn grammar head string :=
    derives.induction_tail (passesOn_singleton head) fun _ _ => closed.passesOn_expands
  rcases follows with ⟨head, left, right, derives⟩ | ⟨rfl, start, left, starts, derives⟩
  · exact passes derives left nonterminal _ rfl terminal (.inl ⟨right, .refl _⟩)
  · exact passes derives left nonterminal [] rfl endOfInput (.inr ⟨.refl _, ends start starts⟩)

/-- The sets hold exactly what follows. -/
structure Exact (grammar : Grammar) (follow : FollowSets) : Prop where
  /-- Every nonterminal has a set. -/
  length_eq : follow.sets.length = grammar.nonterminalCount
  /-- A set holds the terminals that follow its nonterminal and no other. -/
  holds_iff : ∀ nonterminal terminal,
    follow.Holds nonterminal terminal ↔ grammar.Follows nonterminal terminal

/-- Every declared nonterminal has its set. -/
theorem Exact.exists_get_eq_ok (exact : Exact grammar follow) {nonterminal : Nat}
    (declared : nonterminal < grammar.nonterminalCount) :
    ∃ set, follow.get nonterminal = .ok set ∧
      ∀ terminal, terminal ∈ set ↔ grammar.Follows nonterminal terminal := by
  rw [← exact.length_eq] at declared
  have found : follow.sets[nonterminal]? = some follow.sets[nonterminal] :=
    List.getElem?_eq_getElem declared
  refine ⟨follow.sets[nonterminal], by simp [get, found], fun terminal => ?_⟩
  rw [← exact.holds_iff, Holds, found]
  simp

theorem exists_initial (start : Nat) (starts : grammar.start = .ok start)
    (declared : start < grammar.nonterminalCount) :
    ∃ initial, (⟨List.replicate grammar.nonterminalCount ∅⟩ : FollowSets).add start
      {endOfInput} = .ok initial ∧ Sound grammar initial ∧ initial.Holds start endOfInput := by
  have covered : start < (List.replicate grammar.nonterminalCount (∅ : TerminalSet)).length := by
    simpa using declared
  obtain ⟨initial, added, sameLength, holds⟩ :=
    @exists_add_eq_ok ⟨List.replicate grammar.nonterminalCount ∅⟩ start covered {endOfInput}
  refine ⟨initial, added, ⟨by simpa using sameLength, ?_⟩, ?_⟩
  · intro nonterminal terminal held
    rcases (holds nonterminal terminal).mp held with ⟨set, found, member⟩ | ⟨rfl, member⟩
    · rw [(List.mem_replicate.mp (List.mem_of_getElem? found)).2] at member
      simp at member
    · rw [TerminalSet.mem_singleton.mp member]
      exact Grammar.follows_start starts
  · exact (holds start endOfInput).mpr (.inr ⟨rfl, by simp⟩)

/-- Passes over the occurrences in a well-formed grammar come to rest, and then the sets are
exact. -/
theorem exists_comesToRest {start : Nat} (bodies : grammar.BodiesDeclared)
    (exact : FirstSets.Exact grammar first) (starts : grammar.start = .ok start)
    (declared : start < grammar.nonterminalCount) :
    ∃ initial follow passes,
      (⟨List.replicate grammar.nonterminalCount ∅⟩ : FollowSets).add start
      {endOfInput} = .ok initial ∧ ComesToRest (pass grammar first) initial follow passes ∧
      passes ≤ passBound grammar ∧
      Exact grammar follow := by
  obtain ⟨initial, added, initialSound, initialHolds⟩ := exists_initial start starts declared
  have grows : Grows (Sound grammar) facts (pass grammar first) :=
    Grows.foldlM fun rule member => grows_visitBody exact member (bodies rule member)
  have finite : (Set.Iio grammar.nonterminalCount ×ˢ
      {terminal | terminal ∈ endOfInput :: grammar.bodyTerminals}).Finite :=
    (Set.finite_Iio _).prod (List.finite_toSet _)
  have fewFacts : (Set.Iio grammar.nonterminalCount ×ˢ
      {terminal | terminal ∈ endOfInput :: grammar.bodyTerminals}).ncard < passBound grammar := by
    rw [Set.ncard_prod, Set.ncard_Iio_nat, passBound, Nat.lt_succ_iff]
    refine Nat.mul_le_mul_left _ ((ncard_setOf_mem_le _).trans ?_)
    exact Nat.succ_le_succ grammar.length_bodyTerminals_le
  obtain ⟨follow, passes, rests, sound, grown, atMost⟩ :=
    grows.exists_comesToRest distinguishes_facts finite
      (fun _ sound => sound.facts_subset) initialSound
  refine ⟨initial, follow, passes, added, rests, by omega, sound.length_eq,
    fun nonterminal terminal => ⟨sound.follows nonterminal terminal, ?_⟩⟩
  refine (sound.closed_of_pass exact bodies rests.fixed).holds_of_follows
    fun other otherStarts => ?_
  obtain rfl : start = other := Except.ok.inj (starts.symm.trans otherStarts)
  exact grown (show (start, endOfInput) ∈ initial.facts from initialHolds)

/-- The computation makes these passes. -/
theorem computeCounted_eq_ok {start passes : Nat} {initial : FollowSets}
    (starts : grammar.start = .ok start) (declared : start < grammar.nonterminalCount)
    (added : (⟨List.replicate grammar.nonterminalCount ∅⟩ : FollowSets).add start
      {endOfInput} = .ok initial)
    (rests : ComesToRest (pass grammar first) initial follow passes)
    (enough : passes ≤ passBound grammar) :
    computeCounted grammar first = .ok (follow, passes) := by
  have nonempty := Grammar.isEmpty_nonterminalNames_of_lt declared
  simp [computeCounted, nonempty, starts, added, rests.stabilize_eq_ok enough]

/-- The Follow sets of a well-formed grammar are found from exact First sets, and they are exact. -/
theorem exists_computeCounted_eq_ok (wellFormed : grammar.WellFormed)
    (exact : FirstSets.Exact grammar first) :
    ∃ follow passes, computeCounted grammar first = .ok (follow, passes) ∧
      Exact grammar follow := by
  obtain ⟨bodies, start, starts, declared⟩ := wellFormed
  obtain ⟨initial, follow, passes, added, rests, enough, followExact⟩ :=
    exists_comesToRest bodies exact starts declared
  exact ⟨follow, passes, computeCounted_eq_ok starts declared added rests enough, followExact⟩

end FollowSets

/-- For every well-formed grammar: with its First sets, passes over the occurrences of nonterminals
come to rest, however many it takes, and the sets that they end with are those that are computed.
The set of a nonterminal holds exactly the terminals that stand right behind it in a string derived
from some nonterminal, reachable or not, and the end of the input if the start derives a string that
ends with it. If the start reaches all nonterminals, these are the terminals right behind it in the
strings derived from the start with the end of the input after it. -/
theorem follow_sets_are_exact (grammar : Grammar) (wellFormed : grammar.WellFormed) :
    ∃ first start initial follow passes,
      FirstSets.compute grammar = .ok first ∧ grammar.start = .ok start ∧
      (⟨List.replicate grammar.nonterminalCount ∅⟩ : FollowSets).add start {endOfInput} =
        .ok initial ∧
      ComesToRest (FollowSets.pass grammar first) initial follow passes ∧
      FollowSets.computeCounted grammar first = .ok (follow, passes) ∧
      FollowSets.compute grammar first = .ok follow ∧
      ∀ nonterminal < grammar.nonterminalCount, ∃ set, follow.get nonterminal = .ok set ∧
        (∀ terminal, terminal ∈ set ↔
          (∃ head < grammar.nonterminalCount, ∃ left right, grammar.Derives [.nonterminal head]
            (left ++ .nonterminal nonterminal :: .terminal terminal :: right)) ∨
          (terminal = endOfInput ∧ ∃ left, grammar.Derives [.nonterminal start]
            (left ++ [.nonterminal nonterminal]))) ∧
        ((∀ id < grammar.nonterminalCount, grammar.Reaches id) →
          ∀ terminal, terminal ∈ set ↔
            ∃ left right, grammar.Derives [.nonterminal start, .terminal endOfInput]
              (left ++ .nonterminal nonterminal :: .terminal terminal :: right)) := by
  obtain ⟨bodies, start, starts, startDeclared⟩ := wellFormed
  obtain ⟨first, firstComputed, firstExact⟩ := FirstSets.exists_compute_eq_ok bodies
  obtain ⟨initial, follow, passes, added, rests, enough, exact⟩ :=
    FollowSets.exists_comesToRest bodies firstExact starts startDeclared
  have counted := FollowSets.computeCounted_eq_ok starts startDeclared added rests enough
  refine ⟨first, start, initial, follow, passes, firstComputed, starts, added, rests, counted,
    by simp [FollowSets.compute, counted], fun nonterminal declared => ?_⟩
  obtain ⟨set, found, holds⟩ := exact.exists_get_eq_ok declared
  refine ⟨set, found, fun terminal => ?_, fun reaches terminal => ?_⟩
  · exact (holds terminal).trans (Grammar.follows_iff starts)
  · exact (holds terminal).trans (Grammar.follows_iff_of_reaches starts reaches)

/-- In `S → A b`, with `A` for any number of `a`, an `A` is followed by `a` or `b`, and by nothing
else, also in the strings derived from `S $end`. -/
theorem follow_sets_of_leftRecursion_are_exact :
    Grammar.leftRecursion.WellFormed ∧ (∀ id < 2, Grammar.leftRecursion.Reaches id) ∧
      ∃ first follow, FirstSets.compute Grammar.leftRecursion = .ok first ∧
      FollowSets.compute Grammar.leftRecursion first = .ok follow ∧
      follow.get 1 = .ok (.ofList [1, 2]) ∧
      ∀ terminal, (terminal = 1 ∨ terminal = 2) ↔
        ∃ left right, Grammar.leftRecursion.Derives [.nonterminal 0, .terminal endOfInput]
          (left ++ .nonterminal 1 :: .terminal terminal :: right) := by
  have reaches : ∀ id < 2, Grammar.leftRecursion.Reaches id := by
    intro id declared
    match id, declared with
    | 0, _ => exact ⟨0, [], [], rfl, .refl _⟩
    | 1, _ =>
        exact ⟨0, [], [.terminal 2], rfl,
          @Grammar.Derives.of_rule Grammar.leftRecursion ⟨0,
            [.nonterminal 1, .terminal 2]⟩ (by decide)⟩
  obtain ⟨first, start, initial, follow, passes, firstComputed, starts, _, _,
    _, computed, exact⟩ :=
    follow_sets_are_exact Grammar.leftRecursion Grammar.wellFormed_leftRecursion
  have evaluates : (FirstSets.compute Grammar.leftRecursion).bind (fun first =>
      (FollowSets.compute Grammar.leftRecursion first).map (·.get 1)) =
      .ok (.ok (.ofList [1, 2])) := by
    decide +kernel
  rw [firstComputed, Except.bind, computed] at evaluates
  have isSet : follow.get 1 = .ok (.ofList [1, 2]) := Except.ok.inj evaluates
  obtain ⟨_, found, _, behind⟩ := exact 1 (by decide)
  cases isSet.symm.trans found
  cases starts
  refine ⟨Grammar.wellFormed_leftRecursion, reaches, first, follow, firstComputed, computed,
    isSet, fun terminal => ?_⟩
  rw [← behind reaches]
  simp

end DeterministicParsing
