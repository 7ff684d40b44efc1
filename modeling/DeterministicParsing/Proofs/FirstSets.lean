/-
# First sets are exact

Going by the sets of its nonterminals, a string of symbols can become empty if each of its symbols
can, and it can begin with whatever its first symbol that cannot become empty, or one before it,
begins with. `ofSequence` computes just that. The sets found by repeated passes are sound, because a
pass adds only what the bodies of rules justify, and when a pass adds nothing they are closed under
all rules, so that nothing is missed. Together: a string can become empty, or begin with a terminal,
by the sets exactly if it derives the empty string, or a string that begins with that terminal.
-/
import DeterministicParsing.FirstSets
import DeterministicParsing.Proofs.FixedPoint
import DeterministicParsing.Proofs.Grammar.Derivation

namespace DeterministicParsing

/-- Any number of `a` and then `b`, with the rules `S → A b`, `A → A a` and `A → ε`. -/
def Grammar.leftRecursion : Grammar :=
  .ofLists ["a", "b"] ["S", "A"]
    [⟨0, [.nonterminal 1, .terminal 2]⟩, ⟨1, [.nonterminal 1, .terminal 1]⟩, ⟨1, []⟩]
    (by decide) (by decide) (by decide)

theorem Grammar.wellFormed_leftRecursion : leftRecursion.WellFormed :=
  ⟨by decide, 0, rfl, by decide⟩

namespace FirstSets

/-! ## What the sets say about strings -/

/-- Going by the sets, the symbol can become empty. -/
def Vanishes (first : FirstSets) : Symbol → Prop
  | .terminal _ => False
  | .nonterminal id => ∃ set, first.sets[id]? = some set ∧ set.nullable = true

/-- Going by the sets, the symbol can begin with a terminal. -/
def Starts (first : FirstSets) : Symbol → Nat → Prop
  | .terminal id, terminal => terminal = id
  | .nonterminal id, terminal => ∃ set, first.sets[id]? = some set ∧ terminal ∈ set.terminals

/-- Going by the sets, every symbol of the string can become empty. -/
def AllVanish (first : FirstSets) (symbols : List Symbol) : Prop :=
  ∀ symbol ∈ symbols, first.Vanishes symbol

/-- Going by the sets, the string can begin with a terminal. -/
def Begins (first : FirstSets) : List Symbol → Nat → Prop
  | [], _ => False
  | symbol :: rest, terminal =>
      first.Starts symbol terminal ∨ (first.Vanishes symbol ∧ first.Begins rest terminal)

variable {grammar : Grammar} {first : FirstSets}

@[simp]
theorem allVanish_nil : first.AllVanish [] := by
  simp [AllVanish]

@[simp]
theorem allVanish_cons {symbol : Symbol} {rest : List Symbol} :
    first.AllVanish (symbol :: rest) ↔ first.Vanishes symbol ∧ first.AllVanish rest := by
  simp [AllVanish]

@[simp]
theorem allVanish_append {left right : List Symbol} :
    first.AllVanish (left ++ right) ↔ first.AllVanish left ∧ first.AllVanish right := by
  simp [AllVanish, or_imp, forall_and]

@[simp]
theorem not_begins_nil {terminal : Nat} : ¬ first.Begins [] terminal := id

@[simp]
theorem begins_cons {symbol : Symbol} {rest : List Symbol} {terminal : Nat} :
    first.Begins (symbol :: rest) terminal ↔
      first.Starts symbol terminal ∨
      (first.Vanishes symbol ∧ first.Begins rest terminal) := Iff.rfl

theorem begins_append {left right : List Symbol} {terminal : Nat} :
    first.Begins (left ++ right) terminal ↔
      first.Begins left terminal ∨ (first.AllVanish left ∧ first.Begins right terminal) := by
  induction left with
  | nil => simp
  | cons symbol rest ih =>
      simp only [List.cons_append, begins_cons, ih, allVanish_cons]
      tauto

/-- The set of a symbol that has one tells whether the symbol vanishes and how it starts. -/
theorem exists_ofSymbol_eq_ok {symbol : Symbol}
    (covered : ∀ id, symbol = .nonterminal id → id < first.sets.length) :
    ∃ set, first.ofSymbol symbol = .ok set ∧ (set.nullable = true ↔ first.Vanishes symbol) ∧
      ∀ terminal, terminal ∈ set.terminals ↔ first.Starts symbol terminal := by
  cases symbol with
  | terminal id =>
      refine ⟨.ofTerminal id, rfl, ?_, ?_⟩
      · simp [FirstSet.ofTerminal, Vanishes]
      · simp [FirstSet.ofTerminal, Starts]
  | nonterminal id =>
      have inRange := covered id rfl
      have found : first.sets[id]? = some first.sets[id] := List.getElem?_eq_getElem inRange
      refine ⟨first.sets[id], ?_, ?_, ?_⟩
      · simp only [ofSymbol, get, found]
      · simp [Vanishes, found]
      · simp [Starts, found]

/-- The set of a string whose nonterminals have sets tells whether the string can become empty and
with what it can begin. -/
theorem exists_ofSequence_eq_ok {symbols : List Symbol}
    (covered : ∀ id, .nonterminal id ∈ symbols → id < first.sets.length) :
    ∃ set, first.ofSequence symbols = .ok set ∧
      (set.nullable = true ↔ first.AllVanish symbols) ∧ ∀ terminal,
        terminal ∈ set.terminals ↔ first.Begins symbols terminal := by
  induction symbols with
  | nil => exact ⟨⟨∅, true⟩, rfl, by simp, by simp⟩
  | cons symbol rest ih =>
      have headCovered : ∀ id, symbol = .nonterminal id → id < first.sets.length :=
        fun id same => covered id (by simp [same])
      obtain ⟨set, found, vanishes, starts⟩ := exists_ofSymbol_eq_ok headCovered
      obtain ⟨others, restFound, restVanishes, restBegins⟩ :=
        ih fun id member => covered id (by simp [member])
      by_cases nullable : set.nullable = true
      · refine ⟨⟨set.terminals ∪ others.terminals, others.nullable⟩, ?_, ?_, ?_⟩
        · simp [ofSequence, found, nullable, restFound]
        · simp [restVanishes, ← vanishes, nullable]
        · intro terminal
          simp [starts, restBegins, ← vanishes, nullable]
      · refine ⟨set, ?_, ?_, ?_⟩
        · simp [ofSequence, found, nullable]
        · simp [← vanishes, nullable]
        · intro terminal
          simp [starts, ← vanishes, nullable]

/-! ## Sound and closed sets -/

/-- Whatever the sets say is justified by a derivation. -/
structure Sound (grammar : Grammar) (first : FirstSets) : Prop where
  /-- Every nonterminal has a set. -/
  length_eq : first.sets.length = grammar.nonterminalCount
  /-- A nonterminal that vanishes derives the empty string. -/
  vanishes : ∀ id, first.Vanishes (.nonterminal id) → grammar.Derives [.nonterminal id] []
  /-- A nonterminal that starts with a terminal derives a string that begins with it. -/
  starts : ∀ id terminal, first.Starts (.nonterminal id) terminal →
    grammar.DerivesBeginning [.nonterminal id] terminal

/-- The sets say of the head of a rule whatever they say of its body. -/
def Closed (grammar : Grammar) (first : FirstSets) : Prop :=
  ∀ rule ∈ grammar.rules,
    (first.AllVanish rule.body → first.Vanishes (.nonterminal rule.head)) ∧
    ∀ terminal, first.Begins rule.body terminal → first.Starts (.nonterminal rule.head) terminal

namespace Sound

theorem derives_nil (sound : Sound grammar first) {symbols : List Symbol}
    (vanish : first.AllVanish symbols) : grammar.Derives symbols [] := by
  induction symbols with
  | nil => exact .refl _
  | cons symbol rest ih =>
      obtain ⟨headVanishes, restVanish⟩ := allVanish_cons.mp vanish
      cases symbol with
      | terminal id => cases headVanishes
      | nonterminal id =>
          simpa using (sound.vanishes id headVanishes).append (ih restVanish)

theorem derivesBeginning (sound : Sound grammar first) {symbols : List Symbol} {terminal : Nat}
    (begins : first.Begins symbols terminal) : grammar.DerivesBeginning symbols terminal := by
  induction symbols with
  | nil => cases begins
  | cons symbol rest ih =>
      rw [← List.singleton_append, Grammar.derivesBeginning_append]
      rcases begins with starts | ⟨vanishes, restBegins⟩
      · cases symbol with
        | terminal id =>
            cases starts
            exact .inl ⟨[], .refl _⟩
        | nonterminal id => exact .inl (sound.starts id terminal starts)
      · exact .inr ⟨sound.derives_nil (by simpa using vanishes), ih restBegins⟩

end Sound

namespace Closed

theorem allVanish_of_expands (closed : Closed grammar first) {symbols next : List Symbol}
    (expands : grammar.Expands symbols next) (vanish : first.AllVanish next) :
    first.AllVanish symbols := by
  obtain ⟨member, left, right⟩ := expands
  simp only [allVanish_append, allVanish_cons] at vanish ⊢
  exact ⟨vanish.1, (closed _ member).1 vanish.2.1, vanish.2.2⟩

theorem begins_of_expands (closed : Closed grammar first) {symbols next : List Symbol}
    {terminal : Nat} (expands : grammar.Expands symbols next)
    (begins : first.Begins next terminal) : first.Begins symbols terminal := by
  obtain ⟨member, left, right⟩ := expands
  simp only [begins_append, begins_cons] at begins ⊢
  rcases begins with inLeft | ⟨leftVanish, inBody | ⟨bodyVanish, inRight⟩⟩
  · exact .inl inLeft
  · exact .inr ⟨leftVanish, .inl ((closed _ member).2 terminal inBody)⟩
  · exact .inr ⟨leftVanish, .inr ⟨(closed _ member).1 bodyVanish, inRight⟩⟩

theorem allVanish (closed : Closed grammar first) {symbols next : List Symbol}
    (derives : grammar.Derives symbols next) (vanish : first.AllVanish next) :
    first.AllVanish symbols := by
  induction derives with
  | refl => exact vanish
  | head expands _ ih => exact closed.allVanish_of_expands expands (ih vanish)

theorem begins (closed : Closed grammar first) {symbols next : List Symbol} {terminal : Nat}
    (derives : grammar.Derives symbols next) (begins : first.Begins next terminal) :
    first.Begins symbols terminal := by
  induction derives with
  | refl => exact begins
  | head expands _ ih => exact closed.begins_of_expands expands (ih begins)

end Closed

/-- The sets say of every string exactly what it derives. -/
structure Exact (grammar : Grammar) (first : FirstSets) : Prop where
  /-- Every nonterminal has a set. -/
  length_eq : first.sets.length = grammar.nonterminalCount
  /-- Exactly the strings that derive the empty string can become empty. -/
  allVanish_iff : ∀ symbols, first.AllVanish symbols ↔ grammar.Derives symbols []
  /-- A string can begin exactly with the terminals with which a derived string begins. -/
  begins_iff : ∀ symbols terminal,
    first.Begins symbols terminal ↔ grammar.DerivesBeginning symbols terminal

/-- Sound sets that are closed under all rules are exact. -/
theorem Sound.exact (sound : Sound grammar first) (closed : Closed grammar first) :
    Exact grammar first where
  length_eq := sound.length_eq
  allVanish_iff symbols :=
    ⟨sound.derives_nil, fun derives => closed.allVanish derives (by simp)⟩
  begins_iff symbols terminal := by
    refine ⟨sound.derivesBeginning, ?_⟩
    rintro ⟨rest, derives⟩
    exact closed.begins derives (.inl rfl)

/-! ## Passes over the rules -/

/-- What the sets say about the nonterminals: which of them can become empty, and which can begin
with which terminal. -/
def facts (first : FirstSets) : Set (Nat × Option Nat) := fun
  | (id, none) => first.Vanishes (.nonterminal id)
  | (id, some terminal) => first.Starts (.nonterminal id) terminal

/-- A property that unions share with their parts holds of a set after an addition exactly if it
held before or holds of what was added. -/
theorem exists_getElem?_add {id head : Nat} {set : FirstSet} {holds : FirstSet → Prop}
    (unites : ∀ known, holds (known.union set) ↔ holds known ∨ holds set) :
    (∃ found, (first.add head set).sets[id]? = some found ∧ holds found) ↔
      (∃ found, first.sets[id]? = some found ∧ holds found) ∨
        (id = head ∧ head < first.sets.length ∧ holds set) := by
  simp only [add, List.getElem?_modify]
  by_cases inRange : id < first.sets.length
  · by_cases same : head = id
    · subst same
      simp [inRange, unites]
    · simp [same, Ne.symm same]
  · simp only [List.getElem?_eq_none (Nat.le_of_not_lt inRange)]
    constructor
    · rintro ⟨found, absent, -⟩
      simp at absent
    · rintro (⟨found, absent, -⟩ | ⟨rfl, declared, -⟩)
      · cases absent
      · exact absurd declared inRange

theorem vanishes_add {id head : Nat} {set : FirstSet} :
    (first.add head set).Vanishes (.nonterminal id) ↔ first.Vanishes (.nonterminal id) ∨
      (id = head ∧ head < first.sets.length ∧ set.nullable = true) :=
  exists_getElem?_add fun known => by simp [FirstSet.union]

theorem starts_add {id head terminal : Nat} {set : FirstSet} :
    (first.add head set).Starts (.nonterminal id) terminal ↔
      first.Starts (.nonterminal id) terminal ∨
        (id = head ∧ head < first.sets.length ∧ terminal ∈ set.terminals) :=
  exists_getElem?_add fun known => by simp [FirstSet.union]

/-- Good sets are told apart by what they say. -/
theorem distinguishes_facts : Distinguishes (Sound grammar) facts := by
  intro left right leftSound rightSound same
  have vanishes (id : Nat) :
      left.Vanishes (.nonterminal id) ↔ right.Vanishes (.nonterminal id) :=
    iff_of_eq (congrFun same (id, none))
  have starts (id terminal : Nat) :
      left.Starts (.nonterminal id) terminal ↔ right.Starts (.nonterminal id) terminal :=
    iff_of_eq (congrFun same (id, some terminal))
  obtain ⟨leftSets⟩ := left
  obtain ⟨rightSets⟩ := right
  congr 1
  apply List.ext_getElem
  · rw [leftSound.length_eq, rightSound.length_eq]
  · intro id leftRange rightRange
    have sameVanishes := vanishes id
    have sameStarts := starts id
    simp only [Vanishes, Starts, List.getElem?_eq_getElem leftRange,
      List.getElem?_eq_getElem rightRange, Option.some.injEq,
      exists_eq_left'] at sameVanishes sameStarts
    cases leftEq : leftSets[id] with
    | mk leftTerminals leftNullable =>
        cases rightEq : rightSets[id] with
        | mk rightTerminals rightNullable =>
            rw [leftEq, rightEq] at sameVanishes sameStarts
            rw [FirstSet.mk.injEq]
            exact ⟨TerminalSet.ext sameStarts, Bool.eq_iff_iff.mpr sameVanishes⟩

/-- All that sound sets can say: that a nonterminal can become empty or begin with a terminal of
some body. -/
theorem Sound.facts_subset (sound : Sound grammar first) :
    first.facts ⊆ Set.Iio grammar.nonterminalCount ×ˢ optionsOf grammar.bodyTerminals := by
  have inRange {id : Nat} {set : FirstSet} (found : first.sets[id]? = some set) :
      id < grammar.nonterminalCount := by
    rw [← sound.length_eq]
    exact (List.getElem?_eq_some_iff.mp found).1
  rintro ⟨id, fact⟩ holds
  cases fact with
  | none =>
      obtain ⟨set, found, _⟩ := holds
      exact ⟨inRange found, .inl rfl⟩
  | some terminal =>
      obtain ⟨rest, derives⟩ := sound.starts id terminal holds
      obtain ⟨set, found, _⟩ := holds
      refine ⟨inRange found, .inr ⟨terminal, ?_, rfl⟩⟩
      rcases derives.mem (List.mem_cons_self) with impossible | inBody
      · simp at impossible
      · exact Grammar.mem_bodyTerminals.mpr inBody

/-- A rule whose body is declared adds to its head what its body justifies. -/
theorem grows_visit {rule : Rule} (member : rule ∈ grammar.rules)
    (declared : ∀ symbol ∈ rule.body, grammar.Declares symbol) :
    Grows (Sound grammar) facts (visit · rule) := by
  intro first sound
  have covered : ∀ id, .nonterminal id ∈ rule.body → id < first.sets.length := by
    intro id inBody
    rw [sound.length_eq]
    exact declared _ inBody
  obtain ⟨set, found, vanish, begins⟩ := exists_ofSequence_eq_ok covered
  refine ⟨first.add rule.head set, by simp [visit, found], ⟨?_, ?_, ?_⟩, ?_⟩
  · simp [add, sound.length_eq]
  · intro id vanishes
    rcases vanishes_add.mp vanishes with known | ⟨rfl, _, nullable⟩
    · exact sound.vanishes id known
    · exact (Grammar.Derives.of_rule member).trans (sound.derives_nil (vanish.mp nullable))
  · intro id terminal starts
    rcases starts_add.mp starts with known | ⟨rfl, _, inSet⟩
    · exact sound.starts id terminal known
    · exact (Grammar.Derives.of_rule member).beginning
        (sound.derivesBeginning ((begins terminal).mp inSet))
  · rintro ⟨id, fact⟩ holds
    cases fact with
    | none => exact vanishes_add.mpr (.inl holds)
    | some terminal => exact starts_add.mpr (.inl holds)

/-- Sets that a visit of a rule leaves alone say of its head what they say of its body. -/
theorem Sound.closed_of_visit (sound : Sound grammar first) {rule : Rule}
    (member : rule ∈ grammar.rules) (declared : ∀ symbol ∈ rule.body, grammar.Declares symbol)
    (fixed : first.visit rule = .ok first) :
    (first.AllVanish rule.body → first.Vanishes (.nonterminal rule.head)) ∧
      ∀ terminal, first.Begins rule.body terminal →
        first.Starts (.nonterminal rule.head) terminal := by
  have covered : ∀ id, .nonterminal id ∈ rule.body → id < first.sets.length := by
    intro id inBody
    rw [sound.length_eq]
    exact declared _ inBody
  obtain ⟨set, found, vanish, begins⟩ := exists_ofSequence_eq_ok covered
  have same : first.add rule.head set = first := by
    simpa [visit, found] using fixed
  have headDeclared : rule.head < first.sets.length := by
    rw [sound.length_eq]
    exact grammar.head_lt rule member
  constructor
  · intro bodyVanishes
    rw [← same]
    exact vanishes_add.mpr (.inr ⟨rfl, headDeclared, vanish.mpr bodyVanishes⟩)
  · intro terminal bodyBegins
    rw [← same]
    exact starts_add.mpr (.inr ⟨rfl, headDeclared, (begins terminal).mpr bodyBegins⟩)

theorem sound_replicate_empty :
    Sound grammar ⟨List.replicate grammar.nonterminalCount .empty⟩ where
  length_eq := List.length_replicate
  vanishes id := by
    rintro ⟨set, found, nullable⟩
    rw [(List.mem_replicate.mp (List.mem_of_getElem? found)).2] at nullable
    cases nullable
  starts id terminal := by
    rintro ⟨set, found, member⟩
    rw [(List.mem_replicate.mp (List.mem_of_getElem? found)).2] at member
    simp [FirstSet.empty] at member

/-- Passes over the rules of a grammar with declared bodies come to rest, and then the sets are
exact. -/
theorem exists_comesToRest (bodies : grammar.BodiesDeclared) :
    ∃ first passes,
      ComesToRest (pass grammar) ⟨List.replicate grammar.nonterminalCount .empty⟩ first
        passes ∧ passes ≤ passBound grammar ∧ Exact grammar first := by
  have each : ∀ rule ∈ grammar.rules, Grows (Sound grammar) facts (visit · rule) :=
    fun rule member => grows_visit member (bodies rule member)
  have fewFacts : (Set.Iio grammar.nonterminalCount ×ˢ optionsOf grammar.bodyTerminals).ncard <
      passBound grammar := by
    rw [Set.ncard_prod, Set.ncard_Iio_nat, passBound, Nat.lt_succ_iff]
    refine Nat.mul_le_mul_left _ ((ncard_optionsOf_le _).trans ?_)
    exact Nat.succ_le_succ grammar.length_bodyTerminals_le
  obtain ⟨first, passes, rests, sound, _, atMost⟩ :=
    (Grows.foldlM each).exists_comesToRest distinguishes_facts
      ((Set.finite_Iio _).prod (finite_optionsOf _)) (fun _ sound => sound.facts_subset)
      sound_replicate_empty
  refine ⟨first, passes, rests, by omega, sound.exact fun rule member => ?_⟩
  exact sound.closed_of_visit member (bodies rule member)
    (Grows.eq_of_foldlM_eq each distinguishes_facts sound rests.fixed rule member)

/-- The First sets of a grammar with declared bodies are found, and they are exact. -/
theorem exists_computeCounted_eq_ok (bodies : grammar.BodiesDeclared) :
    ∃ first passes, computeCounted grammar = .ok (first, passes) ∧ Exact grammar first := by
  obtain ⟨first, passes, rests, enough, exact⟩ := exists_comesToRest bodies
  exact ⟨first, passes, rests.stabilize_eq_ok enough, exact⟩

theorem exists_compute_eq_ok (bodies : grammar.BodiesDeclared) :
    ∃ first, compute grammar = .ok first ∧ Exact grammar first := by
  obtain ⟨first, passes, found, exact⟩ := exists_computeCounted_eq_ok bodies
  exact ⟨first, by simp [compute, found], exact⟩

namespace Exact

/-- The set of a declared nonterminal tells what the nonterminal derives. -/
theorem exists_get_eq_ok (exact : Exact grammar first) {id : Nat}
    (declared : id < grammar.nonterminalCount) :
    ∃ set, first.get id = .ok set ∧
      (∀ terminal, terminal ∈ set.terminals ↔
        grammar.DerivesBeginning [.nonterminal id] terminal) ∧
      (set.nullable = true ↔ grammar.Derives [.nonterminal id] []) := by
  have covered : ∀ other, Symbol.nonterminal id = .nonterminal other →
      other < first.sets.length := by
    rintro _ ⟨⟩
    rwa [exact.length_eq]
  obtain ⟨set, found, vanishes, starts⟩ := exists_ofSymbol_eq_ok covered
  refine ⟨set, found, fun terminal => ?_, ?_⟩
  · rw [starts, ← exact.begins_iff]
    simp
  · rw [vanishes, ← exact.allVanish_iff]
    simp

/-- The set of a declared string tells what the string derives. -/
theorem exists_ofSequence_eq_ok (exact : Exact grammar first) {symbols : List Symbol}
    (declared : ∀ symbol ∈ symbols, grammar.Declares symbol) :
    ∃ set, first.ofSequence symbols = .ok set ∧
      (set.nullable = true ↔ grammar.Derives symbols []) ∧
      ∀ terminal, terminal ∈ set.terminals ↔ grammar.DerivesBeginning symbols terminal := by
  have covered : ∀ id, .nonterminal id ∈ symbols → id < first.sets.length := by
    intro id member
    rw [exact.length_eq]
    exact declared _ member
  obtain ⟨set, found, vanish, begins⟩ := FirstSets.exists_ofSequence_eq_ok covered
  refine ⟨set, found, vanish.trans (exact.allVanish_iff symbols), fun terminal => ?_⟩
  exact (begins terminal).trans (exact.begins_iff symbols terminal)

/-- The terminals with which a declared string can begin when one of some terminals follows it. -/
theorem exists_ofSequenceThen_eq_ok (exact : Exact grammar first) {symbols : List Symbol}
    (declared : ∀ symbol ∈ symbols, grammar.Declares symbol) (after : TerminalSet) :
    ∃ set, first.ofSequenceThen symbols after = .ok set ∧
      ∀ terminal, terminal ∈ set ↔ grammar.DerivesBeginning symbols terminal ∨
        (grammar.Derives symbols [] ∧ terminal ∈ after) := by
  obtain ⟨set, found, vanish, begins⟩ := exact.exists_ofSequence_eq_ok declared
  by_cases nullable : set.nullable = true
  · refine ⟨set.terminals ∪
      after, by simp [ofSequenceThen, found, nullable], fun terminal => ?_⟩
    simp [begins, ← vanish, nullable]
  · refine ⟨set.terminals, by simp [ofSequenceThen, found, nullable], fun terminal => ?_⟩
    simp [begins, ← vanish, nullable]

end Exact

end FirstSets

/-- For every grammar all of whose bodies are declared: passes over its rules come to rest, however
many it takes, and the sets that they end with are those that are computed. The set of a nonterminal
holds exactly the terminals with which a string derived from it begins, and says rightly whether it
derives the empty string. The same is true of the set of every declared string, and if any of some
terminals may come after the string, of the terminals with which one of the strings so continued
begins. -/
theorem first_sets_are_exact (grammar : Grammar) (bodies : grammar.BodiesDeclared) :
    ∃ first passes,
      ComesToRest (FirstSets.pass grammar) ⟨List.replicate grammar.nonterminalCount .empty⟩
        first passes ∧
      FirstSets.computeCounted grammar = .ok (first, passes) ∧
      FirstSets.compute grammar = .ok first ∧
      (∀ id < grammar.nonterminalCount, ∃ set, first.get id = .ok set ∧
        (∀ terminal, terminal ∈ set.terminals ↔
          grammar.DerivesBeginning [.nonterminal id] terminal) ∧
        (set.nullable = true ↔ grammar.Derives [.nonterminal id] [])) ∧
      ∀ symbols, (∀ symbol ∈ symbols, grammar.Declares symbol) →
        (∃ set, first.ofSequence symbols = .ok set ∧
          (∀ terminal, terminal ∈ set.terminals ↔
            grammar.DerivesBeginning symbols terminal) ∧
          (set.nullable = true ↔ grammar.Derives symbols [])) ∧
        ∀ after : TerminalSet, ∃ set, first.ofSequenceThen symbols after = .ok set ∧
          ∀ terminal, terminal ∈ set ↔
            (∃ next ∈ after,
              grammar.DerivesBeginning (symbols ++ [.terminal next]) terminal) ∨
              grammar.DerivesBeginning symbols terminal := by
  obtain ⟨first, passes, rests, enough, exact⟩ := FirstSets.exists_comesToRest bodies
  have counted : FirstSets.computeCounted grammar = .ok (first, passes) :=
    rests.stabilize_eq_ok enough
  refine ⟨first, passes, rests,
    counted, by simp [FirstSets.compute, counted],
    fun id declared => ?_, fun symbols declared => ⟨?_, fun after => ?_⟩⟩
  · exact exact.exists_get_eq_ok declared
  · obtain ⟨set, found, nullable, begins⟩ := exact.exists_ofSequence_eq_ok declared
    exact ⟨set, found, begins, nullable⟩
  · obtain ⟨set, found, begins⟩ := exact.exists_ofSequenceThen_eq_ok declared after
    refine ⟨set, found, fun terminal => (begins terminal).trans ?_⟩
    simp only [Grammar.derivesBeginning_concat]
    constructor
    · rintro (inside | ⟨vanishes, isNext⟩)
      · exact .inr inside
      · exact .inl ⟨terminal, isNext, .inr ⟨vanishes, rfl⟩⟩
    · rintro (⟨_, isNext, inside | ⟨vanishes, rfl⟩⟩ | inside)
      · exact .inl inside
      · exact .inr ⟨vanishes, isNext⟩
      · exact .inl inside

/-- In `S → A b`, with `A` for any number of `a`, a string from `A` begins with `a` or is empty,
and one from `S` begins with either terminal. -/
theorem first_sets_of_leftRecursion_are_exact :
    Grammar.leftRecursion.BodiesDeclared ∧ ∃ first : FirstSets,
      FirstSets.compute Grammar.leftRecursion = .ok first ∧
      first.get 1 = .ok ⟨.ofList [1], true⟩ ∧
      first.ofSequence [.nonterminal 1, .terminal 2] = .ok ⟨.ofList [1, 2], false⟩ ∧
      Grammar.leftRecursion.Derives [.nonterminal 1] [] ∧
      ¬ Grammar.leftRecursion.DerivesBeginning [.nonterminal 1] 2 ∧
      Grammar.leftRecursion.DerivesBeginning [.nonterminal 1, .terminal 2] 2 := by
  obtain ⟨first, passes, _, _, computed, ofNonterminal, ofString⟩ :=
    first_sets_are_exact Grammar.leftRecursion Grammar.wellFormed_leftRecursion.bodies
  have evaluates : (FirstSets.compute Grammar.leftRecursion).map (fun first =>
      (first.get 1, first.ofSequence [.nonterminal 1, .terminal 2])) =
      .ok (.ok ⟨.ofList [1], true⟩, .ok ⟨.ofList [1, 2], false⟩) := by
    decide +kernel
  rw [computed] at evaluates
  obtain ⟨inner, whole⟩ := Prod.mk.inj (Except.ok.inj evaluates)
  obtain ⟨_, isInner, innerBegins, innerVanishes⟩ := ofNonterminal 1 (by decide)
  obtain ⟨⟨_, isWhole, wholeBegins, _⟩, _⟩ :=
    ofString [.nonterminal 1, .terminal 2] (by decide)
  cases inner.symm.trans isInner
  cases whole.symm.trans isWhole
  exact ⟨Grammar.wellFormed_leftRecursion.bodies, first, computed, inner, whole,
    innerVanishes.mp rfl, fun begins => absurd ((innerBegins 2).mpr begins) (by decide),
      (wholeBegins 2).mp (by decide)⟩

end DeterministicParsing
