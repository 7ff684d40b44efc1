/-
# Sentences that are required

Where a sentence is required of every symbol of a string, there is one failure at most: a
nonterminal of the string that derives no terminal string. The error names it.
-/
import DeterministicParsing.WitnessError
import DeterministicParsing.Proofs.Sentences.Exactness

namespace DeterministicParsing

/-- The reason is that a nonterminal of the string, which it names, derives no terminal string. -/
def Grammar.Blames (grammar : Grammar) (symbols : List Symbol) (reason : Failure WitnessError) :
    Prop :=
  ∃ id name, .nonterminal id ∈ symbols ∧ ¬ grammar.Productive id ∧
    grammar.nonterminalName id = .ok name ∧ reason = .error (.underivable name)

/-- What has a name is declared. -/
theorem Grammar.lt_of_nonterminalName_eq_ok {grammar : Grammar} {id : Nat} {name : String}
    (named : grammar.nonterminalName id = .ok name) : id < grammar.nonterminalCount :=
  (List.getElem?_eq_some_iff.mp (Arena.nonterminalName_eq_ok.mp named)).1

/-- Every nonterminal of a string that derives a terminal string derives one too. -/
theorem Grammar.Generates.productive {grammar : Grammar} {symbols : List Symbol}
    {terminals : List Nat} (generates : grammar.Generates symbols terminals) {id : Nat}
    (member : .nonterminal id ∈ symbols) : grammar.Productive id := by
  obtain ⟨left, right, rfl⟩ := List.append_of_mem member
  obtain ⟨_, rest, same, _, derives⟩ := Derives.of_append generates
  obtain ⟨_, tail, _, _, rfl⟩ := exists_word_of_append_eq_word same.symm
  rw [← List.singleton_append] at derives
  obtain ⟨_, _, alsoSame, derivesHere, _⟩ := derives.of_append
  obtain ⟨here, _, _, rfl, _⟩ := exists_word_of_append_eq_word alsoSame.symm
  exact ⟨here, derivesHere⟩

theorem Grammar.Blames.mono {grammar : Grammar} {symbols others : List Symbol}
    {reason : Failure WitnessError} (blames : grammar.Blames symbols reason)
    (within : ∀ id, .nonterminal id ∈ symbols → ¬ grammar.Productive id →
      .nonterminal id ∈ others) : grammar.Blames others reason := by
  obtain ⟨id, name, member, unproductive, named, rfl⟩ := blames
  exact ⟨id, name, within id member unproductive, unproductive, named, rfl⟩

namespace Sentences

variable {grammar : Grammar} {sentences : Sentences} {symbol : Symbol} {symbols : List Symbol}

theorem requireAll_cons (rest : List Symbol) :
    sentences.requireAll grammar (symbol :: rest) = (do
      let sentence ← sentences.require grammar symbol
      let tail ← sentences.requireAll grammar rest
      return sentence ++ tail) := by
  simp only [requireAll, List.mapM_cons]
  cases sentences.require grammar symbol with
  | error reason => rfl
  | ok sentence =>
      rw [ok_bind, ok_bind]
      cases rest.mapM (sentences.require grammar) <;> rfl

/-- What is required of two strings is required of both together. -/
theorem requireAll_append (left right : List Symbol) :
    sentences.requireAll grammar (left ++ right) = (do
      let before ← sentences.requireAll grammar left
      let after ← sentences.requireAll grammar right
      return before ++ after) := by
  induction left with
  | nil =>
      change sentences.requireAll grammar right = (sentences.requireAll grammar right >>= pure)
      rw [bind_pure]
  | cons symbol rest ih =>
      rw [List.cons_append, requireAll_cons, requireAll_cons, ih]
      cases sentences.require grammar symbol with
      | error reason => rfl
      | ok sentence =>
          cases sentences.requireAll grammar rest with
          | error reason => rfl
          | ok tail => cases sentences.requireAll grammar right <;> simp

namespace Exact

/-- A sentence of a declared symbol is given, unless the symbol derives none. -/
theorem require (exact : Exact grammar sentences) (declared : grammar.Declares symbol) :
    (∃ sentence, sentences.require grammar symbol = .ok sentence ∧
        grammar.Generates [symbol] sentence) ∨
      ∃ reason, sentences.require grammar symbol = .error reason ∧
        grammar.Blames [symbol] reason := by
  rw [Sentences.require, exact.shortestOf_eq_ok declared, liftM_ok, ok_bind]
  cases isKnown : sentences.known symbol with
  | some sentence => exact .inl ⟨sentence, rfl, exact.generates_known isKnown⟩
  | none =>
      right
      cases symbol with
      | terminal id => cases isKnown
      | nonterminal id =>
          obtain ⟨name, named⟩ := Grammar.exists_symbolName_eq_ok declared
          have unproductive : ¬ grammar.Productive id := by
            rw [← exact.exists_known_iff, isKnown]
            rintro ⟨_, impossible⟩
            cases impossible
          refine ⟨.error (.underivable name), ?_, id, name, by simp, unproductive, named, rfl⟩
          rw [named]
          rfl

/-- A sentence of a declared string is given, unless some nonterminal of it derives none. -/
theorem requireAll (exact : Exact grammar sentences)
    (declared : ∀ symbol ∈ symbols, grammar.Declares symbol) :
    (∃ sentence, sentences.requireAll grammar symbols = .ok sentence ∧
        grammar.Generates symbols sentence) ∨
      ∃ reason, sentences.requireAll grammar symbols = .error reason ∧
        grammar.Blames symbols reason := by
  induction symbols with
  | nil => exact .inl ⟨[], rfl, .refl _⟩
  | cons symbol rest ih =>
      rw [requireAll_cons]
      rcases exact.require (declared symbol (by simp)) with
        ⟨sentence, given, generates⟩ | ⟨reason, failed, blames⟩
      · rcases ih fun other member => declared other (by simp [member]) with
          ⟨tail, tailGiven, tailGenerates⟩ | ⟨reason, failed, blames⟩
        · refine .inl ⟨sentence ++ tail, by rw [given, tailGiven]; rfl, ?_⟩
          rw [Grammar.Generates, word_append]
          exact Grammar.Derives.append generates tailGenerates
        · refine .inr ⟨reason, by rw [given, failed]; rfl, blames.mono fun id member _ => ?_⟩
          exact List.mem_cons_of_mem _ member
      · refine .inr ⟨reason, by rw [failed]; rfl, blames.mono fun id member _ => ?_⟩
        rw [List.mem_singleton.mp member]
        exact List.mem_cons_self

/-- A string that can be empty gets the empty sentence. -/
theorem requireAll_eq_nil (exact : Exact grammar sentences)
    (declared : ∀ symbol ∈ symbols, grammar.Declares symbol)
    (vanishes : grammar.Derives symbols []) :
    sentences.requireAll grammar symbols = .ok [] := by
  induction symbols with
  | nil => rfl
  | cons symbol rest ih =>
      rw [← List.singleton_append, Grammar.derives_append_nil] at vanishes
      have empty : sentences.require grammar symbol = .ok [] := by
        rw [Sentences.require, exact.shortestOf_eq_ok (declared symbol (by simp)),
          exact.known_eq_nil_iff.mpr vanishes.1]
        rfl
      rw [requireAll_cons, empty,
        ih (fun other member => declared other (by simp [member])) vanishes.2]
      rfl

/-- Sentences of the two ends of a declared string are given, unless some nonterminal of it derives
none. -/
theorem requireAll_ends (exact : Exact grammar sentences)
    (declared : ∀ symbol ∈ symbols, grammar.Declares symbol)
    (first last : Nat) (middle : List Nat) :
    (∃ before after, sentences.requireAll grammar (symbols.take first) = .ok before ∧
        sentences.requireAll grammar (symbols.drop last) = .ok after ∧
        grammar.Generates (symbols.take first) before ∧
        grammar.Generates (symbols.drop last) after) ∨
      ∃ reason, (do
        let before ← sentences.requireAll grammar (symbols.take first)
        let after ← sentences.requireAll grammar (symbols.drop last)
        return before ++ middle ++ after :
          Except (Failure WitnessError) (List Nat)) = .error reason ∧
        grammar.Blames symbols reason := by
  rcases exact.requireAll fun symbol member => declared symbol (List.mem_of_mem_take member) with
    ⟨before, given, fromTake⟩ | ⟨reason, failed, blames⟩
  · rcases exact.requireAll fun symbol member => declared symbol (List.mem_of_mem_drop member) with
      ⟨after, givenAfter, fromDrop⟩ | ⟨reason, failed, blames⟩
    · exact .inl ⟨before, after, given, givenAfter, fromTake, fromDrop⟩
    · exact .inr ⟨reason, by rw [given, failed]; rfl,
        blames.mono fun id member _ => List.mem_of_mem_drop member⟩
  · exact .inr ⟨reason, by rw [failed]; rfl,
      blames.mono fun id member _ => List.mem_of_mem_take member⟩

end Exact

end Sentences

end DeterministicParsing
