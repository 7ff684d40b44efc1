/-
# Short sentences are the shortest there are

Exact tables are read through three questions: what is a shortest sentence of a nonterminal, what is
a shortest one that begins with a terminal, and is the empty string a sentence. Each has its answer
in terms of what the nonterminal derives, whichever sentence the passes happened to find first. The
third answer is also that of the First sets, which are found without sentences. The second agrees
with the First sets only where every nonterminal derives something: to begin with a terminal, a
derived string need not be a terminal string.
-/
import DeterministicParsing.Proofs.Context
import DeterministicParsing.Proofs.FirstSets
import DeterministicParsing.Proofs.Sentences.Exactness

namespace DeterministicParsing

namespace Sentences

/-- An answer to the question for a shortest terminal string with a property: there is none, or this
is one. Where several are equally short, any of them will do. -/
def IsShortest (holds : List Nat → Prop) : Option (List Nat) → Prop
  | none => ∀ terminals, ¬ holds terminals
  | some sentence =>
      holds sentence ∧ ∀ terminals, holds terminals → sentence.length ≤ terminals.length

/-- What is sound, and at most as long as anything else with the property, is an answer. -/
theorem isShortest_of_le {holds : List Nat → Prop} {answer : Option (List Nat)}
    (sound : ∀ sentence, answer = some sentence → holds sentence)
    (least : ∀ terminals, holds terminals →
      ∃ sentence, answer = some sentence ∧ sentence.length ≤ terminals.length) :
    IsShortest holds answer := by
  cases answer with
  | none =>
      intro terminals isOne
      obtain ⟨_, impossible, -⟩ := least terminals isOne
      cases impossible
  | some sentence =>
      refine ⟨sound sentence rfl, fun terminals isOne => ?_⟩
      obtain ⟨_, same, short⟩ := least terminals isOne
      cases same
      exact short

namespace Exact

variable {grammar : Grammar} {sentences : Sentences} {symbol : Symbol}

theorem isShortest_known (exact : Exact grammar sentences) :
    IsShortest (grammar.Generates [symbol]) (sentences.known symbol) := by
  refine isShortest_of_le (fun sentence isKnown => exact.generates_known isKnown)
    fun terminals generates => ?_
  obtain ⟨_, isKnown, short⟩ := exact.exists_knownAll _ _ generates
  obtain ⟨sentence, tail, here, -, rfl⟩ := knownAll_cons_eq_some.mp isKnown
  rw [List.length_append] at short
  exact ⟨sentence, here, by omega⟩

theorem isShortest_knownStart (exact : Exact grammar sentences) (terminal : Nat) :
    IsShortest (fun terminals => grammar.Generates [symbol] terminals ∧
      terminals.head? = some terminal) (sentences.knownStart symbol terminal) := by
  refine isShortest_of_le (fun sentence isKnown => exact.generates_knownStart isKnown) ?_
  rintro terminals ⟨generates, begins⟩
  obtain ⟨rest, rfl⟩ := List.head?_eq_some_iff.mp begins
  exact exact.exists_knownStart _ _ _ generates

/-- Where every nonterminal derives a terminal string, a nonterminal has a sentence that begins with
a terminal exactly if any string derived from it begins so. -/
theorem isSome_knownStart_iff (exact : Exact grammar sentences) (bodies : grammar.BodiesDeclared)
    (productive : ∀ id < grammar.nonterminalCount, grammar.Productive id) {id : Nat}
    (declared : id < grammar.nonterminalCount) (terminal : Nat) :
    (sentences.knownStart (.nonterminal id) terminal).isSome ↔
      grammar.DerivesBeginning [.nonterminal id] terminal := by
  rw [Option.isSome_iff_exists, exact.exists_knownStart_iff]
  constructor
  · rintro ⟨rest, generates⟩
    exact ⟨word rest, generates⟩
  · intro begins
    refine Grammar.canBegin_singleton.mp (begins.canBegin ?_ fun rule member other inBody =>
      productive other (bodies rule member _ inBody))
    intro other isOther
    cases List.mem_singleton.mp isOther
    exact productive id declared

end Exact

end Sentences

/-- For every grammar all of whose bodies are declared: the passes for the shortest sentences come
to rest, and so do those for the sentences by first terminal that come after them, however many it
takes; what they end with is what is computed. Of each nonterminal it has a terminal string of
minimal length among those derived from it, and for each terminal one among those that begin with
it, unless there is none. It says of a nonterminal that it can be empty exactly if the empty string
is derived from it, which is also what its First set says. And where every nonterminal derives a
terminal string, there is a sentence that begins with a terminal exactly if the terminal is in the
First set. -/
theorem sentence_tables_are_exact_and_minimal (grammar : Grammar)
    (bodies : grammar.BodiesDeclared) :
    ∃ shortest sentences first shortestPasses startingPasses,
      ComesToRest (grammar.rules.foldlM Sentences.visitShortest)
        ⟨List.replicate grammar.nonterminalCount none,
          List.replicate grammar.nonterminalCount .empty⟩
        shortest shortestPasses ∧
      ComesToRest (grammar.rules.foldlM Sentences.visitStarting) shortest sentences
        startingPasses ∧
      Sentences.compute grammar = .ok sentences ∧ FirstSets.compute grammar = .ok first ∧
      ∀ id < grammar.nonterminalCount,
        (∃ answer, sentences.shortestOf (.nonterminal id) = .ok answer ∧
          Sentences.IsShortest (grammar.Generates [.nonterminal id]) answer) ∧
        (∀ terminal, ∃ answer,
          sentences.startingWith (.nonterminal id) terminal = .ok answer ∧
          Sentences.IsShortest (fun terminals => grammar.Generates [.nonterminal id] terminals ∧
            terminals.head? = some terminal) answer) ∧
        ∃ set, first.get id = .ok set ∧
          sentences.isNullable (.nonterminal id) = .ok set.nullable ∧
          (set.nullable = true ↔ grammar.Derives [.nonterminal id] []) ∧
          ((∀ other < grammar.nonterminalCount, grammar.Productive other) →
            ∀ terminal answer, sentences.startingWith (.nonterminal id) terminal = .ok answer →
              (answer.isSome ↔ terminal ∈ set.terminals)) := by
  obtain ⟨shortest, sentences, shortestPasses, startingPasses, shortestRests, shortestFew,
    startingRests, startingFew, exact⟩ := Sentences.exists_comesToRest bodies
  obtain ⟨first, firstComputed, firstExact⟩ := FirstSets.exists_compute_eq_ok bodies
  refine ⟨shortest, sentences, first, shortestPasses, startingPasses, shortestRests,
    startingRests, Sentences.compute_eq_ok shortestRests shortestFew startingRests startingFew,
    firstComputed, fun id declared => ?_⟩
  have isDeclared : grammar.Declares (.nonterminal id) := declared
  refine ⟨?_, fun terminal => ?_, ?_⟩
  · exact ⟨_, exact.shortestOf_eq_ok isDeclared, exact.isShortest_known⟩
  · exact ⟨_, exact.startingWith_eq_ok isDeclared terminal,
      exact.isShortest_knownStart terminal⟩
  · obtain ⟨set, found, begins, vanishes⟩ := firstExact.exists_get_eq_ok declared
    have agrees : (sentences.known (.nonterminal id) == some []) = set.nullable := by
      rw [Bool.eq_iff_iff, beq_iff_eq, exact.known_eq_nil_iff, vanishes]
    refine ⟨set, found, by rw [exact.isNullable_eq_ok isDeclared, agrees], vanishes, ?_⟩
    intro productive terminal answer isAnswer
    obtain rfl := Except.ok.inj ((exact.startingWith_eq_ok isDeclared terminal).symm.trans isAnswer)
    rw [exact.isSome_knownStart_iff bodies productive declared, begins]

/-- In `S → A b`, with `A` for any number of `a`, the shortest sentence of `S` is `b` and the
shortest that begins with `a` is `a b`; `A` can be empty, and no sentence of it begins with `b`.
Both derive something, so `b` is not in the First set of `A` either. -/
theorem sentence_tables_of_leftRecursion_are_exact_and_minimal :
    Grammar.leftRecursion.BodiesDeclared ∧ ∃ sentences first set,
      Sentences.compute Grammar.leftRecursion = .ok sentences ∧
      sentences.shortestOf (.nonterminal 0) = .ok (some [2]) ∧
      sentences.startingWith (.nonterminal 0) 1 = .ok (some [1, 2]) ∧
      sentences.startingWith (.nonterminal 1) 2 = .ok none ∧
      (∀ terminals, Grammar.leftRecursion.Generates [.nonterminal 0] terminals →
        terminals.head? = some 1 → 2 ≤ terminals.length) ∧
      (∀ terminals, Grammar.leftRecursion.Generates [.nonterminal 1] terminals →
        terminals.head? ≠ some 2) ∧
      Grammar.leftRecursion.Derives [.nonterminal 1] [] ∧
      (∀ id < Grammar.leftRecursion.nonterminalCount, Grammar.leftRecursion.Productive id) ∧
      FirstSets.compute Grammar.leftRecursion = .ok first ∧ first.get 1 = .ok set ∧
      2 ∉ set.terminals := by
  obtain ⟨_, sentences, first, _, _, _, _, computed, firstComputed, tables⟩ :=
    sentence_tables_are_exact_and_minimal Grammar.leftRecursion
      Grammar.wellFormed_leftRecursion.bodies
  have evaluates : Sentences.compute Grammar.leftRecursion =
      .ok ⟨[some [2], some []],
        [⟨[(1, [1, 2]), (2, [2])], by decide⟩, ⟨[(1, [1])], by decide⟩]⟩ := by
    decide +kernel
  cases computed.symm.trans evaluates
  obtain ⟨⟨_, isShortest, ofFirst⟩, startingOfFirst, _⟩ := tables 0 (by decide)
  obtain ⟨⟨_, isEmpty, ofSecond⟩, startingOfSecond, set, found,
    isNullable, vanishes, begins⟩ :=
    tables 1 (by decide)
  obtain ⟨_, isStarting, least⟩ := startingOfFirst 1
  obtain ⟨_, isMissing, missing⟩ := startingOfSecond 2
  cases isShortest
  cases isEmpty
  cases isStarting
  cases isMissing
  have productive : ∀ id < Grammar.leftRecursion.nonterminalCount,
    Grammar.leftRecursion.Productive id
    | 0, _ => ⟨[2], ofFirst.1⟩
    | 1, _ => ⟨[], ofSecond.1⟩
  have notFirst : 2 ∉ set.terminals := by
    rw [← begins productive 2 none rfl]
    exact Bool.false_ne_true
  refine ⟨Grammar.wellFormed_leftRecursion.bodies, _, first, set, computed, rfl, rfl, rfl,
    fun terminals generates begins => least.2 terminals ⟨generates, begins⟩,
    fun terminals generates begins => missing terminals ⟨generates, begins⟩,
      vanishes.mp ?_, productive,
    firstComputed, found, notFirst⟩
  exact Except.ok.inj isNullable.symm

end DeterministicParsing
