/-
# The predictive parser follows every derivation that fits

Without conflicts, the rule in force is the only one by which what is to be recognised can begin
with the next token. A leftmost derivation of a word that agrees with the input up to that token has
therefore begun with the rules that have been applied, and it goes on from the stack. This holds for
words that are not the input, too, as long as they begin like it, so that a parser that is stuck has
seen a token with which no word goes on. And stuck it is in the end: between two tokens there are
only expansions in front of the same token, and these come to an end.
-/
import DeterministicParsing.Proofs.Predictive.Expansion
import DeterministicParsing.Proofs.Predictive.Soundness

namespace DeterministicParsing.Predictive

variable {grammar : Grammar} {parser : Parser} {configuration next final : Configuration}
  {tokens : List Token} {start : Nat}

/-- A rule is predicted by the terminal with which a word goes on that is derived by it. -/
theorem predicts_of_derives {id terminal : Nat} {rule : Rule} {before after : List Symbol}
    {ahead : List Nat} (found : grammar.rules[id]? = some rule) (starts : grammar.start = .ok start)
    (reached : grammar.Derives [.nonterminal start] (before ++ .nonterminal rule.head :: after))
    (derives : grammar.Derives (rule.body ++ after) (word ahead))
    (isNext : (ahead ++ [endOfInput]).head? = some terminal) :
    Predicts grammar rule.head terminal id := by
  obtain ⟨left, right, split, fromBody, fromAfter⟩ := derives.of_append
  obtain ⟨leftWord, rightWord, rfl, rfl, rfl⟩ := exists_word_of_append_eq_word split.symm
  refine ⟨rule, found, rfl, ?_⟩
  cases leftWord with
  | cons first others =>
      obtain rfl : first = terminal := by simpa using isNext
      exact .inl ⟨word others, fromBody⟩
  | nil =>
      refine .inr ⟨fromBody, ?_⟩
      rw [List.append_cons] at reached
      have goesOn := reached.trans ((Grammar.Derives.refl _).append fromAfter)
      cases rightWord with
      | nil =>
          obtain rfl : endOfInput = terminal := by simpa using isNext
          exact .inr ⟨rfl, start, before, starts, by simpa using goesOn⟩
      | cons first others =>
          obtain rfl : first = terminal := by simpa using isNext
          exact .inl ⟨start, before, word others, by simpa using goesOn⟩

/-- Every leftmost derivation of a word that begins like the input, up to the next token, begins
with the rules applied and goes on from the stack. -/
def Configuration.Anticipates (grammar : Grammar) (start : Nat) (tokens : List Token)
    (configuration : Configuration) : Prop :=
  ∃ recognised, tokens = recognised ++ configuration.remaining ∧
    configuration.position = recognised.length ∧
    ∀ rules ahead,
      grammar.DerivesLeftmost [.nonterminal start] rules
        (word (recognised.map Token.terminal ++ ahead)) →
      (ahead ++ [endOfInput]).head? = configuration.remaining.head?.map Token.terminal →
      ∃ later, rules = configuration.applied.reverse ++ later ∧
        grammar.DerivesLeftmost configuration.stack later (word ahead)

namespace Parser

/-- No move is left. -/
def IsStuck (parser : Parser) (configuration : Configuration) : Prop :=
  ∀ next, ¬ parser.Moves configuration next

theorem anticipates_start (grammar : Grammar) (start : Nat) (tokens : List Token) :
    Configuration.Anticipates grammar start tokens ⟨[.nonterminal start], 0, tokens, []⟩ :=
  ⟨[], rfl, rfl, fun rules _ leftmost _ => ⟨rules, rfl, leftmost⟩⟩

section

variable (isTable : parser.table.IsTableOf parser.grammar)
  (conflictFree : parser.table.isConflictFree = true) (starts : parser.grammar.start = .ok start)
include isTable conflictFree starts

/-- A move keeps up with the derivations that fit. -/
theorem Moves.anticipates (moves : parser.Moves configuration next)
    (retraces : configuration.Retraces parser.grammar start tokens)
    (anticipates : configuration.Anticipates parser.grammar start tokens) :
    next.Anticipates parser.grammar start tokens := by
  obtain ⟨recognised, split, position, fits⟩ := anticipates
  cases moves with
  | recognise stack position token rest applied =>
      refine ⟨recognised ++ [token], by simpa using split, by simpa using position, ?_⟩
      intro rules ahead leftmost _
      obtain ⟨later, rfl, goesOn⟩ :=
        fits rules (token.terminal :: ahead) (by simpa using leftmost) rfl
      obtain ⟨others, isWord, derives⟩ :=
        Grammar.DerivesLeftmost.of_word_append [token.terminal] goesOn
      have isRest : word ahead = others := (List.cons.inj isWord).2
      exact ⟨later, rfl, isRest ▸ derives⟩
  | @expand nonterminal id rule token inForce found stack position rest applied =>
      refine ⟨recognised, split, position, fun rules ahead leftmost isNext => ?_⟩
      obtain ⟨later, rfl, goesOn⟩ := fits rules ahead leftmost isNext
      obtain ⟨other, otherRule, others, rfl, otherFound, rfl, derives⟩ := goesOn.exists_first
      obtain ⟨again, sameSplit, reached⟩ := retraces
      have predicted := predicts_of_derives otherFound starts reached.derives derives.derives isNext
      have same := (isTable.rule?_eq_some conflictFree predicted).symm.trans inForce
      cases same
      cases found.symm.trans otherFound
      exact ⟨others, by simp, derives⟩

theorem anticipates_of_moves (moves : Relation.ReflTransGen parser.Moves configuration final)
    (retraces : configuration.Retraces parser.grammar start tokens)
    (anticipates : configuration.Anticipates parser.grammar start tokens) :
    final.Anticipates parser.grammar start tokens := by
  induction moves with
  | refl => exact anticipates
  | tail before moves ih =>
      have kept := retraces_of_moves isTable before retraces
      exact moves.anticipates isTable conflictFree starts kept ih

/-- A parser that is stuck where a derivation fits is done, and so is the derivation. -/
theorem IsStuck.isDone (stuck : parser.IsStuck configuration)
    (retraces : configuration.Retraces parser.grammar start tokens) {later ahead : List Nat}
    (isNext : (ahead ++ [endOfInput]).head? = configuration.remaining.head?.map Token.terminal)
    (leftmost : parser.grammar.DerivesLeftmost configuration.stack later (word ahead)) :
    IsDone configuration ∧ later = [] := by
  obtain ⟨stack, position, remaining, applied⟩ := configuration
  obtain ⟨token, rest, rfl⟩ : ∃ token rest, remaining = token :: rest := by
    cases remaining with
    | nil => cases ahead <;> simp at isNext
    | cons token rest => exact ⟨token, rest, rfl⟩
  change (ahead ++ [endOfInput]).head? = some token.terminal at isNext
  cases stack with
  | nil =>
      obtain ⟨rfl, isWord⟩ := Grammar.DerivesLeftmost.eq_nil_of_word [] leftmost
      obtain rfl : ahead = [] := word_inj.mp isWord
      have atEnd : endOfInput = token.terminal := by simpa using isNext
      exact ⟨⟨rfl, token, rest, rfl, atEnd.symm⟩, rfl⟩
  | cons symbol stack =>
      cases symbol with
      | terminal terminal =>
          obtain ⟨others, isWord, _⟩ :=
            Grammar.DerivesLeftmost.of_word_append [terminal] leftmost
          obtain ⟨first, ahead, rfl, same, _⟩ := List.map_eq_cons_iff.mp isWord
          obtain rfl : first = token.terminal := by simpa using isNext
          cases same
          exact absurd (.recognise stack position token rest applied) (stuck _)
      | nonterminal nonterminal =>
          obtain ⟨id, rule, others, rfl, found, rfl, derives⟩ := leftmost.exists_first
          obtain ⟨_, _, reached⟩ := retraces
          have predicted := predicts_of_derives found starts reached.derives derives.derives isNext
          have inForce := isTable.rule?_eq_some conflictFree predicted
          exact absurd (.expand inForce found stack position rest applied) (stuck _)

omit starts in
/-- Without conflicts, the parser does not move for ever. -/
theorem acc_moves (configuration : Configuration) :
    Acc (fun next configuration => parser.Moves configuration next) configuration := by
  obtain ⟨stack, position, remaining, applied⟩ := configuration
  induction remaining generalizing stack position applied with
  | nil => exact Acc.intro _ fun next moves => by cases moves
  | cons token rest ih =>
      -- While this token is ahead, the stack settles.
      have settled : Settles parser.grammar token.terminal stack :=
        settles (isTable.hasUniquePredictions conflictFree) stack
      induction settled generalizing applied with
      | intro stack _ expands =>
          refine Acc.intro _ fun next moves => ?_
          cases moves with
          | recognise stack => exact ih stack (position + 1) applied
          | expand inForce found stack =>
              have predicted := isTable.predicts_of_rule?_eq_some inForce
              exact expands _ (.expand predicted found stack) _

omit starts in
/-- Without conflicts, the parser gets stuck in the end. -/
theorem exists_isStuck (configuration : Configuration) :
    ∃ final, Relation.ReflTransGen parser.Moves configuration final ∧ parser.IsStuck final := by
  induction acc_moves isTable conflictFree configuration with
  | intro configuration _ ih =>
      by_cases stuck : parser.IsStuck configuration
      · exact ⟨configuration, .refl, stuck⟩
      · obtain ⟨next, moves⟩ := not_forall_not.mp stuck
        obtain ⟨final, later, finalStuck⟩ := ih next moves
        exact ⟨final, .head moves later, finalStuck⟩

end

end Parser

end DeterministicParsing.Predictive
