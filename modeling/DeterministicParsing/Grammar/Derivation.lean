/-
# Derivations

What a grammar means. A nonterminal anywhere in a string may be replaced by the body of one of its
rules, and a string derives whatever such replacements lead to. When always the leftmost nonterminal
is replaced, or always the rightmost one, the rules used determine the derivation, so these two come
with the list of their rules.

Everything else in this library computes something about these relations. They themselves compute
nothing and do not ask whether the symbols they speak of are declared.
-/
import DeterministicParsing.Grammar.Basic

namespace DeterministicParsing

/-- A string of terminals as a string of symbols. -/
def word (terminals : List Nat) : List Symbol := terminals.map .terminal

@[simp]
theorem word_nil : word [] = [] := rfl

@[simp]
theorem word_cons (terminal : Nat) (rest : List Nat) :
    word (terminal :: rest) = .terminal terminal :: word rest := rfl

@[simp]
theorem word_append (first second : List Nat) :
    word (first ++ second) = word first ++ word second :=
  List.map_append

namespace Grammar

variable (grammar : Grammar)

/-! ## Derivations in any order -/

/-- One nonterminal of a string is replaced by the body of one of its rules. -/
inductive Expands : List Symbol → List Symbol → Prop where
  | replace {rule : Rule} (member : rule ∈ grammar.rules) (left right : List Symbol) :
      Expands (left ++ .nonterminal rule.head :: right) (left ++ (rule.body ++ right))

/-- A string leads to another one by replacing nonterminals, any number of times. -/
inductive Derives : List Symbol → List Symbol → Prop where
  | refl (string : List Symbol) : Derives string string
  | head {first second third : List Symbol} (expands : grammar.Expands first second)
      (derives : Derives second third) : Derives first third

/-- The strings of terminals that a string of symbols derives. -/
def Generates (symbols : List Symbol) (terminals : List Nat) : Prop :=
  grammar.Derives symbols (word terminals)

/-- A string derives one that begins with a terminal. -/
def DerivesBeginning (symbols : List Symbol) (terminal : Nat) : Prop :=
  ∃ rest, grammar.Derives symbols (.terminal terminal :: rest)

/-- A nonterminal occurs in a string that the start derives. -/
def Reaches (nonterminal : Nat) : Prop :=
  ∃ start left right, grammar.start = .ok start ∧
    grammar.Derives [.nonterminal start] (left ++ .nonterminal nonterminal :: right)

/-- A nonterminal derives a string of terminals. -/
def Productive (nonterminal : Nat) : Prop :=
  ∃ terminals, grammar.Generates [.nonterminal nonterminal] terminals

variable {grammar}

/-- What a part of a string expands to stays in place within the string. -/
theorem Expands.context {first second : List Symbol} (expands : grammar.Expands first second)
    (before after : List Symbol) :
    grammar.Expands (before ++ (first ++ after)) (before ++ (second ++ after)) := by
  obtain ⟨member, left, right⟩ := expands
  simpa using Expands.replace member (before ++ left) (right ++ after)

namespace Derives

theorem of_rule {rule : Rule} (member : rule ∈ grammar.rules) :
    grammar.Derives [.nonterminal rule.head] rule.body := by
  simpa using Derives.head (Expands.replace member [] []) (.refl _)

theorem trans {first second third : List Symbol} (earlier : grammar.Derives first second)
    (later : grammar.Derives second third) : grammar.Derives first third := by
  induction earlier with
  | refl => exact later
  | head expands _ ih => exact .head expands (ih later)

/-- What a part of a string derives stays in place within the string. -/
theorem context {first second : List Symbol} (derives : grammar.Derives first second)
    (before after : List Symbol) :
    grammar.Derives (before ++ (first ++ after)) (before ++ (second ++ after)) := by
  induction derives with
  | refl => exact .refl _
  | head expands _ ih => exact .head (expands.context before after) ih

/-- Two parts of a string can be derived from independently. -/
theorem append {first second third fourth : List Symbol} (left : grammar.Derives first second)
    (right : grammar.Derives third fourth) :
    grammar.Derives (first ++ third) (second ++ fourth) := by
  have leftInPlace := left.context [] third
  have rightInPlace := right.context second []
  simp only [List.nil_append, List.append_nil] at leftInPlace rightInPlace
  exact leftInPlace.trans rightInPlace

end Derives

/-- A terminal derives nothing but itself, and no nonterminal is left in a word to be replaced. -/
theorem not_expands_word (terminals : List Nat) (string : List Symbol) :
    ¬ grammar.Expands (word terminals) string := by
  intro expands
  generalize source : word terminals = symbols at expands
  obtain ⟨member, left, right⟩ := expands
  rename_i rule
  have occurs : Symbol.nonterminal rule.head ∈ word terminals := by simp [source]
  simp [word] at occurs

/-- A word derives nothing but itself. -/
theorem eq_of_derives_word {terminals : List Nat} {string : List Symbol}
    (derives : grammar.Derives (word terminals) string) : string = word terminals := by
  cases derives with
  | refl => rfl
  | head expands _ => exact absurd expands (not_expands_word terminals _)

/-! ## Leftmost and rightmost derivations -/

variable (grammar)

/-- A string leads to another one by the given rules, each of which replaces the leftmost
nonterminal. -/
inductive DerivesLeftmost : List Symbol → List Nat → List Symbol → Prop where
  | refl (string : List Symbol) : DerivesLeftmost string [] string
  | head {id : Nat} {rule : Rule} (found : grammar.rules[id]? = some rule) (before : List Nat)
      (after : List Symbol) {rules : List Nat} {string : List Symbol}
      (derives : DerivesLeftmost (word before ++ (rule.body ++ after)) rules string) :
      DerivesLeftmost (word before ++ .nonterminal rule.head :: after) (id :: rules) string

/-- A string leads to another one by the given rules, each of which replaces the rightmost
nonterminal. -/
inductive DerivesRightmost : List Symbol → List Nat → List Symbol → Prop where
  | refl (string : List Symbol) : DerivesRightmost string [] string
  | head {id : Nat} {rule : Rule} (found : grammar.rules[id]? = some rule) (before : List Symbol)
      (after : List Nat) {rules : List Nat} {string : List Symbol}
      (derives : DerivesRightmost (before ++ (rule.body ++ word after)) rules string) :
      DerivesRightmost (before ++ .nonterminal rule.head :: word after) (id :: rules) string

variable {grammar}

theorem DerivesLeftmost.derives {first second : List Symbol} {rules : List Nat}
    (leftmost : grammar.DerivesLeftmost first rules second) : grammar.Derives first second := by
  induction leftmost with
  | refl => exact .refl _
  | head found before after _ ih =>
      exact .head (.replace (List.mem_of_getElem? found) (word before) after) ih

theorem DerivesLeftmost.trans {first second third : List Symbol} {earlier later : List Nat}
    (before : grammar.DerivesLeftmost first earlier second)
    (after : grammar.DerivesLeftmost second later third) :
    grammar.DerivesLeftmost first (earlier ++ later) third := by
  induction before with
  | refl => exact after
  | head found left right _ ih => exact .head found left right (ih after)

theorem DerivesRightmost.derives {first second : List Symbol} {rules : List Nat}
    (rightmost : grammar.DerivesRightmost first rules second) : grammar.Derives first second := by
  induction rightmost with
  | refl => exact .refl _
  | head found before after _ ih =>
      exact .head (.replace (List.mem_of_getElem? found) before (word after)) ih

theorem DerivesRightmost.trans {first second third : List Symbol} {earlier later : List Nat}
    (before : grammar.DerivesRightmost first earlier second)
    (after : grammar.DerivesRightmost second later third) :
    grammar.DerivesRightmost first (earlier ++ later) third := by
  induction before with
  | refl => exact after
  | head found left right _ ih => exact .head found left right (ih after)

end Grammar

end DeterministicParsing
