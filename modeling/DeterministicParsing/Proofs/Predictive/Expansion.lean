/-
# Expansions that come to an end

As long as the next token stays the same, all that the predictive parser can do is to expand the
symbol in front, again and again. In a grammar where no terminal predicts two rules of one
nonterminal this comes to an end. A rule is predicted either because its body comes to begin with
the terminal, and then each expansion is a step of the one way in which it does, or because its body
becomes empty and the terminal follows its head, and then each expansion is a step of the one way in
which that happens. Neither goes on for ever, and symbols that derive no word need not be excluded
for that. In particular no nonterminal comes to be expanded into a string that begins with itself.
-/
import Mathlib.Logic.Relation
import DeterministicParsing.Proofs.Grammar.Contraction
import DeterministicParsing.Proofs.Predictive.Table

namespace DeterministicParsing.Predictive

open Relation (TransGen)

variable {grammar : Grammar} {table : Table} {terminal nonterminal : Nat}
  {string next rest : List Symbol}

/-! ## Grammars without conflicts -/

/-- No terminal predicts two rules of one nonterminal. -/
def HasUniquePredictions (grammar : Grammar) : Prop :=
  ∀ nonterminal terminal first second, Predicts grammar nonterminal terminal first →
    Predicts grammar nonterminal terminal second → first = second

/-- A rule that is predicted is in force if there are no conflicts. -/
theorem Table.IsTableOf.rule?_eq_some (isTable : table.IsTableOf grammar)
    (conflictFree : table.isConflictFree = true) {id : Nat}
    (predicted : Predicts grammar nonterminal terminal id) :
    table.rule? nonterminal terminal = some id := by
  rw [← head?_cell]
  exact head?_eq_some_of_mem (isConflictFree_iff.mp conflictFree nonterminal terminal)
    ((isTable nonterminal terminal id).mpr predicted)

theorem Table.IsTableOf.hasUniquePredictions (isTable : table.IsTableOf grammar)
    (conflictFree : table.isConflictFree = true) : HasUniquePredictions grammar := by
  intro nonterminal terminal first second predicted alsoPredicted
  have inForce := isTable.rule?_eq_some conflictFree predicted
  exact Option.some.inj (inForce.symm.trans (isTable.rule?_eq_some conflictFree alsoPredicted))

/-! ## Expansions in front of a terminal -/

/-- In front of the terminal, the first symbol of a string is expanded by a rule that is
predicted. -/
inductive Unfolds (grammar : Grammar) (terminal : Nat) : List Symbol → List Symbol → Prop where
  | expand {nonterminal id : Nat} {rule : Rule}
      (predicted : Predicts grammar nonterminal terminal id)
      (found : grammar.rules[id]? = some rule) (rest : List Symbol) :
      Unfolds grammar terminal (.nonterminal nonterminal :: rest) (rule.body ++ rest)

/-- In front of the terminal, the expansions of the string come to an end. -/
def Settles (grammar : Grammar) (terminal : Nat) (string : List Symbol) : Prop :=
  Acc (fun next string => Unfolds grammar terminal string next) string

/-- What stands behind has no part in an expansion. -/
theorem Unfolds.append (unfolds : Unfolds grammar terminal string next) (rest : List Symbol) :
    Unfolds grammar terminal (string ++ rest) (next ++ rest) := by
  obtain ⟨predicted, found, others⟩ := unfolds
  rw [List.append_assoc]
  exact .expand predicted found (others ++ rest)

variable (unique : HasUniquePredictions grammar)
include unique

/-- A string settles if it does after the one rule that is predicted. -/
theorem settles_of_predicts {id : Nat} {rule : Rule}
    (predicted : Predicts grammar nonterminal terminal id) (found : grammar.rules[id]? = some rule)
    (settles : Settles grammar terminal (rule.body ++ rest)) :
    Settles grammar terminal (.nonterminal nonterminal :: rest) := by
  refine Acc.intro _ fun next unfolds => ?_
  cases unfolds with
  | expand alsoPredicted alsoFound =>
      obtain rfl := unique _ _ _ _ predicted alsoPredicted
      obtain rfl := Option.some.inj (found.symm.trans alsoFound)
      exact settles

/-- Nonterminals that vanish do so by expansions in front of a terminal that follows them all. -/
theorem settles_of_vanishes (vanishes : grammar.Vanishes string)
    (follows : ∀ left nonterminal right, string = left ++ .nonterminal nonterminal :: right →
      grammar.Follows nonterminal terminal)
    (settles : Settles grammar terminal rest) : Settles grammar terminal (string ++ rest) := by
  induction vanishes generalizing rest with
  | nil => exact settles
  | @cons rule others member body _ bodySettles othersSettle =>
      obtain ⟨id, found⟩ := List.getElem?_of_mem member
      have followsHead : grammar.Follows rule.head terminal := follows [] rule.head others rfl
      have predicted : Predicts grammar rule.head terminal id :=
        ⟨rule, found, rfl, .inr ⟨body.derives, followsHead⟩⟩
      refine settles_of_predicts unique predicted found (bodySettles ?_ (othersSettle ?_ settles))
      · intro left inner right isBody
        rw [isBody, ← List.singleton_append, Grammar.vanishes_append,
          Grammar.vanishes_append] at body
        exact followsHead.of_head member isBody body.2.2.derives
      · rintro left inner right rfl
        exact follows (.nonterminal rule.head :: left) inner right rfl

/-- The end of a body that comes to begin with the terminal does so by expansions. -/
theorem settles_of_begins {rule : Rule} {front : List Symbol} (member : rule ∈ grammar.rules)
    (body : rule.body = front ++ string) (begins : grammar.Begins terminal string)
    (rest : List Symbol) : Settles grammar terminal (string ++ rest) := by
  induction begins generalizing rule front rest with
  | read others => exact Acc.intro _ fun next unfolds => by cases unfolds
  | @skip symbol others vanishes begins ih =>
      have othersSettle : Settles grammar terminal (others ++ rest) := by
        refine @ih rule (front ++ [symbol]) member ?_ rest
        rwa [← List.append_cons]
      show Settles grammar terminal ([symbol] ++ (others ++ rest))
      refine settles_of_vanishes unique vanishes ?_ othersSettle
      intro left nonterminal right same
      have isSymbol : Symbol.nonterminal nonterminal = symbol :=
        List.mem_singleton.mp (same ▸ List.mem_append_right left List.mem_cons_self)
      rw [← isSymbol] at body
      exact Grammar.follows_of_rest member body begins.derivesBeginning
  | @enter inner isRule begins others ih =>
      obtain ⟨id, found⟩ := List.getElem?_of_mem isRule
      have predicted : Predicts grammar inner.head terminal id :=
        ⟨inner, found, rfl, .inl begins.derivesBeginning⟩
      exact settles_of_predicts unique predicted found (@ih inner [] isRule rfl (others ++ rest))

/-- Without conflicts, the expansions of every string come to an end. -/
theorem settles (string : List Symbol) : Settles grammar terminal string := by
  induction string with
  | nil => exact Acc.intro _ fun next unfolds => by cases unfolds
  | cons symbol rest ih =>
      cases symbol with
      | terminal read => exact Acc.intro _ fun next unfolds => by cases unfolds
      | nonterminal nonterminal =>
          refine Acc.intro _ fun next unfolds => ?_
          cases unfolds with
          | @expand _ id rule predicted found =>
              have member := List.mem_of_getElem? found
              obtain ⟨_, begins | ⟨vanishes, follows⟩⟩ := (predicts_iff found).mp predicted
              · exact settles_of_begins unique member (List.nil_append _).symm begins.begins rest
              · refine settles_of_vanishes unique vanishes.vanishes ?_ ih
                intro left inner right isBody
                rw [isBody, ← List.singleton_append, Grammar.derives_append_nil,
                  Grammar.derives_append_nil] at vanishes
                exact follows.of_head member isBody vanishes.2.2

/-- Without conflicts, no nonterminal is expanded into a string that begins with itself. -/
theorem not_unfolds_itself (rest : List Symbol) :
    ¬ TransGen (Unfolds grammar terminal) [.nonterminal nonterminal]
      (.nonterminal nonterminal :: rest) := by
  intro unfolds
  -- What follows the nonterminal grows, so the induction is over all that may stand there.
  have never (string others : List Symbol) (isString : string = .nonterminal nonterminal :: others)
      (settled : Acc (fun next string => TransGen (Unfolds grammar terminal) string next) string) :
      False := by
    induction settled generalizing others with
    | intro string _ ih =>
        subst isString
        refine ih _ ?_ (rest ++ others) rfl
        exact unfolds.lift (· ++ others) fun _ _ step => step.append others
  have settled : Settles grammar terminal [.nonterminal nonterminal] := settles unique _
  refine never _ [] rfl ?_
  convert settled.transGen using 3
  exact Relation.transGen_swap.symm

end DeterministicParsing.Predictive
