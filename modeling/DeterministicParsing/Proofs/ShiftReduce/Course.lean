/-
# What becomes of a machine

The table may propose several actions for one state and terminal, and the machine performs the one
in force. If some of the actions lead to a goal, the machine itself comes there, or it parts from
them in a cell with several actions, where the one in force is not the one that leads on. In one of
these cells it goes astray, or it keeps within reach of the goal and goes on for ever.

The machine performs the same moves whatever it has reduced before. So one that comes back to where
it was goes round for ever, and all places that it comes through can be listed even then.
-/
import DeterministicParsing.Proofs.ShiftReduce.Completeness

namespace DeterministicParsing.ShiftReduce

open Relation (ReflTransGen)

/-! ## Within reach of a goal -/

namespace Machine

variable {V : Type} {machine next final : Machine V}

/-- One step that succeeds. -/
def Steps (machine next : Machine V) : Prop := ∃ move, machine.step = (.ok move, next)

/-- The machine is in the state of the conflict, with the terminal of the conflict next. -/
def Faces (machine : Machine V) (conflict : Conflict) : Prop :=
  machine.state = conflict.state ∧ machine.lookahead?.map Token.terminal = some conflict.terminal

/-- Actions that the table proposes lead the machine to a goal. -/
def MayReach (machine : Machine V) (goal : Machine V → Prop) : Prop :=
  ∃ final, ReflTransGen MayMove machine final ∧ goal final

/-- An action that the table proposes leads the machine on to a goal, but the machine does not
perform it. -/
def DeviatesFrom (machine : Machine V) (goal : Machine V → Prop) : Prop :=
  ∃ other, machine.MayMove other ∧ other.MayReach goal ∧ ¬ machine.Steps other

/-- Actions that the table proposes lead the machine to a goal, but none do after its own step. -/
def StraysFrom (machine : Machine V) (goal : Machine V → Prop) : Prop :=
  machine.MayReach goal ∧ ∀ next, machine.Steps next → ¬ next.MayReach goal

/-- The machine makes steps for ever, and all the time actions that the table proposes would lead it
to a goal. -/
def LingersBefore (machine : Machine V) (goal : Machine V → Prop) : Prop :=
  ∀ later, ReflTransGen Steps machine later → ∃ next, later.Steps next ∧ next.MayReach goal

/-- The table proposes different actions where the machine is. -/
def HasChoice (machine : Machine V) : Prop :=
  ∃ token, machine.lookahead? = some token ∧
    2 ≤ (machine.parser.table.cell machine.state token.terminal).length

/-- Where the machine has a choice, it is at a conflict. -/
theorem HasChoice.exists_faces (choice : machine.HasChoice) :
    ∃ conflict ∈ machine.parser.table.conflicts, machine.Faces conflict := by
  obtain ⟨token, isNext, many⟩ := choice
  obtain ⟨conflict, isConflict, sameState, sameTerminal⟩ := Table.exists_mem_conflicts many
  exact ⟨conflict, isConflict, sameState.symm, by rw [isNext, Option.map_some, sameTerminal]⟩

theorem steps_of_moves (moves : ReflTransGen Moves machine next) :
    ReflTransGen Steps machine next :=
  moves.lift id fun _ _ (moves : Moves _ _) => moves.exists_step_eq.2

theorem parser_eq_of_moves (moves : ReflTransGen Moves machine next) :
    next.parser = machine.parser := by
  induction moves with
  | refl => rfl
  | tail _ moves ih => exact moves.unchanged.2.1.trans ih

variable {goal : Machine V → Prop}

theorem Moves.eq_of_steps {other : Machine V} (moves : machine.Moves next)
    (steps : machine.Steps other) : other = next := by
  obtain ⟨_, _, stepsNext⟩ := moves.exists_step_eq
  obtain ⟨_, stepsOther⟩ := steps
  exact (congrArg Prod.snd (stepsOther.symm.trans stepsNext) :)

/-- A step on the way to a goal that is not reached yet does not accept. -/
theorem Steps.moves (step : machine.Steps next) (unfinished : machine.result = none)
    (mayReach : next.MayReach goal) (never : ¬ goal next) : machine.Moves next := by
  obtain ⟨move, steps⟩ := step
  rcases moves_or_accepts unfinished steps with moves | ⟨_, _, _, rfl⟩
  · exact moves
  · obtain ⟨final, mayMoves, isGoal⟩ := mayReach
    rcases mayMoves.cases_head with rfl | ⟨_, more, _⟩
    · exact absurd isGoal never
    · cases more <;> cases ‹machine.accept.result = none›

/-- A machine makes a move that the table proposes, or it has a choice and makes another one. -/
theorem MayMove.moves_or_deviates (may : machine.MayMove next) (mayReach : next.MayReach goal) :
    machine.Moves next ∨ (machine.HasChoice ∧ machine.DeviatesFrom goal) := by
  by_cases moves : machine.Moves next
  · exact .inl moves
  refine .inr ⟨?_, next, may, mayReach, fun ⟨move, steps⟩ => ?_⟩
  · by_contra noChoice
    refine moves (may.moves fun token isNext => ?_)
    by_contra many
    exact noChoice ⟨token, isNext, by omega⟩
  · have unfinished : machine.result = none := by cases may <;> assumption
    rcases moves_or_accepts unfinished steps with same | ⟨_, _, _, rfl⟩
    · exact moves same
    · cases may.unchanged.1

/-- A machine that may reach a goal comes to it, or has a choice on the way and deviates. -/
theorem MayReach.reaches_or_deviates (mayReach : machine.MayReach goal) :
    (∃ final, ReflTransGen Steps machine final ∧ goal final) ∨
      ∃ last, ReflTransGen Moves machine last ∧ last.HasChoice ∧ last.DeviatesFrom goal := by
  obtain ⟨final, mayMoves, isGoal⟩ := mayReach
  induction mayMoves using ReflTransGen.head_induction_on with
  | refl => exact .inl ⟨final, .refl, isGoal⟩
  | @head machine next may later ih =>
      rcases may.moves_or_deviates ⟨final, later, isGoal⟩ with moves | deviates
      · refine ih.imp ?_ ?_
        · rintro ⟨final, steps, isGoal⟩
          exact ⟨final, .head moves.exists_step_eq.2 steps, isGoal⟩
        · rintro ⟨last, onward, deviates⟩
          exact ⟨last, .head moves onward, deviates⟩
      · exact .inr ⟨machine, .refl, deviates⟩

/-- Where a machine neither comes to a goal nor strays from it, it makes a move in reach of it. -/
theorem MayReach.exists_moves (mayReach : machine.MayReach goal)
    (never : ∀ later, ReflTransGen Steps machine later → ¬ goal later)
    (keeps : ¬ (machine.HasChoice ∧ machine.DeviatesFrom goal ∧ machine.StraysFrom goal)) :
    ∃ next, machine.Moves next ∧ next.MayReach goal := by
  obtain ⟨final, mayMoves, isGoal⟩ := mayReach
  rcases mayMoves.cases_head with rfl | ⟨other, may, later⟩
  · exact absurd isGoal (never machine .refl)
  rcases may.moves_or_deviates ⟨final, later, isGoal⟩ with moves | ⟨choice, deviates⟩
  · exact ⟨other, moves, final, later, isGoal⟩
  · have steps : ∃ next, machine.Steps next ∧ next.MayReach goal := by
      by_contra noStep
      push Not at noStep
      exact keeps ⟨choice, deviates, ⟨final, mayMoves, isGoal⟩, noStep⟩
    obtain ⟨next, step, nextReach⟩ := steps
    have unfinished : machine.result = none := by cases may <;> assumption
    exact ⟨next, step.moves unfinished nextReach (never next (.single step)), nextReach⟩

/-- A machine that may reach a goal comes to it, or there is a conflict on the way where it makes
another choice. After that it is astray, or it goes on for ever without leaving the reach of the
goal. -/
theorem MayReach.reaches_or_misses (mayReach : machine.MayReach goal) :
    (∃ final, ReflTransGen Steps machine final ∧ goal final) ∨
      ∃ last, ReflTransGen Steps machine last ∧
        (∃ conflict ∈ machine.parser.table.conflicts, last.Faces conflict) ∧
        last.DeviatesFrom goal ∧ (last.StraysFrom goal ∨ last.LingersBefore goal) := by
  have faces {last : Machine V} (moves : ReflTransGen Moves machine last)
      (choice : last.HasChoice) :
      ∃ conflict ∈ machine.parser.table.conflicts, last.Faces conflict := by
    rw [← parser_eq_of_moves moves]
    exact choice.exists_faces
  by_cases reaches : ∃ final, ReflTransGen Steps machine final ∧ goal final
  · exact .inl reaches
  by_cases strays : ∃ last, ReflTransGen Moves machine last ∧ last.HasChoice ∧
      last.DeviatesFrom goal ∧ last.StraysFrom goal
  · obtain ⟨last, moves, choice, deviates, strays⟩ := strays
    exact .inr ⟨last, steps_of_moves moves, faces moves choice, deviates, .inl strays⟩
  obtain ⟨last, moves, choice, deviates⟩ := mayReach.reaches_or_deviates.resolve_left reaches
  refine .inr ⟨last, steps_of_moves moves, faces moves choice, deviates,
    .inr fun later steps => ?_⟩
  push Not at reaches
  have goesOn {later : Machine V} (moves : ReflTransGen Moves machine later)
      (mayReach : later.MayReach goal) : ∃ next, later.Moves next ∧ next.MayReach goal :=
    mayReach.exists_moves
      (fun final onward => reaches final ((steps_of_moves moves).trans onward))
      fun astray => strays ⟨later, moves, astray⟩
  -- All steps are moves that stay in reach of the goal.
  have inReach : ReflTransGen Moves machine later ∧ later.MayReach goal := by
    induction steps with
    | refl =>
        obtain ⟨other, may, ⟨final, onward, isGoal⟩, _⟩ := deviates
        exact ⟨moves, final, .head may onward, isGoal⟩
    | tail _ step ih =>
        obtain ⟨next, moves, nextReach⟩ := goesOn ih.1 ih.2
        obtain rfl := moves.eq_of_steps step
        exact ⟨ih.1.tail moves, nextReach⟩
  obtain ⟨next, moves, nextReach⟩ := goesOn inReach.1 inReach.2
  exact ⟨next, moves.exists_step_eq.2, nextReach⟩

/-- The machine is at the conflict, and has shifted all but the last of so many terminals. -/
def Meets (machine : Machine V) (conflict : Conflict) (length : Nat) : Prop :=
  machine.Faces conflict ∧ machine.position = length - 1

/-- Moves count the tokens that they shift. -/
theorem count_eq_of_mayMoves (mayMoves : ReflTransGen MayMove machine final) :
    final.position + final.remaining.length = machine.position + machine.remaining.length := by
  induction mayMoves with
  | refl => rfl
  | tail _ may ih =>
      rw [← ih]
      cases may with
      | shift _ ahead _ =>
          simp [shift, ahead]
          omega
      | reduce => rfl

end Machine

/-! ## Where a machine comes through -/

/-- Where a machine has come to. -/
structure Place where
  state : Nat
  position : Nat
  terminal : Option Nat
  deriving DecidableEq

namespace Machine

variable {V : Type} {machine next later : Machine V}

/-- Where the machine is. -/
def place (machine : Machine V) : Place :=
  ⟨machine.state, machine.position, machine.lookahead?.map Token.terminal⟩

/-- A move depends on the rules reduced so far as little as everything else that it changes. -/
theorem Moves.exists_moves (moves : machine.Moves next) (reduced : List Nat) :
    ∃ others, Moves { machine with reduced } { next with reduced := others } := by
  cases moves with
  | shift unfinished ahead action => exact ⟨reduced, .shift unfinished ahead action⟩
  | @reduce token rest id target rule value unfinished ahead action found spelled leads computed =>
      exact ⟨id :: reduced, .reduce unfinished ahead action found spelled leads computed⟩

/-- A machine that only adds to the rules reduced goes round for ever. -/
theorem Moves.eq_of_repeats (moves : machine.Moves next)
    (repeats : next = { machine with reduced := next.reduced })
    (steps : ReflTransGen Steps machine later) :
    later = { machine with reduced := later.reduced } := by
  induction steps with
  | refl => rfl
  | @tail middle later _ step ih =>
      obtain ⟨others, again⟩ := moves.exists_moves middle.reduced
      rw [repeats] at again
      rw [ih] at step
      rw [again.eq_of_steps step]

section Courses

variable [DecidableEq V]

/-- The machines differ at most in the rules reduced. -/
def Repeats (machine next : Machine V) : Prop :=
  next.stack = machine.stack ∧ next.remaining = machine.remaining ∧
    next.position = machine.position ∧ next.result = machine.result

instance (machine next : Machine V) : Decidable (machine.Repeats next) :=
  inferInstanceAs (Decidable (_ ∧ _ ∧ _ ∧ _))

/-- The places that a machine comes through, until a step fails or leads back to where the machine
is, if that happens within the bound. -/
def course? : Nat → Machine V → Option (List Place)
  | 0, _ => none
  | bound + 1, machine =>
      match machine.step with
      | (.error _, _) => some [machine.place]
      | (.ok _, next) =>
          if machine.Repeats next then some [machine.place]
          else (course? bound next).map (machine.place :: ·)

omit [DecidableEq V] in
/-- From a machine that steps lead back to, they lead to no other place. -/
theorem place_eq_of_repeats {move : Move} (steps : machine.step = (.ok move, next))
    (repeats : machine.Repeats next) (reaches : ReflTransGen Steps machine later) :
    later.place = machine.place := by
  obtain ⟨sameStack, sameRemaining, samePosition, sameResult⟩ := repeats
  rcases rests_or_moves_or_accepts steps with ⟨finished, _⟩ | moves | ⟨_, _, accepts, rfl⟩
  · have stays : later = machine := by
      induction reaches with
      | refl => rfl
      | @tail middle later _ step ih =>
          subst ih
          obtain ⟨_, rests⟩ := step
          rw [step, if_pos finished] at rests
          exact (Prod.mk.inj rests).2.symm
    rw [stays]
  · have same : next = { machine with reduced := next.reduced } := by
      obtain ⟨_, sameParser, sameSemantics⟩ := moves.unchanged
      cases next
      cases machine
      simp_all
    rw [moves.eq_of_repeats same reaches]
    rfl
  · rw [accepts.unfinished] at sameResult
    cases sameResult

/-- A machine comes to no other places than those on its course. -/
theorem place_mem {bound : Nat} {course : List Place}
    (isCourse : machine.course? bound = some course) (reaches : ReflTransGen Steps machine next) :
    next.place ∈ course := by
  induction bound generalizing machine course with
  | zero => cases isCourse
  | succ bound ih =>
      rw [course?] at isCourse
      split at isCourse
      · rename_i refuses
        cases isCourse
        rcases reaches.cases_head with rfl | ⟨middle, ⟨move, steps⟩, _⟩
        · exact .head _
        · cases refuses.symm.trans steps
      · rename_i move middle steps
        split at isCourse
        · rename_i repeats
          cases isCourse
          rw [place_eq_of_repeats steps repeats reaches]
          exact .head _
        · obtain ⟨rest, isRest, rfl⟩ := Option.map_eq_some_iff.mp isCourse
          rcases reaches.cases_head with rfl | ⟨other, ⟨otherMove, otherSteps⟩, onward⟩
          · exact .head _
          · cases steps.symm.trans otherSteps
            exact .tail _ (ih isRest onward)

end Courses

end Machine

/-- The course of a machine that is started in front of terminals. -/
def Parser.course? (parser : Parser) (bound : Nat) (terminals : List Nat) :
    Option (List Place) :=
  match Token.ofTerminals parser.grammar terminals with
  | .error _ => none
  | .ok tokens =>
      match (Machine.start parser tokens : Except ParseError (Machine Unit)) with
      | .error _ => none
      | .ok origin => origin.course? bound

end DeterministicParsing.ShiftReduce
