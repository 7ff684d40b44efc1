/-
# Faults and failures

Terminals, nonterminals, rules and states are numbers, and a number can be used where nothing is
declared under it. Such a use is a `Fault`. It is kept apart from the errors of the domain (a syntax
error, a grammar that cannot be built on), because a fault says that the question made no sense,
while an error is an answer to it.

A computation that can only go wrong in the first way lives in `Except Fault`; one that can go wrong
in both lives in `Except (Failure ε)`, into which faults are lifted.
-/

namespace DeterministicParsing

/-- A use of something that is not there. -/
inductive Fault where
  | rule (id : Nat)
  | nonterminal (id : Nat)
  | terminal (id : Nat)
  | state (id : Nat)
  | start
  /-- The marker of an item stands beyond the end of its rule. -/
  | marker (rule marker : Nat)
  /-- A synthesis function asked for an attribute that is not there, or of the wrong sort. -/
  | missingAttribute
  deriving DecidableEq

/-- A computation either faults or ends with an error of its own. -/
inductive Failure (ε : Type) where
  | fault (fault : Fault)
  | error (error : ε)
  deriving DecidableEq

namespace Failure

variable {ε : Type} {α : Type}

/-- Run a computation that can only fault where errors are possible too. -/
def lift : Except Fault α → Except (Failure ε) α
  | .ok value => .ok value
  | .error reason => .error (.fault reason)

@[simp]
theorem lift_ok (value : α) : (lift (.ok value) : Except (Failure ε) α) = .ok value := rfl

instance : MonadLift (Except Fault) (Except (Failure ε)) := ⟨lift⟩

/-- End a computation with one of its errors. -/
def raise (reason : ε) : Except (Failure ε) α := .error (.error reason)

end Failure

/-! ## Computations that succeed -/

variable {ε α β : Type}

@[simp]
theorem ok_bind (value : α) (next : α → Except ε β) :
    (Except.ok value >>= next) = next value := rfl

@[simp]
theorem pure_eq_ok (value : α) : (pure value : Except ε α) = .ok value := rfl

@[simp]
theorem liftM_ok (value : α) :
    (liftM (Except.ok value : Except Fault α) : Except (Failure ε) α) = .ok value := rfl

theorem exists_of_bind_eq_ok {first : Except ε α} {next : α → Except ε β} {result : β}
    (succeeds : (first >>= next) = .ok result) :
    ∃ value, first = .ok value ∧ next value = .ok result := by
  cases first with
  | error reason => cases succeeds
  | ok value => exact ⟨value, rfl, succeeds⟩

theorem eq_ok_of_liftM_eq_ok {computation : Except Fault α} {value : α}
    (succeeds : (liftM computation : Except (Failure ε) α) = .ok value) :
    computation = .ok value := by
  cases computation with
  | error reason => cases succeeds
  | ok result =>
      cases succeeds
      rfl

/-- A computation that ends with an error, for which it may have to look something up, does not
succeed. -/
theorem bind_raise_ne_ok {computation : Except (Failure ε) α} {reason : α → ε} {value : β} :
    (computation >>= fun found => Failure.raise (reason found)) ≠ .ok value := by
  intro succeeds
  obtain ⟨_, _, raises⟩ := exists_of_bind_eq_ok succeeds
  cases raises

end DeterministicParsing
