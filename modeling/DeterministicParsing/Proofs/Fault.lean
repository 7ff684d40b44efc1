/-
# Computations without faults

A computation that can only fault returns if nothing is used that is not there. One that can also
end with an error of its own is free of faults if it returns or ends with such an error. Both are
carried through the stages of a computation and through lists.
-/
import DeterministicParsing.Proofs.FixedPoint

namespace DeterministicParsing

variable {α β ε : Type}

/-- The computation ends with a value. -/
def Returns (computation : Except ε α) : Prop := ∃ value, computation = .ok value

/-- The computation does not end with a fault. -/
def IsFaultless (computation : Except (Failure ε) α) : Prop :=
  ∀ fault, computation ≠ .error (.fault fault)

namespace Returns

theorem ok (value : α) : Returns (.ok value : Except ε α) := ⟨value, rfl⟩

/-- A computation in two stages returns if both of them do. -/
theorem bind {first : Except ε α} {next : α → Except ε β} (returns : Returns first)
    (goesOn : ∀ value, first = .ok value → Returns (next value)) :
    Returns (first >>= next) := by
  obtain ⟨value, rfl⟩ := returns
  exact goesOn value rfl

/-- A list is gone through if that is possible for each of its items. -/
theorem mapM {compute : α → Except ε β} {list : List α}
    (each : ∀ item ∈ list, Returns (compute item)) :
    Returns (list.mapM compute) := by
  have total : ∀ item ∈ list, ∃ result, compute item = .ok result ∧ True := by
    intro item member
    obtain ⟨result, computed⟩ := each item member
    exact ⟨result, computed, trivial⟩
  obtain ⟨results, computed, _⟩ := exists_mapM_eq_ok total
  exact ⟨results, computed⟩

end Returns

namespace IsFaultless

theorem ok (value : α) : IsFaultless (.ok value : Except (Failure ε) α) := by
  simp [IsFaultless]

theorem error (reason : ε) : IsFaultless (.error (.error reason) : Except (Failure ε) α) := by
  simp [IsFaultless]

end IsFaultless

end DeterministicParsing
