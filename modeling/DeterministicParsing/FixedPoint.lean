/-
# Repeating until nothing changes

First sets, Follow sets and shortest sentences are found in the same way: a pass over the data
improves a value in place, and passes are made until one of them leaves the value as it is.
`stabilize` is that loop. The number of passes is bounded by its caller, who knows how often the
value can change, and is reported because the log shows it.

Closures are found by working off what is pending, the latest first, where every piece of work may
leave further pieces. `drain` is that loop, bounded by its caller as well.
-/
import DeterministicParsing.Fault

namespace DeterministicParsing

variable {σ α : Type}

section Passes

variable [DecidableEq σ]

/-- Make passes until one changes nothing, at most `bound` of them. The result is the last value
together with the number of passes made, the one without a change included. -/
def stabilize (pass : σ → Except Fault σ) : Nat → σ → Except Fault (σ × Nat)
  | 0, value => .ok (value, 0)
  | bound + 1, value => do
      let next ← pass value
      if next = value then
        return (value, 1)
      else
        let (final, passes) ← stabilize pass bound next
        return (final, passes + 1)

/-- A value that a pass leaves alone is its own result, after that one pass. -/
theorem stabilize_of_fixed {pass : σ → Except Fault σ} {value : σ} (bound : Nat)
    (fixed : pass value = .ok value) : stabilize pass (bound + 1) value = .ok (value, 1) := by
  simp [stabilize, fixed, bind, Except.bind, pure, Except.pure]

end Passes

/-- Take the first pending piece of work and do it, until none is left, at most `bound` times. -/
def drain (work : α → σ × List α → Except Fault (σ × List α)) :
    Nat → σ × List α → Except Fault (σ × List α)
  | 0, state => .ok state
  | bound + 1, (value, pending) =>
      match pending with
      | [] => .ok (value, [])
      | next :: later => do drain work bound (← work next (value, later))

end DeterministicParsing
