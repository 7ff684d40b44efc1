/-
# Registers of candidates

A parsing table has one answer for each key. The first candidate that is registered for a key
becomes its entry and stays so. When another one comes up, the two of them start a contest, which is
kept apart from the entries and which later candidates for the key join. What sort of contest it is
can be settled when it starts, or anew with every candidate.
-/
import DeterministicParsing.InsertionMap

namespace DeterministicParsing

/-- Candidates that compete for one key, the one in force first. -/
structure Contest (α σ : Type) where
  kind : σ
  candidates : List α
  deriving DecidableEq

namespace Contest

variable {α σ : Type} [DecidableEq α]

/-- A contest between two candidates. The sort of a contest is told from the sort it had before, if
it had been one, and its candidates. -/
def start (sort : Option σ → List α → σ) (inForce candidate : α) : Contest α σ :=
  ⟨sort none [inForce, candidate], [inForce, candidate]⟩

/-- One more candidate, unless it competes already. -/
def join (sort : Option σ → List α → σ) (candidate : α)
    (contest : Contest α σ) : Contest α σ :=
  if candidate ∈ contest.candidates then contest
  else
    let candidates := contest.candidates ++ [candidate]
    ⟨sort (some contest.kind) candidates, candidates⟩

/-- Two different candidates or more compete, and the given one is in force. -/
structure IsFor (inForce : α) (contest : Contest α σ) : Prop where
  first : contest.candidates.head? = some inForce
  many : 2 ≤ contest.candidates.length
  distinct : contest.candidates.Nodup

omit [DecidableEq α] in
theorem isFor_start (sort : Option σ → List α → σ) {inForce candidate : α}
    (differ : inForce ≠ candidate) : (start sort inForce candidate).IsFor inForce :=
  ⟨rfl, Nat.le_refl 2, by simpa [start] using differ⟩

theorem IsFor.join (sort : Option σ → List α → σ) {inForce : α} {contest : Contest α σ}
    (isFor : contest.IsFor inForce) (candidate : α) :
    (contest.join sort candidate).IsFor inForce := by
  rw [Contest.join]
  split
  · exact isFor
  · rename_i absent
    refine ⟨by simp [isFor.first], ?_, ?_⟩
    · have many := isFor.many
      simp
      omega
    · refine List.nodup_append.mpr ⟨isFor.distinct, by simp, ?_⟩
      rintro other member last isLast rfl
      exact absent (List.mem_singleton.mp isLast ▸ member)

end Contest

/-- Candidates for keys: the ones in force, and the contests they are in. -/
structure Registry (κ α σ : Type) where
  entries : InsertionMap κ α
  contests : InsertionMap κ (Contest α σ)
  /-- Contests are for keys with an entry. -/
  contested : ∀ key contest, (key, contest) ∈ contests.entries →
    ∃ inForce, (key, inForce) ∈ entries.entries ∧ contest.IsFor inForce
  deriving DecidableEq

namespace Registry

variable {κ α σ : Type} [DecidableEq κ] [DecidableEq α]

def empty : Registry κ α σ := ⟨.empty, .empty, by simp [InsertionMap.empty]⟩

omit [DecidableEq α] in
theorem exists_entry_of_contest {registry : Registry κ α σ} {key : κ} {contest : Contest α σ}
    (isContest : registry.contests.find? key = some contest) :
    ∃ inForce, registry.entries.find? key = some inForce ∧ contest.IsFor inForce := by
  obtain ⟨inForce, isEntry, isFor⟩ :=
    registry.contested key contest (InsertionMap.find?_eq_some_iff.mp isContest)
  exact ⟨inForce, InsertionMap.find?_eq_some_iff.mpr isEntry, isFor⟩

/-- A candidate for a key that has none. -/
def enter (registry : Registry κ α σ) (key : κ) (candidate : α)
    (vacant : registry.entries.find? key = none) : Registry κ α σ where
  entries := registry.entries.insert key candidate
  contests := registry.contests
  contested wanted contest isContest := by
    obtain ⟨inForce, isEntry, isFor⟩ := registry.contested wanted contest isContest
    rw [← InsertionMap.find?_eq_some_iff] at isEntry
    have differs : wanted ≠ key := by
      rintro rfl
      simp [vacant] at isEntry
    refine ⟨inForce, ?_, isFor⟩
    rwa [← InsertionMap.find?_eq_some_iff, InsertionMap.find?_insert, if_neg differs]

/-- A candidate for a key that has another one. -/
def contest (registry : Registry κ α σ) (sort : Option σ → List α → σ) (key : κ)
    {inForce : α} (isEntry : registry.entries.find? key = some inForce) (candidate : α)
    (differ : inForce ≠ candidate) : Registry κ α σ where
  entries := registry.entries
  contests := registry.contests.insert key <|
    match registry.contests.find? key with
    | some contest => contest.join sort candidate
    | none => .start sort inForce candidate
  contested wanted contest isContest := by
    rw [← InsertionMap.find?_eq_some_iff, InsertionMap.find?_insert] at isContest
    split at isContest
    · rename_i same
      subst same
      refine ⟨inForce, InsertionMap.find?_eq_some_iff.mp isEntry, ?_⟩
      obtain rfl := Option.some.inj isContest
      split
      · rename_i earlier isEarlier
        obtain ⟨first, isFirst, isFor⟩ := exists_entry_of_contest isEarlier
        obtain rfl := Option.some.inj (isEntry.symm.trans isFirst)
        exact isFor.join sort candidate
      · exact Contest.isFor_start sort differ
    · exact registry.contested wanted contest (InsertionMap.find?_eq_some_iff.mp isContest)

/-- Register a candidate for a key. -/
def register (registry : Registry κ α σ) (sort : Option σ → List α → σ)
    (key : κ) (candidate : α) :
    Registry κ α σ :=
  match known : registry.entries.find? key with
  | none => registry.enter key candidate known
  | some inForce =>
      if same : inForce = candidate then registry
      else registry.contest sort key known candidate same

/-- All candidates for a key, the one in force first. -/
def cell (registry : Registry κ α σ) (key : κ) : List α :=
  match registry.contests.find? key with
  | some contest => contest.candidates
  | none => (registry.entries.find? key).toList

end Registry

end DeterministicParsing
