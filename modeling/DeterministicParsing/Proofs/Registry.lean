/-
# What is registered

Registering a candidate adds it to the cell of its key and to no other, and never twice. The entry
for a key is the first candidate in its cell, and a contest is listed for it exactly if there is a
second one.
-/
import Mathlib.Data.List.Nodup
import DeterministicParsing.Registry

namespace DeterministicParsing

/-- A member of a cell with one candidate at most comes first. -/
theorem head?_eq_some_of_mem {α : Type} {cell : List α} (few : cell.length ≤ 1) {candidate : α}
    (member : candidate ∈ cell) : cell.head? = some candidate := by
  cases cell with
  | nil => cases member
  | cons first others =>
      rw [List.length_cons] at few
      have alone : others = [] := List.length_eq_zero_iff.mp (by omega)
      rw [alone, List.mem_singleton] at member
      rw [member, List.head?_cons]

/-- A key is listed once with its value, and not at all if it has none. -/
theorem InsertionMap.filter_entries {κ β : Type} [DecidableEq κ]
    (map : InsertionMap κ β) (key : κ) :
    map.entries.filter (·.1 = key) = (map.find? key).toList.map fun value => (key, value) := by
  obtain ⟨entries, distinct⟩ := map
  rw [find?]
  induction distinct with
  | nil => rfl
  | @cons head rest others _ ih =>
      obtain ⟨other, value⟩ := head
      by_cases same : other = key
      · subst same
        have absent : rest.filter (·.1 = other) = [] := by
          simpa [List.filter_eq_nil_iff] using fun key value member =>
            (others (key, value) member).symm
        simp [absent]
      · have differs : (key == other) = false := beq_false_of_ne (Ne.symm same)
        simpa [List.lookup_cons, same, differs] using ih

namespace Registry

variable {κ α σ : Type} [DecidableEq κ]

section Cells

variable {registry : Registry κ α σ} {key : κ} {contest : Contest α σ}

theorem cell_of_contest (isContest : registry.contests.find? key = some contest) :
    registry.cell key = contest.candidates := by
  rw [cell, isContest]

theorem cell_of_no_contest (uncontested : registry.contests.find? key = none) :
    registry.cell key = (registry.entries.find? key).toList := by
  rw [cell, uncontested]

/-- The candidate in force is the first one. -/
theorem head?_cell (registry : Registry κ α σ) (key : κ) :
    (registry.cell key).head? = registry.entries.find? key := by
  cases isContest : registry.contests.find? key with
  | none =>
      rw [cell_of_no_contest isContest]
      cases registry.entries.find? key <;> rfl
  | some contest =>
      obtain ⟨inForce, isEntry, isFor⟩ := exists_entry_of_contest isContest
      rw [cell_of_contest isContest, isEntry, isFor.first]

theorem nodup_cell (registry : Registry κ α σ) (key : κ) : (registry.cell key).Nodup := by
  cases isContest : registry.contests.find? key with
  | none =>
      rw [cell_of_no_contest isContest]
      cases registry.entries.find? key <;> simp
  | some contest =>
      obtain ⟨_, _, isFor⟩ := exists_entry_of_contest isContest
      rw [cell_of_contest isContest]
      exact isFor.distinct

/-- There is no contest for a key exactly if it has one candidate at most. -/
theorem find?_contests_eq_none_iff :
    registry.contests.find? key = none ↔ (registry.cell key).length < 2 := by
  cases isContest : registry.contests.find? key with
  | none =>
      rw [cell_of_no_contest isContest]
      cases registry.entries.find? key <;> simp
  | some contest =>
      obtain ⟨_, _, isFor⟩ := exists_entry_of_contest isContest
      have many := isFor.many
      rw [cell_of_contest isContest]
      simp
      omega

/-- A contest is listed once, and only for a key with two candidates at least. -/
theorem filter_contests (registry : Registry κ α σ) (key : κ) :
    registry.contests.entries.filter (·.1 = key) =
      (registry.contests.find? key).toList.map fun contest => (key, contest) :=
  registry.contests.filter_entries key

end Cells

section Registering

variable [DecidableEq α] {registry : Registry κ α σ} {sort : Option σ → List α → σ}
  {key wanted : κ} {candidate other : α}

/-- What registering does to the entries. -/
theorem find?_entries_register : (registry.register sort key candidate).entries.find? wanted =
    if wanted = key then some ((registry.entries.find? key).getD candidate)
    else registry.entries.find? wanted := by
  rw [register]
  split
  · rename_i vacant
    simp [enter, vacant]
  · rename_i inForce isEntry
    have kept : registry.entries.find? wanted =
        if wanted = key then some ((registry.entries.find? key).getD candidate)
        else registry.entries.find? wanted := by
      by_cases same : wanted = key
      · simp [same, isEntry]
      · rw [if_neg same]
    split
    · exact kept
    · exact kept

theorem find?_contests_register_of_ne (differs : wanted ≠ key) :
    (registry.register sort key candidate).contests.find? wanted =
      registry.contests.find? wanted := by
  rw [register]
  split
  · rfl
  · split
    · rfl
    · simp [contest, differs]

/-- What registering does to the contest for the key: nothing, if the candidate is known or the only
one; otherwise the candidate starts a contest with the one in force, or joins the one that there
is. -/
theorem find?_contests_register_cases (registry : Registry κ α σ)
    (sort : Option σ → List α → σ) (key : κ) (candidate : α) :
    ((candidate ∈ registry.cell key ∨ registry.cell key = []) ∧
      (registry.register sort key candidate).contests.find? key = registry.contests.find? key) ∨
    (∃ inForce, registry.cell key = [inForce] ∧ inForce ≠ candidate ∧
      (registry.register sort key candidate).contests.find? key =
        some (.start sort inForce candidate)) ∨
    ∃ contest, registry.contests.find? key = some contest ∧ candidate ∉ contest.candidates ∧
      (registry.register sort key candidate).contests.find? key =
        some (contest.join sort candidate) := by
  rw [register]
  split
  · rename_i vacant
    rw [← head?_cell, List.head?_eq_none_iff] at vacant
    exact .inl ⟨.inr vacant, rfl⟩
  · rename_i inForce isEntry
    have isFirst : inForce ∈ registry.cell key :=
      List.mem_of_head? ((registry.head?_cell key).trans isEntry)
    split
    · rename_i same
      exact .inl ⟨.inl (same ▸ isFirst), rfl⟩
    · rename_i differ
      rw [Registry.contest, InsertionMap.find?_insert, if_pos rfl]
      split
      · rename_i contest isContest
        by_cases known : candidate ∈ contest.candidates
        · rw [cell_of_contest isContest, Contest.join, if_pos known]
          exact .inl ⟨.inl known, isContest.symm⟩
        · exact .inr (.inr ⟨contest, isContest, known, rfl⟩)
      · rename_i uncontested
        have cell := cell_of_no_contest uncontested
        rw [isEntry] at cell
        exact .inr (.inl ⟨inForce, cell, differ, rfl⟩)

/-- Registering adds the candidate to one cell, unless it is there already. -/
theorem cell_register : (registry.register sort key candidate).cell wanted =
    registry.cell wanted ++
      if wanted = key ∧ candidate ∉ registry.cell wanted then [candidate] else [] := by
  by_cases same : wanted = key
  · subst same
    rcases registry.find?_contests_register_cases sort wanted candidate with
      ⟨old, kept⟩ | ⟨inForce, alone, differ, starts⟩ | ⟨contest, isContest, new, joins⟩
    · cases uncontested : registry.contests.find? wanted with
      | none =>
          rw [uncontested] at kept
          rw [cell_of_no_contest kept, cell_of_no_contest uncontested,
            find?_entries_register, if_pos rfl]
          rw [cell_of_no_contest uncontested] at old
          cases isEntry : registry.entries.find? wanted with
          | none => simp
          | some inForce =>
              rw [isEntry] at old
              have same : candidate = inForce := by simpa using old
              simp [same]
      | some contest =>
          obtain ⟨_, _, isFor⟩ := exists_entry_of_contest uncontested
          have many := isFor.many
          rw [cell_of_contest uncontested] at old ⊢
          rw [cell_of_contest (kept.trans uncontested)]
          have known : candidate ∈ contest.candidates :=
            old.resolve_right fun none => by simp [none] at many
          simp [known]
    · rw [cell_of_contest starts, alone]
      simp [Contest.start, differ.symm]
    · rw [cell_of_contest joins, cell_of_contest isContest, Contest.join, if_neg new]
      simp [new]
  · have kept : (registry.register sort key candidate).cell wanted = registry.cell wanted := by
      rw [cell, find?_contests_register_of_ne same, find?_entries_register, if_neg same, cell]
    simp [kept, same]

theorem mem_cell_register : other ∈ (registry.register sort key candidate).cell wanted ↔
    other ∈ registry.cell wanted ∨ (wanted = key ∧ other = candidate) := by
  rw [cell_register, List.mem_append]
  split
  · rename_i new
    simp [new.1]
  · rename_i kept
    constructor
    · exact fun here => .inl (here.resolve_right List.not_mem_nil)
    · rintro (here | ⟨same, rfl⟩)
      · exact .inl here
      · exact .inl (not_not.mp fun absent => kept ⟨same, absent⟩)

/-- What holds of every contest still does when a candidate is registered, if it holds of a contest
that the candidate starts and goes on to hold of one that it joins. -/
theorem forall_contests_register {P : κ → Contest α σ → Prop}
    (holds : ∀ key contest, registry.contests.find? key = some contest → P key contest)
    (starts : ∀ inForce, registry.cell key = [inForce] → inForce ≠ candidate →
      P key (.start sort inForce candidate))
    (joins : ∀ contest, registry.contests.find? key = some contest →
      candidate ∉ contest.candidates → P key (contest.join sort candidate)) :
    ∀ wanted contest,
      (registry.register sort key candidate).contests.find? wanted = some contest →
      P wanted contest := by
  intro wanted contest isContest
  by_cases same : wanted = key
  · subst same
    rcases registry.find?_contests_register_cases sort wanted candidate with
      ⟨_, kept⟩ | ⟨inForce, cell, differ, started⟩ | ⟨earlier, isEarlier, new, joined⟩
    · exact holds wanted contest (kept ▸ isContest)
    · obtain rfl := Option.some.inj (started.symm.trans isContest)
      exact starts inForce cell differ
    · obtain rfl := Option.some.inj (joined.symm.trans isContest)
      exact joins earlier isEarlier new
  · rw [find?_contests_register_of_ne same] at isContest
    exact holds wanted contest isContest

end Registering

end Registry

end DeterministicParsing
