/-
# What predictive tables record

The predict set of a rule holds the terminals of the First set of its body and, if the body derives
the empty string, those of the Follow set of its head. A cell holds the rules of its nonterminal
whose predict sets have its terminal, in ascending order and each of them once, even if both sets
give a reason for it. The first one is in force. A cell with two rules or more is reported once,
with all of them, and by the reason for the second one. So nothing is reported exactly if the
predict sets of the rules of every nonterminal are disjoint.
-/
import Mathlib
import DeterministicParsing.Proofs.Predictive.Expansion
import DeterministicParsing.Proofs.Predictive.Soundness

namespace DeterministicParsing.Predictive

variable {grammar : Grammar} {first : FirstSets} {follow : FollowSets} {table : Table}
  {nonterminal terminal id : Nat}

/-- The rules of a nonterminal. -/
def rulesOf (grammar : Grammar) (nonterminal : Nat) : Set Nat :=
  {id | ∃ rule, grammar.rules[id]? = some rule ∧ rule.head = nonterminal}

/-- The terminals that predict a rule. -/
def predictSet (grammar : Grammar) (first : FirstSets) (follow : FollowSets) (id : Nat) : Set Nat :=
  {terminal | ∃ rule, grammar.rules[id]? = some rule ∧
    ((∃ set, first.ofSequence rule.body = .ok set ∧ terminal ∈ set.terminals) ∨
      (grammar.Derives rule.body [] ∧
        ∃ after, follow.get rule.head = .ok after ∧ terminal ∈ after))}

/-- The First set of a body tells with which terminals the body can begin. -/
theorem mem_first_iff (bodies : grammar.BodiesDeclared) (exactFirst : FirstSets.Exact grammar first)
    {rule : Rule} (found : grammar.rules[id]? = some rule) :
    (∃ set, first.ofSequence rule.body = .ok set ∧ terminal ∈ set.terminals) ↔
      grammar.DerivesBeginning rule.body terminal := by
  obtain ⟨set, isFirst, _, begins⟩ :=
    exactFirst.exists_ofSequence_eq_ok (bodies rule (List.mem_of_getElem? found))
  simp [isFirst, begins]

/-- The Follow set of a head tells which terminals follow it. -/
theorem mem_follow_iff (exactFollow : FollowSets.Exact grammar follow) {rule : Rule}
    (found : grammar.rules[id]? = some rule) :
    (∃ after, follow.get rule.head = .ok after ∧ terminal ∈ after) ↔
      grammar.Follows rule.head terminal := by
  obtain ⟨after, isFollow, follows⟩ :=
    exactFollow.exists_get_eq_ok (grammar.head_lt rule (List.mem_of_getElem? found))
  simp [isFollow, follows]

/-- A terminal predicts the rules of a nonterminal in whose predict sets it is. -/
theorem predicts_iff_mem_predictSet (bodies : grammar.BodiesDeclared)
    (exactFirst : FirstSets.Exact grammar first) (exactFollow : FollowSets.Exact grammar follow) :
    Predicts grammar nonterminal terminal id ↔
      id ∈ rulesOf grammar nonterminal ∧ terminal ∈ predictSet grammar first follow id := by
  constructor
  · rintro ⟨rule, found, rfl, predicted⟩
    refine ⟨⟨rule, found, rfl⟩, rule, found, ?_⟩
    rwa [mem_first_iff bodies exactFirst found, mem_follow_iff exactFollow found]
  · rintro ⟨⟨rule, found, rfl⟩, other, alsoFound, predicted⟩
    obtain rfl := Option.some.inj (found.symm.trans alsoFound)
    rw [mem_first_iff bodies exactFirst found, mem_follow_iff exactFollow found] at predicted
    exact ⟨rule, found, rfl, predicted⟩

/-- No terminal predicts two rules of one nonterminal exactly if their predict sets are disjoint. -/
theorem hasUniquePredictions_iff (bodies : grammar.BodiesDeclared)
    (exactFirst : FirstSets.Exact grammar first) (exactFollow : FollowSets.Exact grammar follow) :
    HasUniquePredictions grammar ↔ ∀ nonterminal,
      (rulesOf grammar nonterminal).PairwiseDisjoint (predictSet grammar first follow) := by
  simp only [HasUniquePredictions, predicts_iff_mem_predictSet bodies exactFirst exactFollow]
  constructor
  · intro unique nonterminal id isRule other isOther differ
    refine Set.disjoint_left.mpr fun terminal member otherMember => differ ?_
    exact unique nonterminal terminal id other ⟨isRule, member⟩ ⟨isOther, otherMember⟩
  · rintro disjoint nonterminal terminal id other ⟨isRule, member⟩ ⟨isOther, otherMember⟩
    by_contra differ
    exact Set.disjoint_left.mp (disjoint nonterminal isRule isOther differ) member otherMember

namespace Table

/-- A conflict is one between First sets if the body of the second rule can begin with the
terminal. -/
theorem IsSorted.kind_eq_firstFirst_iff (sorted : table.IsSorted grammar)
    (bodies : grammar.BodiesDeclared) (exactFirst : FirstSets.Exact grammar first)
    {contest : Contest Nat ConflictKind}
    (isContest : table.registry.contests.find? (nonterminal, terminal) = some contest)
    {second : Nat} (isSecond : contest.candidates[1]? = some second) :
    contest.kind = .firstFirst ↔ ∃ rule set, grammar.rules[second]? = some rule ∧
      first.ofSequence rule.body = .ok set ∧ terminal ∈ set.terminals := by
  rw [sorted _ contest isContest second isSecond]
  refine exists_congr fun rule => ?_
  rw [exists_and_left]
  exact and_congr_right fun found => (mem_first_iff bodies exactFirst found).symm

/-- A cell with two rules at least is reported, and the sort of the conflict is told by the second
one. -/
theorem exists_filter_conflicts (sorted : table.IsSorted grammar) (bodies : grammar.BodiesDeclared)
    (exactFirst : FirstSets.Exact grammar first)
    {inForce second : Nat} {others : List Nat}
    (isCell : table.cell nonterminal terminal = inForce :: second :: others) :
    ∃ kind, table.conflicts.filter
        (fun conflict => conflict.nonterminal = nonterminal ∧ conflict.terminal = terminal) =
        [⟨nonterminal, terminal, kind, table.cell nonterminal terminal⟩] ∧
      (kind = .firstFirst ↔ ∃ rule set, grammar.rules[second]? = some rule ∧
        first.ofSequence rule.body = .ok set ∧ terminal ∈ set.terminals) := by
  cases isContest : table.registry.contests.find? (nonterminal, terminal) with
  | none =>
      have few : (table.cell nonterminal terminal).length < 2 :=
        Registry.find?_contests_eq_none_iff.mp isContest
      simp [isCell] at few
  | some contest =>
      have candidates : table.cell nonterminal terminal = contest.candidates :=
        Registry.cell_of_contest isContest
      refine ⟨contest.kind, ?_, sorted.kind_eq_firstFirst_iff bodies exactFirst isContest ?_⟩
      · rw [filter_conflicts, isContest, candidates]
        rfl
      · rw [← candidates, isCell]
        rfl

/-- A table has no conflicts exactly if no terminal predicts two rules of one nonterminal. -/
theorem IsTableOf.isConflictFree_iff_hasUniquePredictions (isTable : table.IsTableOf grammar)
    (nodup : ∀ nonterminal terminal, (table.cell nonterminal terminal).Nodup) :
    table.isConflictFree = true ↔ HasUniquePredictions grammar := by
  refine ⟨isTable.hasUniquePredictions, fun unique => isConflictFree_iff.mpr ?_⟩
  intro nonterminal terminal
  by_contra many
  match cells : table.cell nonterminal terminal with
  | [] => simp [cells] at many
  | [_] => simp [cells] at many
  | inForce :: second :: others =>
      have differ : inForce ≠ second := by
        have distinct := nodup nonterminal terminal
        rw [cells] at distinct
        exact fun same => (List.nodup_cons.mp distinct).1 (by simp [same])
      exact differ (unique nonterminal terminal inForce second
        ((isTable nonterminal terminal inForce).mp (by simp [cells]))
        ((isTable nonterminal terminal second).mp (by simp [cells])))

end Table

/-- For every well-formed grammar: its table is built from its First and Follow sets. A cell is the
list, in strictly ascending order, of the rules of its nonterminal whose predict sets have its
terminal. The rule in force, which is listed once, is the first one. A cell with two rules or more
is reported once, with exactly its rules, and as a conflict between First sets exactly if its
terminal is in the First set of the body of its second rule. Other cells are not reported. The table
has no conflicts exactly if the predict sets of the rules of every nonterminal are pairwise
disjoint. -/
theorem predictive_tables_record_all_candidates (grammar : Grammar)
    (wellFormed : grammar.WellFormed) :
    ∃ first follow table, FirstSets.compute grammar = .ok first ∧
      FollowSets.compute grammar first = .ok follow ∧ Table.build grammar = .ok table ∧
      (∀ nonterminal terminal, (table.cell nonterminal terminal).Pairwise (· < ·) ∧
        (∀ id, id ∈ table.cell nonterminal terminal ↔
          id ∈ rulesOf grammar nonterminal ∧
          terminal ∈ predictSet grammar first follow id) ∧
        table.rule? nonterminal terminal = (table.cell nonterminal terminal).head? ∧
        table.entries.filter (fun entry => entry.1 = nonterminal ∧ entry.2.1 = terminal) =
          (table.rule? nonterminal terminal).toList.map (fun id => (nonterminal, terminal, id)) ∧
        ((table.cell nonterminal terminal).length < 2 →
          table.conflicts.filter (fun conflict =>
            conflict.nonterminal = nonterminal ∧ conflict.terminal = terminal) = []) ∧
        ∀ inForce second others,
          table.cell nonterminal terminal = inForce :: second :: others → ∃ kind,
            table.conflicts.filter (fun conflict =>
                conflict.nonterminal = nonterminal ∧ conflict.terminal = terminal) =
              [⟨nonterminal, terminal, kind, table.cell nonterminal terminal⟩] ∧
            (kind = .firstFirst ↔ ∃ rule set, grammar.rules[second]? = some rule ∧
              first.ofSequence rule.body = .ok set ∧ terminal ∈ set.terminals)) ∧
      (table.isConflictFree = true ↔ ∀ nonterminal,
        (rulesOf grammar nonterminal).PairwiseDisjoint (predictSet grammar first follow)) := by
  have bodies := wellFormed.bodies
  obtain ⟨first, firstComputed, exactFirst⟩ := FirstSets.exists_compute_eq_ok bodies
  obtain ⟨follow, followPasses, followFound, exactFollow⟩ :=
    FollowSets.exists_computeCounted_eq_ok wellFormed exactFirst
  have followComputed : FollowSets.compute grammar first = .ok follow := by
    simp [FollowSets.compute, followFound]
  obtain ⟨table, filled, isTable, ascending, sorted⟩ :=
    Table.exists_ofSets_eq_ok bodies exactFirst exactFollow
  refine ⟨first, follow, table, firstComputed, followComputed,
    by simp [Table.build, firstComputed, followComputed, filled],
    fun nonterminal terminal => ?_, ?_⟩
  · refine ⟨ascending nonterminal terminal, fun id => ?_,
      (table.head?_cell nonterminal terminal).symm, table.filter_entries nonterminal terminal,
      fun few => ?_, fun inForce second others =>
      Table.exists_filter_conflicts sorted bodies exactFirst⟩
    · rw [isTable, predicts_iff_mem_predictSet bodies exactFirst exactFollow]
    · rw [Table.filter_conflicts, Registry.find?_contests_eq_none_iff.mpr few]
      rfl
  · rw [← hasUniquePredictions_iff bodies exactFirst exactFollow]
    exact isTable.isConflictFree_iff_hasUniquePredictions fun nonterminal terminal =>
      (ascending nonterminal terminal).imp Nat.ne_of_lt

/-- In `L → x L`, `L → x` and `L → ε`, the terminal `x` predicts the first two rules, and the
third one is predicted by the end of the input. -/
theorem table_of_unfactored_records_all_candidates :
    Grammar.unfactored.WellFormed ∧ ∃ first follow table,
      FirstSets.compute Grammar.unfactored = .ok first ∧
      FollowSets.compute Grammar.unfactored first = .ok follow ∧
      Table.build Grammar.unfactored = .ok table ∧
      table.cell 0 1 = [0, 1] ∧ table.cell 0 endOfInput = [2] ∧
      table.conflicts = [⟨0, 1, .firstFirst, [0, 1]⟩] ∧
      (∀ id ∈ [0, 1], 1 ∈ predictSet Grammar.unfactored first follow id) ∧
      endOfInput ∈ predictSet Grammar.unfactored first follow 2 := by
  obtain ⟨first, follow, table, firstComputed, followComputed, built, recorded, _⟩ :=
    predictive_tables_record_all_candidates Grammar.unfactored Grammar.wellFormed_unfactored
  have evaluates : (Table.build Grammar.unfactored).map (fun table =>
      (table.cell 0 1, table.cell 0 endOfInput, table.conflicts)) =
      .ok ([0, 1], [2], [⟨0, 1, .firstFirst, [0, 1]⟩]) := by
    decide +kernel
  rw [built] at evaluates
  obtain ⟨onTerminal, others⟩ := Prod.mk.inj (Except.ok.inj evaluates)
  obtain ⟨atEnd, conflicts⟩ := Prod.mk.inj others
  obtain ⟨_, onTerminal_iff, _⟩ := recorded 0 1
  obtain ⟨_, atEnd_iff, _⟩ := recorded 0 endOfInput
  rw [onTerminal] at onTerminal_iff
  rw [atEnd] at atEnd_iff
  exact ⟨Grammar.wellFormed_unfactored, first, follow, table, firstComputed, followComputed,
    built, onTerminal, atEnd, conflicts, fun id member => ((onTerminal_iff id).mp member).2,
    ((atEnd_iff 2).mp (by simp)).2⟩

end DeterministicParsing.Predictive
