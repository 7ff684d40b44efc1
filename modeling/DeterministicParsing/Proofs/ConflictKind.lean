/-
# What the kinds of conflicts mean

A shift-reduce conflict is called one between reductions if there is nothing else among its actions,
and any other one a conflict with shifting. As no cell holds two shifts, there is a reduction among
the actions then, too, if none of them is to accept.

A predictive conflict takes its kind from the set through which its second rule was entered. So the
body of that rule begins with the terminal, or the terminal follows the nonterminal. This says
nothing of the first rule, which may have been entered through the other set.
-/
import Mathlib
import DeterministicParsing.Proofs.Predictive.Cells
import DeterministicParsing.Proofs.Predictive.Witness
import DeterministicParsing.Proofs.ShiftReduce.Cells

namespace DeterministicParsing

variable {grammar : Grammar}

/-! ## Conflicts of shift-reduce tables -/

namespace ShiftReduce

variable {method : Method} {target : Nat} {analysis : Analysis} {analyses : Method → Analysis}
  {augmented : Grammar} {first : FirstSets} {conflict : Conflict}

/-- Two rules can be reduced. -/
def Conflict.IsBetweenReductions (conflict : Conflict) : Prop :=
  ∃ id other, id ≠ other ∧ .reduce id ∈ conflict.actions ∧
    .reduce other ∈ conflict.actions

/-- A terminal can be shifted, and a rule can be reduced. -/
def Conflict.IsWithShift (conflict : Conflict) : Prop :=
  ∃ next id, .shift next ∈ conflict.actions ∧ .reduce id ∈ conflict.actions

namespace Conflict

theorem exists_ne_mem (distinct : conflict.actions.Nodup) (many : 2 ≤ conflict.actions.length)
    (action : Action) : ∃ other ∈ conflict.actions, other ≠ action := by
  rw [← List.toFinset_card_of_nodup distinct] at many
  obtain ⟨other, member, differs⟩ := Finset.exists_mem_ne many action
  exact ⟨other, List.mem_toFinset.mp member, differs⟩

/-- Where all actions are reductions, two of them are of different rules. -/
theorem isBetweenReductions (distinct : conflict.actions.Nodup)
    (many : 2 ≤ conflict.actions.length)
    (reduces : ∀ action ∈ conflict.actions, ∃ rule, action = .reduce rule) :
    conflict.IsBetweenReductions := by
  obtain ⟨first, member⟩ :=
    List.exists_mem_of_length_pos (Nat.lt_of_lt_of_le Nat.zero_lt_two many)
  obtain ⟨second, otherMember, differs⟩ := exists_ne_mem distinct many first
  obtain ⟨id, rfl⟩ := reduces first member
  obtain ⟨other, rfl⟩ := reduces second otherMember
  exact ⟨id, other, fun same => differs (by rw [same]), member, otherMember⟩

end Conflict

/-- Where not all actions are reductions and none is to accept, a shift competes with a
reduction. -/
theorem Analysis.IsAnalysisOf.isWithShift
    (isAnalysis : analysis.IsAnalysisOf grammar method target) {state : State}
    (isState : analysis.automaton.states[conflict.state]? = some state)
    (inCell : conflict.actions = analysis.table.cell conflict.state conflict.terminal)
    (distinct : conflict.actions.Nodup) (many : 2 ≤ conflict.actions.length)
    (noAccept : .accept ∉ conflict.actions)
    (mixed : ¬ ∀ action ∈ conflict.actions, ∃ rule, action = .reduce rule) :
    conflict.IsWithShift := by
  have called {action : Action} (member : action ∈ conflict.actions) :
      analysis.CallsFor method grammar.rules.length state conflict.terminal action :=
    (isAnalysis.mem_cell_iff isState action).mp (inCell ▸ member)
  push Not at mixed
  obtain ⟨action, member, notReduction⟩ := mixed
  cases action with
  | reduce id => exact absurd rfl (notReduction id)
  | accept => exact absurd member noAccept
  | shift next =>
      obtain ⟨other, otherMember, differs⟩ := Conflict.exists_ne_mem distinct many (.shift next)
      cases other with
      | shift otherNext =>
          -- Both lead along the one transition on the terminal.
          have sameTarget := Option.some.inj ((called otherMember).symm.trans (called member))
          exact absurd (congrArg Action.shift sameTarget) differs
      | reduce id => exact ⟨next, id, member, otherMember⟩
      | accept => exact absurd otherMember noAccept

/-- What the kind of a reported conflict says about its actions. -/
theorem Analysis.IsFamilyOf.kind_cases
    (family : Analysis.IsFamilyOf grammar target analyses augmented first)
    (isConflict : conflict ∈ (analyses method).table.conflicts) :
    (conflict.kind = .shiftReduce → .accept ∉ conflict.actions → conflict.IsWithShift) ∧
      (conflict.kind = .reduceReduce → conflict.IsBetweenReductions) := by
  have isTable := (family.isAnalysis method).isTable
  obtain ⟨inCell, many⟩ := Table.actions_of_mem_conflicts isConflict
  have distinct : conflict.actions.Nodup := inCell ▸ Table.nodup_cell _ _ _
  obtain ⟨action, member⟩ :=
    List.exists_mem_of_length_pos (Nat.lt_of_lt_of_le Nat.zero_lt_two many)
  obtain ⟨state, isState⟩ := isTable.exists_state_of_mem_cell (inCell ▸ member)
  rw [isTable.kind_eq isConflict]
  constructor
  · intro kind noAccept
    refine (family.isAnalysis method).isWithShift isState inCell distinct many noAccept ?_
    rw [← ConflictKind.ofActions_eq_reduceReduce_iff, kind]
    simp
  · intro kind
    exact Conflict.isBetweenReductions distinct many
      (ConflictKind.ofActions_eq_reduceReduce_iff.mp kind)

end ShiftReduce

/-! ## Conflicts of predictive tables -/

namespace Predictive

variable {first : FirstSets} {follow : FollowSets} {table : Table} {conflict : Conflict}
  {id nonterminal terminal : Nat}

/-- The terminal is in the First set of the body of the rule. -/
def BeginsWith (grammar : Grammar) (first : FirstSets) (id terminal : Nat) : Prop :=
  ∃ rule set, grammar.rules[id]? = some rule ∧ first.ofSequence rule.body = .ok set ∧
    terminal ∈ set.terminals

/-- The terminal is in the Follow set of the nonterminal. -/
def IsFollowedBy (follow : FollowSets) (nonterminal terminal : Nat) : Prop :=
  ∃ after, follow.get nonterminal = .ok after ∧ terminal ∈ after

/-- The body of the rule derives the empty string. -/
def IsErasing (grammar : Grammar) (id : Nat) : Prop :=
  ∃ rule, grammar.rules[id]? = some rule ∧ grammar.Derives rule.body []

/-- The body of the second rule begins with the terminal. That of the first one does, too, unless it
derives the empty string and the terminal follows the nonterminal. -/
def Conflict.IsBetweenBeginnings (grammar : Grammar) (first : FirstSets) (follow : FollowSets)
    (conflict : Conflict) : Prop :=
  ∃ inForce second others, conflict.rules = inForce :: second :: others ∧ inForce ≠ second ∧
    BeginsWith grammar first second conflict.terminal ∧
    (BeginsWith grammar first inForce conflict.terminal ∨
      (IsErasing grammar inForce ∧ IsFollowedBy follow conflict.nonterminal conflict.terminal))

/-- A rule that is predicted begins with the terminal, or is empty in front of it. -/
theorem Predicts.beginsWith_or (bodies : grammar.BodiesDeclared)
    (exactFirst : FirstSets.Exact grammar first) (exactFollow : FollowSets.Exact grammar follow)
    (predicts : Predicts grammar nonterminal terminal id) :
    BeginsWith grammar first id terminal ∨
      (IsErasing grammar id ∧ IsFollowedBy follow nonterminal terminal) := by
  obtain ⟨rule, found, rfl, begins | ⟨vanishes, follows⟩⟩ := predicts
  · obtain ⟨set, isFirst, inFirst⟩ := (mem_first_iff bodies exactFirst found).mpr begins
    exact .inl ⟨rule, set, found, isFirst, inFirst⟩
  · exact .inr ⟨⟨rule, found, vanishes⟩, (mem_follow_iff exactFollow found).mpr follows⟩

/-- A conflict is called one between First sets if the body of its second rule begins with the
terminal. -/
theorem Table.IsSorted.kind_eq_firstFirst_iff_beginsWith (sorted : table.IsSorted grammar)
    (ascending : ∀ nonterminal terminal, (table.cell nonterminal terminal).Pairwise (· < ·))
    (bodies : grammar.BodiesDeclared) (exactFirst : FirstSets.Exact grammar first)
    (isConflict : conflict ∈ table.conflicts) :
    ∃ inForce second others, conflict.rules = inForce :: second :: others ∧
      inForce ≠ second ∧
      (conflict.kind = .firstFirst ↔ BeginsWith grammar first second conflict.terminal) := by
  obtain ⟨inCell, many⟩ := Table.rules_of_mem_conflicts isConflict
  obtain ⟨⟨⟨nonterminal, terminal⟩, contest⟩, listed, rfl⟩ := List.mem_map.mp isConflict
  rw [← InsertionMap.find?_eq_some_iff] at listed
  match isRules : contest.candidates with
  | [] => simp [isRules] at many
  | [_] => simp [isRules] at many
  | inForce :: second :: others =>
      have isCell : inForce :: second :: others = table.cell nonterminal terminal :=
        isRules.symm.trans inCell
      have inOrder := ascending nonterminal terminal
      rw [← isCell] at inOrder
      refine ⟨inForce, second, others, isRules,
        (List.rel_of_pairwise_cons inOrder (by simp)).ne, ?_⟩
      exact sorted.kind_eq_firstFirst_iff bodies exactFirst listed (by rw [isRules]; rfl)

/-- What the kind of a reported conflict says about its rules and its terminal. -/
theorem Table.IsTableOf.kind_cases (isTable : table.IsTableOf grammar)
    (sorted : table.IsSorted grammar)
    (ascending : ∀ nonterminal terminal, (table.cell nonterminal terminal).Pairwise (· < ·))
    (bodies : grammar.BodiesDeclared) (exactFirst : FirstSets.Exact grammar first)
    (exactFollow : FollowSets.Exact grammar follow) (isConflict : conflict ∈ table.conflicts) :
    (conflict.kind = .firstFirst → conflict.IsBetweenBeginnings grammar first follow) ∧
      (conflict.kind = .followFollow →
        IsFollowedBy follow conflict.nonterminal conflict.terminal) := by
  obtain ⟨inForce, second, others, rules, differ, kind_iff⟩ :=
    sorted.kind_eq_firstFirst_iff_beginsWith ascending bodies exactFirst isConflict
  have predicted {id : Nat} (member : id ∈ conflict.rules) :=
    (isTable.predicts_of_mem_conflicts isConflict member).beginsWith_or
      bodies exactFirst exactFollow
  constructor
  · intro isFirst
    exact ⟨inForce, second, others, rules, differ, kind_iff.mp isFirst,
      predicted (by simp [rules])⟩
  · intro isFollow
    have notFirst : conflict.kind ≠ .firstFirst := by simp [isFollow]
    exact ((predicted (by simp [rules])).resolve_left (mt kind_iff.mpr notFirst)).2

end Predictive

/-! ## Both sorts of tables -/

/-- For every well-formed grammar that is not augmented yet: the tables of all methods can be
computed. A conflict that is called one with shifting has a shift and a reduction among its actions,
if accepting is not among them. One that is called one between reductions has reductions of two
different rules. The predictive table is built from the First and Follow sets. If a conflict is
called one between First sets, the body of its second rule begins with the terminal, and so does
that of its first rule, unless that one derives the empty string and the terminal follows the
nonterminal. If it is called one between Follow sets, the terminal follows the nonterminal. -/
theorem conflict_kinds_tell_what_competes (grammar : Grammar) (wellFormed : grammar.WellFormed)
    (notAugmented : grammar.isAugmented = false) :
    (∀ method, ∃ analysis, ShiftReduce.Analysis.compute grammar method = .ok analysis ∧
      ∀ conflict ∈ analysis.table.conflicts,
        (conflict.kind = .shiftReduce → .accept ∉ conflict.actions → conflict.IsWithShift) ∧
        (conflict.kind = .reduceReduce → conflict.IsBetweenReductions)) ∧
    ∃ first follow table, FirstSets.compute grammar = .ok first ∧
      FollowSets.compute grammar first = .ok follow ∧
      Predictive.Table.build grammar = .ok table ∧ ∀ conflict ∈ table.conflicts,
        (conflict.kind = .firstFirst → conflict.IsBetweenBeginnings grammar first follow) ∧
        (conflict.kind = .followFollow →
          Predictive.IsFollowedBy follow conflict.nonterminal conflict.terminal) := by
  constructor
  · intro method
    obtain ⟨target, analyses, _, _, _, family⟩ :=
      ShiftReduce.Analysis.exists_isFamilyOf wellFormed notAugmented
    exact ⟨analyses method, family.computed method, fun conflict => family.kind_cases⟩
  · have bodies := wellFormed.bodies
    obtain ⟨first, firstComputed, exactFirst⟩ := FirstSets.exists_compute_eq_ok bodies
    obtain ⟨follow, followPasses, followFound, exactFollow⟩ :=
      FollowSets.exists_computeCounted_eq_ok wellFormed exactFirst
    have followComputed : FollowSets.compute grammar first = .ok follow := by
      simp [FollowSets.compute, followFound]
    obtain ⟨table, filled, isTable, ascending, sorted⟩ :=
      Predictive.Table.exists_ofSets_eq_ok bodies exactFirst exactFollow
    exact ⟨first, follow, table, firstComputed, followComputed,
      by simp [Predictive.Table.build, firstComputed, followComputed, filled],
      fun conflict => isTable.kind_cases sorted ascending bodies exactFirst exactFollow⟩

/-- After `if Statement`, an `else` can be shifted, and the shorter rule can be reduced. Both rules
begin with `if`. -/
theorem conflict_kinds_of_danglingElse_tell_what_competes :
    Grammar.danglingElse.WellFormed ∧ Grammar.danglingElse.isAugmented = false ∧
      (∃ analysis, ShiftReduce.Analysis.compute Grammar.danglingElse .slr1 = .ok analysis ∧
        ∃ conflict ∈ analysis.table.conflicts, conflict.kind = .shiftReduce ∧
          conflict.actions = [.reduce 0, .shift 5] ∧ conflict.IsWithShift) ∧
      ∃ first follow table, FirstSets.compute Grammar.danglingElse = .ok first ∧
        FollowSets.compute Grammar.danglingElse first = .ok follow ∧
        Predictive.Table.build Grammar.danglingElse = .ok table ∧
        ∃ conflict ∈ table.conflicts, conflict.kind = .firstFirst ∧
          conflict.rules = [0, 1] ∧
          conflict.IsBetweenBeginnings Grammar.danglingElse first follow := by
  obtain ⟨shiftReduce, first, follow, table, firstComputed,
    followComputed, built, predictive⟩ :=
    conflict_kinds_tell_what_competes Grammar.danglingElse Grammar.wellFormed_danglingElse rfl
  obtain ⟨analysis, computed, kinds⟩ := shiftReduce .slr1
  have conflicts : (ShiftReduce.Analysis.compute Grammar.danglingElse .slr1).map
      (fun analysis => analysis.table.conflicts) =
        .ok [⟨4, 2, .shiftReduce, [.reduce 0, .shift 5]⟩] := by
    decide +kernel
  have predicted :
    (Predictive.Table.build Grammar.danglingElse).map (fun table => table.conflicts) =
      .ok [⟨0, 1, .firstFirst, [0, 1]⟩] := by
    decide +kernel
  rw [computed] at conflicts
  rw [built] at predicted
  have isConflict := Except.ok.inj conflicts ▸ List.mem_singleton_self _
  have isPredicted := Except.ok.inj predicted ▸ List.mem_singleton_self _
  exact ⟨Grammar.wellFormed_danglingElse, rfl,
    ⟨analysis, computed, _, isConflict, rfl, rfl, (kinds _ isConflict).1 rfl (by simp)⟩,
    first, follow, table, firstComputed, followComputed, built, _, isPredicted, rfl, rfl,
    (predictive _ isPredicted).1 rfl⟩

/-- The rules `S → S`, `S → E e`, `E → ε` and `E → e`. In front of `e`, the empty `E`
competes with the one that begins with it. -/
def Grammar.overlapping : Grammar :=
  .ofLists ["e"] ["S", "E"]
    [⟨0, [.nonterminal 0]⟩, ⟨0, [.nonterminal 1, .terminal 1]⟩,
      ⟨1, []⟩, ⟨1, [.terminal 1]⟩]
    (by decide) (by decide) (by decide)

/-- Of the rules of a conflict that is called one between First sets, only one need begin with the
terminal. -/
theorem conflict_kinds_can_mislead :
    Grammar.overlapping.WellFormed ∧ Grammar.overlapping.isAugmented = false ∧
      ∃ first table, FirstSets.compute Grammar.overlapping = .ok first ∧
        Predictive.Table.build Grammar.overlapping = .ok table ∧
        ∃ conflict ∈ table.conflicts, conflict.kind = .firstFirst ∧
          ¬ ∃ id ∈ conflict.rules, ∃ other ∈ conflict.rules, id ≠ other ∧
            Predictive.BeginsWith Grammar.overlapping first id conflict.terminal ∧
            Predictive.BeginsWith Grammar.overlapping first other conflict.terminal := by
  have wellFormed : Grammar.overlapping.WellFormed := ⟨by decide, 0, rfl, by decide⟩
  obtain ⟨first, firstComputed, _⟩ := FirstSets.exists_compute_eq_ok wellFormed.bodies
  obtain ⟨table, built, _⟩ := Predictive.Table.exists_build_eq_ok wellFormed
  have predicted : (Predictive.Table.build Grammar.overlapping).map
      (fun table => table.conflicts) =
        .ok [⟨0, 1, .firstFirst, [0, 1]⟩, ⟨1, 1, .firstFirst, [2, 3]⟩] := by
    decide +kernel
  rw [built] at predicted
  have isPredicted : ⟨1, 1, .firstFirst, [2, 3]⟩ ∈ table.conflicts := by
    simp [show table.conflicts = _ from Except.ok.inj predicted]
  refine ⟨wellFormed, rfl, first, table, firstComputed, built, _, isPredicted, rfl, ?_⟩
  have notEmpty : ¬ Predictive.BeginsWith Grammar.overlapping first 2 1 := by
    rintro ⟨_, _, found, isFirst, inside⟩
    cases found
    cases isFirst
    exact TerminalSet.not_mem_empty 1 inside
  simp only [List.mem_cons, List.not_mem_nil, or_false]
  rintro ⟨id, rfl | rfl, other, rfl | rfl, differ, begins, otherBegins⟩
  · exact differ rfl
  · exact notEmpty begins
  · exact notEmpty otherBegins
  · exact differ rfl

end DeterministicParsing
