/-
# What shift-reduce tables record

The items of a state call for actions: for a shift wherever a transition on a terminal leads, for a
reduction on the lookaheads of each complete rule but the accept rule, and for acceptance at the end
of the input where that one is complete. A cell holds exactly the actions that are called for, each
of them once, however many items call for it. The first one is in force. A cell with two actions or
more is reported once, with all of them, and as a conflict among reductions exactly if they are all
reductions.
-/
import DeterministicParsing.Proofs.ShiftReduce.Witness

namespace DeterministicParsing.ShiftReduce

variable {grammar : Grammar} {method : Method} {target : Nat} {analysis : Analysis} {state : State}
  {item : Item} {id terminal : Nat}

/-- The terminal is among those on which the method reduces a complete item: all terminals, those
that follow the head of its rule, or its lookaheads. -/
def Method.ReducesOn (method : Method) (analysis : Analysis) (item : Item) (head terminal : Nat) :
    Prop :=
  match method with
  | lr0 => terminal ∈ analysis.grammar.terminals
  | slr1 => ∃ set, analysis.follow.get head = .ok set ∧ terminal ∈ set
  | lr1 | lalr1 => ∃ set, item.lookahead = some set ∧ terminal ∈ set

/-- A state calls for an action on a terminal. -/
def Analysis.CallsFor (analysis : Analysis) (method : Method) (accept : Nat) (state : State)
    (terminal : Nat) : Action → Prop
  | .shift next => state.transitions.find? (.terminal terminal) = some next
  | .reduce id => id ≠ accept ∧ ∃ rule item, analysis.grammar.rules[id]? = some rule ∧
      state.completeItem analysis.grammar id = .ok (some item) ∧
      method.ReducesOn analysis item rule.head terminal
  | .accept => terminal = endOfInput ∧
      ∃ item, state.completeItem analysis.grammar accept = .ok (some item)

/-- The complete item of a rule is the item with that rule whose marker stands at the end. -/
theorem completeItem_eq_some_iff : state.completeItem grammar id = .ok (some item) ↔
    item ∈ state.items.items ∧ item.core.rule = id ∧
    ∃ rule, IsComplete grammar item rule := by
  obtain ⟨⟨itemRule, marker⟩, lookahead⟩ := item
  rw [ItemSet.mem_items]
  constructor
  · intro computed
    obtain ⟨rule, found, isItem⟩ := exists_of_bind_eq_ok computed
    obtain ⟨_, held, same⟩ := Option.map_eq_some_iff.mp (Except.ok.inj isItem)
    cases same
    exact ⟨held, rfl, rule, Arena.rule_eq_ok.mp found, rfl⟩
  · rintro ⟨held, rfl, rule, found, atEnd⟩
    cases atEnd
    have completed : state.items.item? ⟨itemRule, rule.body.length⟩ =
        some ⟨⟨itemRule, rule.body.length⟩, lookahead⟩ :=
          Option.map_eq_some_iff.mpr ⟨_, held, rfl⟩
    rw [State.completeItem, Arena.rule_eq_ok.mpr found, ok_bind, pure_eq_ok, completed]

/-- The lookaheads of an item are the terminals on which the method reduces it. -/
theorem Method.mem_lookaheads_iff_reducesOn {rule : Rule}
    (found : analysis.grammar.rules[item.core.rule]? = some rule) :
    (∃ lookaheads, method.lookaheads analysis.grammar analysis.follow item = .ok lookaheads ∧
      terminal ∈ lookaheads) ↔ method.ReducesOn analysis item rule.head terminal := by
  have ofItem : terminal ∈ (item.lookahead.getD ∅).toList ↔
      ∃ set, item.lookahead = some set ∧ terminal ∈ set := by
    rw [TerminalSet.mem_toList]
    cases item.lookahead with
    | none => simp
    | some set => simp
  cases method with
  | lr0 => simp [lookaheads, ReducesOn]
  | slr1 =>
      simp only [lookaheads, ReducesOn, Arena.rule_eq_ok.mpr found, ok_bind]
      cases analysis.follow.get rule.head with
      | error reason => simp [Bind.bind, Except.bind]
      | ok set => simp [TerminalSet.mem_toList]
  | lr1 => simpa [lookaheads, ReducesOn] using ofItem
  | lalr1 => simpa [lookaheads, ReducesOn] using ofItem

namespace Analysis.IsAnalysisOf

variable (isAnalysis : analysis.IsAnalysisOf grammar method target)
include isAnalysis

/-- The accept rule is the only one with the start as its head. -/
theorem head_eq_start_iff {rule : Rule} (found : analysis.grammar.rules[id]? = some rule) :
    rule.head = grammar.nonterminalCount ↔ id = grammar.rules.length := by
  constructor
  · exact isAnalysis.fresh.unique id rule found
  · rintro rfl
    rw [isAnalysis.fresh.found, Option.some.injEq] at found
    rw [← found]

/-- A cell holds the actions that its state calls for. -/
theorem mem_cell_iff (isState : analysis.automaton.states[id]? = some state) (action : Action) :
    action ∈ analysis.table.cell id terminal ↔
      analysis.CallsFor method grammar.rules.length state terminal action := by
  cases action with
  | shift next => exact isAnalysis.isTable.mem_cell_shift isAnalysis.built isState
  | reduce ruleId =>
      simp only [isAnalysis.isTable.mem_cell isState, CallsFor, completeItem_eq_some_iff]
      constructor
      · rintro ⟨item, member, rfl, rule, lookaheads, complete, other, looked, inside⟩
        refine ⟨fun isAccept => other ((isAnalysis.head_eq_start_iff complete.1).mpr isAccept),
          rule, item, complete.1, ⟨member, rfl, rule, complete⟩, ?_⟩
        exact (Method.mem_lookaheads_iff_reducesOn complete.1).mp ⟨lookaheads, looked, inside⟩
      · rintro ⟨other, rule, item, found, ⟨member, rfl, alsoRule, complete⟩, reduces⟩
        obtain rfl := Option.some.inj (complete.1.symm.trans found)
        obtain ⟨lookaheads, looked, inside⟩ :=
          (Method.mem_lookaheads_iff_reducesOn found).mpr reduces
        exact ⟨item, member, rfl, alsoRule, lookaheads, complete,
          fun isStart => other ((isAnalysis.head_eq_start_iff found).mp isStart), looked, inside⟩
  | accept =>
      simp only [isAnalysis.isTable.mem_cell isState, CallsFor, completeItem_eq_some_iff]
      constructor
      · rintro ⟨item, member, atEnd, rule, complete, isStart⟩
        exact ⟨atEnd, item, member, (isAnalysis.head_eq_start_iff complete.1).mp isStart, rule,
          complete⟩
      · rintro ⟨atEnd, item, member, isAccept, rule, complete⟩
        exact ⟨item, member, atEnd, rule, complete,
          (isAnalysis.head_eq_start_iff complete.1).mpr isAccept⟩

end Analysis.IsAnalysisOf

/-- A conflict is one among reductions exactly if all of its actions are reductions. -/
theorem ConflictKind.ofActions_eq_reduceReduce_iff {actions : List Action} :
    ofActions actions = .reduceReduce ↔ ∀ action ∈ actions, ∃ rule,
      action = .reduce rule := by
  have isReduction (action : Action) :
      action.reduced?.isSome = true ↔ ∃ rule, action = .reduce rule := by
    cases action <;> simp [Action.reduced?]
  simp only [ofActions, ← isReduction, ← List.all_eq_true]
  split <;> simp_all

/-- The conflicts of a table are listed with the sorts of their actions. -/
theorem Table.IsTableOf.kind_eq {automaton : Automaton} {follow : FollowSets} {start : Nat}
    {table : Table} (isTable : table.IsTableOf grammar automaton method follow start)
    {conflict : Conflict} (isConflict : conflict ∈ table.conflicts) :
    conflict.kind = .ofActions conflict.actions := by
  obtain ⟨⟨key, contest⟩, listed, rfl⟩ := List.mem_map.mp isConflict
  exact isTable.sorted key contest (InsertionMap.find?_eq_some_iff.mpr listed)

/-- For every well-formed grammar that is not augmented yet and every method: the analysis succeeds,
and its table has a row for each state of its automaton. A cell holds exactly the actions that its
state calls for on its terminal, and nonterminals lead along the transitions of the state. No action
is twice in a cell. The action in force, which is listed once, is the first one, and there is none
only if the cell is empty. A cell with two actions or more is reported once, with exactly its
actions, and other cells are not reported. It is reported as a conflict among reductions if all its
actions are reductions. -/
theorem shift_reduce_tables_record_all_candidates (grammar : Grammar)
    (wellFormed : grammar.WellFormed)
    (notAugmented : grammar.isAugmented = false) (method : Method) :
    ∃ analysis accept, Analysis.compute grammar method = .ok analysis ∧
      analysis.grammar.acceptRule = some accept ∧
      analysis.table.rows.length = analysis.automaton.states.length ∧
      (∀ id state, analysis.automaton.states[id]? = some state →
        (∀ terminal action, action ∈ analysis.table.cell id terminal ↔
          analysis.CallsFor method accept state terminal action) ∧
        ∀ nonterminal, analysis.table.goto? id nonterminal =
          state.transitions.find? (.nonterminal nonterminal)) ∧
      (∀ conflict ∈ analysis.table.conflicts, conflict.kind = .reduceReduce ↔
        ∀ action ∈ conflict.actions, ∃ rule, action = .reduce rule) ∧
      ∀ id terminal, (analysis.table.cell id terminal).Nodup ∧
        analysis.table.action? id terminal = (analysis.table.cell id terminal).head? ∧
        (analysis.table.action? id terminal = none ↔ analysis.table.cell id terminal = []) ∧
        analysis.table.actions.filter (fun entry => entry.1 = id ∧ entry.2.1 = terminal) =
          (analysis.table.action? id terminal).toList.map (fun action => (id, terminal, action)) ∧
        analysis.table.conflicts.filter
            (fun conflict => conflict.state = id ∧ conflict.terminal = terminal) =
          if 2 ≤ (analysis.table.cell id terminal).length then
            [⟨id, terminal, .ofActions (analysis.table.cell id terminal),
              analysis.table.cell id terminal⟩] else [] := by
  obtain ⟨target, analyses, augmented, first, _, family⟩ :=
    Analysis.exists_isFamilyOf wellFormed notAugmented
  have isAnalysis := family.isAnalysis method
  have isTable := isAnalysis.isTable
  refine ⟨analyses method, grammar.rules.length, family.computed method,
    isAnalysis.fresh.acceptRule_eq, isTable.length_rows, fun id state isState => ⟨?_, ?_⟩,
    fun conflict isConflict => ?_, fun id terminal => ⟨Table.nodup_cell _ id terminal,
      (Table.head?_cell _ id terminal).symm, ?_, Table.filter_actions _ id terminal,
      Table.filter_conflicts isTable.sorted id terminal⟩⟩
  · exact fun terminal action => isAnalysis.mem_cell_iff isState action
  · exact isTable.goto?_eq isAnalysis.built isState
  · rw [isTable.kind_eq isConflict, ConflictKind.ofActions_eq_reduceReduce_iff]
  · rw [← Table.head?_cell, List.head?_eq_none_iff]

/-- After `if Statement`, an `else` calls for two actions: to reduce the shorter rule, and to go on
with the longer one. Both are recorded, and reported as a conflict. -/
theorem dangling_else_table_records_all_candidates :
    Grammar.danglingElse.WellFormed ∧ Grammar.danglingElse.isAugmented = false ∧
      ∃ analysis accept state, Analysis.compute Grammar.danglingElse .slr1 = .ok analysis ∧
        analysis.automaton.states[4]? = some state ∧
        analysis.table.cell 4 2 = [.reduce 0, .shift 5] ∧
        analysis.table.conflicts = [⟨4, 2, .shiftReduce, [.reduce 0, .shift 5]⟩] ∧
        ∀ action, action ∈ [.reduce 0, .shift 5] ↔
          analysis.CallsFor .slr1 accept state 2 action := by
  obtain ⟨analysis, accept, computed, _, _, recorded, _⟩ :=
    shift_reduce_tables_record_all_candidates Grammar.danglingElse Grammar.wellFormed_danglingElse
      rfl .slr1
  have evaluates : (Analysis.compute Grammar.danglingElse .slr1).map (fun analysis =>
      (analysis.automaton.states[4]?.isSome, analysis.table.cell 4 2, analysis.table.conflicts)) =
      .ok (true, [.reduce 0, .shift 5], [⟨4, 2, .shiftReduce, [.reduce 0, .shift 5]⟩]) := by
    decide +kernel
  rw [computed] at evaluates
  obtain ⟨hasState, others⟩ := Prod.mk.inj (Except.ok.inj evaluates)
  obtain ⟨cell, conflicts⟩ := Prod.mk.inj others
  obtain ⟨state, isState⟩ := Option.isSome_iff_exists.mp hasState
  refine ⟨Grammar.wellFormed_danglingElse, rfl, analysis, accept, state, computed, isState, cell,
    conflicts, fun action => ?_⟩
  rw [← cell]
  exact (recorded 4 state isState).1 2 action

end DeterministicParsing.ShiftReduce
