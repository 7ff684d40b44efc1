/-
# What a table says

Every item of every state has its say in the table, and nothing else is recorded there. So the cells
of the table of a built automaton can be told from the automaton: a terminal is shifted along its
transition, a complete rule is reduced on its lookaheads, and the accept rule is accepted at the end
of the input. The conflicts, which are kept while the table is filled, are the cells with two
actions at least.
-/
import DeterministicParsing.ShiftReduce.Table
import DeterministicParsing.Proofs.Registry
import DeterministicParsing.Proofs.FollowSets
import DeterministicParsing.Proofs.Automaton.Build

namespace DeterministicParsing.ShiftReduce

variable {grammar : Grammar} {automaton : Automaton} {method : Method} {follow : FollowSets}
  {start id terminal : Nat} {state : State} {item : Item} {table later : Table}

/-- The rule of the item is complete. -/
def IsComplete (grammar : Grammar) (item : Item) (rule : Rule) : Prop :=
  grammar.rules[item.core.rule]? = some rule ∧ item.core.marker = rule.body.length

theorem IsComplete.next?_eq_none {rule : Rule} (complete : IsComplete grammar item rule) :
    grammar.next? item.core = none := by
  obtain ⟨found, isMarker⟩ := complete
  simp [Grammar.next?, found, isMarker]

/-- What an item of a state proposes to do on a terminal. -/
def Proposes (grammar : Grammar) (method : Method) (follow : FollowSets) (start : Nat)
    (state : State) (item : Item) (terminal : Nat) : Action → Prop
  | .shift target => grammar.next? item.core = some (.terminal terminal) ∧
      state.transitions.find? (.terminal terminal) = some target
  | .reduce id => id = item.core.rule ∧ ∃ rule lookaheads, IsComplete grammar item rule ∧
      rule.head ≠ start ∧ method.lookaheads grammar follow item = .ok lookaheads ∧
      terminal ∈ lookaheads
  | .accept =>
      terminal = endOfInput ∧ ∃ rule, IsComplete grammar item rule ∧ rule.head = start

/-! ## What items propose -/

/-- An item of the accept rule that is complete proposes to accept. -/
theorem proposes_iff_accept {rule : Rule} {action : Action}
    (complete : IsComplete grammar item rule) (isStart : rule.head = start) :
    Proposes grammar method follow start state item terminal action ↔
      terminal = endOfInput ∧ action = .accept := by
  have expected := complete.next?_eq_none
  obtain ⟨found, atEnd⟩ := complete
  cases action <;> simp [Proposes, IsComplete, expected, found, atEnd, isStart]

/-- An item of another rule that is complete proposes to reduce it. -/
theorem proposes_iff_reduce {rule : Rule} {lookaheads : List Nat} {action : Action}
    (complete : IsComplete grammar item rule) (isOther : rule.head ≠ start)
    (looked : method.lookaheads grammar follow item = .ok lookaheads) :
    Proposes grammar method follow start state item terminal action ↔
      terminal ∈ lookaheads ∧ action = .reduce item.core.rule := by
  have expected := complete.next?_eq_none
  obtain ⟨found, atEnd⟩ := complete
  cases action <;>
    simp [Proposes, IsComplete, expected, found, atEnd, isOther, looked, and_comm]

/-- An item with a terminal after its marker proposes to shift it. -/
theorem proposes_iff_shift {read target : Nat} {action : Action}
    (expected : grammar.next? item.core = some (.terminal read))
    (leads : state.transitions.find? (.terminal read) = some target) :
    Proposes grammar method follow start state item terminal action ↔
      terminal = read ∧ action = .shift target := by
  have incomplete (rule : Rule) : ¬ IsComplete grammar item rule := fun complete => by
    cases expected.symm.trans complete.next?_eq_none
  cases action with
  | shift other =>
      simp only [Proposes, expected, Option.some.injEq, Symbol.terminal.injEq, Action.shift.injEq]
      constructor
      · rintro ⟨rfl, alsoLeads⟩
        exact ⟨rfl, Option.some.inj (alsoLeads.symm.trans leads)⟩
      · rintro ⟨rfl, rfl⟩
        exact ⟨rfl, leads⟩
  | reduce other => simp [Proposes, incomplete]
  | accept => simp [Proposes, incomplete]

/-- An item with a nonterminal after its marker proposes nothing. -/
theorem not_proposes {nonterminal : Nat} {action : Action}
    (expected : grammar.next? item.core = some (.nonterminal nonterminal)) :
    ¬ Proposes grammar method follow start state item terminal action := by
  have incomplete (rule : Rule) : ¬ IsComplete grammar item rule := fun complete => by
    cases expected.symm.trans complete.next?_eq_none
  cases action <;> simp [Proposes, expected, incomplete]

namespace Table

/-! ## Registering actions -/

/-- The sort of every conflict is the one of its actions. -/
def IsSorted (table : Table) : Prop :=
  ∀ key contest, table.registry.contests.find? key = some contest →
    contest.kind = .ofActions contest.candidates

theorem IsSorted.register (sorted : table.IsSorted) (id : Nat) (action : Action) (terminal : Nat) :
    (table.register id action terminal).IsSorted := by
  refine Registry.forall_contests_register sorted (fun _ _ _ => rfl) fun contest _ new => ?_
  rw [Contest.join, if_neg new]

theorem mem_cell_register {wanted read : Nat} {action other : Action} :
    other ∈ (table.register id action read).cell wanted terminal ↔
      other ∈ table.cell wanted terminal ∨
      (wanted = id ∧ terminal = read ∧ other = action) := by
  rw [cell, register, Registry.mem_cell_register, cell, Prod.mk.injEq, and_assoc]

theorem mem_cell_foldl_register {wanted : Nat} {action other : Action} {terminals : List Nat} :
    other ∈ (terminals.foldl (register id action) table).cell wanted terminal ↔
      other ∈ table.cell wanted terminal ∨
        (wanted = id ∧ terminal ∈ terminals ∧ other = action) := by
  induction terminals generalizing table with
  | nil => simp
  | cons first rest ih =>
      rw [List.foldl_cons, ih, mem_cell_register, List.mem_cons, or_assoc,
        or_and_right, and_or_left]

/-- Registering an action on several terminals leaves the rest of the table as it is. -/
theorem foldl_register_keeps (id : Nat) (action : Action) (table : Table) (terminals : List Nat) :
    (terminals.foldl (register id action) table).stateCount = table.stateCount ∧
    (terminals.foldl (register id action) table).targets = table.targets ∧
    (table.IsSorted → (terminals.foldl (register id action) table).IsSorted) := by
  induction terminals generalizing table with
  | nil => exact ⟨rfl, rfl, fun sorted => sorted⟩
  | cons first rest ih =>
      obtain ⟨sameCount, sameTargets, sorts⟩ := ih (table.register id action first)
      exact ⟨sameCount, sameTargets, fun sorted => sorts (sorted.register id action first)⟩

/-! ## Visiting items -/

section Visiting

variable (grammar automaton method follow start)

/-- What the later table says besides the earlier one is what the visited items have to say. -/
structure Adds (visits : List (Nat × Item)) (earlier later : Table) : Prop where
  cell : ∀ id terminal action, action ∈ later.cell id terminal ↔
    action ∈ earlier.cell id terminal ∨ ∃ state item, automaton.states[id]? = some state ∧
      (id, item) ∈ visits ∧ Proposes grammar method follow start state item terminal action
  leads : ∀ id nonterminal item, (id, item) ∈ visits →
    grammar.next? item.core = some (.nonterminal nonterminal) →
    later.goto? id nonterminal =
      automaton.states[id]?.bind (·.transitions.find? (.nonterminal nonterminal))
  keeps : ∀ id nonterminal,
    (∀ item, (id, item) ∈ visits →
      grammar.next? item.core ≠ some (.nonterminal nonterminal)) →
    later.goto? id nonterminal = earlier.goto? id nonterminal
  sameCount : later.stateCount = earlier.stateCount
  sorted : earlier.IsSorted → later.IsSorted

end Visiting

theorem Adds.refl (table : Table) : Adds grammar automaton method follow start [] table table :=
  ⟨by simp, by simp, by simp, rfl, fun sorted => sorted⟩

theorem Adds.trans {visits others : List (Nat × Item)} {earlier : Table}
    (adds : Adds grammar automaton method follow start visits earlier table)
    (addsOn : Adds grammar automaton method follow start others table later) :
    Adds grammar automaton method follow start (visits ++ others) earlier later where
  cell id terminal action := by
    rw [addsOn.cell, adds.cell, or_assoc]
    simp only [List.mem_append, or_and_right, and_or_left, exists_or]
  leads id nonterminal item member next := by
    by_cases again : ∃ other, (id, other) ∈ others ∧
        grammar.next? other.core = some (.nonterminal nonterminal)
    · obtain ⟨other, otherMember, otherNext⟩ := again
      exact addsOn.leads id nonterminal other otherMember otherNext
    · push Not at again
      have inFirst := (List.mem_append.mp member).resolve_right fun late => again item late next
      rw [addsOn.keeps id nonterminal again, adds.leads id nonterminal item inFirst next]
  keeps id nonterminal never := by
    rw [addsOn.keeps id nonterminal fun item member =>
      never item (List.mem_append_right visits member),
      adds.keeps id nonterminal fun item member => never item (List.mem_append_left others member)]
  sameCount := addsOn.sameCount.trans adds.sameCount
  sorted := fun sorted => addsOn.sorted (adds.sorted sorted)

/-- If every step of a run adds what its visits have to say, so does the run. -/
theorem exists_foldlM_adds {α : Type}
    {step : Table → α → Except (Failure Automaton.Error) Table}
    {visits : α → List (Nat × Item)} {list : List α}
    (steps : ∀ entry ∈ list, ∀ table, ∃ next, step table entry = .ok next ∧
      Adds grammar automaton method follow start (visits entry) table next) (table : Table) :
    ∃ final, list.foldlM step table = .ok final ∧
      Adds grammar automaton method follow start (list.flatMap visits) table final := by
  induction list generalizing table with
  | nil => exact ⟨table, rfl, .refl table⟩
  | cons entry list ih =>
      obtain ⟨next, stepped, adds⟩ := steps entry (by simp) table
      obtain ⟨final, folded, addsOn⟩ :=
        ih (fun other member => steps other (by simp [member])) next
      exact ⟨final, by rw [List.foldlM_cons, stepped, ok_bind, folded], adds.trans addsOn⟩

/-- Registering what an item proposes, where it leads nowhere. -/
theorem adds_of_actions (found : automaton.states[id]? = some state)
    (cell : ∀ wanted terminal action, action ∈ later.cell wanted terminal ↔
      action ∈ table.cell wanted terminal ∨
        (wanted = id ∧ Proposes grammar method follow start state item terminal action))
    (sameTargets : later.targets = table.targets) (sameCount : later.stateCount = table.stateCount)
    (sorted : table.IsSorted → later.IsSorted)
    (noGoto : ∀ nonterminal, grammar.next? item.core ≠ some (.nonterminal nonterminal)) :
    Adds grammar automaton method follow start [(id, item)] table later where
  cell wanted terminal action := by
    rw [cell]
    refine or_congr_right ?_
    constructor
    · rintro ⟨rfl, proposes⟩
      exact ⟨state, item, found, by simp, proposes⟩
    · rintro ⟨other, otherItem, alsoFound, member, proposes⟩
      obtain ⟨rfl, rfl⟩ := Prod.mk.inj (List.mem_singleton.mp member)
      obtain rfl := Option.some.inj (found.symm.trans alsoFound)
      exact ⟨rfl, proposes⟩
  leads wanted nonterminal other member next := by
    obtain ⟨rfl, rfl⟩ := Prod.mk.inj (List.mem_singleton.mp member)
    exact absurd next (noGoto nonterminal)
  keeps wanted nonterminal _ := by rw [goto?, sameTargets, goto?]
  sameCount := sameCount
  sorted := sorted

/-- Filling in where the nonterminal after the marker of an item leads. -/
theorem adds_setGoto {nonterminal target : Nat} (found : automaton.states[id]? = some state)
    (next : grammar.next? item.core = some (.nonterminal nonterminal))
    (transition : state.transitions.find? (.nonterminal nonterminal) = some target) :
    Adds grammar automaton method follow start [(id, item)] table
      (table.setGoto id nonterminal target) where
  cell wanted terminal action := by
    refine (or_iff_left ?_).symm
    rintro ⟨other, otherItem, alsoFound, member, proposes⟩
    obtain ⟨rfl, rfl⟩ := Prod.mk.inj (List.mem_singleton.mp member)
    obtain rfl := Option.some.inj (found.symm.trans alsoFound)
    exact not_proposes next proposes
  leads wanted other otherItem member otherNext := by
    obtain ⟨rfl, rfl⟩ := Prod.mk.inj (List.mem_singleton.mp member)
    rw [next] at otherNext
    cases otherNext
    rw [goto?, setGoto, InsertionMap.find?_insert, if_pos rfl, found, Option.bind_some, transition]
  keeps wanted other never := by
    have differs : (wanted, other) ≠ (id, nonterminal) := by
      rintro ⟨⟩
      exact never item (by simp) next
    rw [goto?, setGoto, InsertionMap.find?_insert, if_neg differs, goto?]
  sameCount := rfl
  sorted := fun sorted => sorted

/-- A visit adds what the item has to say. -/
theorem exists_visit_eq_ok (found : automaton.states[id]? = some state)
    (has : grammar.HasCore item.core)
    (moves : ∀ symbol, grammar.next? item.core = some symbol →
      ∃ target, state.transitions.find? symbol = some target)
    (looks : ∃ lookaheads, method.lookaheads grammar follow item = .ok lookaheads)
    (table : Table) :
    ∃ next, visit grammar automaton method follow start id table item = .ok next ∧
      Adds grammar automaton method follow start [(id, item)] table next := by
  have transition (symbol : Symbol) : automaton.transition id symbol =
      .ok (state.transitions.find? symbol) := by
    simp [Automaton.transition, Automaton.state, found]
  cases expected : grammar.next? item.core with
  | none =>
      obtain ⟨rule, complete⟩ := has.next?_eq_none.mp expected
      have ruled := Arena.rule_eq_ok.mpr complete.1
      have noGoto (nonterminal : Nat) :
          grammar.next? item.core ≠ some (.nonterminal nonterminal) := by simp [expected]
      by_cases isStart : rule.head = start
      · refine ⟨table.register id .accept endOfInput,
          by simp [visit, has.next_eq_ok, expected, ruled, isStart],
          adds_of_actions found (fun wanted terminal action => ?_) rfl rfl
            (fun sorted => sorted.register id .accept endOfInput) noGoto⟩
        rw [mem_cell_register, proposes_iff_accept complete isStart]
      · obtain ⟨lookaheads, looked⟩ := looks
        obtain ⟨sameCount, sameTargets, sorts⟩ :=
          foldl_register_keeps id (.reduce item.core.rule) table lookaheads
        refine ⟨lookaheads.foldl (register id (.reduce item.core.rule)) table,
          by simp [visit, has.next_eq_ok, expected, ruled, isStart, looked],
          adds_of_actions found (fun wanted terminal action => ?_) sameTargets
            sameCount sorts noGoto⟩
        rw [mem_cell_foldl_register, proposes_iff_reduce complete isStart looked]
  | some symbol =>
      obtain ⟨target, leads⟩ := moves symbol expected
      cases symbol with
      | terminal read =>
          refine ⟨table.register id (.shift target) read,
            by simp [visit, has.next_eq_ok, expected, transition, leads],
            adds_of_actions found (fun wanted terminal action => ?_) rfl rfl
              (fun sorted => sorted.register id (.shift target) read) (by simp [expected])⟩
          rw [mem_cell_register, proposes_iff_shift expected leads]
      | nonterminal read =>
          exact ⟨table.setGoto id read target,
            by simp [visit, has.next_eq_ok, expected, transition, leads],
            adds_setGoto found expected leads⟩

end Table

/-- With exact Follow sets, every method finds lookaheads for every item. -/
theorem Method.exists_lookaheads_eq_ok (exact : FollowSets.Exact grammar follow) (method : Method)
    (has : grammar.HasCore item.core) :
    ∃ lookaheads, method.lookaheads grammar follow item = .ok lookaheads := by
  cases method with
  | lr0 => exact ⟨_, rfl⟩
  | slr1 =>
      obtain ⟨rule, found, _⟩ := has
      obtain ⟨set, isSet, _⟩ :=
        exact.exists_get_eq_ok (grammar.head_lt rule (List.mem_of_getElem? found))
      exact ⟨set.toList, by simp [lookaheads, Arena.rule_eq_ok.mpr found, isSet]⟩
  | lr1 => exact ⟨_, rfl⟩
  | lalr1 => exact ⟨_, rfl⟩

namespace Table

variable {kind : AutomatonKind} {accept target : Nat}

/-! ## Tables of automata -/

/-- The table records what the items of the states have to say, and nothing else. -/
structure IsTableOf (grammar : Grammar) (automaton : Automaton) (method : Method)
    (follow : FollowSets) (start : Nat) (table : Table) : Prop where
  sameCount : table.stateCount = automaton.states.length
  records : ∀ id terminal action, action ∈ table.cell id terminal ↔
    ∃ state item, automaton.states[id]? = some state ∧ item ∈ state.items.items ∧
      Proposes grammar method follow start state item terminal action
  leads : ∀ id state item nonterminal, automaton.states[id]? = some state →
    item ∈ state.items.items → grammar.next? item.core = some (.nonterminal nonterminal) →
    table.goto? id nonterminal = state.transitions.find? (.nonterminal nonterminal)
  leadsOnly : ∀ id nonterminal,
    (∀ state item, automaton.states[id]? = some state → item ∈ state.items.items →
      grammar.next? item.core ≠ some (.nonterminal nonterminal)) →
    table.goto? id nonterminal = none
  sorted : table.IsSorted

/-- All items of an automaton, with the numbers of their states. -/
def visitsOf (automaton : Automaton) : List (Nat × Item) :=
  automaton.states.zipIdx.flatMap fun (state, id) =>
    state.items.items.flatMap fun item => [(id, item)]

theorem mem_visitsOf : (id, item) ∈ visitsOf automaton ↔
    ∃ state, automaton.states[id]? = some state ∧ item ∈ state.items.items := by
  simp only [visitsOf, List.mem_flatMap, List.mem_singleton, Prod.exists,
    List.mem_zipIdx_iff_getElem?, Prod.mk.injEq]
  constructor
  · rintro ⟨state, _, found, _, member, rfl, rfl⟩
    exact ⟨state, found, member⟩
  · rintro ⟨state, found, member⟩
    exact ⟨state, id, found, item, member, rfl, rfl⟩

/-- A table to which all items of an automaton were added is a table of the automaton. -/
theorem Adds.isTableOf
    (adds : Adds grammar automaton method follow start (visitsOf automaton)
      (empty method automaton.states.length) table) :
    table.IsTableOf grammar automaton method follow start where
  sameCount := adds.sameCount
  records id terminal action := by
    rw [adds.cell, or_iff_right (by simp [Table.cell, Registry.cell, empty, Registry.empty])]
    refine exists_congr fun state => exists_congr fun item => and_congr_right fun found => ?_
    rw [mem_visitsOf, found]
    simp
  leads id state item nonterminal found member next := by
    rw [adds.leads id nonterminal item (mem_visitsOf.mpr ⟨state, found, member⟩) next, found,
      Option.bind_some]
  leadsOnly id nonterminal never := by
    refine adds.keeps id nonterminal fun item member => ?_
    obtain ⟨state, found, inItems⟩ := mem_visitsOf.mp member
    exact never state item found inItems
  sorted := adds.sorted fun _ _ isContest => by simp [empty, Registry.empty] at isContest

/-- Every built automaton has a table. -/
theorem exists_ofAutomaton_eq_ok (fresh : grammar.HasFreshStart start accept target)
    (built : automaton.IsBuilt kind grammar accept) (exact : FollowSets.Exact grammar follow)
    (method : Method) :
    ∃ table, ofAutomaton grammar automaton method follow = .ok table ∧
      table.IsTableOf grammar automaton method follow start := by
  have visits : ∀ entry ∈ automaton.states.zipIdx, ∀ table, ∃ next,
      visitState grammar automaton method follow start table entry = .ok next ∧
        Adds grammar automaton method follow start
          (entry.1.items.items.flatMap fun item => [(entry.2, item)]) table next := by
    rintro ⟨state, id⟩ member table
    have found : automaton.states[id]? = some state := List.mem_zipIdx_iff_getElem?.mp member
    have sound := built.isSound.states id state found
    refine exists_foldlM_adds (fun item inItems table => ?_) table
    have holds : state.items.Holds item.core := ⟨_, ItemSet.mem_items.mp inItems⟩
    have has : grammar.HasCore item.core := sound.closes.within sound.kernel.within item.core holds
    refine exists_visit_eq_ok found has (fun symbol next => ?_)
      (method.exists_lookaheads_eq_ok exact has) table
    obtain ⟨rest, expects⟩ := Grammar.next?_eq_some.mp next
    obtain ⟨target, _, transition, _⟩ :=
      built.settled id state item.core symbol rest found holds expects
    exact ⟨target, transition⟩
  obtain ⟨table, folded, adds⟩ :=
    exists_foldlM_adds visits (empty method automaton.states.length)
  exact ⟨table, by simp [ofAutomaton, fresh.start_eq, folded], adds.isTableOf⟩

namespace IsTableOf

variable (isTable : table.IsTableOf grammar automaton method follow start)
include isTable

theorem length_rows : table.rows.length = automaton.states.length := by
  rw [rows, List.length_range, isTable.sameCount]

theorem mem_cell (found : automaton.states[id]? = some state) {action : Action} :
    action ∈ table.cell id terminal ↔ ∃ item ∈ state.items.items,
      Proposes grammar method follow start state item terminal action := by
  simp [isTable.records, found]

/-- Only states of the automaton have actions. -/
theorem exists_state_of_mem_cell {action : Action} (proposed : action ∈ table.cell id terminal) :
    ∃ state, automaton.states[id]? = some state := by
  obtain ⟨state, _, found, _⟩ := (isTable.records id terminal action).mp proposed
  exact ⟨state, found⟩

/-- A nonterminal leads along its transition. -/
theorem goto?_eq (built : automaton.IsBuilt kind grammar accept)
    (found : automaton.states[id]? = some state) (nonterminal : Nat) :
    table.goto? id nonterminal = state.transitions.find? (.nonterminal nonterminal) := by
  by_cases expected : ∃ item ∈ state.items.items,
      grammar.next? item.core = some (.nonterminal nonterminal)
  · obtain ⟨item, member, next⟩ := expected
    exact isTable.leads id state item nonterminal found member next
  · push Not at expected
    have leadsNowhere : table.goto? id nonterminal = none := by
      refine isTable.leadsOnly id nonterminal fun other item alsoFound member => ?_
      obtain rfl := Option.some.inj (found.symm.trans alsoFound)
      exact expected item member
    rw [leadsNowhere, eq_comm, Option.eq_none_iff_forall_ne_some]
    intro target transition
    obtain ⟨core, rest, ⟨lookahead, isFound⟩, expects⟩ :=
      built.exists_expects found transition
    exact expected ⟨core, lookahead⟩ (ItemSet.mem_items.mpr isFound)
      (Grammar.next?_eq_some.mpr ⟨rest, expects⟩)

theorem goto?_eq_none (beyond : automaton.states.length ≤ id) (nonterminal : Nat) :
    table.goto? id nonterminal = none := by
  refine isTable.leadsOnly id nonterminal fun state _ found _ => ?_
  rw [List.getElem?_eq_none beyond] at found
  cases found

/-- A terminal is shifted along its transition. -/
theorem mem_cell_shift (built : automaton.IsBuilt kind grammar accept)
    (found : automaton.states[id]? = some state) {next : Nat} :
    .shift next ∈ table.cell id terminal ↔
      state.transitions.find? (.terminal terminal) = some next := by
  rw [isTable.mem_cell found]
  constructor
  · rintro ⟨item, _, _, transition⟩
    exact transition
  · intro transition
    obtain ⟨core, rest, ⟨lookahead, isFound⟩, expects⟩ :=
      built.exists_expects found transition
    exact ⟨⟨core, lookahead⟩, ItemSet.mem_items.mpr isFound,
      Grammar.next?_eq_some.mpr ⟨rest, expects⟩, transition⟩

end IsTableOf

/-! ## What is reported -/

/-- No action is twice in a cell. -/
theorem nodup_cell (table : Table) (id terminal : Nat) : (table.cell id terminal).Nodup :=
  table.registry.nodup_cell (id, terminal)

/-- The action in force is the first one in its cell. -/
theorem head?_cell (table : Table) (id terminal : Nat) :
    (table.cell id terminal).head? = table.action? id terminal :=
  table.registry.head?_cell (id, terminal)

theorem mem_cell_of_action?_eq_some {action : Action}
    (inForce : table.action? id terminal = some action) : action ∈ table.cell id terminal :=
  List.mem_of_head? ((table.head?_cell id terminal).trans inForce)

/-- Where one action at most is proposed, it is in force. -/
theorem action?_eq_some_of_alone (alone : (table.cell id terminal).length ≤ 1) {action : Action}
    (proposed : action ∈ table.cell id terminal) : table.action? id terminal = some action := by
  rw [← head?_cell]
  exact head?_eq_some_of_mem alone proposed

/-- The action in force in a cell is listed once. -/
theorem filter_actions (table : Table) (id terminal : Nat) :
    table.actions.filter (fun entry => entry.1 = id ∧ entry.2.1 = terminal) =
      (table.action? id terminal).toList.map fun action => (id, terminal, action) := by
  have listed := table.registry.entries.filter_entries (id, terminal)
  simp only [Prod.ext_iff] at listed
  rw [actions, List.filter_map, Function.comp_def]
  simp only [listed, List.map_map, Function.comp_def, action?]

/-- A cell with two actions at least is reported once, and no other one is. -/
theorem filter_conflicts (sorted : table.IsSorted) (id terminal : Nat) :
    table.conflicts.filter (fun conflict => conflict.state = id ∧ conflict.terminal = terminal) =
      if 2 ≤ (table.cell id terminal).length then
        [⟨id, terminal, .ofActions (table.cell id terminal), table.cell id terminal⟩]
      else [] := by
  have listed := table.registry.filter_contests (id, terminal)
  simp only [Prod.ext_iff] at listed
  rw [conflicts, List.filter_map, Function.comp_def]
  simp only [listed, List.map_map, Function.comp_def]
  cases isContest : table.registry.contests.find? (id, terminal) with
  | none =>
      have few := Registry.find?_contests_eq_none_iff.mp isContest
      rw [if_neg (Nat.not_le.mpr few : ¬ 2 ≤ (table.cell id terminal).length)]
      rfl
  | some contest =>
      have many : 2 ≤ (table.cell id terminal).length := by
        rw [cell, ← Nat.not_lt, ← Registry.find?_contests_eq_none_iff, isContest]
        simp
      rw [if_pos many, cell, Registry.cell_of_contest isContest,
        ← sorted _ contest isContest]
      rfl

/-- A reported conflict has all actions of its cell, and two of them at least. -/
theorem actions_of_mem_conflicts {conflict : Conflict} (isConflict : conflict ∈ table.conflicts) :
    conflict.actions = table.cell conflict.state conflict.terminal ∧
    2 ≤ conflict.actions.length := by
  obtain ⟨⟨⟨id, terminal⟩, contest⟩, listed, rfl⟩ := List.mem_map.mp isConflict
  rw [← InsertionMap.find?_eq_some_iff] at listed
  obtain ⟨_, _, isFor⟩ := Registry.exists_entry_of_contest listed
  exact ⟨(Registry.cell_of_contest listed).symm, isFor.many⟩

/-- A cell with two actions at least is reported. -/
theorem exists_mem_conflicts (many : 2 ≤ (table.cell id terminal).length) :
    ∃ conflict ∈ table.conflicts, conflict.state = id ∧ conflict.terminal = terminal := by
  cases isContest : table.registry.contests.find? (id, terminal) with
  | none => exact absurd (Registry.find?_contests_eq_none_iff.mp isContest) (Nat.not_lt.mpr many)
  | some contest =>
      exact ⟨_, List.mem_map_of_mem (InsertionMap.find?_eq_some_iff.mp isContest), rfl, rfl⟩

/-- A table has no conflicts if there is one action at most in each cell. -/
theorem isConflictFree_iff :
    table.isConflictFree = true ↔ ∀ id terminal, (table.cell id terminal).length ≤ 1 := by
  rw [isConflictFree, List.isEmpty_iff, List.eq_nil_iff_forall_not_mem]
  constructor
  · intro none id terminal
    by_contra many
    obtain ⟨conflict, isConflict, _⟩ := exists_mem_conflicts (Nat.lt_of_not_le many)
    exact none conflict isConflict
  · intro few conflict isConflict
    obtain ⟨same, many⟩ := actions_of_mem_conflicts isConflict
    rw [same] at many
    exact absurd many (Nat.not_le.mpr (Nat.lt_succ_of_le (few _ _)))

theorem isConflictFree_of_alike (alike : ∀ id terminal, ∀ first ∈ table.cell id terminal,
    ∀ second ∈ table.cell id terminal, first = second) : table.isConflictFree = true := by
  refine isConflictFree_iff.mpr fun id terminal => ?_
  have alike := alike id terminal
  have nodup := table.nodup_cell id terminal
  match isCell : table.cell id terminal with
  | [] => exact Nat.zero_le 1
  | [_] => exact Nat.le_refl 1
  | first :: second :: _ =>
      rw [isCell] at alike nodup
      obtain rfl := alike first (by simp) second (by simp)
      simp at nodup

/-- Without conflicts, every action that is proposed is in force. -/
theorem action?_eq_some (conflictFree : table.isConflictFree = true) {action : Action}
    (proposed : action ∈ table.cell id terminal) : table.action? id terminal = some action :=
  action?_eq_some_of_alone (isConflictFree_iff.mp conflictFree id terminal) proposed

end Table

end DeterministicParsing.ShiftReduce
