/-
# What a predictive table says

A terminal predicts a rule if a string derived from its body begins with the terminal, or if its
body derives the empty string and the terminal follows its head. A visit enters a rule in the cells
of the terminals that predict it and in no other, so that the cells of the finished table, with or
without conflicts, hold exactly the rules of their nonterminal that their terminal predicts, in the
order of the rules.
-/
import DeterministicParsing.Predictive.Analysis
import DeterministicParsing.Proofs.Registry
import DeterministicParsing.Proofs.FollowSets

namespace DeterministicParsing.Predictive

variable {grammar : Grammar} {first : FirstSets} {follow : FollowSets} {table : Table}
  {nonterminal terminal id : Nat} {kind : ConflictKind}

/-- The rule is one for the nonterminal, and the terminal predicts it. -/
def Predicts (grammar : Grammar) (nonterminal terminal id : Nat) : Prop :=
  ∃ rule, grammar.rules[id]? = some rule ∧ rule.head = nonterminal ∧
    (grammar.DerivesBeginning rule.body terminal ∨
      (grammar.Derives rule.body [] ∧ grammar.Follows nonterminal terminal))

theorem predicts_iff {rule : Rule} (found : grammar.rules[id]? = some rule) :
    Predicts grammar nonterminal terminal id ↔ nonterminal = rule.head ∧
      (grammar.DerivesBeginning rule.body terminal ∨
        (grammar.Derives rule.body [] ∧ grammar.Follows rule.head terminal)) := by
  constructor
  · rintro ⟨other, isOther, rfl, predicted⟩
    obtain rfl := Option.some.inj (found.symm.trans isOther)
    exact ⟨rfl, predicted⟩
  · rintro ⟨rfl, predicted⟩
    exact ⟨rule, found, rfl, predicted⟩

namespace Table

/-- The rule in force is the first one in its cell. -/
theorem head?_cell (table : Table) (nonterminal terminal : Nat) :
    (table.cell nonterminal terminal).head? = table.rule? nonterminal terminal :=
  table.registry.head?_cell (nonterminal, terminal)

theorem cell_register {head read rule : Nat} :
    (register head rule kind table read).cell nonterminal terminal =
      table.cell nonterminal terminal ++
        if (nonterminal, terminal) = (head, read) ∧
            rule ∉ table.cell nonterminal terminal then [rule]
        else [] :=
  Registry.cell_register

theorem mem_cell_register {head read rule : Nat} :
    id ∈ (register head rule kind table read).cell nonterminal terminal ↔
      id ∈ table.cell nonterminal terminal ∨
      (nonterminal = head ∧ terminal = read ∧ id = rule) := by
  rw [cell, register, Registry.mem_cell_register, cell, Prod.mk.injEq, and_assoc]

theorem mem_cell_foldl_register {head rule : Nat} {terminals : List Nat} :
    id ∈ (terminals.foldl (register head rule kind) table).cell nonterminal terminal ↔
      id ∈ table.cell nonterminal terminal ∨
        (nonterminal = head ∧ terminal ∈ terminals ∧ id = rule) := by
  induction terminals generalizing table with
  | nil => simp
  | cons read terminals ih =>
      rw [List.foldl_cons, ih, mem_cell_register, List.mem_cons, or_assoc,
        or_and_right, and_or_left]

/-- The sort of a conflict is told by its second rule: whether the body of that one can begin with
the terminal. -/
def IsSorted (grammar : Grammar) (table : Table) : Prop :=
  ∀ key contest, table.registry.contests.find? key = some contest →
    ∀ second, contest.candidates[1]? = some second → (contest.kind = .firstFirst ↔
      ∃ rule, grammar.rules[second]? = some rule ∧ grammar.DerivesBeginning rule.body key.2)

/-- The conflicts stay sorted if the given sort is right for the rule wherever it is new. -/
theorem IsSorted.register {head read rule : Nat} (sorted : table.IsSorted grammar)
    (isKind : rule ∉ table.cell head read → (kind = .firstFirst ↔
      ∃ other, grammar.rules[rule]? = some other ∧ grammar.DerivesBeginning other.body read)) :
    (table.register head rule kind read).IsSorted grammar := by
  refine Registry.forall_contests_register sorted (fun inForce alone differ second isSecond => ?_)
    fun contest isContest new second isSecond => ?_
  · obtain rfl : rule = second := by simpa [Contest.start] using isSecond
    have new : rule ∉ table.cell head read := by
      rw [cell, alone, List.mem_singleton]
      exact differ.symm
    exact isKind new
  · -- One that joins comes third at the earliest.
    obtain ⟨_, _, isFor⟩ := Registry.exists_entry_of_contest isContest
    rw [Contest.join, if_neg new] at isSecond ⊢
    rw [List.getElem?_append_left isFor.many] at isSecond
    exact sorted (head, read) contest isContest second isSecond

theorem IsSorted.foldl_register {head rule : Nat} {terminals : List Nat}
    (sorted : table.IsSorted grammar)
    (isKind : ∀ terminal ∈ terminals, rule ∉ table.cell head terminal →
      (kind = .firstFirst ↔ ∃ other, grammar.rules[rule]? = some other ∧
        grammar.DerivesBeginning other.body terminal)) :
    (terminals.foldl (Table.register head rule kind) table).IsSorted grammar := by
  induction terminals generalizing table with
  | nil => exact sorted
  | cons read terminals ih =>
      refine ih (sorted.register (isKind read (by simp))) fun terminal member new => ?_
      exact isKind terminal (by simp [member]) fun known => new (mem_cell_register.mpr (.inl known))

/-- Each cell of the later table goes on with some of the rules, in their order, and the conflicts
stay sorted. -/
structure Enters (grammar : Grammar) (ids : List Nat) (earlier later : Table) : Prop where
  cell : ∀ nonterminal terminal, ∃ added,
    later.cell nonterminal terminal = earlier.cell nonterminal terminal ++ added ∧
    added.Sublist ids
  sorted : earlier.IsSorted grammar → later.IsSorted grammar

theorem Enters.refl (grammar : Grammar) (table : Table) : Enters grammar [] table table :=
  ⟨fun _ _ => ⟨[], by simp, .slnil⟩, fun sorted => sorted⟩

theorem Enters.trans {ids others : List Nat} {earlier later : Table}
    (enters : Enters grammar ids earlier table) (entersOn : Enters grammar others table later) :
    Enters grammar (ids ++ others) earlier later := by
  refine ⟨fun nonterminal terminal => ?_, fun sorted => entersOn.sorted (enters.sorted sorted)⟩
  obtain ⟨added, cell, inOrder⟩ := enters.cell nonterminal terminal
  obtain ⟨more, moreCell, moreInOrder⟩ := entersOn.cell nonterminal terminal
  exact ⟨added ++ more, by rw [moreCell, cell, List.append_assoc], inOrder.append moreInOrder⟩

/-- One rule is added once at most to each cell, however often it is registered. -/
theorem exists_cell_foldl_register {head : Nat} {terminals : List Nat} :
    (terminals.foldl (register head id kind) table).cell nonterminal terminal =
      table.cell nonterminal terminal ++
        if (nonterminal = head ∧ terminal ∈ terminals) ∧
            id ∉ table.cell nonterminal terminal then [id]
        else [] := by
  induction terminals generalizing table with
  | nil => simp
  | cons read terminals ih =>
      rw [List.foldl_cons, ih, cell_register, List.append_assoc]
      refine congrArg (table.cell nonterminal terminal ++ ·) ?_
      by_cases isHead : nonterminal = head <;> by_cases isRead : terminal = read <;>
        by_cases known : id ∈ table.cell nonterminal terminal <;> simp [known, isHead, isRead]

/-- A rule that is entered by its body in a cell is not entered there again by what follows its
head. -/
theorem enters_foldl_register {rule : Rule} (found : grammar.rules[id]? = some rule)
    {begins follows : List Nat}
    (begins_iff : ∀ terminal, terminal ∈ begins ↔
      grammar.DerivesBeginning rule.body terminal) :
    Enters grammar [id] table (follows.foldl (register rule.head id .followFollow)
      (begins.foldl (register rule.head id .firstFirst) table)) where
  cell nonterminal terminal := by
    rw [exists_cell_foldl_register, exists_cell_foldl_register, List.append_assoc]
    refine ⟨_, rfl, ?_⟩
    split <;> split <;> simp_all
  sorted := by
    have isBegun (terminal : Nat) : (∃ other, grammar.rules[id]? = some other ∧
        grammar.DerivesBeginning other.body terminal) ↔ terminal ∈ begins := by
      simp [found, begins_iff]
    intro sorted
    refine (sorted.foldl_register fun terminal member _ => ?_).foldl_register
      fun terminal _ new => ?_
    · exact iff_of_true rfl ((isBegun terminal).mpr member)
    · refine iff_of_false (by simp) fun begun => new ?_
      exact mem_cell_foldl_register.mpr (.inr ⟨rfl, (isBegun terminal).mp begun, rfl⟩)

/-- A visit enters a rule where it is predicted. -/
theorem exists_visit_eq_ok (bodies : grammar.BodiesDeclared)
    (exactFirst : FirstSets.Exact grammar first) (exactFollow : FollowSets.Exact grammar follow)
    (known : id < grammar.rules.length) (table : Table) :
    ∃ next, visit grammar first follow table id = .ok next ∧ Enters grammar [id] table next ∧
      ∀ nonterminal terminal other,
        other ∈ next.cell nonterminal terminal ↔ other ∈ table.cell nonterminal terminal ∨
          (other = id ∧ Predicts grammar nonterminal terminal id) := by
  obtain ⟨rule, found⟩ : ∃ rule, grammar.rules[id]? = some rule :=
    ⟨_, List.getElem?_eq_getElem known⟩
  have member : rule ∈ grammar.rules := List.mem_of_getElem? found
  have ruled := Arena.rule_eq_ok.mpr found
  obtain ⟨set, isFirst, vanishes, begins⟩ :=
    exactFirst.exists_ofSequence_eq_ok (bodies rule member)
  obtain ⟨after, isFollow, follows⟩ :=
    exactFollow.exists_get_eq_ok (grammar.head_lt rule member)
  obtain ⟨later, visited, mem_later⟩ : ∃ later : List Nat,
    visit grammar first follow table id =
      .ok (later.foldl (register rule.head id .followFollow)
        (set.terminals.toList.foldl (register rule.head id .firstFirst) table)) ∧
      ∀ terminal, terminal ∈ later ↔
        grammar.Derives rule.body [] ∧ grammar.Follows rule.head terminal := by
    cases nullable : set.nullable with
    | true =>
        refine ⟨after.toList, by simp [visit, ruled, isFirst, isFollow, nullable],
          fun terminal => ?_⟩
        rw [TerminalSet.mem_toList, follows, and_iff_right (vanishes.mp nullable)]
    | false =>
        refine ⟨[], by simp [visit, ruled, isFirst, nullable], fun terminal => ?_⟩
        rw [← vanishes, nullable]
        simp
  refine ⟨_, visited, enters_foldl_register found fun terminal => ?_,
    fun nonterminal terminal other => ?_⟩
  · rw [TerminalSet.mem_toList, begins]
  · simp only [mem_cell_foldl_register, TerminalSet.mem_toList,
      predicts_iff found, begins, mem_later]
    tauto

theorem exists_foldlM_visit_eq_ok (bodies : grammar.BodiesDeclared)
    (exactFirst : FirstSets.Exact grammar first) (exactFollow : FollowSets.Exact grammar follow)
    {ids : List Nat} (known : ∀ id ∈ ids, id < grammar.rules.length) (table : Table) :
    ∃ final, ids.foldlM (visit grammar first follow) table = .ok final ∧
      Enters grammar ids table final ∧
      ∀ nonterminal terminal id, id ∈ final.cell nonterminal terminal ↔
        id ∈ table.cell nonterminal terminal ∨
          (id ∈ ids ∧ Predicts grammar nonterminal terminal id) := by
  induction ids generalizing table with
  | nil => exact ⟨table, rfl, .refl grammar table, by simp⟩
  | cons id ids ih =>
      obtain ⟨next, visited, enters, holds⟩ :=
        exists_visit_eq_ok bodies exactFirst exactFollow (known id (by simp)) table
      obtain ⟨final, folded, entersOn, finalHolds⟩ :=
        ih (fun other member => known other (by simp [member])) next
      refine ⟨final, by rw [List.foldlM_cons, visited, ok_bind, folded],
        enters.trans entersOn, ?_⟩
      intro nonterminal terminal other
      rw [finalHolds, holds, List.mem_cons, or_assoc]
      refine or_congr_right ?_
      constructor
      · rintro (⟨rfl, predicted⟩ | ⟨later, predicted⟩)
        · exact ⟨.inl rfl, predicted⟩
        · exact ⟨.inr later, predicted⟩
      · rintro ⟨rfl | later, predicted⟩
        · exact .inl ⟨rfl, predicted⟩
        · exact .inr ⟨later, predicted⟩

/-- The cells hold exactly the rules that are predicted. -/
def IsTableOf (grammar : Grammar) (table : Table) : Prop :=
  ∀ nonterminal terminal id,
    id ∈ table.cell nonterminal terminal ↔ Predicts grammar nonterminal terminal id

/-- With exact First and Follow sets, there is a table. It holds what is predicted, in ascending
order because the rules are entered in that order, and its conflicts are sorted. -/
theorem exists_ofSets_eq_ok (bodies : grammar.BodiesDeclared)
    (exactFirst : FirstSets.Exact grammar first) (exactFollow : FollowSets.Exact grammar follow) :
    ∃ table, ofSets grammar first follow = .ok table ∧ table.IsTableOf grammar ∧
      (∀ nonterminal terminal, (table.cell nonterminal terminal).Pairwise (· < ·)) ∧
      table.IsSorted grammar := by
  have known : ∀ id ∈ grammar.ruleIds, id < grammar.rules.length := by simp [Arena.ruleIds]
  obtain ⟨table, folded, enters, holds⟩ :=
    exists_foldlM_visit_eq_ok bodies exactFirst exactFollow known empty
  refine ⟨table, folded, fun nonterminal terminal id => ?_, fun nonterminal terminal => ?_,
    enters.sorted fun _ _ isContest => by simp [empty, Registry.empty] at isContest⟩
  rotate_left
  · obtain ⟨added, cell, inOrder⟩ := enters.cell nonterminal terminal
    rw [cell]
    exact List.pairwise_lt_range.sublist inOrder
  rw [holds]
  constructor
  · rintro (inEmpty | ⟨_, predicted⟩)
    · cases inEmpty
    · exact predicted
  · intro predicted
    refine .inr ⟨?_, predicted⟩
    obtain ⟨rule, found, _⟩ := predicted
    rw [Arena.ruleIds, List.mem_range]
    exact (List.getElem?_eq_some_iff.mp found).1

/-- The rule in force for a nonterminal is one of its rules. -/
theorem IsTableOf.predicts_of_rule?_eq_some (isTable : table.IsTableOf grammar)
    (inForce : table.rule? nonterminal terminal = some id) :
    Predicts grammar nonterminal terminal id :=
  (isTable nonterminal terminal id).mp
    (List.mem_of_head? ((table.head?_cell nonterminal terminal).trans inForce))

/-- A cell is reported once if there is a contest for it, and not at all otherwise. -/
theorem filter_conflicts (table : Table) (nonterminal terminal : Nat) :
    table.conflicts.filter
        (fun conflict => conflict.nonterminal = nonterminal ∧ conflict.terminal = terminal) =
      (table.registry.contests.find? (nonterminal, terminal)).toList.map fun contest =>
        ⟨nonterminal, terminal, contest.kind, contest.candidates⟩ := by
  have listed := table.registry.filter_contests (nonterminal, terminal)
  simp only [Prod.ext_iff] at listed
  rw [conflicts, List.filter_map, Function.comp_def]
  simp only [listed, List.map_map, Function.comp_def]

/-- The rule in force in a cell is listed once. -/
theorem filter_entries (table : Table) (nonterminal terminal : Nat) :
    table.entries.filter (fun entry => entry.1 = nonterminal ∧ entry.2.1 = terminal) =
      (table.rule? nonterminal terminal).toList.map fun id => (nonterminal, terminal, id) := by
  have listed := table.registry.entries.filter_entries (nonterminal, terminal)
  simp only [Prod.ext_iff] at listed
  rw [entries, List.filter_map, Function.comp_def]
  simp only [listed, List.map_map, Function.comp_def, rule?]

/-- The rules of a conflict are those of its cell, two at least. -/
theorem rules_of_mem_conflicts {conflict : Conflict} (isConflict : conflict ∈ table.conflicts) :
    conflict.rules = table.cell conflict.nonterminal conflict.terminal ∧
      2 ≤ conflict.rules.length := by
  obtain ⟨⟨⟨nonterminal, terminal⟩, contest⟩, listed, rfl⟩ := List.mem_map.mp isConflict
  rw [← InsertionMap.find?_eq_some_iff] at listed
  obtain ⟨_, _, isFor⟩ := Registry.exists_entry_of_contest listed
  exact ⟨(Registry.cell_of_contest listed).symm, isFor.many⟩

/-- A table has no conflicts if there is one rule at most in each cell. -/
theorem isConflictFree_iff : table.isConflictFree = true ↔
    ∀ nonterminal terminal, (table.cell nonterminal terminal).length ≤ 1 := by
  rw [isConflictFree, List.isEmpty_iff]
  constructor
  · intro none nonterminal terminal
    have listed := table.filter_conflicts nonterminal terminal
    rw [none, List.filter_nil] at listed
    refine Nat.le_of_lt_succ (Registry.find?_contests_eq_none_iff.mp ?_)
    simpa using listed.symm
  · intro few
    rw [List.eq_nil_iff_forall_not_mem]
    intro conflict isConflict
    obtain ⟨same, many⟩ := rules_of_mem_conflicts isConflict
    rw [same] at many
    exact absurd many (Nat.not_le.mpr (Nat.lt_succ_of_le (few _ _)))

end Table

/-- Every well-formed grammar has a predictive table, which holds what is predicted. -/
theorem Table.exists_build_eq_ok (wellFormed : grammar.WellFormed) :
    ∃ table, Table.build grammar = .ok table ∧ table.IsTableOf grammar := by
  obtain ⟨first, firstPasses, firstFound, exactFirst⟩ :=
    FirstSets.exists_computeCounted_eq_ok wellFormed.bodies
  obtain ⟨follow, followPasses, followFound, exactFollow⟩ :=
    FollowSets.exists_computeCounted_eq_ok wellFormed exactFirst
  obtain ⟨table, built, isTable, _⟩ :=
    Table.exists_ofSets_eq_ok wellFormed.bodies exactFirst exactFollow
  exact ⟨table, by simp [build, FirstSets.compute, FollowSets.compute, firstFound, followFound,
    built], isTable⟩

/-- Every well-formed grammar has a predictive analysis, whose table holds what is predicted. -/
theorem Analysis.exists_compute_eq_ok (wellFormed : grammar.WellFormed) :
    ∃ analysis, Analysis.compute grammar = .ok analysis ∧ analysis.grammar = grammar ∧
      analysis.table.IsTableOf grammar := by
  obtain ⟨first, firstPasses, firstFound, exactFirst⟩ :=
    FirstSets.exists_computeCounted_eq_ok wellFormed.bodies
  obtain ⟨follow, followPasses, followFound, exactFollow⟩ :=
    FollowSets.exists_computeCounted_eq_ok wellFormed exactFirst
  obtain ⟨table, built, isTable, _⟩ :=
    Table.exists_ofSets_eq_ok wellFormed.bodies exactFirst exactFollow
  exact ⟨⟨grammar, first, firstPasses, follow, followPasses, table⟩,
    by simp [compute, firstFound, followFound, built], rfl, isTable⟩

/-- The table of an analysis is the one that is built. -/
theorem Analysis.build_eq_ok {analysis : Analysis}
    (computed : Analysis.compute grammar = .ok analysis) :
    Table.build grammar = .ok analysis.table := by
  obtain ⟨⟨first, firstPasses⟩, firstFound, goesOn⟩ := exists_of_bind_eq_ok computed
  obtain ⟨⟨follow, followPasses⟩, followFound, goesOn⟩ := exists_of_bind_eq_ok goesOn
  obtain ⟨table, built, same⟩ := exists_of_bind_eq_ok goesOn
  cases same
  simp [Table.build, FirstSets.compute, FollowSets.compute, firstFound, followFound, built]

end DeterministicParsing.Predictive
