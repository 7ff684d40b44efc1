/-
# The hierarchy of tables

The four methods propose fewer and fewer actions. Three of them number their states alike: the
automata without lookaheads and with merged ones match state by state, so their shifts and gotos are
the same, and a rule is reduced in front of all terminals, of those that follow its head, or of
those that can come after it in some place with the same cores. The canonical automaton has more
states, but each of them has a counterpart with the same cores in the merged one, transitions lead
from counterparts to counterparts, and whatever is proposed in a canonical state is proposed in its
counterpart as well. So a table without conflicts stays without conflicts from each method to the
next.
-/
import DeterministicParsing.Proofs.Automaton.Merging
import DeterministicParsing.Proofs.Automaton.Recognition
import DeterministicParsing.Proofs.ShiftReduce.Completeness

namespace DeterministicParsing

/-! ## Counterparts -/

namespace Automaton

variable {grammar : Grammar} {kind otherKind : AutomatonKind} {start accept target id : Nat}
  {automaton merged : Automaton} {state other : State}

/-- The state of another automaton whose kernel has the same cores. -/
def counterpart (automaton other : Automaton) (id : Nat) : Nat :=
  match automaton.states[id]? with
  | some state => other.states.findIdx fun known => known.kernel.cores = state.kernel.cores
  | none => initial

/-- The map sends each state of an automaton to the only state of another one with the same kernel
cores, the initial state to the initial state, and transitions to transitions. -/
structure IsCoreMap (automaton other : Automaton) (map : Nat → Nat) : Prop where
  /-- Every state is sent to a state. -/
  lt : ∀ id < automaton.states.length, map id < other.states.length
  /-- It is the one with the same kernel cores. -/
  cores_eq_iff : ∀ (id otherId : Nat) (state otherState : State),
    automaton.states[id]? = some state → other.states[otherId]? = some otherState →
    (otherState.kernel.cores = state.kernel.cores ↔ otherId = map id)
  /-- The initial state is sent to the initial state. -/
  initial : map initial = initial
  /-- A symbol leads from what a state is sent to just where what it leads to is sent, if
  anywhere. -/
  transition : ∀ id < automaton.states.length, ∀ symbol,
    other.transition (map id) symbol = (automaton.transition id symbol).map (Option.map map)

/-- States with the same kernel cores hold the same cores. -/
theorem holds_iff_of_cores_eq (sound : state.IsSound kind grammar accept)
    (otherSound : other.IsSound otherKind grammar accept)
    (same : other.kernel.cores = state.kernel.cores) (core : Core) :
    other.items.Holds core ↔ state.items.Holds core := by
  have kernels := ItemSet.cores_eq_iff.mp same
  rw [sound.closes.holds, otherSound.closes.holds]
  exact ⟨ItemSet.InClosure.of_holds fun core => (kernels core).mp,
    ItemSet.InClosure.of_holds fun core => (kernels core).mpr⟩

section Counterparts

variable (fresh : grammar.HasFreshStart start accept target)
  (built : automaton.IsBuilt kind grammar accept)
  (mergedBuilt : merged.IsBuilt .lalr1 grammar accept)
include fresh built mergedBuilt

theorem exists_counterpart_eq_some (found : automaton.states[id]? = some state) :
    ∃ other, merged.states[automaton.counterpart merged id]? = some other ∧
      other.kernel.cores = state.kernel.cores := by
  obtain ⟨other, member, same⟩ :=
    built.exists_cores_eq fresh mergedBuilt (List.mem_of_getElem? found)
  have inRange : merged.states.findIdx (fun known => known.kernel.cores = state.kernel.cores) <
      merged.states.length :=
    List.findIdx_lt_length_of_exists ⟨other, member, decide_eq_true same⟩
  rw [counterpart, found]
  refine ⟨_, List.getElem?_eq_getElem inRange, ?_⟩
  exact of_decide_eq_true (List.findIdx_getElem (w := inRange))

/-- No other state of the merged automaton has the cores of the counterpart. -/
theorem cores_eq_iff_eq_counterpart {otherId : Nat} (found : automaton.states[id]? = some state)
    (foundOther : merged.states[otherId]? = some other) :
    other.kernel.cores = state.kernel.cores ↔ otherId = automaton.counterpart merged id := by
  obtain ⟨known, foundKnown, same⟩ := exists_counterpart_eq_some fresh built mergedBuilt found
  constructor
  · intro alsoSame
    have cores := ItemSet.cores_eq_iff.mp (alsoSame.trans same.symm)
    exact mergedBuilt.isSound.distinct otherId _ other known foundOther foundKnown
      ⟨cores, fun unmerged => absurd rfl unmerged⟩
  · rintro rfl
    cases foundOther.symm.trans foundKnown
    exact same

/-- From counterparts, transitions lead to counterparts. -/
theorem find?_counterpart (found : automaton.states[id]? = some state)
    (foundOther : merged.states[automaton.counterpart merged id]? = some other) (symbol : Symbol) :
    other.transitions.find? symbol =
      (state.transitions.find? symbol).map (automaton.counterpart merged) := by
  have same := (cores_eq_iff_eq_counterpart fresh built mergedBuilt found foundOther).mpr rfl
  have holds := holds_iff_of_cores_eq (built.isSound.states id state found)
    (mergedBuilt.isSound.states _ other foundOther) same
  -- Where one of the two has a transition, so does the other, since an item calls for it.
  cases transition : state.transitions.find? symbol with
  | none =>
      rw [Option.map_none, Option.eq_none_iff_forall_ne_some]
      intro otherNext otherTransition
      obtain ⟨core, rest, otherHolds, expects⟩ :=
        mergedBuilt.exists_expects foundOther otherTransition
      obtain ⟨next, _, alsoTransition, _⟩ :=
        built.settled id state core symbol rest found ((holds core).mp otherHolds) expects
      cases transition.symm.trans alsoTransition
  | some next =>
      obtain ⟨core, rest, stateHolds, expects⟩ := built.exists_expects found transition
      obtain ⟨otherNext, _, otherTransition, _⟩ :=
        mergedBuilt.settled _ other core symbol rest foundOther
          ((holds core).mpr stateHolds) expects
      obtain ⟨nextState, foundNext, leads⟩ :=
        built.isSound.transitions id state symbol next found transition
      obtain ⟨otherNextState, foundOtherNext, otherLeads⟩ :=
        mergedBuilt.isSound.transitions _ other symbol otherNext foundOther otherTransition
      have nextSame : otherNextState.kernel.cores = nextState.kernel.cores := by
        refine ItemSet.cores_eq_iff.mpr fun core => ?_
        simp only [leads.holds, otherLeads.holds, holds]
      rw [otherTransition, Option.map_some,
        (cores_eq_iff_eq_counterpart fresh built mergedBuilt foundNext foundOtherNext).mp nextSame]

theorem isCoreMap_counterpart : IsCoreMap automaton merged (automaton.counterpart merged) where
  lt := by
    intro id inRange
    obtain ⟨other, foundOther, _⟩ := exists_counterpart_eq_some fresh built mergedBuilt
      (List.getElem?_eq_getElem inRange)
    exact (List.getElem?_eq_some_iff.mp foundOther).1
  cores_eq_iff := fun id otherId state otherState found foundOther =>
    cores_eq_iff_eq_counterpart fresh built mergedBuilt found foundOther
  initial := by
    obtain ⟨state, found⟩ := built.exists_state .start
    obtain ⟨other, foundOther⟩ := mergedBuilt.exists_state .start
    have isKernel := built.isKernelFor fresh .start found
    have isOther := mergedBuilt.isKernelFor fresh .start foundOther
    have same := ItemSet.cores_eq_iff.mpr fun core => isOther.holds_iff isKernel
    exact ((cores_eq_iff_eq_counterpart fresh built mergedBuilt found foundOther).mp same).symm
  transition := by
    intro id inRange symbol
    have found := List.getElem?_eq_getElem inRange
    obtain ⟨other, foundOther, _⟩ := exists_counterpart_eq_some fresh built mergedBuilt found
    rw [transition_eq_ok found, transition_eq_ok foundOther,
      find?_counterpart fresh built mergedBuilt found foundOther]
    rfl

end Counterparts

end Automaton

namespace ShiftReduce

/-- The action with the state that it goes to replaced by another one. -/
def Action.redirected (map : Nat → Nat) : Action → Action
  | .shift target => .shift (map target)
  | .reduce rule => .reduce rule
  | .accept => .accept

theorem Action.redirected_id (action : Action) : action.redirected id = action := by
  cases action <;> rfl

/-- Redirecting confuses nothing but shifts. -/
theorem Action.eq_or_shift_of_redirected_eq {map : Nat → Nat} {first second : Action}
    (same : first.redirected map = second.redirected map) :
    first = second ∨ ∃ firstTarget secondTarget, first = .shift firstTarget ∧
      second = .shift secondTarget := by
  cases first <;> cases second <;> simp_all [redirected]

/-! ## Comparing cells -/

section Cells

variable {grammar : Grammar} {method otherMethod : Method} {target id otherId terminal : Nat}
  {analysis other : Analysis} {state otherState : State}

/-- What is proposed in one state is proposed in another one that holds the same cores, follows the
same transitions, and permits the same reductions. -/
theorem Analysis.IsAnalysisOf.redirected_mem_cell
    (isAnalysis : analysis.IsAnalysisOf grammar method target)
    (isOther : other.IsAnalysisOf grammar otherMethod target)
    (sameGrammar : other.grammar = analysis.grammar)
    (found : analysis.automaton.states[id]? = some state)
    (foundOther : other.automaton.states[otherId]? = some otherState) {map : Nat → Nat}
    (cores : ∀ core, state.items.Holds core → otherState.items.Holds core)
    (transitions : ∀ symbol next, state.transitions.find? symbol = some next →
      otherState.transitions.find? symbol = some (map next))
    (permits : ∀ core rule, analysis.grammar.rules[core.rule]? = some rule →
      method.Permits analysis.grammar state.items core rule.head terminal →
      otherMethod.Permits analysis.grammar otherState.items core rule.head terminal)
    {action : Action} (proposed : action ∈ analysis.table.cell id terminal) :
    action.redirected map ∈ other.table.cell otherId terminal := by
  cases action with
  | shift next =>
      have transition := (isAnalysis.isTable.mem_cell_shift isAnalysis.built found).mp proposed
      exact (isOther.isTable.mem_cell_shift isOther.built foundOther).mpr
        (transitions _ _ transition)
  | reduce ruleId =>
      obtain ⟨rule, isRule, notStart, holds, permitted⟩ :=
        (isAnalysis.mem_cell_reduce_iff found).mp proposed
      rw [Action.redirected, isOther.mem_cell_reduce_iff foundOther, sameGrammar]
      exact ⟨rule, isRule, notStart, cores _ holds, permits _ rule isRule permitted⟩
  | accept =>
      obtain ⟨item, member, atEnd, rule, complete, isStart⟩ :=
        (isAnalysis.isTable.mem_cell found).mp proposed
      obtain ⟨lookahead, isFound⟩ := cores item.core ⟨_, ItemSet.mem_items.mp member⟩
      refine (isOther.isTable.mem_cell foundOther).mpr
        ⟨⟨item.core, lookahead⟩, ItemSet.mem_items.mpr isFound, atEnd, rule, ?_, isStart⟩
      rw [sameGrammar]
      exact complete

end Cells

/-! ## The methods side by side -/

namespace Analysis.IsFamilyOf

variable {grammar augmented : Grammar} {target : Nat} {analyses : Method → Analysis}
  {first : FirstSets} (family : IsFamilyOf grammar target analyses augmented first)
include family

theorem fresh : augmented.HasFreshStart grammar.nonterminalCount grammar.rules.length target := by
  rw [← family.grammar_eq .lr0]
  exact (family.isAnalysis .lr0).fresh

theorem built (method : Method) :
    (analyses method).automaton.IsBuilt method.automatonKind augmented grammar.rules.length := by
  rw [← family.grammar_eq method]
  exact (family.isAnalysis method).built

theorem length_rows (method : Method) :
    (analyses method).table.rows.length = (analyses method).automaton.states.length :=
  (family.isAnalysis method).isTable.length_rows

/-- The methods that take no lookaheads from the items share one automaton. -/
theorem automaton_slr1 : (analyses .slr1).automaton = (analyses .lr0).automaton :=
  Except.ok.inj ((family.builds .slr1).symm.trans (family.builds .lr0))

/-- The automaton with merged lookaheads matches the one without lookaheads. -/
theorem states_match :
    (analyses .lr0).automaton.states.length = (analyses .lalr1).automaton.states.length ∧
      ∀ (id : Nat) (state other : State), (analyses .lr0).automaton.states[id]? = some state →
        (analyses .lalr1).automaton.states[id]? = some other → state.Matches other := by
  obtain ⟨plain, merged, buildsPlain, buildsMerged, _, _, sameLength, isMatch⟩ :=
    Automaton.exists_matching_eq_ok family.fresh family.exact
  obtain rfl := Except.ok.inj (buildsPlain.symm.trans (family.builds .lr0))
  obtain rfl := Except.ok.inj (buildsMerged.symm.trans (family.builds .lalr1))
  exact ⟨sameLength, isMatch⟩

/-- Three methods have the same states and the same gotos. -/
theorem gotos_eq (method : Method) (other : method ≠ .lr1) :
    (analyses method).table.rows.length = (analyses .lr0).table.rows.length ∧
      ∀ id nonterminal, (analyses method).table.goto? id nonterminal =
        (analyses .lr0).table.goto? id nonterminal := by
  -- Both automata have the same transitions.
  obtain ⟨sameLength, sameTransitions⟩ : (analyses .lr0).automaton.states.length =
        (analyses method).automaton.states.length ∧
      ∀ (id : Nat) (state counterpart : State),
        (analyses .lr0).automaton.states[id]? = some state →
          (analyses method).automaton.states[id]? = some counterpart →
        state.transitions = counterpart.transitions := by
    cases method with
    | lr1 => exact absurd rfl other
    | lalr1 =>
        exact ⟨family.states_match.1, fun id state counterpart found foundOther =>
          (family.states_match.2 id state counterpart found foundOther).transitions⟩
    | lr0 =>
        refine ⟨rfl, fun id state counterpart found foundOther => ?_⟩
        cases found.symm.trans foundOther
        rfl
    | slr1 =>
        rw [family.automaton_slr1]
        refine ⟨rfl, fun id state counterpart found foundOther => ?_⟩
        cases found.symm.trans foundOther
        rfl
  have sameRows :=
    (family.length_rows method).trans (sameLength.symm.trans (family.length_rows .lr0).symm)
  refine ⟨sameRows, fun id nonterminal => ?_⟩
  rcases Nat.lt_or_ge id (analyses .lr0).automaton.states.length with inRange | beyond
  · have found := List.getElem?_eq_getElem inRange
    have foundOther := List.getElem?_eq_getElem (sameLength ▸ inRange)
    have isAnalysis := family.isAnalysis
    rw [(isAnalysis .lr0).isTable.goto?_eq (isAnalysis .lr0).built found,
      (isAnalysis method).isTable.goto?_eq (isAnalysis method).built foundOther,
      sameTransitions id _ _ found foundOther]
  · rw [(family.isAnalysis .lr0).isTable.goto?_eq_none beyond,
      (family.isAnalysis method).isTable.goto?_eq_none (sameLength ▸ beyond)]

/-- A terminal that can come after a rule, in one of the places with the same cores, follows its
head. -/
theorem cell_lalr1_subset (id terminal : Nat) :
    (analyses .lalr1).table.cell id terminal ⊆ (analyses .slr1).table.cell id terminal := by
  intro action proposed
  obtain ⟨state, found⟩ := (family.isAnalysis .lalr1).isTable.exists_state_of_mem_cell proposed
  have inRange := (List.getElem?_eq_some_iff.mp found).1
  rw [← family.states_match.1] at inRange
  obtain ⟨plain, foundPlain⟩ : ∃ plain, (analyses .lr0).automaton.states[id]? = some plain :=
    ⟨_, List.getElem?_eq_getElem inRange⟩
  have isMatch := family.states_match.2 id plain state foundPlain found
  have same := isMatch.items ((family.built .lr0).isSound.states id plain foundPlain)
    ((family.built .lalr1).isSound.states id state found)
  rw [← family.automaton_slr1] at foundPlain
  rw [← action.redirected_id]
  refine (family.isAnalysis .lalr1).redirected_mem_cell (family.isAnalysis .slr1) ?_ found
    foundPlain ?_ ?_ ?_ proposed
  · rw [family.grammar_eq, family.grammar_eq]
  · exact fun core holds => (same core).mpr holds
  · rw [isMatch.transitions]
    exact fun symbol next transition => transition
  · intro core rule isRule allows
    rw [family.grammar_eq] at isRule ⊢
    obtain ⟨string, _, after, ⟨alsoRule, before, alsoFound, _, frame, _⟩, begins⟩ :=
      (family.built .lalr1).exists_validLookahead family.fresh found allows
    cases isRule.symm.trans alsoFound
    exact frame.follows begins

/-- All terminals that follow a nonterminal are declared. -/
theorem cell_slr1_subset (id terminal : Nat) :
    (analyses .slr1).table.cell id terminal ⊆ (analyses .lr0).table.cell id terminal := by
  intro action proposed
  obtain ⟨state, found⟩ := (family.isAnalysis .slr1).isTable.exists_state_of_mem_cell proposed
  have foundPlain := found
  rw [family.automaton_slr1] at foundPlain
  rw [← action.redirected_id]
  refine (family.isAnalysis .slr1).redirected_mem_cell (family.isAnalysis .lr0) ?_ found foundPlain
    ?_ ?_ ?_ proposed
  · rw [family.grammar_eq, family.grammar_eq]
  · exact fun core holds => holds
  · exact fun symbol next transition => transition
  · intro core rule _ follows
    exact Grammar.declares_of_mem_bodyTerminals (family.isAnalysis .slr1).fresh.bodies follows.mem

/-- What is proposed in a canonical state is proposed in its counterpart. -/
theorem redirected_mem_cell_lalr1 {id terminal : Nat} {action : Action}
    (proposed : action ∈ (analyses .lr1).table.cell id terminal) :
    action.redirected ((analyses .lr1).automaton.counterpart (analyses .lalr1).automaton) ∈
      (analyses .lalr1).table.cell
        ((analyses .lr1).automaton.counterpart (analyses .lalr1).automaton id) terminal := by
  obtain ⟨state, found⟩ := (family.isAnalysis .lr1).isTable.exists_state_of_mem_cell proposed
  obtain ⟨other, foundOther, same⟩ := Automaton.exists_counterpart_eq_some family.fresh
    (family.built .lr1) (family.built .lalr1) found
  have holds := Automaton.holds_iff_of_cores_eq ((family.built .lr1).isSound.states id state found)
    ((family.built .lalr1).isSound.states _ other foundOther) same
  refine (family.isAnalysis .lr1).redirected_mem_cell (family.isAnalysis .lalr1) ?_ found foundOther
    ?_ ?_ ?_ proposed
  · rw [family.grammar_eq, family.grammar_eq]
  · exact fun core => (holds core).mpr
  · intro symbol next transition
    rw [Automaton.find?_counterpart family.fresh (family.built .lr1) (family.built .lalr1) found
      foundOther, transition, Option.map_some]
  · intro core rule _ allows
    refine ((family.built .lalr1).allows_iff_exists_canonical family.fresh (family.built .lr1)
      foundOther core terminal).mpr ⟨state, List.mem_of_getElem? found, ?_, allows⟩
    exact fun core => ((ItemSet.cores_eq_iff.mp same) core).symm

/-- A table has no conflicts if all it proposes is proposed, with the states renamed, in one without
conflicts. -/
theorem isConflictFree_of_redirected {method otherMethod : Method} {map : Nat → Nat}
    (maps : ∀ id terminal, ∀ action ∈ (analyses method).table.cell id terminal,
      action.redirected map ∈ (analyses otherMethod).table.cell (map id) terminal)
    (conflictFree : (analyses otherMethod).table.isConflictFree = true) :
    (analyses method).table.isConflictFree = true := by
  refine Table.isConflictFree_of_alike fun id terminal first inFirst second inSecond => ?_
  have same := Option.some.inj
    ((Table.action?_eq_some conflictFree (maps id terminal first inFirst)).symm.trans
      (Table.action?_eq_some conflictFree (maps id terminal second inSecond)))
  obtain ⟨state, found⟩ := (family.isAnalysis method).isTable.exists_state_of_mem_cell inFirst
  have isAnalysis := family.isAnalysis method
  rcases Action.eq_or_shift_of_redirected_eq same with rfl |
    ⟨firstTarget, secondTarget, rfl, rfl⟩
  · rfl
  · rw [isAnalysis.isTable.mem_cell_shift isAnalysis.built found] at inFirst inSecond
    cases inFirst.symm.trans inSecond
    rfl

theorem isConflictFree_of_subset {method otherMethod : Method}
    (subset : ∀ id terminal, (analyses method).table.cell id terminal ⊆
      (analyses otherMethod).table.cell id terminal)
    (conflictFree : (analyses otherMethod).table.isConflictFree = true) :
    (analyses method).table.isConflictFree = true := by
  refine @isConflictFree_of_redirected _ _ _ _ _ family method otherMethod id ?_ conflictFree
  intro id terminal action proposed
  rw [action.redirected_id]
  exact subset id terminal proposed

end Analysis.IsFamilyOf

/-- For every well-formed grammar that is not augmented yet, the tables of the four methods form a
hierarchy. Without lookaheads, with Follow sets and with merged lookaheads there are the same states
and the same gotos, and each cell of the last is contained in that of the second, which is contained
in that of the first. The canonical automaton is mapped to the merged one by equal kernel cores, and
each action in a canonical state is an action in the state it is mapped to, with the target of a
shift mapped as well. So if there are no conflicts by one method, there are none by those after
it. -/
theorem tables_form_a_hierarchy (grammar : Grammar) (wellFormed : grammar.WellFormed)
    (notAugmented : grammar.isAugmented = false) :
    ∃ plain simple merged canonical : Analysis,
      Analysis.compute grammar .lr0 = .ok plain ∧ Analysis.compute grammar .slr1 = .ok simple ∧
      Analysis.compute grammar .lalr1 = .ok merged ∧
      Analysis.compute grammar .lr1 = .ok canonical ∧
      (simple.table.rows.length = plain.table.rows.length ∧
        merged.table.rows.length = plain.table.rows.length) ∧
      (∀ id nonterminal, simple.table.goto? id nonterminal = plain.table.goto? id nonterminal ∧
        merged.table.goto? id nonterminal = plain.table.goto? id nonterminal) ∧
      (∀ id terminal, merged.table.cell id terminal ⊆ simple.table.cell id terminal ∧
        simple.table.cell id terminal ⊆ plain.table.cell id terminal) ∧
      (∃ map : Nat → Nat, Automaton.IsCoreMap canonical.automaton merged.automaton map ∧
        ∀ id terminal, ∀ action ∈ canonical.table.cell id terminal,
          action.redirected map ∈ merged.table.cell (map id) terminal) ∧
      (plain.table.isConflictFree = true → simple.table.isConflictFree = true) ∧
      (simple.table.isConflictFree = true → merged.table.isConflictFree = true) ∧
      (merged.table.isConflictFree = true → canonical.table.isConflictFree = true) := by
  obtain ⟨target, analyses, augmented, first, _, family⟩ :=
    Analysis.exists_isFamilyOf wellFormed notAugmented
  have slr1 := family.gotos_eq .slr1 (by decide)
  have lalr1 := family.gotos_eq .lalr1 (by decide)
  refine ⟨analyses .lr0, analyses .slr1, analyses .lalr1, analyses .lr1, family.computed _,
    family.computed _, family.computed _, family.computed _, ⟨slr1.1, lalr1.1⟩,
    fun id nonterminal => ⟨slr1.2 id nonterminal, lalr1.2 id nonterminal⟩,
    fun id terminal => ⟨family.cell_lalr1_subset id terminal,
      family.cell_slr1_subset id terminal⟩,
    ⟨_, Automaton.isCoreMap_counterpart family.fresh (family.built .lr1) (family.built .lalr1),
      fun id terminal action proposed => family.redirected_mem_cell_lalr1 proposed⟩,
    family.isConflictFree_of_subset family.cell_slr1_subset,
    family.isConflictFree_of_subset family.cell_lalr1_subset,
    family.isConflictFree_of_redirected fun id terminal action proposed =>
      family.redirected_mem_cell_lalr1 proposed⟩

/-- For two strings of any number of `c` and a `d`, the ten canonical states are mapped to seven.
The two after a `d` become one, where the rule for it is reduced in front of `$end` as well. Even
without lookaheads there are no conflicts, so there are none by the other methods. -/
theorem tables_of_twoStrings_form_a_hierarchy :
    ∃ plain simple merged canonical : Analysis,
      Analysis.compute Grammar.twoStrings .lr0 = .ok plain ∧
      Analysis.compute Grammar.twoStrings .slr1 = .ok simple ∧
      Analysis.compute Grammar.twoStrings .lalr1 = .ok merged ∧
      Analysis.compute Grammar.twoStrings .lr1 = .ok canonical ∧
      canonical.table.rows.length = 10 ∧ merged.table.rows.length = 7 ∧
      plain.table.isConflictFree = true ∧ canonical.table.isConflictFree = true ∧
      ∃ map : Nat → Nat, Automaton.IsCoreMap canonical.automaton merged.automaton map ∧
        map 2 = 2 ∧ map 7 = 2 ∧ canonical.table.cell 7 endOfInput = [.reduce 2] ∧
        .reduce 2 ∈ merged.table.cell 2 endOfInput := by
  obtain ⟨plain, simple, merged, canonical, computedPlain, computedSimple, computedMerged,
    computedCanonical, ⟨_, sameRows⟩, _, _, ⟨map, isCoreMap, maps⟩, chain,
    alsoChain, lastChain⟩ :=
    tables_form_a_hierarchy Grammar.twoStrings Grammar.wellFormed_twoStrings rfl
  have evaluatesPlain : (Analysis.compute Grammar.twoStrings .lr0).map (fun analysis =>
      decide (analysis.table.rows.length = 7 ∧ analysis.table.isConflictFree = true)) =
        .ok true := by
    decide +kernel
  have evaluatesMerged : (Analysis.compute Grammar.twoStrings .lalr1).map (fun analysis =>
      analysis.automaton.states[2]?.map (·.kernel.cores)) = .ok (some [⟨2, 1⟩]) := by
    decide +kernel
  have evaluatesCanonical : (Analysis.compute Grammar.twoStrings .lr1).map (fun analysis =>
      decide (analysis.table.rows.length = 10 ∧
        analysis.automaton.states[2]?.map (·.kernel.cores) = some [⟨2, 1⟩] ∧
        analysis.automaton.states[7]?.map (·.kernel.cores) = some [⟨2, 1⟩] ∧
        analysis.table.cell 7 endOfInput = [.reduce 2])) = .ok true := by
    decide +kernel
  rw [computedPlain] at evaluatesPlain
  rw [computedMerged] at evaluatesMerged
  rw [computedCanonical] at evaluatesCanonical
  obtain ⟨plainRows, conflictFree⟩ := of_decide_eq_true (Except.ok.inj evaluatesPlain)
  obtain ⟨canonicalRows, coresOfTwo, coresOfSeven, cell⟩ :=
    of_decide_eq_true (Except.ok.inj evaluatesCanonical)
  obtain ⟨state, found, cores⟩ := Option.map_eq_some_iff.mp (Except.ok.inj evaluatesMerged)
  obtain ⟨two, foundTwo, sameTwo⟩ := Option.map_eq_some_iff.mp coresOfTwo
  obtain ⟨seven, foundSeven, sameSeven⟩ := Option.map_eq_some_iff.mp coresOfSeven
  have mapsTwo :=
    (isCoreMap.cores_eq_iff 2 2 two state foundTwo found).mp (cores.trans sameTwo.symm)
  have mapsSeven :=
    (isCoreMap.cores_eq_iff 7 2 seven state foundSeven found).mp (cores.trans sameSeven.symm)
  have proposed := maps 7 endOfInput (.reduce 2) (by simp [cell])
  rw [← mapsSeven] at proposed
  exact ⟨plain, simple, merged, canonical, computedPlain, computedSimple, computedMerged,
    computedCanonical, canonicalRows, sameRows.trans plainRows, conflictFree,
    lastChain (alsoChain (chain conflictFree)), map, isCoreMap, mapsTwo.symm, mapsSeven.symm, cell,
    proposed⟩

end ShiftReduce

end DeterministicParsing
