/-
# Built automata

The expansions come to an end, because every place in the queue is paid for by something that no
state has known before, and there is only so much to know. What is left then is an automaton all of
whose states are settled. A string of symbols leads to one of its states exactly if it is a viable
prefix, that state holds exactly the cores that are valid for the string, and unless lookaheads are
merged it allows exactly the terminals that can come after them.
-/
import DeterministicParsing.Proofs.Automaton.Construction

namespace DeterministicParsing

namespace Automaton

variable {kind : AutomatonKind} {grammar : Grammar} {first : FirstSets} {start accept target : Nat}

namespace Construction

variable {construction : Construction}

/-- Every state waits to be expanded or is settled. -/
def Progresses (grammar : Grammar) (construction : Construction) : Prop :=
  ∀ id < construction.states.length,
    id ∈ construction.queue ∨ construction.Settled grammar id

/-- A single state that waits progresses. -/
theorem progresses_seed (state : State) (history : List Event) :
    Construction.Progresses grammar ⟨[state], [initial], history⟩ := by
  intro id inRange
  rw [List.length_singleton, Nat.lt_one_iff] at inRange
  exact .inl (by simp [inRange, initial])

theorem IsSound.tail (sound : construction.IsSound kind grammar accept) {id : Nat}
    {queue : List Nat} (waiting : construction.queue = id :: queue) :
    Construction.IsSound kind grammar accept { construction with queue } := by
  refine ⟨sound.states, sound.distinct, sound.transitions,
    fun other member => ?_, sound.initial⟩
  exact sound.queue_lt other (by simp [waiting, show other ∈ queue from member])

/-- Taking the first state off the queue and expanding it leaves a sound construction that
progresses, and less to be done. -/
theorem exists_expand_head_eq_ok (fresh : grammar.HasFreshStart start accept target)
    (exact : FirstSets.Exact grammar first) (sound : construction.IsSound kind grammar accept)
    (progresses : construction.Progresses grammar) {id : Nat} {queue : List Nat}
    (waiting : construction.queue = id :: queue) :
    ∃ expanded, { construction with queue }.expand kind grammar first id = .ok expanded ∧
      expanded.IsSound kind grammar accept ∧ expanded.Progresses grammar ∧
      expanded.queue.length + (construction.knowledge kind).ncard <
        construction.queue.length + (expanded.knowledge kind).ncard := by
  have found := List.getElem?_eq_getElem (sound.queue_lt id (by simp [waiting]))
  obtain ⟨expanded, expands, expandedSound, evolves, idDone⟩ :=
    exists_expand_eq_ok fresh exact (sound.tail waiting) found
  refine ⟨expanded, expands, expandedSound, fun other inRange => ?_, ?_⟩
  · rcases evolves.waiting other inRange with waits | old
    · exact .inl waits
    by_cases same : other = id
    · rw [same]
      exact idDone
    · rcases progresses other old with waits | settled
      · rw [waiting, List.mem_cons] at waits
        exact .inl (evolves.queue_subset (waits.resolve_left same))
      · have headSettled : Construction.Settled grammar { construction with queue } other :=
          settled
        exact headSettled.evolves evolves
  · have learned := evolves.learned
    rw [waiting, List.length_cons]
    exact Nat.lt_of_le_of_lt learned (Nat.add_lt_add_right (Nat.lt_succ_self _) _)

/-- With enough expansions to spare, the queue becomes empty and all states are settled. -/
theorem exists_run_eq_ok (fresh : grammar.HasFreshStart start accept target)
    (exact : FirstSets.Exact grammar first) (bound : Nat)
    (sound : construction.IsSound kind grammar accept)
    (progresses : construction.Progresses grammar)
    (enough : construction.queue.length + (kind.possible grammar).ncard ≤
      bound + (construction.knowledge kind).ncard) :
    ∃ final, construction.run kind grammar first bound = .ok final ∧
      final.IsSound kind grammar accept ∧ final.Progresses grammar ∧ final.queue = [] := by
  induction bound generalizing construction with
  | zero =>
      have limited := Set.ncard_le_ncard (knowledge_subset_possible sound.states)
        AutomatonKind.finite_possible
      refine ⟨construction, rfl, sound, progresses, ?_⟩
      rw [← List.length_eq_zero_iff]
      omega
  | succ bound ih =>
      cases waiting : construction.queue with
      | nil => exact ⟨construction, by simp [run, waiting], sound, progresses, waiting⟩
      | cons id queue =>
          obtain ⟨expanded, expands, expandedSound, expandedProgresses, less⟩ :=
            exists_expand_head_eq_ok fresh exact sound progresses waiting
          obtain ⟨final, runs, finalSound, finalProgresses, empty⟩ :=
            ih expandedSound expandedProgresses (by omega)
          refine ⟨final, ?_, finalSound, finalProgresses, empty⟩
          simp only [run, waiting]
          rw [expands, ok_bind, runs]

end Construction

/-! ## The initial state -/

/-- The kernel of the initial state. -/
def initialKernel (kind : AutomatonKind) (accept : Nat) : ItemSet :=
  ItemSet.ofList [⟨⟨accept, 0⟩, kind.initialLookahead⟩]

theorem holds_initialKernel {core : Core} :
    (initialKernel kind accept).Holds core ↔ core = ⟨accept, 0⟩ := by
  simp [initialKernel, ItemSet.ofList, ItemSet.holds_add]

theorem allows_initialKernel {core : Core} {terminal : Nat} :
    (initialKernel kind accept).Allows core terminal ↔
      core = ⟨accept, 0⟩ ∧ kind.marked = true ∧ terminal = endOfInput := by
  cases kind <;> simp [initialKernel, ItemSet.ofList, ItemSet.allows_add,
    AutomatonKind.initialLookahead, AutomatonKind.marked]

theorem validLookahead_nil (fresh : grammar.HasFreshStart start accept target) {terminal : Nat} :
    grammar.ValidLookahead [] ⟨accept, 0⟩ terminal ↔ terminal = endOfInput := by
  constructor
  · rintro ⟨after, valid, begins⟩
    obtain ⟨_, rfl⟩ := fresh.eq_of_validFor_accept valid
    exact Grammar.derivesBeginning_word_cons.mp begins
  · rintro rfl
    exact ⟨_, (Grammar.Frame.start fresh.start_eq).validFor fresh.found rfl,
      Grammar.derivesBeginning_word_cons.mpr rfl⟩

theorem isReached_initialKernel (fresh : grammar.HasFreshStart start accept target) :
    (initialKernel kind accept).IsReached kind grammar accept := by
  have isKernel := ItemSet.isKernelFor_nil fresh fun core => @holds_initialKernel kind accept core
  refine ⟨?_, ⟨_, holds_initialKernel.mpr rfl⟩, ⟨[], isKernel⟩,
    fun core terminal allows => ⟨[], isKernel, ?_⟩⟩
  · apply ItemSet.Marked.ofList
    intro item member
    rw [List.mem_singleton.mp member]
    cases kind <;> rfl
  · obtain ⟨rfl, _, rfl⟩ := allows_initialKernel.mp allows
    exact (validLookahead_nil fresh).mpr rfl

theorem acceptRule_eq_ok (fresh : grammar.HasFreshStart start accept target) :
    acceptRule grammar = .ok accept := by
  have nonempty := Grammar.isEmpty_nonterminalNames_of_lt fresh.start_lt
  simp [acceptRule, nonempty, fresh.acceptRule_eq]

/-- The construction that an automaton begins with: the initial state, which waits. -/
def seed (grammar : Grammar) (first : FirstSets) (kind : AutomatonKind) :
    Except (Failure Error) Construction := do
  let rule ← acceptRule grammar
  let items ← kind.close grammar first (initialKernel kind rule)
  Construction.create grammar ⟨[], [], []⟩ (initialKernel kind rule) items

theorem buildWithHistory_eq_ok {begun final : Construction}
    (begins : seed grammar first kind = .ok begun)
    (runs : begun.run kind grammar first (expansionBound grammar) = .ok final) :
    buildWithHistory grammar first kind = .ok (⟨kind, final.states⟩, final.history) := by
  obtain ⟨rule, accepts, closes⟩ := exists_of_bind_eq_ok begins
  obtain ⟨items, closed, creates⟩ := exists_of_bind_eq_ok closes
  rw [initialKernel] at closed creates
  simp only [buildWithHistory, accepts, closed, creates, runs, ok_bind, pure_eq_ok]

/-- The construction of an automaton begins with a sound state that waits to be expanded. -/
theorem exists_seed_eq_ok (fresh : grammar.HasFreshStart start accept target)
    (exact : FirstSets.Exact grammar first) (kind : AutomatonKind) :
    ∃ (state : State) (history : List Event),
      seed grammar first kind = .ok ⟨[state], [initial], history⟩ ∧
      Construction.IsSound kind grammar accept ⟨[state], [initial], history⟩ ∧
      state.kernel = initialKernel kind accept ∧ state.transitions = .empty := by
  have reached := @isReached_initialKernel kind grammar start accept target fresh
  obtain ⟨items, closed, closes⟩ :=
    AutomatonKind.exists_close_eq_ok fresh.bodies exact reached.within.hasRules reached.marked
  obtain ⟨state, history, created, sound, kernelEq, transitionsEq⟩ :=
    Construction.exists_create_eq_ok ⟨[], [], []⟩ reached closes
  have seeded : Construction.create grammar ⟨[], [], []⟩ (initialKernel kind accept) items =
      .ok ⟨[state], [initial], history⟩ := created
  refine ⟨state, history, ?_, ⟨?_, ?_, ?_, ?_, ?_⟩, kernelEq, transitionsEq⟩
  · simp only [seed, acceptRule_eq_ok fresh, closed, seeded, liftM_ok, ok_bind]
  · intro id other found
    rw [List.mem_singleton.mp (List.mem_of_getElem? found)]
    exact sound
  · intro id other _ _ found foundOther _
    have isFirst := (List.getElem?_eq_some_iff.mp found).1
    have isAlsoFirst := (List.getElem?_eq_some_iff.mp foundOther).1
    simp only [List.length_singleton, Nat.lt_one_iff] at isFirst isAlsoFirst
    rw [isFirst, isAlsoFirst]
  · intro id other symbol next found transition
    rw [List.mem_singleton.mp (List.mem_of_getElem? found), transitionsEq] at transition
    cases transition
  · intro id member
    rw [List.mem_singleton.mp member]
    exact Nat.one_pos
  · refine ⟨state, rfl, ?_, fun marked core terminal holds valid => ?_⟩
    · rw [kernelEq]
      exact ItemSet.isKernelFor_nil fresh fun core => holds_initialKernel
    · rw [kernelEq] at holds ⊢
      obtain rfl := holds_initialKernel.mp holds
      exact allows_initialKernel.mpr ⟨rfl, marked, (validLookahead_nil fresh).mp valid⟩

/-! ## The automaton -/

/-- All states are sound, differ from one another and are settled. -/
structure IsBuilt (kind : AutomatonKind) (grammar : Grammar) (accept : Nat)
    (automaton : Automaton) :
    Prop where
  isSound : Construction.IsSound kind grammar accept ⟨automaton.states, [], []⟩
  settled : ∀ id, Construction.Settled grammar ⟨automaton.states, [], []⟩ id

/-- The construction runs from its initial state until no state waits any more. -/
theorem exists_run_seed_eq_ok (fresh : grammar.HasFreshStart start accept target)
    (exact : FirstSets.Exact grammar first) (kind : AutomatonKind) :
    ∃ (state : State) (history : List Event) (final : Construction),
      seed grammar first kind = .ok ⟨[state], [initial], history⟩ ∧
      Construction.IsSound kind grammar accept ⟨[state], [initial], history⟩ ∧
      state.kernel = initialKernel kind accept ∧ state.transitions = .empty ∧
      Construction.run kind grammar first (expansionBound grammar)
        ⟨[state], [initial], history⟩ = .ok final ∧ final.queue = [] ∧
      buildWithHistory grammar first kind = .ok (⟨kind, final.states⟩, final.history) ∧
      IsBuilt kind grammar accept ⟨kind, final.states⟩ := by
  obtain ⟨state, history, begins, sound, kernelEq, transitionsEq⟩ :=
    exists_seed_eq_ok fresh exact kind
  have known : 0 < (Construction.knowledge kind ⟨[state], [initial], history⟩).ncard := by
    rw [Set.ncard_pos (AutomatonKind.finite_possible.subset
      (Construction.knowledge_subset_possible sound.states))]
    exact ⟨(kind.key state.kernel, none), state, by simp, by simp [AutomatonKind.knowledge]⟩
  have limited := @AutomatonKind.ncard_possible_le kind grammar
  obtain ⟨final, runs, finalSound, finalProgresses, empty⟩ :=
    Construction.exists_run_eq_ok fresh exact (expansionBound grammar) sound
      (Construction.progresses_seed state history) (by rw [List.length_singleton]; omega)
  refine ⟨state, history, final, begins, sound, kernelEq, transitionsEq, runs, empty,
    buildWithHistory_eq_ok begins runs, ⟨?_, fun id => ?_⟩⟩
  · refine ⟨finalSound.states, finalSound.distinct, finalSound.transitions,
      ?_, finalSound.initial⟩
    simp
  · intro other core symbol rest found holds expects
    have inRange := (List.getElem?_eq_some_iff.mp found).1
    rcases finalProgresses id inRange with waits | settled
    · rw [empty] at waits
      cases waits
    · exact settled other core symbol rest found holds expects

/-- Every construction succeeds. -/
theorem exists_buildWithHistory_eq_ok (fresh : grammar.HasFreshStart start accept target)
    (exact : FirstSets.Exact grammar first) (kind : AutomatonKind) :
    ∃ automaton history, buildWithHistory grammar first kind = .ok (automaton, history) ∧
      automaton.IsBuilt kind grammar accept := by
  obtain ⟨_, _, final, _, _, _, _, _, _, builds, built⟩ :=
    exists_run_seed_eq_ok fresh exact kind
  exact ⟨_, _, builds, built⟩

theorem exists_build_eq_ok (fresh : grammar.HasFreshStart start accept target)
    (exact : FirstSets.Exact grammar first) (kind : AutomatonKind) :
    ∃ automaton, build grammar first kind = .ok automaton ∧
      automaton.IsBuilt kind grammar accept := by
  obtain ⟨automaton, history, builds, built⟩ := exists_buildWithHistory_eq_ok fresh exact kind
  exact ⟨automaton, by simp [build, builds], built⟩

/-! ## Where strings lead to -/

/-- The string leads from the initial state to the given one. -/
inductive Reaches (automaton : Automaton) : List Symbol → Nat → Prop where
  | start : Reaches automaton [] initial
  | read {string : List Symbol} {id next : Nat} {state : State} {symbol : Symbol}
      (earlier : Reaches automaton string id) (found : automaton.states[id]? = some state)
      (transition : state.transitions.find? symbol = some next) :
      Reaches automaton (string ++ [symbol]) next

namespace IsBuilt

variable {automaton : Automaton} {string : List Symbol} {id : Nat} {state : State} {core : Core}
  {terminal : Nat}

theorem exists_state (built : automaton.IsBuilt kind grammar accept)
    (reaches : automaton.Reaches string id) : ∃ state, automaton.states[id]? = some state := by
  cases reaches with
  | start =>
      obtain ⟨state, found, _⟩ := built.isSound.initial
      exact ⟨state, found⟩
  | read earlier found transition =>
      obtain ⟨next, foundNext, _⟩ := built.isSound.transitions _ _ _ _ found transition
      exact ⟨next, foundNext⟩

/-- A state has a transition only on a symbol that it expects. -/
theorem exists_expects (built : automaton.IsBuilt kind grammar accept)
    (found : automaton.states[id]? = some state) {symbol : Symbol} {next : Nat}
    (transition : state.transitions.find? symbol = some next) :
    ∃ core rest, state.items.Holds core ∧ grammar.Expects core symbol rest := by
  obtain ⟨nextState, foundNext, leads⟩ :=
    built.isSound.transitions id state symbol next found transition
  obtain ⟨core, holds⟩ := (built.isSound.states next nextState foundNext).kernel.nonempty
  obtain ⟨earlier, rest, _, here, expects⟩ := (leads.holds core).mp holds
  exact ⟨earlier, rest, here, expects⟩

/-- The state that a string leads to has the kernel of the string. -/
theorem isKernelFor (fresh : grammar.HasFreshStart start accept target)
    (built : automaton.IsBuilt kind grammar accept) (reaches : automaton.Reaches string id)
    (found : automaton.states[id]? = some state) :
    state.kernel.IsKernelFor grammar accept string := by
  induction reaches generalizing state with
  | start =>
      obtain ⟨known, foundKnown, isKernel, _⟩ := built.isSound.initial
      obtain rfl := Option.some.inj (foundKnown.symm.trans found)
      exact isKernel
  | read earlier foundEarlier transition ih =>
      obtain ⟨known, foundKnown, leads⟩ :=
        built.isSound.transitions _ _ _ _ foundEarlier transition
      obtain rfl := Option.some.inj (foundKnown.symm.trans found)
      refine (ih foundEarlier).successor fresh fun core => ?_
      simp only [leads.holds, (built.isSound.states _ _ foundEarlier).closes.holds]

/-- The state that a string leads to holds exactly the cores that are valid for the string. -/
theorem holds_iff (fresh : grammar.HasFreshStart start accept target)
    (built : automaton.IsBuilt kind grammar accept) (reaches : automaton.Reaches string id)
    (found : automaton.states[id]? = some state) :
    state.items.Holds core ↔ ∃ after, grammar.ValidFor string core after := by
  rw [(built.isSound.states id state found).closes.holds]
  exact (built.isKernelFor fresh reaches found).inClosure_iff fresh

/-- What can come after a string is allowed by the kernel of the state that it leads to. -/
theorem admits (fresh : grammar.HasFreshStart start accept target)
    (built : automaton.IsBuilt kind grammar accept) (marked : kind.marked = true)
    (reaches : automaton.Reaches string id) (found : automaton.states[id]? = some state) :
    state.kernel.Admits grammar string := by
  induction reaches generalizing state with
  | start =>
      obtain ⟨known, foundKnown, _, admits⟩ := built.isSound.initial
      obtain rfl := Option.some.inj (foundKnown.symm.trans found)
      exact admits marked
  | @read string id next earlierState symbol earlier foundEarlier transition ih =>
      intro core terminal holds valid
      obtain ⟨known, foundKnown, leads⟩ :=
        built.isSound.transitions _ _ _ _ foundEarlier transition
      obtain rfl := Option.some.inj (foundKnown.symm.trans found)
      obtain ⟨before, rest, rfl, _, expects⟩ := (leads.holds core).mp holds
      obtain ⟨other, otherRest, same, validEarlier, _⟩ := valid.exists_earlier (Nat.succ_pos _)
      obtain rfl : before = other := by
        simp only [Core.advanced, Core.mk.injEq, Nat.add_right_cancel_iff] at same
        cases before
        cases other
        simpa using same
      have sound := built.isSound.states id earlierState foundEarlier
      have allows := (built.isKernelFor fresh earlier foundEarlier).closureAllows fresh
        (ih foundEarlier) validEarlier
      rw [← sound.closes.allows marked] at allows
      obtain ⟨reached, nextState, alsoTransition, foundNext, taken⟩ :=
        built.settled id _ before symbol rest foundEarlier allows.holds expects
      obtain rfl := Option.some.inj (transition.symm.trans alsoTransition)
      obtain rfl := Option.some.inj (foundNext.symm.trans found)
      exact taken terminal allows

/-- What can come after a valid core is allowed by the state that the string leads to. -/
theorem allows_of_validLookahead (fresh : grammar.HasFreshStart start accept target)
    (built : automaton.IsBuilt kind grammar accept) (marked : kind.marked = true)
    (reaches : automaton.Reaches string id) (found : automaton.states[id]? = some state)
    (valid : grammar.ValidLookahead string core terminal) : state.items.Allows core terminal := by
  rw [(built.isSound.states id state found).closes.allows marked]
  exact (built.isKernelFor fresh reaches found).closureAllows fresh
    (built.admits fresh marked reaches found) valid

/-- What a state allows can come after one of the strings with its kernel. -/
theorem exists_validLookahead (fresh : grammar.HasFreshStart start accept target)
    (built : automaton.IsBuilt kind grammar accept) (found : automaton.states[id]? = some state)
    (allows : state.items.Allows core terminal) :
    ∃ string, state.kernel.IsKernelFor grammar accept string ∧
      grammar.ValidLookahead string core terminal := by
  have sound := built.isSound.states id state found
  have marked : kind.marked = true := by
    obtain ⟨allowed, isFound, _⟩ := allows
    exact (sound.closes.marked core _ isFound).symm
  rw [sound.closes.allows marked] at allows
  exact @ItemSet.exists_validLookahead_of_closureAllows grammar start accept target state.kernel
    core terminal fresh
      {string | state.kernel.IsKernelFor grammar accept string} sound.kernel.origin
    (fun _ member => member) sound.kernel.sound allows

/-- What an item of a state allows is declared. -/
theorem declares_of_allows (fresh : grammar.HasFreshStart start accept target)
    (built : automaton.IsBuilt kind grammar accept) (found : automaton.states[id]? = some state)
    (allows : state.items.Allows core terminal) :
    grammar.Declares (.terminal terminal) := by
  obtain ⟨_, _, valid⟩ := built.exists_validLookahead fresh found allows
  exact valid.declares fresh.bodies

/-- Only viable prefixes lead to states. -/
theorem viablePrefix (fresh : grammar.HasFreshStart start accept target)
    (built : automaton.IsBuilt kind grammar accept) (reaches : automaton.Reaches string id) :
    grammar.ViablePrefix string := by
  obtain ⟨state, found⟩ := built.exists_state reaches
  obtain ⟨core, holds⟩ := (built.isSound.states id state found).kernel.nonempty
  obtain ⟨⟨after, valid⟩, _⟩ := (built.isKernelFor fresh reaches found core).mp holds
  exact ⟨core, after, valid⟩

/-- If a string stays viable with one more symbol, the state that it leads to has a transition on
that symbol. -/
theorem exists_transition (fresh : grammar.HasFreshStart start accept target)
    (built : automaton.IsBuilt kind grammar accept) (reaches : automaton.Reaches string id)
    (found : automaton.states[id]? = some state) {symbol : Symbol}
    (viable : grammar.ViablePrefix (string ++ [symbol])) :
    ∃ next, state.transitions.find? symbol = some next := by
  obtain ⟨core, after, rest, valid, expects⟩ := Grammar.viablePrefix_snoc.mp viable
  obtain ⟨next, _, transition, _⟩ := built.settled id state core symbol rest found
    ((built.holds_iff fresh reaches found).mpr ⟨after, valid⟩) expects
  exact ⟨next, transition⟩

/-- Every viable prefix leads to a state. -/
theorem exists_reaches (fresh : grammar.HasFreshStart start accept target)
    (built : automaton.IsBuilt kind grammar accept) (viable : grammar.ViablePrefix string) :
    ∃ id, automaton.Reaches string id := by
  induction string using List.reverseRecOn with
  | nil => exact ⟨initial, .start⟩
  | append_singleton string symbol ih =>
      obtain ⟨id, reaches⟩ := ih viable.of_append
      obtain ⟨state, found⟩ := built.exists_state reaches
      obtain ⟨next, transition⟩ := built.exists_transition fresh reaches found viable
      exact ⟨next, .read reaches found transition⟩

end IsBuilt

end Automaton

end DeterministicParsing
