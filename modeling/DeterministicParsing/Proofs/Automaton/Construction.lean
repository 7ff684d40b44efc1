/-
# One expansion

What happens to an automaton under construction when one of its states is expanded. The states that
are there evolve, and new ones are sound. Whoever takes in something waits in the queue. After an
expansion every symbol that the expanded state expects leads to a state that has taken in all that
arrived there.
-/
import DeterministicParsing.Proofs.Automaton.State
import DeterministicParsing.Proofs.Item.Merging

namespace DeterministicParsing

variable {kind : AutomatonKind} {grammar : Grammar} {first : FirstSets} {start accept target : Nat}

namespace Automaton.Construction

/-- All that the states of a construction know. -/
def knowledge (kind : AutomatonKind) (construction : Construction) :
    Set (Set (Core × Option Nat) × Option (Core × Nat)) :=
  {fact | ∃ state ∈ construction.states, fact ∈ kind.knowledge state.kernel}

/-- A construction whose states are sound, differ from one another and have transitions to where
their items lead. -/
structure IsSound (kind : AutomatonKind) (grammar : Grammar) (accept : Nat)
    (construction : Construction) : Prop where
  states : ∀ (id : Nat) (state : State), construction.states[id]? = some state →
    state.IsSound kind grammar accept
  distinct : ∀ (id other : Nat) (state otherState : State),
    construction.states[id]? = some state → construction.states[other]? = some otherState →
    kind.Same state.kernel otherState.kernel → id = other
  transitions : ∀ (id : Nat) (state : State) symbol target,
    construction.states[id]? = some state → state.transitions.find? symbol = some target →
      ∃ next, construction.states[target]? = some next ∧
        kind.Leads grammar state.items symbol next.kernel
  queue_lt : ∀ id ∈ construction.queue, id < construction.states.length
  initial : ∃ state, construction.states[initial]? = some state ∧
    state.kernel.IsKernelFor grammar accept [] ∧
    (kind.marked = true → state.kernel.Admits grammar [])

/-- The states of a construction evolve, and new ones may be made. A state whose items have changed
waits in the queue, as a new one does, and for every place in the queue something has been
learned. -/
structure Evolves (kind : AutomatonKind) (earlier later : Construction) : Prop where
  states : ∀ (id : Nat) (state : State), earlier.states[id]? = some state → ∃ evolved,
    later.states[id]? = some evolved ∧ state.Evolves kind evolved ∧
      (evolved.items ≠ state.items → id ∈ later.queue)
  waiting : ∀ id < later.states.length, id ∈ later.queue ∨ id < earlier.states.length
  queue_subset : earlier.queue ⊆ later.queue
  learned : later.queue.length + (earlier.knowledge kind).ncard ≤
    earlier.queue.length + (later.knowledge kind).ncard

namespace Evolves

theorem refl (construction : Construction) : construction.Evolves kind construction :=
  ⟨fun _ state found => ⟨state, found, .refl state, fun changed => absurd rfl changed⟩,
    fun _ => .inr, List.Subset.refl _, Nat.le_refl _⟩

theorem trans {construction second third : Construction}
    (earlier : construction.Evolves kind second) (later : second.Evolves kind third) :
    construction.Evolves kind third where
  states id state found := by
    obtain ⟨middle, foundMiddle, evolves, waits⟩ := earlier.states id state found
    obtain ⟨last, foundLast, evolvesOn, waitsOn⟩ := later.states id middle foundMiddle
    refine ⟨last, foundLast, evolves.trans evolvesOn, fun changed => ?_⟩
    by_cases same : last.items = middle.items
    · rw [same] at changed
      exact later.queue_subset (waits changed)
    · exact waitsOn same
  waiting id inRange := by
    rcases later.waiting id inRange with waits | old
    · exact .inl waits
    · rcases earlier.waiting id old with waits | older
      · exact .inl (later.queue_subset waits)
      · exact .inr older
  queue_subset := List.Subset.trans earlier.queue_subset later.queue_subset
  learned := by
    have first := earlier.learned
    have second := later.learned
    omega

/-- A transition that has been recorded stays where it leads. -/
theorem leads {construction later : Construction} (evolves : construction.Evolves kind later)
    (sound : construction.IsSound kind grammar accept) {id target : Nat} {state evolved : State}
    {symbol : Symbol} (found : construction.states[id]? = some state)
    (foundEvolved : later.states[id]? = some evolved)
    (transition : state.transitions.find? symbol = some target) :
    ∃ next, later.states[target]? = some next ∧
      kind.Leads grammar evolved.items symbol next.kernel := by
  obtain ⟨next, foundNext, leads⟩ := sound.transitions id state symbol target found transition
  obtain ⟨known, foundKnown, stateEvolves, _⟩ := evolves.states id state found
  obtain rfl : known = evolved := Option.some.inj (foundKnown.symm.trans foundEvolved)
  obtain ⟨laterNext, foundLater, nextEvolves, _⟩ := evolves.states target next foundNext
  exact ⟨laterNext, foundLater, stateEvolves.leads nextEvolves leads⟩

theorem initial {construction later : Construction} (evolves : construction.Evolves kind later)
    (sound : construction.IsSound kind grammar accept) :
    ∃ state, later.states[Automaton.initial]? = some state ∧
      state.kernel.IsKernelFor grammar accept [] ∧
      (kind.marked = true → state.kernel.Admits grammar []) := by
  obtain ⟨state, found, isKernel, admits⟩ := sound.initial
  obtain ⟨evolved, foundEvolved, stateEvolves, _⟩ := evolves.states _ state found
  refine ⟨evolved, foundEvolved, isKernel.of_holds_iff fun core => ?_, fun marked => ?_⟩
  · rw [stateEvolves.kernel_holds core]
  · intro core terminal holds valid
    rw [stateEvolves.kernel_holds core] at holds
    exact stateEvolves.kernel_allows core terminal (admits marked core terminal holds valid)

theorem knowledge_subset {construction later : Construction}
    (states : ∀ (id : Nat) (state : State), construction.states[id]? = some state → ∃ evolved,
      later.states[id]? = some evolved ∧ state.Evolves kind evolved) :
    construction.knowledge kind ⊆ later.knowledge kind := by
  rintro fact ⟨state, member, known⟩
  obtain ⟨id, found⟩ := List.getElem?_of_mem member
  obtain ⟨evolved, foundEvolved, evolves⟩ := states id state found
  exact ⟨evolved, List.mem_of_getElem? foundEvolved,
    AutomatonKind.knowledge_subset_of_evolves evolves known⟩

end Evolves

/-! ## A kernel arrives -/

/-- What can happen when a kernel arrives: a state is made for it, or its state is known, or its
state takes it in. -/
inductive Arrival (kind : AutomatonKind) (grammar : Grammar) (accept : Nat)
    (construction : Construction) (kernel : ItemSet) : Nat → Construction → Prop where
  | created {state : State} {history : List Event}
      (unknown : ∀ known ∈ construction.states, ¬ kind.Same known.kernel kernel)
      (sound : state.IsSound kind grammar accept) (kernel_eq : state.kernel = kernel)
      (transitions_eq : state.transitions = .empty) :
      Arrival kind grammar accept construction kernel construction.states.length
        ⟨construction.states ++ [state],
          construction.queue ++ [construction.states.length], history⟩
  | known {id : Nat} {state : State} (exact : kind ≠ .lalr1)
      (found : construction.states[id]? = some state) (kernel_eq : state.kernel = kernel) :
      Arrival kind grammar accept construction kernel id construction
  | absorbed {id : Nat} {state grown : State} {queue : List Nat} {history : List Event}
      (merged : kind = .lalr1) (found : construction.states[id]? = some state)
      (same : ∀ core, state.kernel.Holds core ↔ kernel.Holds core)
      (sound : grown.IsSound kind grammar accept)
      (kernel_eq : grown.kernel = state.kernel.merge kernel)
      (transitions_eq : grown.transitions = state.transitions)
      (waits : grown.items ≠ state.items → id ∈ queue)
      (queue_eq : queue = construction.queue ∨
        (queue = construction.queue ++ [id] ∧ id ∉ construction.queue ∧
          grown.kernel ≠ state.kernel)) :
      Arrival kind grammar accept construction kernel id
        ⟨construction.states.set id grown, queue, history⟩

theorem exists_create_eq_ok (construction : Construction) {kernel items : ItemSet}
    (reached : kernel.IsReached kind grammar accept) (closes : kind.Closes grammar kernel items) :
    ∃ (state : State) (history : List Event), construction.create grammar kernel items =
        .ok ⟨construction.states ++ [state], construction.queue ++ [construction.states.length],
          history⟩ ∧
      state.IsSound kind grammar accept ∧ state.kernel = kernel ∧
      state.transitions = .empty := by
  obtain ⟨isFinal, found, isFinalIff⟩ :=
    ItemSet.exists_hasComplete_eq_ok (closes.within reached.within).hasRules
  refine ⟨⟨kernel, items, .empty, isFinal⟩,
    construction.history ++ [.created construction.states.length items], ?_,
    ⟨reached, closes, isFinalIff⟩, rfl, rfl⟩
  rw [create, found]
  rfl

/-- A state that takes in a kernel with its own cores, and the closure of that kernel, stays
sound. -/
theorem isSound_grown {state : State} {kernel items : ItemSet}
    (sound : state.IsSound kind grammar accept) (reached : kernel.IsReached kind grammar accept)
    (closes : kind.Closes grammar kernel items)
    (same : ∀ core, state.kernel.Holds core ↔ kernel.Holds core) :
    State.IsSound kind grammar accept
      { state with kernel := state.kernel.merge kernel, items := state.items.merge items } := by
  refine ⟨sound.kernel.merge reached same, sound.closes.merge closes, ?_⟩
  have sameItems (core : Core) : (state.items.merge items).Holds core ↔
      state.items.Holds core := by
    rw [ItemSet.holds_merge, sound.closes.holds, closes.holds, or_iff_left_iff_imp]
    exact ItemSet.InClosure.of_holds fun core holds => (same core).mpr holds
  simp only [sameItems, sound.isFinal_iff]

/-- Because the merges report rightly, a state that takes something in waits again exactly if it has
changed and does not wait already. -/
theorem absorb_eq (construction : Construction) (id : Nat) (state : State)
    (kernel items : ItemSet) :
    construction.absorb id state kernel items =
      let grown :=
        { state with kernel := state.kernel.merge kernel, items := state.items.merge items }
      let updated := { construction with states := construction.states.set id grown }
      if grown = state ∨ id ∈ construction.queue then updated
      else
        { updated with queue := updated.queue ++ [id], history :=
          updated.history ++ [.grew id] } := by
  have unchanged : { state with
      kernel := state.kernel.merge kernel, items := state.items.merge items } = state ↔
      state.kernel.merge kernel = state.kernel ∧ state.items.merge items = state.items := by
    cases state
    simp
  simp only [absorb, ItemSet.mergeReporting_eq, unchanged]
  by_cases sameKernel : state.kernel.merge kernel = state.kernel <;>
    by_cases sameItems : state.items.merge items = state.items <;>
    by_cases waits : id ∈ construction.queue <;>
    simp [sameKernel, sameItems, waits]

theorem absorb_arrival {construction : Construction} {id : Nat} {state : State}
    {kernel items : ItemSet} (merged : kind = .lalr1)
    (found : construction.states[id]? = some state) (sound : state.IsSound kind grammar accept)
    (reached : kernel.IsReached kind grammar accept) (closes : kind.Closes grammar kernel items)
    (same : ∀ core, state.kernel.Holds core ↔ kernel.Holds core) :
    Arrival kind grammar accept construction kernel id
      (construction.absorb id state kernel items) := by
  have grownSound := isSound_grown sound reached closes same
  rw [absorb_eq]
  dsimp only
  split
  · rename_i quiet
    refine .absorbed merged found same grownSound rfl rfl (fun changed => ?_) (.inl rfl)
    rcases quiet with unchanged | waits
    · exact absurd (congrArg State.items unchanged) changed
    · exact waits
  · rename_i news
    obtain ⟨changed, absent⟩ := not_or.mp news
    refine .absorbed merged found same grownSound rfl rfl (fun _ => by simp)
      (.inr ⟨rfl, absent, fun sameKernel => changed ?_⟩)
    -- The closure is determined by the kernel, so a state changes only if its kernel does.
    have grownCloses := grownSound.closes
    simp only at sameKernel grownCloses
    rw [sameKernel] at grownCloses ⊢
    rw [grownCloses.unique sound.closes]

/-- When a reached kernel arrives, one of these things does happen. -/
theorem exists_arrive_eq_ok (bodies : grammar.BodiesDeclared)
    (exact : FirstSets.Exact grammar first) {construction : Construction}
    (sound : construction.IsSound kind grammar accept) {kernel : ItemSet}
    (reached : kernel.IsReached kind grammar accept) :
    ∃ target arrived, construction.arrive kind grammar first kernel = .ok (target, arrived) ∧
      Arrival kind grammar accept construction kernel target arrived := by
  obtain ⟨items, closed, closes⟩ :=
    AutomatonKind.exists_close_eq_ok bodies exact reached.within.hasRules reached.marked
  cases search : construction.states.findIdx? (kind.identifies ·.kernel kernel) with
  | none =>
      obtain ⟨state, history, created, stateSound, kernelEq, transitionsEq⟩ :=
        exists_create_eq_ok construction reached closes
      have unknown (known : State) (member : known ∈ construction.states) :
          ¬ kind.Same known.kernel kernel := by
        obtain ⟨id, found⟩ := List.getElem?_of_mem member
        rw [← AutomatonKind.identifies_eq_true (sound.states id known found).kernel.marked
          reached.marked, Bool.not_eq_true]
        exact List.findIdx?_eq_none_iff.mp search known member
      have arrival := @Arrival.created kind grammar accept construction kernel state history unknown
        stateSound kernelEq transitionsEq
      exact ⟨_, _, by simp [arrive, search, closed, created], arrival⟩
  | some id =>
      obtain ⟨inRange, identified, _⟩ := List.findIdx?_eq_some_iff_getElem.mp search
      have found := List.getElem?_eq_getElem inRange
      have stateSound := sound.states id _ found
      have same := (AutomatonKind.identifies_eq_true stateSound.kernel.marked reached.marked).mp
        identified
      by_cases merged : kind = .lalr1
      · refine ⟨id, _, ?_, absorb_arrival merged found stateSound reached closes same.1⟩
        subst merged
        simp [arrive, search, found, closed]
      · have sameKernel := same.eq merged stateSound.kernel.marked reached.marked
        refine ⟨id, construction, ?_, .known merged found sameKernel⟩
        cases kind with
        | lr0 => simp [arrive, search]
        | lr1 => simp [arrive, search]
        | lalr1 => exact absurd rfl merged

theorem knowledge_subset_possible {construction : Construction}
    (states : ∀ (id : Nat) (state : State), construction.states[id]? = some state →
      state.IsSound kind grammar accept) :
    construction.knowledge kind ⊆ kind.possible grammar := by
  rintro fact ⟨state, member, known⟩
  obtain ⟨id, found⟩ := List.getElem?_of_mem member
  exact AutomatonKind.knowledge_subset_possible (states id state found).kernel known

namespace Arrival

variable {construction arrived : Construction} {kernel : ItemSet} {id : Nat}

theorem states_isSound (arrival : Arrival kind grammar accept construction kernel id arrived)
    (sound : construction.IsSound kind grammar accept) (other : Nat) (state : State)
    (found : arrived.states[other]? = some state) : state.IsSound kind grammar accept := by
  cases arrival with
  | created _ newSound _ _ =>
      rcases List.mem_append.mp (List.mem_of_getElem? found) with old | new
      · obtain ⟨index, foundOld⟩ := List.getElem?_of_mem old
        exact sound.states index state foundOld
      · rw [List.mem_singleton.mp new]
        exact newSound
  | known _ _ _ => exact sound.states other state found
  | absorbed _ _ _ grownSound _ _ _ _ =>
      rcases List.mem_or_eq_of_mem_set (List.mem_of_getElem? found) with old | rfl
      · obtain ⟨index, foundOld⟩ := List.getElem?_of_mem old
        exact sound.states index state foundOld
      · exact grownSound

theorem evolves_grown {state grown : State} (merged : kind = .lalr1)
    (sound : state.IsSound kind grammar accept) (grownSound : grown.IsSound kind grammar accept)
    (same : ∀ core, state.kernel.Holds core ↔ kernel.Holds core)
    (kernelEq : grown.kernel = state.kernel.merge kernel)
    (transitionsEq : grown.transitions = state.transitions) : state.Evolves kind grown := by
  have kernelHolds (core : Core) : grown.kernel.Holds core ↔ state.kernel.Holds core := by
    rw [kernelEq, ItemSet.holds_merge, ← same core, or_self]
  refine ⟨kernelHolds, fun core => ?_, fun core terminal allows => ?_,
    fun symbol target found => ?_, fun exact => absurd merged exact⟩
  · rw [sound.closes.holds, grownSound.closes.holds]
    exact ⟨ItemSet.InClosure.of_holds fun core => (kernelHolds core).mp,
      ItemSet.InClosure.of_holds fun core => (kernelHolds core).mpr⟩
  · rw [kernelEq]
    exact ItemSet.allows_merge.mpr (.inl allows)
  · rw [transitionsEq]
    exact found

/-- The states that are there when a kernel arrives evolve. -/
theorem states_evolve (arrival : Arrival kind grammar accept construction kernel id arrived)
    (sound : construction.IsSound kind grammar accept) (other : Nat) (state : State)
    (found : construction.states[other]? = some state) :
    ∃ evolved, arrived.states[other]? = some evolved ∧ state.Evolves kind evolved ∧
      (evolved.items ≠ state.items → other ∈ arrived.queue) := by
  have unchanged : ∀ (items : ItemSet) (queue : List Nat), items ≠ items → other ∈ queue :=
    fun items queue changed => absurd rfl changed
  cases arrival with
  | created _ _ _ _ =>
      refine ⟨state, ?_, .refl state, unchanged _ _⟩
      rw [List.getElem?_append_left (List.getElem?_eq_some_iff.mp found).1]
      exact found
  | known _ _ _ => exact ⟨state, found, .refl state, unchanged _ _⟩
  | absorbed merged foundState same grownSound kernelEq transitionsEq waits _ =>
      by_cases here : id = other
      · subst here
        obtain rfl := Option.some.inj (found.symm.trans foundState)
        refine ⟨_, ?_, evolves_grown merged (sound.states id state found) grownSound same kernelEq
          transitionsEq, waits⟩
        rw [List.getElem?_set_self (List.getElem?_eq_some_iff.mp found).1]
      · refine ⟨state, ?_, .refl state, unchanged _ _⟩
        rw [List.getElem?_set_ne here]
        exact found

/-- A new state, or a state whose kernel has changed, knows something that no state has known. -/
theorem knowledge_grows (arrival : Arrival kind grammar accept construction kernel id arrived)
    (sound : construction.IsSound kind grammar accept)
    (longer : arrived.queue ≠ construction.queue) :
    construction.knowledge kind ⊆ arrived.knowledge kind ∧
      ¬ arrived.knowledge kind ⊆ construction.knowledge kind := by
  refine ⟨Evolves.knowledge_subset fun other state found => ?_, fun less => ?_⟩
  · obtain ⟨evolved, foundEvolved, evolves, _⟩ := arrival.states_evolve sound other state found
    exact ⟨evolved, foundEvolved, evolves⟩
  cases arrival with
  | @created state _ unknown _ kernelEq _ =>
      have known : (kind.key kernel, none) ∈ construction.knowledge kind := by
        refine less ⟨state, by simp, ?_⟩
        simp [AutomatonKind.knowledge, kernelEq]
      obtain ⟨other, member, sameKey, _⟩ := known
      exact unknown other member (AutomatonKind.same_of_key_eq sameKey.symm)
  | known _ _ _ => exact longer rfl
  | @absorbed _ state grown _ _ merged found same grownSound kernelEq transitionsEq _ queueEq =>
      have stateSound := sound.states id state found
      have evolves := evolves_grown merged stateSound grownSound same kernelEq transitionsEq
      obtain ⟨_, _, changed⟩ := queueEq.resolve_left longer
      obtain ⟨core, terminal, allows, news⟩ : ∃ core terminal,
          grown.kernel.Allows core terminal ∧ ¬ state.kernel.Allows core terminal := by
        by_contra nothing
        simp only [not_exists, not_and, not_not] at nothing
        refine changed (ItemSet.ext_of_marked grownSound.kernel.marked stateSound.kernel.marked
          evolves.kernel_holds fun core terminal => ⟨nothing core terminal, ?_⟩)
        exact evolves.kernel_allows core terminal
      have known : (kind.key grown.kernel, some (core, terminal)) ∈
          construction.knowledge kind := by
        refine less ⟨grown, List.mem_set (List.getElem?_eq_some_iff.mp found).1 grown, rfl, ?_⟩
        rintro _ _ ⟨⟩
        exact ⟨merged, allows⟩
      obtain ⟨other, member, sameKey, otherAllows⟩ := known
      obtain ⟨index, foundOther⟩ := List.getElem?_of_mem member
      rw [AutomatonKind.key_eq_of_evolves evolves] at sameKey
      obtain rfl := sound.distinct id index state other found foundOther
        (AutomatonKind.same_of_key_eq sameKey)
      obtain rfl := Option.some.inj (found.symm.trans foundOther)
      exact news (otherAllows core terminal rfl).2

/-- The queue stays as it is, or one state is put at its end. -/
theorem queue_cases (arrival : Arrival kind grammar accept construction kernel id arrived) :
    arrived.queue = construction.queue ∨ arrived.queue = construction.queue ++ [id] := by
  cases arrival with
  | created _ _ _ _ => exact .inr rfl
  | known _ _ _ => exact .inl rfl
  | absorbed _ _ _ _ _ _ _ queueEq =>
      rcases queueEq with same | ⟨longer, _⟩
      · exact .inl same
      · exact .inr longer

theorem evolves (arrival : Arrival kind grammar accept construction kernel id arrived)
    (sound : construction.IsSound kind grammar accept) : construction.Evolves kind arrived := by
  have states := arrival.states_evolve sound
  have finite : (arrived.knowledge kind).Finite :=
    AutomatonKind.finite_possible.subset (knowledge_subset_possible (arrival.states_isSound sound))
  refine ⟨states, fun other inRange => ?_, ?_, ?_⟩
  · cases arrival with
    | created _ _ _ _ =>
        rw [List.length_append, List.length_singleton, Nat.lt_succ_iff_lt_or_eq] at inRange
        rcases inRange with old | rfl
        · exact .inr old
        · exact .inl (by simp)
    | known _ _ _ => exact .inr inRange
    | absorbed _ _ _ _ _ _ _ _ => exact .inr (by simpa using inRange)
  · rcases arrival.queue_cases with same | longer
    · rw [same]
      exact List.Subset.refl _
    · rw [longer]
      exact List.subset_append_left _ _
  · rcases arrival.queue_cases with same | longer
    · rw [same]
      refine Nat.add_le_add_left (Set.ncard_le_ncard ?_ finite) _
      refine Evolves.knowledge_subset fun other state found => ?_
      obtain ⟨evolved, foundEvolved, evolves, _⟩ := states other state found
      exact ⟨evolved, foundEvolved, evolves⟩
    · have different : arrived.queue ≠ construction.queue := by
        rw [longer]
        simp
      have more := Set.ncard_lt_ncard (arrival.knowledge_grows sound different) finite
      rw [longer, List.length_append, List.length_singleton]
      omega

/-- The state where a kernel arrives has the same kernel, and has taken in what arrived. -/
theorem exists_target (arrival : Arrival kind grammar accept construction kernel id arrived) :
    ∃ next, arrived.states[id]? = some next ∧ kind.Same next.kernel kernel ∧
      ∀ core terminal, kernel.Allows core terminal → next.kernel.Allows core terminal := by
  cases arrival with
  | @created state _ _ _ kernelEq _ =>
      subst kernelEq
      exact ⟨state, by simp, .refl _, fun _ _ allows => allows⟩
  | known _ found kernelEq =>
      subst kernelEq
      exact ⟨_, found, .refl _, fun _ _ allows => allows⟩
  | @absorbed _ state grown _ _ merged found same _ kernelEq _ _ _ =>
      refine ⟨grown, List.getElem?_set_self (List.getElem?_eq_some_iff.mp found).1,
        ⟨?_, ?_⟩, ?_⟩
      · intro core
        rw [kernelEq, ItemSet.holds_merge, same core, or_self]
      · exact fun exact => absurd merged exact
      · intro core terminal allows
        rw [kernelEq]
        exact ItemSet.allows_merge.mpr (.inr allows)

/-- A state that is there after a kernel has arrived was there before, with the same transitions, or
it is new and has none. -/
theorem exists_earlier (arrival : Arrival kind grammar accept construction kernel id arrived)
    {other : Nat} {state : State} (found : arrived.states[other]? = some state) :
    (∃ earlier, construction.states[other]? = some earlier ∧
        state.transitions = earlier.transitions) ∨
      (other = construction.states.length ∧ state.kernel = kernel ∧
        state.transitions = .empty ∧ ∀ known ∈ construction.states,
          ¬ kind.Same known.kernel kernel) := by
  cases arrival with
  | created unknown _ kernelEq transitionsEq =>
      rcases Nat.lt_or_ge other construction.states.length with old | new
      · rw [List.getElem?_append_left old] at found
        exact .inl ⟨state, found, rfl⟩
      · have inRange := (List.getElem?_eq_some_iff.mp found).1
        rw [List.length_append, List.length_singleton] at inRange
        obtain rfl : other = construction.states.length := by omega
        rw [List.getElem?_concat_length, Option.some.injEq] at found
        subst found
        exact .inr ⟨rfl, kernelEq, transitionsEq, unknown⟩
  | known _ _ _ => exact .inl ⟨state, found, rfl⟩
  | @absorbed _ earlier grown _ _ _ foundEarlier _ _ _ transitionsEq _ _ =>
      by_cases here : id = other
      · subst here
        rw [List.getElem?_set_self (List.getElem?_eq_some_iff.mp foundEarlier).1,
          Option.some.injEq] at found
        subst found
        exact .inl ⟨earlier, foundEarlier, transitionsEq⟩
      · rw [List.getElem?_set_ne here] at found
        exact .inl ⟨state, found, rfl⟩

theorem isSound (arrival : Arrival kind grammar accept construction kernel id arrived)
    (sound : construction.IsSound kind grammar accept) : arrived.IsSound kind grammar accept := by
  have evolves := arrival.evolves sound
  have sameAsEarlier {other : Nat} {state earlier : State}
      (found : arrived.states[other]? = some state)
      (foundEarlier : construction.states[other]? = some earlier) :
      kind.Same earlier.kernel state.kernel := by
    obtain ⟨evolved, foundEvolved, stateEvolves, _⟩ := evolves.states other earlier foundEarlier
    obtain rfl := Option.some.inj (found.symm.trans foundEvolved)
    exact stateEvolves.same
  refine ⟨arrival.states_isSound sound, ?_, ?_, ?_, evolves.initial sound⟩
  · intro one other state otherState found foundOther same
    rcases arrival.exists_earlier found with ⟨earlier, foundEarlier, _⟩ |
      ⟨isNew, kernelEq, _, new⟩
    · have sameOne := sameAsEarlier found foundEarlier
      rcases arrival.exists_earlier foundOther with ⟨second, foundSecond, _⟩ |
        ⟨_, secondEq, _, new⟩
      · have sameOther := sameAsEarlier foundOther foundSecond
        exact sound.distinct one other earlier second foundEarlier foundSecond
          ((sameOne.trans same).trans sameOther.symm)
      · refine absurd ?_ (new earlier (List.mem_of_getElem? foundEarlier))
        rw [← secondEq]
        exact sameOne.trans same
    · rcases arrival.exists_earlier foundOther with ⟨second, foundSecond, _⟩ |
        ⟨isOtherNew, _⟩
      · refine absurd ?_ (new second (List.mem_of_getElem? foundSecond))
        rw [← kernelEq]
        exact (sameAsEarlier foundOther foundSecond).trans same.symm
      · rw [isNew, isOtherNew]
  · intro other state symbol target found transition
    rcases arrival.exists_earlier found with ⟨earlier, foundEarlier, same⟩ | ⟨_, _, none, _⟩
    · rw [same] at transition
      exact evolves.leads sound foundEarlier found transition
    · rw [none] at transition
      cases transition
  · intro other member
    have more : construction.states.length ≤ arrived.states.length := by
      cases arrival <;> simp
    obtain ⟨next, foundNext, _⟩ := arrival.exists_target
    rcases arrival.queue_cases with same | longer
    · rw [same] at member
      exact Nat.lt_of_lt_of_le (sound.queue_lt other member) more
    · rw [longer, List.mem_append, List.mem_singleton] at member
      rcases member with old | rfl
      · exact Nat.lt_of_lt_of_le (sound.queue_lt other old) more
      · exact (List.getElem?_eq_some_iff.mp foundNext).1

end Arrival

end Automaton.Construction

/-! ## Recording a transition -/

/-- The state with one more transition. -/
def State.connected (state : State) (symbol : Symbol) (target : Nat) : State :=
  { state with transitions := state.transitions.insert symbol target }

theorem State.connected_eq_self {state : State} {symbol : Symbol} {target : Nat}
    (transition : state.transitions.find? symbol = some target) :
    state.connected symbol target = state := by
  have same : state.transitions.insert symbol target = state.transitions := by
    apply AscendingMap.ext_find?
    intro other
    rw [AscendingMap.find?_insert]
    by_cases here : other = symbol
    · rw [if_pos here, here, transition]
    · rw [if_neg here]
  rw [connected, same]

namespace Automaton.Construction

variable {construction : Construction} {id next : Nat} {state nextState : State} {symbol : Symbol}

/-- The construction with one more transition. -/
def connected (construction : Construction) (id : Nat) (state : State) (symbol : Symbol)
    (next : Nat) : Construction :=
  { construction with states := construction.states.set id (state.connected symbol next) }

/-- A transition to where the items lead agrees with one that is there. -/
theorem connect_eq_ok (sound : construction.IsSound kind grammar accept)
    (found : construction.states[id]? = some state)
    (foundNext : construction.states[next]? = some nextState)
    (leads : kind.Leads grammar state.items symbol nextState.kernel) :
    construction.connect grammar id symbol next =
      .ok (construction.connected id state symbol next) := by
  cases transition : state.transitions.find? symbol with
  | none => simp [connect, found, transition, connected, State.connected]
  | some existing =>
      obtain ⟨other, foundOther, otherLeads⟩ :=
        sound.transitions id state symbol existing found transition
      obtain rfl := sound.distinct existing next other nextState foundOther foundNext
        (otherLeads.same leads)
      have unchanged : construction.states.set id state = construction.states := by
        obtain ⟨inRange, rfl⟩ := List.getElem?_eq_some_iff.mp found
        exact List.set_getElem_self inRange
      simp [connect, found, transition, connected, State.connected_eq_self transition, unchanged]

theorem getElem?_connected (found : construction.states[id]? = some state) (other : Nat) :
    (construction.connected id state symbol next).states[other]? =
      if id = other then some (state.connected symbol next) else construction.states[other]? := by
  rw [connected, List.getElem?_set]
  have inRange := (List.getElem?_eq_some_iff.mp found).1
  by_cases here : id = other
  · rw [if_pos here, if_pos here, if_pos (here ▸ inRange)]
  · rw [if_neg here, if_neg here]

theorem evolves_connected (sound : construction.IsSound kind grammar accept)
    (found : construction.states[id]? = some state)
    (foundNext : construction.states[next]? = some nextState)
    (leads : kind.Leads grammar state.items symbol nextState.kernel) :
    construction.Evolves kind (construction.connected id state symbol next) := by
  have stateEvolves : state.Evolves kind (state.connected symbol next) := by
    refine ⟨fun _ => Iff.rfl, fun _ => Iff.rfl, fun _ _ allows => allows, ?_,
      fun _ => ⟨rfl, rfl⟩⟩
    intro other existing transition
    rw [State.connected, AscendingMap.find?_insert]
    by_cases same : other = symbol
    · subst same
      obtain ⟨known, foundKnown, knownLeads⟩ :=
        sound.transitions id state other existing found transition
      rw [if_pos rfl, sound.distinct existing next known nextState foundKnown foundNext
        (knownLeads.same leads)]
    · rw [if_neg same]
      exact transition
  have states (other : Nat) (known : State)
    (foundKnown : construction.states[other]? = some known) :
      ∃ evolved, (construction.connected id state symbol next).states[other]? = some evolved ∧
        known.Evolves kind evolved ∧ evolved.items = known.items := by
    rw [getElem?_connected found]
    by_cases here : id = other
    · subst here
      obtain rfl := Option.some.inj (found.symm.trans foundKnown)
      exact ⟨_, if_pos rfl, stateEvolves, rfl⟩
    · exact ⟨known, by rw [if_neg here, foundKnown], .refl known, rfl⟩
  have sameKnowledge : construction.knowledge kind =
      (construction.connected id state symbol next).knowledge kind := by
    apply Set.Subset.antisymm
    · refine Evolves.knowledge_subset fun other known foundKnown => ?_
      obtain ⟨evolved, foundEvolved, evolves, _⟩ := states other known foundKnown
      exact ⟨evolved, foundEvolved, evolves⟩
    · rintro fact ⟨known, member, isKnown⟩
      rcases List.mem_or_eq_of_mem_set member with old | rfl
      · exact ⟨known, old, isKnown⟩
      · exact ⟨state, List.mem_of_getElem? found, isKnown⟩
  refine ⟨fun other known foundKnown => ?_, fun other inRange => .inr ?_,
    List.Subset.refl _, ?_⟩
  · obtain ⟨evolved, foundEvolved, evolves, sameItems⟩ := states other known foundKnown
    exact ⟨evolved, foundEvolved, evolves, fun changed => absurd sameItems changed⟩
  · simpa [connected] using inRange
  · rw [← sameKnowledge]
    exact Nat.le_refl _

theorem isSound_connected (sound : construction.IsSound kind grammar accept)
    (found : construction.states[id]? = some state)
    (foundNext : construction.states[next]? = some nextState)
    (leads : kind.Leads grammar state.items symbol nextState.kernel) :
    (construction.connected id state symbol next).IsSound kind grammar accept := by
  have evolves := evolves_connected sound found foundNext leads
  -- Every state has a counterpart from before that differs in its transitions only.
  have earlier {other : Nat} {later : State}
      (foundLater : (construction.connected id state symbol next).states[other]? = some later) :
      ∃ known, construction.states[other]? = some known ∧ later.kernel = known.kernel ∧
        later.items = known.items ∧ later.isFinal = known.isFinal ∧
        (later = known ∨ (other = id ∧ later = state.connected symbol next)) := by
    rw [getElem?_connected found] at foundLater
    by_cases here : id = other
    · subst here
      rw [if_pos rfl, Option.some.injEq] at foundLater
      subst foundLater
      exact ⟨state, found, rfl, rfl, rfl, .inr ⟨rfl, rfl⟩⟩
    · rw [if_neg here] at foundLater
      exact ⟨later, foundLater, rfl, rfl, rfl, .inl rfl⟩
  refine ⟨?_, ?_, ?_, ?_, evolves.initial sound⟩
  · intro other later foundLater
    obtain ⟨known, foundKnown, kernelEq, itemsEq, finalEq, _⟩ := earlier foundLater
    obtain ⟨kernelReached, closes, isFinalIff⟩ := sound.states other known foundKnown
    refine ⟨kernelEq ▸ kernelReached, ?_, ?_⟩
    · rw [kernelEq, itemsEq]
      exact closes
    · rw [finalEq, itemsEq]
      exact isFinalIff
  · intro one other first second foundFirst foundSecond same
    obtain ⟨known, foundKnown, kernelEq, _⟩ := earlier foundFirst
    obtain ⟨otherKnown, foundOther, otherEq, _⟩ := earlier foundSecond
    rw [kernelEq, otherEq] at same
    exact sound.distinct one other known otherKnown foundKnown foundOther same
  · intro other later read target foundLater transition
    obtain ⟨known, foundKnown, _, itemsEq, _, cases⟩ := earlier foundLater
    rcases cases with rfl | ⟨rfl, rfl⟩
    · exact evolves.leads sound foundKnown foundLater transition
    · rw [State.connected, AscendingMap.find?_insert] at transition
      by_cases here : read = symbol
      · subst here
        rw [if_pos rfl, Option.some.injEq] at transition
        subst transition
        obtain ⟨evolved, foundEvolved, nextEvolves, _⟩ :=
          evolves.states next nextState foundNext
        exact ⟨evolved, foundEvolved, leads.of_same nextEvolves.same⟩
      · rw [if_neg here] at transition
        exact evolves.leads sound found foundLater transition
  · intro other member
    have inRange := sound.queue_lt other member
    simpa [connected] using inRange

/-! ## Expanding a state -/

/-- The state has a transition on the symbol, and what arrives there has been taken in. -/
def HasFollowed (construction : Construction) (id : Nat) (successor : Symbol × ItemSet) : Prop :=
  ∃ state target next, construction.states[id]? = some state ∧
    state.transitions.find? successor.1 = some target ∧
    construction.states[target]? = some next ∧
    ∀ core terminal, successor.2.Allows core terminal → next.kernel.Allows core terminal

theorem HasFollowed.evolves {successor : Symbol × ItemSet} {later : Construction}
    (followed : construction.HasFollowed id successor) (evolves : construction.Evolves kind later) :
    later.HasFollowed id successor := by
  obtain ⟨state, target, next, found, transition, foundNext, allows⟩ := followed
  obtain ⟨evolved, foundEvolved, stateEvolves, _⟩ := evolves.states id state found
  obtain ⟨laterNext, foundLater, nextEvolves, _⟩ := evolves.states target next foundNext
  refine ⟨evolved, target, laterNext, foundEvolved, ?_, foundLater,
    fun core terminal isAllowed => ?_⟩
  · exact stateEvolves.transitions _ _ transition
  · exact nextEvolves.kernel_allows core terminal (allows core terminal isAllowed)

/-- Following one successor: its kernel arrives somewhere, and a transition to there is recorded. -/
theorem exists_follow_eq_ok (bodies : grammar.BodiesDeclared)
    (exact : FirstSets.Exact grammar first) (sound : construction.IsSound kind grammar accept)
    (found : construction.states[id]? = some state) {kernel : ItemSet}
    (reached : kernel.IsReached kind grammar accept)
    (leads : kind.Leads grammar state.items symbol kernel) :
    ∃ next arrived evolved, Arrival kind grammar accept construction kernel next arrived ∧
      arrived.states[id]? = some evolved ∧ state.Evolves kind evolved ∧
      construction.follow kind grammar first id (symbol, kernel) =
        .ok (arrived.connected id evolved symbol next) ∧
      (arrived.connected id evolved symbol next).IsSound kind grammar accept ∧
      construction.Evolves kind (arrived.connected id evolved symbol next) ∧
      (arrived.connected id evolved symbol next).HasFollowed id (symbol, kernel) := by
  obtain ⟨next, arrived, arrives, arrival⟩ := exists_arrive_eq_ok bodies exact sound reached
  have evolves := arrival.evolves sound
  have arrivedSound := arrival.isSound sound
  obtain ⟨evolved, foundEvolved, stateEvolves, _⟩ := evolves.states id state found
  obtain ⟨nextState, foundNext, same, allows⟩ := arrival.exists_target
  have nextLeads : kind.Leads grammar evolved.items symbol nextState.kernel := by
    refine AutomatonKind.Leads.of_same ⟨fun core => ?_, fun canonical => ?_⟩ same.symm
    · simp only [leads.holds, stateEvolves.items_holds]
    · rw [(stateEvolves.fixed canonical).2]
      exact leads.isSuccessor canonical
  have connects := evolves_connected arrivedSound foundEvolved foundNext nextLeads
  refine ⟨next, arrived, evolved, arrival, foundEvolved, stateEvolves, ?_,
    isSound_connected arrivedSound foundEvolved foundNext nextLeads, evolves.trans connects, ?_⟩
  · rw [follow, arrives, liftM_ok, ok_bind]
    exact connect_eq_ok arrivedSound foundEvolved foundNext nextLeads
  · obtain ⟨later, foundLater, nextEvolves, _⟩ := connects.states next nextState foundNext
    refine ⟨evolved.connected symbol next, next, later, ?_, ?_, foundLater, ?_⟩
    · rw [getElem?_connected foundEvolved, if_pos rfl]
    · rw [State.connected, AscendingMap.find?_insert, if_pos rfl]
    · intro core terminal isAllowed
      exact nextEvolves.kernel_allows core terminal (allows core terminal isAllowed)

/-- Every symbol that the state expects leads to a state that has taken in what arrives there. -/
def Settled (grammar : Grammar) (construction : Construction) (id : Nat) : Prop :=
  ∀ state core symbol rest, construction.states[id]? = some state → state.items.Holds core →
    grammar.Expects core symbol rest → ∃ target next,
      state.transitions.find? symbol = some target ∧ construction.states[target]? = some next ∧
      ∀ terminal, state.items.Allows core terminal → next.kernel.Allows core.advanced terminal

/-- A settled state stays so unless it waits again. -/
theorem Settled.evolves {later : Construction} (settled : construction.Settled grammar id)
    (evolves : construction.Evolves kind later) : id ∈ later.queue ∨
    later.Settled grammar id := by
  by_cases waits : id ∈ later.queue
  · exact .inl waits
  refine .inr fun evolved core symbol rest foundEvolved holds expects => ?_
  have old := (evolves.waiting id (List.getElem?_eq_some_iff.mp foundEvolved).1).resolve_left waits
  obtain ⟨other, foundOther, stateEvolves, unchanged⟩ :=
    evolves.states id _ (List.getElem?_eq_getElem old)
  obtain rfl := Option.some.inj (foundOther.symm.trans foundEvolved)
  have sameItems := not_not.mp (mt unchanged waits)
  rw [sameItems] at holds ⊢
  obtain ⟨target, next, transition, foundNext, allows⟩ :=
    settled _ core symbol rest (List.getElem?_eq_getElem old) holds expects
  obtain ⟨laterNext, foundLater, nextEvolves, _⟩ := evolves.states target next foundNext
  refine ⟨target, laterNext, stateEvolves.transitions _ _ transition, foundLater, ?_⟩
  intro terminal isAllowed
  exact nextEvolves.kernel_allows _ _ (allows terminal isAllowed)

/-- What the items of a sound state lead to, by symbol. -/
theorem exists_successors_eq_ok (fresh : grammar.HasFreshStart start accept target)
    (sound : state.IsSound kind grammar accept) :
    ∃ successors, state.items.successors grammar = .ok successors ∧
      (∀ symbol kernel, (symbol, kernel) ∈ successors.entries →
        kernel.IsReached kind grammar accept ∧
        ItemSet.IsSuccessor grammar state.items symbol kernel) ∧
      ∀ symbol core rest, state.items.Holds core → grammar.Expects core symbol rest →
        ∃ kernel, (symbol, kernel) ∈ successors.entries := by
  obtain ⟨successors, made, isSuccessor, complete⟩ :=
    ItemSet.exists_successors_eq_ok (sound.closes.within sound.kernel.within).hasRules
  refine ⟨successors, made, fun symbol kernel member => ?_,
    fun symbol core rest holds expects => ?_⟩
  · obtain ⟨successor, nonempty, marked⟩ :=
      isSuccessor symbol kernel (AscendingMap.mem_entries.mp member)
    exact ⟨sound.isReached_of_isSuccessor fresh successor (marked _ sound.closes.marked) nonempty,
      successor⟩
  · obtain ⟨kernel, found⟩ := complete symbol core rest holds expects
    exact ⟨kernel, AscendingMap.mem_entries.mpr found⟩

/-- An expansion settles the state, unless it makes it wait again. -/
theorem exists_expand_eq_ok (fresh : grammar.HasFreshStart start accept target)
    (exact : FirstSets.Exact grammar first) (sound : construction.IsSound kind grammar accept)
    (found : construction.states[id]? = some state) :
    ∃ expanded, construction.expand kind grammar first id = .ok expanded ∧
      expanded.IsSound kind grammar accept ∧ construction.Evolves kind expanded ∧
      (id ∈ expanded.queue ∨ expanded.Settled grammar id) := by
  obtain ⟨successors, made, isSuccessor, complete⟩ :=
    exists_successors_eq_ok fresh (sound.states id state found)
  obtain ⟨expanded, folded, ⟨expandedSound, evolves⟩, followed, _⟩ :=
    @exists_foldlM_eq_ok_of_done _ _ _ (follow kind grammar first id)
      (fun current => current.IsSound kind grammar accept ∧ construction.Evolves kind current)
      (fun current successor => current.HasFollowed id successor) successors.entries
      (by
        rintro current ⟨currentSound, evolves⟩ ⟨symbol, kernel⟩ member
        obtain ⟨reached, successor⟩ := isSuccessor symbol kernel member
        obtain ⟨evolved, foundEvolved, stateEvolves, _⟩ := evolves.states id state found
        obtain ⟨next, arrived, _, _, _, _, follows, nextSound, nextEvolves, followed⟩ :=
          exists_follow_eq_ok fresh.bodies exact currentSound foundEvolved reached
            (stateEvolves.leads_of_isSuccessor successor)
        exact ⟨_, follows, ⟨nextSound, evolves.trans nextEvolves⟩, followed,
          fun other earlier => earlier.evolves nextEvolves⟩)
      construction ⟨sound, .refl construction⟩
  refine ⟨expanded, ?_, expandedSound, evolves, ?_⟩
  · simp [expand, found, made, folded]
  by_cases waits : id ∈ expanded.queue
  · exact .inl waits
  refine .inr fun later core symbol rest foundLater holds expects => ?_
  obtain ⟨other, foundOther, stateEvolves, unchanged⟩ := evolves.states id state found
  obtain rfl := Option.some.inj (foundOther.symm.trans foundLater)
  rw [not_not.mp (mt unchanged waits)] at holds ⊢
  obtain ⟨kernel, member⟩ := complete symbol core rest holds expects
  obtain ⟨known, target, next, foundKnown, transition, foundNext, allows⟩ :=
    followed (symbol, kernel) member
  obtain rfl := Option.some.inj (foundKnown.symm.trans foundLater)
  refine ⟨target, next, transition, foundNext, fun terminal isAllowed => allows _ _ ?_⟩
  obtain ⟨_, successor⟩ := isSuccessor symbol kernel member
  exact (successor.allows _ _).mpr ⟨core, rest, rfl, isAllowed, expects⟩

end Automaton.Construction

end DeterministicParsing
