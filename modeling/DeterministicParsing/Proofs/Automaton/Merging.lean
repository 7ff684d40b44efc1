/-
# Merging lookaheads

The automaton with merged lookaheads is the one without lookaheads, state by state, and each of its
lookaheads is the union of those that the canonical automaton has in the states with the same cores.

For the first half the two constructions are run side by side. Whenever a state is expanded for the
first time in one of them, it is in the other one, and both make the same new states. When a state
is expanded again, because it has taken in lookaheads, the construction without lookaheads has
nothing to do. The second half needs no run: both automata know what can come after the strings that
lead to their states.
-/
import DeterministicParsing.Proofs.Automaton.Build

namespace DeterministicParsing

variable {kind : AutomatonKind} {grammar : Grammar} {first : FirstSets} {start accept target : Nat}

/-- The states have kernels with the same cores, and the same transitions. -/
structure State.Matches (plain merged : State) : Prop where
  kernel : ∀ core, plain.kernel.Holds core ↔ merged.kernel.Holds core
  transitions : plain.transitions = merged.transitions

/-- Matching states hold the same cores. -/
theorem State.Matches.items {plain merged : State} (same : plain.Matches merged)
    (plainSound : plain.IsSound .lr0 grammar accept)
    (mergedSound : merged.IsSound .lalr1 grammar accept) (core : Core) : plain.items.Holds core ↔
      merged.items.Holds core := by
  rw [plainSound.closes.holds, mergedSound.closes.holds]
  exact ⟨ItemSet.InClosure.of_holds fun core => (same.kernel core).mp,
    ItemSet.InClosure.of_holds fun core => (same.kernel core).mpr⟩

theorem State.Matches.isFinal {plain merged : State} (same : plain.Matches merged)
    (plainSound : plain.IsSound .lr0 grammar accept)
    (mergedSound : merged.IsSound .lalr1 grammar accept) : plain.isFinal = merged.isFinal := by
  rw [Bool.eq_iff_iff, plainSound.isFinal_iff, mergedSound.isFinal_iff]
  simp only [same.items plainSound mergedSound]

/-- Without lookaheads, kernels with the same cores are the same. -/
theorem AutomatonKind.same_of_holds {first second : ItemSet}
    (firstReached : first.IsReached .lr0 grammar accept)
    (secondReached : second.IsReached .lr0 grammar accept)
    (same : ∀ core, first.Holds core ↔ second.Holds core) :
    AutomatonKind.lr0.Same first second :=
  ⟨same, fun _ _ _ => iff_of_false (ItemSet.not_allows_of_marked firstReached.marked)
    (ItemSet.not_allows_of_marked secondReached.marked)⟩

namespace Automaton.Construction

/-- The construction with merged lookaheads keeps pace with the one without lookaheads. The first
`passed` states have been expanded in both of them, the others wait in their order in both, and
which of the former wait again does not matter. -/
structure KeepsPace (passed : Nat) (plain merged : Construction) : Prop where
  length_eq : plain.states.length = merged.states.length
  states : ∀ (id : Nat) (state other : State), plain.states[id]? = some state →
    merged.states[id]? = some other → state.Matches other
  passed_le : passed ≤ plain.states.length
  plain_queue : plain.queue = List.range' passed (plain.states.length - passed)
  merged_queue : merged.queue.filter (passed ≤ ·) = plain.queue

namespace KeepsPace

variable {passed : Nat} {plain merged : Construction}

theorem exists_merged (pace : KeepsPace passed plain merged) {id : Nat} {state : State}
    (found : plain.states[id]? = some state) :
    ∃ other, merged.states[id]? = some other ∧ state.Matches other := by
  have inRange := (List.getElem?_eq_some_iff.mp found).1
  rw [pace.length_eq] at inRange
  exact ⟨_, List.getElem?_eq_getElem inRange,
    pace.states id _ _ found (List.getElem?_eq_getElem inRange)⟩

theorem exists_plain (pace : KeepsPace passed plain merged) {id : Nat} {state : State}
    (found : merged.states[id]? = some state) :
    ∃ other, plain.states[id]? = some other ∧ other.Matches state := by
  have inRange := (List.getElem?_eq_some_iff.mp found).1
  rw [← pace.length_eq] at inRange
  exact ⟨_, List.getElem?_eq_getElem inRange,
    pace.states id _ _ (List.getElem?_eq_getElem inRange) found⟩

/-- A state that has not been expanded waits. -/
theorem mem_queue (pace : KeepsPace passed plain merged) {id : Nat} (notPassed : passed ≤ id)
    (inRange : id < plain.states.length) : id ∈ merged.queue := by
  have waits : id ∈ plain.queue := by
    rw [pace.plain_queue, List.mem_range'_1]
    omega
  rw [← pace.merged_queue] at waits
  exact (List.mem_filter.mp waits).1

/-- Both constructions make a state for a kernel that is new to them. -/
theorem append (pace : KeepsPace passed plain merged) {state other : State}
    {history otherHistory : List Event} (same : state.Matches other) :
    KeepsPace passed
      ⟨plain.states ++ [state], plain.queue ++ [plain.states.length], history⟩
      ⟨merged.states ++ [other], merged.queue ++ [merged.states.length], otherHistory⟩ := by
  have inRange := pace.passed_le
  refine ⟨by simp [pace.length_eq], ?_, by simp; omega, ?_, ?_⟩
  · intro id known otherKnown found foundOther
    by_cases isNew : id = plain.states.length
    · rw [isNew, List.getElem?_concat_length, Option.some.injEq] at found
      rw [isNew, pace.length_eq, List.getElem?_concat_length, Option.some.injEq] at foundOther
      subst found foundOther
      exact same
    · have shorter := (List.getElem?_eq_some_iff.mp found).1
      rw [List.length_append, List.length_singleton] at shorter
      rw [List.getElem?_append_left (by omega)] at found
      rw [List.getElem?_append_left (by have := pace.length_eq; omega)] at foundOther
      exact pace.states id known otherKnown found foundOther
  · rw [pace.plain_queue, List.length_append, List.length_singleton, Nat.sub_add_comm inRange,
      List.range'_concat]
    simp only [Nat.one_mul]
    rw [Nat.add_sub_cancel' inRange]
  · have isPassed : decide (passed ≤ merged.states.length) = true := by
      rw [decide_eq_true_eq, ← pace.length_eq]
      exact inRange
    simp [List.filter_append, pace.merged_queue, isPassed, pace.length_eq]

/-- A state that takes in lookaheads, and may then wait again, keeps pace if it has been
expanded. -/
theorem set (pace : KeepsPace passed plain merged) {id : Nat} {state grown : State}
    {queue : List Nat} {history : List Event} (found : plain.states[id]? = some state)
    (same : state.Matches grown)
    (queueEq : queue = merged.queue ∨ (queue = merged.queue ++ [id] ∧ id ∉ merged.queue)) :
    KeepsPace passed plain ⟨merged.states.set id grown, queue, history⟩ := by
  refine ⟨by simp [pace.length_eq], ?_, pace.passed_le, pace.plain_queue, ?_⟩
  · intro other known otherKnown foundKnown foundOther
    by_cases here : id = other
    · subst here
      obtain rfl := Option.some.inj (found.symm.trans foundKnown)
      have inRange := (List.getElem?_eq_some_iff.mp found).1
      rw [pace.length_eq] at inRange
      rw [List.getElem?_set_self inRange, Option.some.injEq] at foundOther
      subst foundOther
      exact same
    · rw [List.getElem?_set_ne here] at foundOther
      exact pace.states other known otherKnown foundKnown foundOther
  · rcases queueEq with rfl | ⟨rfl, absent⟩
    · exact pace.merged_queue
    · have expanded : ¬ passed ≤ id := fun notPassed =>
        absent (pace.mem_queue notPassed (List.getElem?_eq_some_iff.mp found).1)
      simp [List.filter_append, pace.merged_queue, expanded]

/-- A kernel arrives in both constructions at the same state. -/
theorem arrival (pace : KeepsPace passed plain merged)
    (plainSound : plain.IsSound .lr0 grammar accept)
    {plainKernel mergedKernel : ItemSet} (reached : plainKernel.IsReached .lr0 grammar accept)
    (same : ∀ core, plainKernel.Holds core ↔ mergedKernel.Holds core)
    {plainNext mergedNext : Nat} {plainArrived mergedArrived : Construction}
    (plainArrival : Arrival .lr0 grammar accept plain plainKernel plainNext plainArrived)
    (mergedArrival : Arrival .lalr1 grammar accept merged mergedKernel mergedNext mergedArrived) :
    plainNext = mergedNext ∧ KeepsPace passed plainArrived mergedArrived := by
  cases plainArrival with
  | created unknown sound kernelEq transitionsEq =>
      cases mergedArrival with
      | created _ _ mergedKernelEq mergedTransitionsEq =>
          refine ⟨pace.length_eq, pace.append ⟨fun core => ?_, ?_⟩⟩
          · rw [kernelEq, mergedKernelEq, same core]
          · rw [transitionsEq, mergedTransitionsEq]
      | known exact _ _ => exact absurd rfl exact
      | absorbed _ found sameCores _ _ _ _ _ =>
          obtain ⟨known, foundKnown, isMatch⟩ := pace.exists_plain found
          refine absurd ?_ (unknown known (List.mem_of_getElem? foundKnown))
          refine AutomatonKind.same_of_holds
            (plainSound.states _ known foundKnown).kernel reached ?_
          intro core
          rw [isMatch.kernel, sameCores, same]
  | known _ found kernelEq =>
      subst kernelEq
      obtain ⟨other, foundOther, isMatch⟩ := pace.exists_merged found
      cases mergedArrival with
      | created unknown _ _ _ =>
          refine absurd ⟨fun core => ?_, fun exact => absurd rfl exact⟩
            (unknown other (List.mem_of_getElem? foundOther))
          rw [← isMatch.kernel, same]
      | known exact _ _ => exact absurd rfl exact
      | @absorbed _ known grown _ _ _ foundKnown sameCores _ grownEq transitionsEq _ queueEq =>
          obtain ⟨second, foundSecond, secondMatches⟩ := pace.exists_plain foundKnown
          have sameState := plainSound.distinct _ _ _ second found foundSecond
            (AutomatonKind.same_of_holds reached (plainSound.states _ second foundSecond).kernel
              fun core => by rw [same, secondMatches.kernel, sameCores])
          refine ⟨sameState, pace.set foundSecond ⟨fun core => ?_, ?_⟩ ?_⟩
          · rw [grownEq, ItemSet.holds_merge, ← sameCores, or_self, secondMatches.kernel]
          · rw [transitionsEq, secondMatches.transitions]
          · rcases queueEq with unchanged | ⟨longer, absent, _⟩
            · exact .inl unchanged
            · exact .inr ⟨longer, absent⟩
  | absorbed impossible _ _ _ _ _ _ _ => cases impossible

/-- The same transition is recorded in both constructions. -/
theorem connected (pace : KeepsPace passed plain merged) {id next : Nat} {state other : State}
    {symbol : Symbol} (found : plain.states[id]? = some state)
    (foundOther : merged.states[id]? = some other) :
    KeepsPace passed (plain.connected id state symbol next)
      (merged.connected id other symbol next) := by
  refine ⟨?_, ?_, ?_, ?_, pace.merged_queue⟩
  · simp [Construction.connected, pace.length_eq]
  · intro index known otherKnown foundKnown foundOtherKnown
    rw [getElem?_connected found] at foundKnown
    rw [getElem?_connected foundOther] at foundOtherKnown
    by_cases here : id = index
    · rw [if_pos here, Option.some.injEq] at foundKnown foundOtherKnown
      subst foundKnown foundOtherKnown
      have isMatch := pace.states id state other found foundOther
      refine ⟨isMatch.kernel, ?_⟩
      simp only [State.connected, isMatch.transitions]
    · rw [if_neg here] at foundKnown foundOtherKnown
      exact pace.states index known otherKnown foundKnown foundOtherKnown
  · simpa [Construction.connected] using pace.passed_le
  · simpa [Construction.connected] using pace.plain_queue

/-- Following the same successors, one after another, in both constructions. -/
theorem exists_foldlM_follow_eq_ok (bodies : grammar.BodiesDeclared)
    (exact : FirstSets.Exact grammar first) {id : Nat} {plainState mergedState : State}
    (sameItems : ∀ core, plainState.items.Holds core ↔ mergedState.items.Holds core)
    {plainEntries mergedEntries : List (Symbol × ItemSet)}
    (sameSymbols : plainEntries.map Prod.fst = mergedEntries.map Prod.fst)
    (plainSuccessors : ∀ symbol kernel, (symbol, kernel) ∈ plainEntries →
      kernel.IsReached .lr0 grammar accept ∧
        ItemSet.IsSuccessor grammar plainState.items symbol kernel)
    (mergedSuccessors : ∀ symbol kernel, (symbol, kernel) ∈ mergedEntries →
      kernel.IsReached .lalr1 grammar accept ∧
        ItemSet.IsSuccessor grammar mergedState.items symbol kernel)
    (pace : KeepsPace passed plain merged) (plainSound : plain.IsSound .lr0 grammar accept)
    (mergedSound : merged.IsSound .lalr1 grammar accept)
    (plainEvolved : ∃ evolved, plain.states[id]? = some evolved ∧
      plainState.Evolves .lr0 evolved)
    (mergedEvolved : ∃ evolved, merged.states[id]? = some evolved ∧
      mergedState.Evolves .lalr1 evolved) :
    ∃ plainFinal mergedFinal,
      plainEntries.foldlM (follow .lr0 grammar first id) plain = .ok plainFinal ∧
      mergedEntries.foldlM (follow .lalr1 grammar first id) merged = .ok mergedFinal ∧
      KeepsPace passed plainFinal mergedFinal := by
  induction plainEntries generalizing mergedEntries plain merged with
  | nil =>
      obtain rfl := List.map_eq_nil_iff.mp sameSymbols.symm
      exact ⟨plain, merged, rfl, rfl, pace⟩
  | cons entry plainEntries ih =>
      obtain ⟨symbol, plainKernel⟩ := entry
      obtain ⟨other, mergedEntries, rfl, sameSymbol, sameRest⟩ :=
        List.map_eq_cons_iff.mp sameSymbols.symm
      obtain ⟨read, mergedKernel⟩ := other
      change read = symbol at sameSymbol
      subst sameSymbol
      obtain ⟨plainReached, plainSuccessor⟩ := plainSuccessors read plainKernel (by simp)
      obtain ⟨mergedReached, mergedSuccessor⟩ := mergedSuccessors read mergedKernel (by simp)
      obtain ⟨plainKnown, plainFound, plainEvolves⟩ := plainEvolved
      obtain ⟨mergedKnown, mergedFound, mergedEvolves⟩ := mergedEvolved
      obtain ⟨plainNext, plainArrived, plainLater, plainArrival, plainLaterFound, plainOn,
          plainFollows, plainNextSound, plainNextEvolves, _⟩ :=
        exists_follow_eq_ok bodies exact plainSound plainFound plainReached
          (plainEvolves.leads_of_isSuccessor plainSuccessor)
      obtain ⟨mergedNext, mergedArrived, mergedLater, mergedArrival, mergedLaterFound, mergedOn,
          mergedFollows, mergedNextSound, mergedNextEvolves, _⟩ :=
        exists_follow_eq_ok bodies exact mergedSound mergedFound mergedReached
          (mergedEvolves.leads_of_isSuccessor mergedSuccessor)
      obtain ⟨rfl, arrivedPace⟩ := pace.arrival plainSound plainReached (fun core => by
        simp only [plainSuccessor.holds, mergedSuccessor.holds,
          sameItems]) plainArrival mergedArrival
      have nextPace :=
        @connected passed plainArrived mergedArrived arrivedPace id plainNext plainLater mergedLater
          read plainLaterFound mergedLaterFound
      obtain ⟨plainLast, plainLastFound, plainLastEvolves, _⟩ :=
        plainNextEvolves.states id plainKnown plainFound
      obtain ⟨mergedLast, mergedLastFound, mergedLastEvolves, _⟩ :=
        mergedNextEvolves.states id mergedKnown mergedFound
      obtain ⟨plainFinal, mergedFinal, plainFolds, mergedFolds, finalPace⟩ :=
        ih sameRest.symm
          (fun symbol kernel member => plainSuccessors symbol kernel (by simp [member]))
          (fun symbol kernel member => mergedSuccessors symbol kernel (by simp [member]))
          nextPace plainNextSound mergedNextSound
          ⟨plainLast, plainLastFound, plainEvolves.trans plainLastEvolves⟩
          ⟨mergedLast, mergedLastFound, mergedEvolves.trans mergedLastEvolves⟩
      refine ⟨plainFinal, mergedFinal, ?_, ?_, finalPace⟩
      · rw [List.foldlM_cons, plainFollows, ok_bind, plainFolds]
      · rw [List.foldlM_cons, mergedFollows, ok_bind, mergedFolds]

/-- Expanding the same state in both constructions. -/
theorem exists_expand_eq_ok (fresh : grammar.HasFreshStart start accept target)
    (exact : FirstSets.Exact grammar first) (pace : KeepsPace passed plain merged)
    (plainSound : plain.IsSound .lr0 grammar accept)
    (mergedSound : merged.IsSound .lalr1 grammar accept) {id : Nat}
    (inRange : id < plain.states.length) :
    ∃ plainExpanded mergedExpanded, plain.expand .lr0 grammar first id = .ok plainExpanded ∧
      merged.expand .lalr1 grammar first id = .ok mergedExpanded ∧
      KeepsPace passed plainExpanded mergedExpanded := by
  have plainFound := List.getElem?_eq_getElem inRange
  obtain ⟨mergedState, mergedFound, isMatch⟩ := pace.exists_merged plainFound
  have plainStateSound := plainSound.states id _ plainFound
  have mergedStateSound := mergedSound.states id mergedState mergedFound
  have sameItems := isMatch.items plainStateSound mergedStateSound
  obtain ⟨plainSuccessors, plainMade, plainIs, plainComplete⟩ :=
    exists_successors_eq_ok fresh plainStateSound
  obtain ⟨mergedSuccessors, mergedMade, mergedIs, mergedComplete⟩ :=
    exists_successors_eq_ok fresh mergedStateSound
  have sameSymbols : plainSuccessors.keys = mergedSuccessors.keys := by
    rw [AscendingMap.keys_eq_iff]
    intro symbol
    simp only [← AscendingMap.mem_entries]
    constructor
    · rintro ⟨kernel, member⟩
      obtain ⟨reached, successor⟩ := plainIs symbol kernel member
      obtain ⟨core, holds⟩ := reached.nonempty
      obtain ⟨earlier, rest, _, here, expects⟩ := (successor.holds core).mp holds
      exact mergedComplete symbol earlier rest ((sameItems earlier).mp here) expects
    · rintro ⟨kernel, member⟩
      obtain ⟨reached, successor⟩ := mergedIs symbol kernel member
      obtain ⟨core, holds⟩ := reached.nonempty
      obtain ⟨earlier, rest, _, here, expects⟩ := (successor.holds core).mp holds
      exact plainComplete symbol earlier rest ((sameItems earlier).mpr here) expects
  obtain ⟨plainExpanded, mergedExpanded, plainFolds, mergedFolds, expandedPace⟩ :=
    pace.exists_foldlM_follow_eq_ok fresh.bodies exact sameItems sameSymbols plainIs mergedIs
      plainSound mergedSound ⟨_, plainFound, .refl _⟩ ⟨_, mergedFound, .refl _⟩
  refine ⟨plainExpanded, mergedExpanded, ?_, ?_, expandedPace⟩
  · simp [expand, plainFound, plainMade, plainFolds]
  · simp [expand, mergedFound, mergedMade, mergedFolds]

end KeepsPace

/-- Without merging, expanding a settled state again changes nothing. -/
theorem expand_eq_self (fresh : grammar.HasFreshStart start accept target)
    (exact : FirstSets.Exact grammar first) (canonical : kind ≠ .lalr1)
    {construction : Construction} (sound : construction.IsSound kind grammar accept) {id : Nat}
    (inRange : id < construction.states.length) (settled : construction.Settled grammar id) :
    construction.expand kind grammar first id = .ok construction := by
  have found := List.getElem?_eq_getElem inRange
  obtain ⟨successors, made, isSuccessor, _⟩ :=
    exists_successors_eq_ok fresh (sound.states id _ found)
  have each : ∀ successor ∈ successors.entries,
      construction.follow kind grammar first id successor = .ok construction := by
    rintro ⟨symbol, kernel⟩ member
    obtain ⟨reached, successor⟩ := isSuccessor symbol kernel member
    have leads : kind.Leads grammar construction.states[id].items symbol kernel :=
      (State.Evolves.refl _).leads_of_isSuccessor successor
    obtain ⟨core, holds⟩ := reached.nonempty
    obtain ⟨earlier, rest, _, here, expects⟩ := (successor.holds core).mp holds
    obtain ⟨target, next, transition, foundNext, _⟩ :=
      settled _ earlier symbol rest found here expects
    obtain ⟨known, foundKnown, knownLeads⟩ :=
      sound.transitions id _ symbol target found transition
    obtain ⟨arrivedAt, arrived, evolved, arrival, foundEvolved, _, follows, _⟩ :=
      exists_follow_eq_ok fresh.bodies exact sound found reached leads
    rw [follows]
    cases arrival with
    | created unknown _ _ _ =>
        exact absurd (knownLeads.same leads) (unknown known (List.mem_of_getElem? foundKnown))
    | known _ foundArrived kernelEq =>
        subst kernelEq
        obtain rfl := sound.distinct target arrivedAt known _ foundKnown foundArrived
          (knownLeads.same leads)
        obtain rfl := Option.some.inj (found.symm.trans foundEvolved)
        rw [connected, State.connected_eq_self transition, List.set_getElem_self]
    | absorbed merged _ _ _ _ _ _ _ => exact absurd merged canonical
  simp [expand, found, made, foldlM_eq_self each]

/-! ## Running both constructions -/

/-- When no state waits any more, further expansions change nothing. -/
theorem run_eq_of_le {construction final : Construction} {steps bound : Nat}
    (runs : construction.run kind grammar first steps = .ok final) (empty : final.queue = [])
    (enough : steps ≤ bound) : construction.run kind grammar first bound = .ok final := by
  induction steps generalizing construction bound with
  | zero =>
      obtain rfl : construction = final := Except.ok.inj runs
      cases bound with
      | zero => rfl
      | succ bound => simp [run, empty]
  | succ steps ih =>
      obtain ⟨bound, rfl⟩ := Nat.exists_eq_add_of_le' (Nat.le_trans (Nat.succ_pos steps) enough)
      cases waiting : construction.queue with
      | nil =>
          simp only [run, waiting] at runs ⊢
          exact runs
      | cons id queue =>
          simp only [run, waiting] at runs ⊢
          obtain ⟨expanded, expands, runsOn⟩ := exists_of_bind_eq_ok runs
          rw [expands, ok_bind]
          exact ih runsOn (Nat.le_of_succ_le_succ enough)

namespace KeepsPace

variable {passed : Nat} {plain merged : Construction}

/-- A state that waits for its first expansion is the next one in both constructions. -/
theorem advance (pace : KeepsPace passed plain merged) {id : Nat} {queue : List Nat}
    (waiting : merged.queue = id :: queue) (notPassed : passed ≤ id) :
    ∃ rest, plain.queue = id :: rest ∧ id = passed ∧
      KeepsPace (passed + 1) { plain with queue := rest } { merged with queue } := by
  have plainQueue := pace.merged_queue
  rw [waiting, List.filter_cons_of_pos (by simpa using notPassed)] at plainQueue
  have ranged := plainQueue.trans pace.plain_queue
  obtain ⟨left, remaining⟩ : ∃ left, plain.states.length - passed = left + 1 := by
    cases length : plain.states.length - passed with
    | zero =>
        rw [length] at ranged
        cases ranged
    | succ left => exact ⟨left, rfl⟩
  rw [remaining, List.range'_succ] at ranged
  obtain ⟨rfl, rest⟩ := List.cons.inj ranged
  refine ⟨_, plainQueue.symm, rfl, pace.length_eq, pace.states, ?_, ?_, ?_⟩
  · change id + 1 ≤ plain.states.length
    omega
  · change _ = List.range' (id + 1) (plain.states.length - (id + 1))
    rw [rest, show plain.states.length - (id + 1) = left by omega]
  · change queue.filter _ = queue.filter _
    refine List.filter_congr fun other member => ?_
    by_cases later : id ≤ other
    · have inRest : other ∈ queue.filter (id ≤ ·) := by
        rw [List.mem_filter]
        exact ⟨member, by simpa using later⟩
      rw [rest, List.mem_range'_1] at inRest
      simp [later, inRest.1]
    · simp [later, show ¬ id + 1 ≤ other by omega]

/-- A state that waits to be expanded again does not change the pace when it is taken off the
queue. -/
theorem drop (pace : KeepsPace passed plain merged) {id : Nat} {queue : List Nat}
    (waiting : merged.queue = id :: queue) (isPassed : id < passed) :
    KeepsPace passed plain { merged with queue } := by
  have plainQueue := pace.merged_queue
  rw [waiting, List.filter_cons_of_neg (by simpa using isPassed)] at plainQueue
  exact ⟨pace.length_eq, pace.states, pace.passed_le, pace.plain_queue, plainQueue⟩

/-- When no state waits in the one construction, none does in the other. -/
theorem exists_run_of_empty (pace : KeepsPace passed plain merged) (empty : merged.queue = [])
    (bound : Nat) :
    ∃ steps plainFinal last, steps ≤ bound ∧
      plain.run .lr0 grammar first steps = .ok plainFinal ∧ plainFinal.queue = [] ∧
      KeepsPace last plainFinal merged := by
  refine ⟨0, plain, passed, Nat.zero_le _, rfl, ?_, pace⟩
  rw [← pace.merged_queue, empty, List.filter_nil]

/-- Both constructions end with matching states. -/
theorem exists_run_eq_ok (fresh : grammar.HasFreshStart start accept target)
    (exact : FirstSets.Exact grammar first) {bound : Nat} {mergedFinal : Construction}
    (pace : KeepsPace passed plain merged) (plainSound : plain.IsSound .lr0 grammar accept)
    (plainProgresses : plain.Progresses grammar)
    (mergedSound : merged.IsSound .lalr1 grammar accept)
    (mergedProgresses : merged.Progresses grammar)
    (runs : merged.run .lalr1 grammar first bound = .ok mergedFinal)
    (empty : mergedFinal.queue = []) :
    ∃ steps plainFinal last, steps ≤ bound ∧
      plain.run .lr0 grammar first steps = .ok plainFinal ∧ plainFinal.queue = [] ∧
      KeepsPace last plainFinal mergedFinal := by
  induction bound generalizing passed plain merged with
  | zero =>
      obtain rfl : merged = mergedFinal := Except.ok.inj runs
      exact pace.exists_run_of_empty empty 0
  | succ bound ih =>
      cases waiting : merged.queue with
      | nil =>
          simp only [run, waiting] at runs
          obtain rfl : merged = mergedFinal := Except.ok.inj runs
          exact pace.exists_run_of_empty empty _
      | cons id queue =>
          simp only [run, waiting] at runs
          obtain ⟨mergedNext, mergedExpands, mergedNextSound, mergedNextProgresses, _⟩ :=
            exists_expand_head_eq_ok fresh exact mergedSound mergedProgresses waiting
          rw [mergedExpands, ok_bind] at runs
          by_cases notPassed : passed ≤ id
          · obtain ⟨rest, plainWaiting, _, headPace⟩ := pace.advance waiting notPassed
            obtain ⟨plainNext, plainExpands, plainNextSound, plainNextProgresses, _⟩ :=
              exists_expand_head_eq_ok fresh exact plainSound plainProgresses plainWaiting
            obtain ⟨_, _, plainSame, mergedSame, nextPace⟩ :=
              headPace.exists_expand_eq_ok fresh exact (plainSound.tail plainWaiting)
                (mergedSound.tail waiting) (plainSound.queue_lt id (by simp [plainWaiting]))
            obtain rfl := Except.ok.inj (plainSame.symm.trans plainExpands)
            obtain rfl := Except.ok.inj (mergedSame.symm.trans mergedExpands)
            obtain ⟨steps, plainFinal, last, few, plainRuns, plainEmpty, lastPace⟩ :=
              ih nextPace plainNextSound plainNextProgresses mergedNextSound
                mergedNextProgresses runs
            refine ⟨steps + 1, plainFinal, last, Nat.succ_le_succ few, ?_, plainEmpty, lastPace⟩
            simp only [run, plainWaiting]
            rw [plainSame, ok_bind, plainRuns]
          · have isPassed := Nat.lt_of_not_le notPassed
            have inRange := Nat.lt_of_lt_of_le isPassed pace.passed_le
            have settled : plain.Settled grammar id := by
              refine (plainProgresses id inRange).resolve_left fun waits => ?_
              rw [pace.plain_queue, List.mem_range'_1] at waits
              exact notPassed waits.1
            have plainExpands := expand_eq_self fresh exact (by decide) plainSound inRange settled
            obtain ⟨_, _, plainSame, mergedSame, nextPace⟩ :=
              (pace.drop waiting isPassed).exists_expand_eq_ok fresh exact plainSound
                (mergedSound.tail waiting) inRange
            obtain rfl := Except.ok.inj (plainSame.symm.trans plainExpands)
            obtain rfl := Except.ok.inj (mergedSame.symm.trans mergedExpands)
            obtain ⟨steps, plainFinal, last, few, plainRuns, plainEmpty, lastPace⟩ :=
              ih nextPace plainSound plainProgresses mergedNextSound mergedNextProgresses runs
            exact ⟨steps, plainFinal, last, Nat.le_succ_of_le few,
              plainRuns, plainEmpty, lastPace⟩

end KeepsPace

end Automaton.Construction

namespace Automaton

variable {merged canonical : Automaton} {id : Nat} {state : State}

/-- The automata without lookaheads and with merged ones have matching states. -/
theorem exists_matching_eq_ok (fresh : grammar.HasFreshStart start accept target)
    (exact : FirstSets.Exact grammar first) :
    ∃ plain merged, build grammar first .lr0 = .ok plain ∧
      build grammar first .lalr1 = .ok merged ∧ plain.IsBuilt .lr0 grammar accept ∧
      merged.IsBuilt .lalr1 grammar accept ∧ plain.states.length = merged.states.length ∧
      ∀ (id : Nat) (state other : State), plain.states[id]? = some state →
        merged.states[id]? = some other → state.Matches other := by
  obtain ⟨plainState, plainHistory, plainFinal, _, plainSound, plainKernel, plainTransitions,
    plainRuns, plainEmpty, plainBuilds, plainBuilt⟩ := exists_run_seed_eq_ok fresh exact .lr0
  obtain ⟨mergedState, mergedHistory, mergedFinal, _, mergedSound, mergedKernel,
    mergedTransitions, mergedRuns, mergedEmpty, mergedBuilds, mergedBuilt⟩ :=
      exists_run_seed_eq_ok fresh exact .lalr1
  have pace : Construction.KeepsPace 0 ⟨[plainState], [initial], plainHistory⟩
      ⟨[mergedState], [initial], mergedHistory⟩ := by
    refine ⟨rfl, fun id state other found foundOther => ?_, Nat.zero_le _, rfl, by simp⟩
    rw [List.mem_singleton.mp (List.mem_of_getElem? found),
      List.mem_singleton.mp (List.mem_of_getElem? foundOther)]
    refine ⟨fun core => ?_, plainTransitions.trans mergedTransitions.symm⟩
    rw [plainKernel, mergedKernel, holds_initialKernel, holds_initialKernel]
  obtain ⟨steps, other, last, few, runs, empty, lastPace⟩ :=
    pace.exists_run_eq_ok fresh exact plainSound (Construction.progresses_seed _ _) mergedSound
      (Construction.progresses_seed _ _) mergedRuns mergedEmpty
  obtain rfl := Except.ok.inj ((Construction.run_eq_of_le runs empty few).symm.trans plainRuns)
  exact ⟨_, _, by simp [build, plainBuilds], by simp [build, mergedBuilds], plainBuilt,
    mergedBuilt, lastPace.length_eq, lastPace.states⟩

/-! ## The united lookaheads -/

/-- A string that leads to a state in one automaton leads in every other one to a state with the
same cores. -/
theorem IsBuilt.exists_counterpart {automaton : Automaton} {string : List Symbol} {kernel : ItemSet}
    (fresh : grammar.HasFreshStart start accept target)
    (built : automaton.IsBuilt kind grammar accept) (nonempty : ∃ core, kernel.Holds core)
    (isKernel : kernel.IsKernelFor grammar accept string) :
    ∃ id other, automaton.Reaches string id ∧ automaton.states[id]? = some other ∧
      ∀ core, other.kernel.Holds core ↔ kernel.Holds core := by
  obtain ⟨core, holds⟩ := nonempty
  obtain ⟨⟨after, valid⟩, _⟩ := (isKernel core).mp holds
  obtain ⟨id, reaches⟩ := built.exists_reaches fresh ⟨core, after, valid⟩
  obtain ⟨other, found⟩ := built.exists_state reaches
  exact ⟨id, other, reaches, found, fun core =>
    (built.isKernelFor fresh reaches found).holds_iff isKernel⟩

/-- With merged lookaheads, a state allows what the canonical states with the same cores allow. -/
theorem IsBuilt.allows_iff_exists_canonical (fresh : grammar.HasFreshStart start accept target)
    (mergedBuilt : merged.IsBuilt .lalr1 grammar accept)
    (canonicalBuilt : canonical.IsBuilt .lr1 grammar accept)
    (found : merged.states[id]? = some state) (core : Core) (terminal : Nat) :
    state.items.Allows core terminal ↔ ∃ other ∈ canonical.states,
      (∀ core, other.kernel.Holds core ↔ state.kernel.Holds core) ∧
      other.items.Allows core terminal := by
  constructor
  · intro allows
    obtain ⟨string, isKernel, valid⟩ := mergedBuilt.exists_validLookahead fresh found allows
    obtain ⟨otherId, other, reaches, foundOther, same⟩ :=
      canonicalBuilt.exists_counterpart fresh
        (mergedBuilt.isSound.states id state found).kernel.nonempty isKernel
    exact ⟨other, List.mem_of_getElem? foundOther, same,
      canonicalBuilt.allows_of_validLookahead fresh rfl reaches foundOther valid⟩
  · rintro ⟨other, member, same, allows⟩
    obtain ⟨otherId, foundOther⟩ := List.getElem?_of_mem member
    obtain ⟨string, isKernel, valid⟩ :=
      canonicalBuilt.exists_validLookahead fresh foundOther allows
    obtain ⟨knownId, known, reaches, foundKnown, sameKnown⟩ :=
      mergedBuilt.exists_counterpart fresh
        (canonicalBuilt.isSound.states otherId other foundOther).kernel.nonempty isKernel
    obtain rfl := mergedBuilt.isSound.distinct knownId id known state foundKnown found
      ⟨fun core => (sameKnown core).trans (same core), fun unmerged => absurd rfl unmerged⟩
    obtain rfl := Option.some.inj (foundKnown.symm.trans found)
    exact mergedBuilt.allows_of_validLookahead fresh rfl reaches foundKnown valid

/-- Every state has a counterpart with the same cores in every other automaton. -/
theorem IsBuilt.exists_cores_eq {automaton other : Automaton} {otherKind : AutomatonKind}
    (fresh : grammar.HasFreshStart start accept target)
    (built : automaton.IsBuilt kind grammar accept)
    (otherBuilt : other.IsBuilt otherKind grammar accept) (member : state ∈ automaton.states) :
    ∃ counterpart ∈ other.states, counterpart.kernel.cores = state.kernel.cores := by
  obtain ⟨id, found⟩ := List.getElem?_of_mem member
  have reached := (built.isSound.states id state found).kernel
  obtain ⟨string, isKernel⟩ := reached.origin
  obtain ⟨_, counterpart, _, foundOther, same⟩ :=
    otherBuilt.exists_counterpart fresh reached.nonempty isKernel
  exact ⟨counterpart, List.mem_of_getElem? foundOther, ItemSet.cores_eq_iff.mpr same⟩

/-- The merged automaton has the states of the plain one, in the same order, and each of its
lookaheads is the union of those that the core has in the canonical states with the same kernel
cores. -/
structure UnitesLookaheads (plain canonical merged : Automaton) : Prop where
  /-- There are as many states. -/
  length_eq : merged.states.length = plain.states.length
  /-- States of the same number agree in everything but the lookaheads. -/
  states : ∀ (id : Nat) (state other : State), merged.states[id]? = some state →
    plain.states[id]? = some other → state.kernel.cores = other.kernel.cores ∧
      state.items.cores = other.items.cores ∧ state.transitions = other.transitions ∧
      state.isFinal = other.isFinal
  /-- A lookahead is the union of the canonical ones. -/
  lookaheads : ∀ state ∈ merged.states, ∀ item ∈ state.items.items, ∃ allowed,
    item.lookahead = some allowed ∧ ∀ terminal, terminal ∈ allowed ↔
      ∃ other ∈ canonical.states, other.kernel.cores = state.kernel.cores ∧
        ∃ otherAllowed, ⟨item.core, some otherAllowed⟩ ∈ other.items.items ∧
          terminal ∈ otherAllowed
  /-- Every state has canonical states with the same kernel cores. -/
  exists_canonical : ∀ state ∈ merged.states, ∃ other ∈ canonical.states,
    other.kernel.cores = state.kernel.cores
  /-- Every canonical state has a state with the same kernel cores. -/
  exists_merged : ∀ other ∈ canonical.states, ∃ state ∈ merged.states,
    state.kernel.cores = other.kernel.cores

/-- For the augmentation of every well-formed grammar, merging lookaheads gives the automaton
without lookaheads, with the united lookaheads of the canonical one. -/
theorem merged_automaton_unites_canonical_lookaheads (grammar : Grammar)
    (wellFormed : grammar.WellFormed) :
    ∃ augmented first plain canonical merged, grammar.augmented = .ok augmented ∧
      FirstSets.compute augmented = .ok first ∧ build augmented first .lr0 = .ok plain ∧
      build augmented first .lr1 = .ok canonical ∧ build augmented first .lalr1 = .ok merged ∧
      UnitesLookaheads plain canonical merged := by
  obtain ⟨augmented, target, augments, starts, _, isAugmentation⟩ := wellFormed.exists_augmented
  have fresh := isAugmentation.hasFreshStart wellFormed starts
  obtain ⟨first, computed, exact⟩ := FirstSets.exists_compute_eq_ok fresh.bodies
  obtain ⟨plain, merged, buildsPlain, buildsMerged, builtPlain, builtMerged,
    sameLength, isMatch⟩ :=
    exists_matching_eq_ok fresh exact
  obtain ⟨canonical, buildsCanonical, builtCanonical⟩ := exists_build_eq_ok fresh exact .lr1
  refine ⟨augmented, first, plain, canonical, merged, augments, computed, buildsPlain,
    buildsCanonical, buildsMerged, sameLength.symm, ?_, ?_, ?_, ?_⟩
  · intro id state other found foundOther
    have same := isMatch id other state foundOther found
    have plainSound := builtPlain.isSound.states id other foundOther
    have mergedSound := builtMerged.isSound.states id state found
    refine ⟨?_, ?_, same.transitions.symm, (same.isFinal plainSound mergedSound).symm⟩
    · exact ItemSet.cores_eq_iff.mpr fun core => (same.kernel core).symm
    · exact ItemSet.cores_eq_iff.mpr fun core => (same.items plainSound mergedSound core).symm
  · intro state member item inItems
    obtain ⟨id, found⟩ := List.getElem?_of_mem member
    have isFound := ItemSet.mem_items.mp inItems
    have isMarked := (builtMerged.isSound.states id state found).closes.marked item.core _ isFound
    obtain ⟨allowed, same⟩ := Option.isSome_iff_exists.mp isMarked
    refine ⟨allowed, same, fun terminal => ?_⟩
    have united :=
      builtMerged.allows_iff_exists_canonical fresh builtCanonical found item.core terminal
    rw [same] at isFound
    simp only [ItemSet.Allows, isFound, Option.some.injEq, exists_eq_left'] at united
    simp only [united, ItemSet.cores_eq_iff, ItemSet.mem_items]
  · exact fun state member => builtMerged.exists_cores_eq fresh builtCanonical member
  · exact fun other member => builtCanonical.exists_cores_eq fresh builtMerged member

/-- In the rules `S → C C`, `C → c C` and `C → d`, the canonical automaton tells a `d` in the
first `C` from one in the second. The merged one has one state for both, and any terminal can come
after it. -/
theorem merged_automaton_unites_lookaheads_of_twoStrings :
    Grammar.twoStrings.WellFormed ∧ ∃ augmented first plain canonical merged,
      Grammar.twoStrings.augmented = .ok augmented ∧ FirstSets.compute augmented = .ok first ∧
      build augmented first .lr0 = .ok plain ∧ build augmented first .lr1 = .ok canonical ∧
      build augmented first .lalr1 = .ok merged ∧ UnitesLookaheads plain canonical merged ∧
      canonical.states.length = 10 ∧ merged.states.length = 7 ∧
      canonical.states[2]?.map State.items =
        some (.ofList [⟨⟨2, 1⟩, some (.ofList [1, 2])⟩]) ∧
      canonical.states[7]?.map State.items =
        some (.ofList [⟨⟨2, 1⟩, some (.ofList [endOfInput])⟩]) ∧
      merged.states[2]?.map State.items =
        some (.ofList [⟨⟨2, 1⟩, some (.ofList [endOfInput, 1, 2])⟩]) := by
  obtain ⟨augmented, first, plain, canonical, merged, augments, computed, buildsPlain,
    buildsCanonical, buildsMerged, unites⟩ :=
    merged_automaton_unites_canonical_lookaheads Grammar.twoStrings Grammar.wellFormed_twoStrings
  have evaluates : (Grammar.twoStrings.augmented.toOption.bind fun augmented =>
      (FirstSets.compute augmented).toOption.bind fun first =>
        (build augmented first .lr1).toOption.bind fun canonical =>
          (build augmented first .lalr1).toOption.map fun merged =>
            ([canonical.states.length, merged.states.length],
              [canonical.states[2]?, canonical.states[7]?, merged.states[2]?].map
                (Option.map State.items))) =
      some ([10, 7], [some (.ofList [⟨⟨2, 1⟩, some (.ofList [1, 2])⟩]),
        some (.ofList [⟨⟨2, 1⟩, some (.ofList [endOfInput])⟩]),
        some (.ofList [⟨⟨2, 1⟩, some (.ofList [endOfInput, 1, 2])⟩])]) := by
    decide +kernel
  simp only [augments, computed, buildsCanonical, buildsMerged, Except.toOption, Option.bind_some,
    Option.map_some, Option.some.injEq, Prod.mk.injEq, List.map_cons, List.map_nil,
    List.cons.injEq, and_true] at evaluates
  obtain ⟨⟨canonicalLength, mergedLength⟩, items⟩ := evaluates
  exact ⟨Grammar.wellFormed_twoStrings, augmented, first, plain, canonical, merged, augments,
    computed, buildsPlain, buildsCanonical, buildsMerged, unites, canonicalLength, mergedLength,
    items⟩

end Automaton

end DeterministicParsing
