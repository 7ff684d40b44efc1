/-
# All states are reached

A state is added to an automaton under construction as the target of a transition from a state that
is there already, and neither states nor transitions are ever taken away. Each state of the finished
automaton is therefore the one that some string leads to, and what is known about the states that
strings lead to is known about all of them. The history tells of each state under the number that it
keeps.
-/
import DeterministicParsing.Proofs.Automaton.Build

namespace DeterministicParsing.Automaton

variable {kind : AutomatonKind} {grammar : Grammar} {first : FirstSets}

namespace Construction

variable {construction next final : Construction} {id target : Nat} {symbol : Symbol}
  {kernel : ItemSet}

/-- All states are still there with all their transitions. -/
def Keeps (construction next : Construction) : Prop :=
  ∀ (id : Nat) (state : State), construction.states[id]? = some state → ∃ later,
    next.states[id]? = some later ∧ ∀ symbol target,
      state.transitions.find? symbol = some target → later.transitions.find? symbol = some target

theorem Keeps.refl (construction : Construction) : construction.Keeps construction :=
  fun _ state found => ⟨state, found, fun _ _ transition => transition⟩

theorem Keeps.trans (earlier : construction.Keeps next) (later : next.Keeps final) :
    construction.Keeps final := by
  intro id state found
  obtain ⟨second, foundSecond, keeps⟩ := earlier id state found
  obtain ⟨third, foundThird, keepsOn⟩ := later id second foundSecond
  exact ⟨third, foundThird, fun symbol target transition =>
    keepsOn symbol target (keeps symbol target transition)⟩

/-- The numbers under which states were made. -/
def createdIds (history : List Event) : List Nat :=
  history.filterMap fun
    | .created id _ => some id
    | .grew _ => none

/-- The states were made under the numbers that they have, one after another. -/
def IsNumbered (construction : Construction) : Prop :=
  createdIds construction.history = List.range construction.states.length

/-- Nothing is lost, a transition leads to each new state from one with a lower number, and the
history tells of it. -/
structure GrowsInto (construction next : Construction) : Prop where
  keeps : construction.Keeps next
  entered : ∀ id, construction.states.length ≤ id → id < next.states.length →
    ∃ (origin : Nat) (state : State) (symbol : Symbol), origin < id ∧
      next.states[origin]? = some state ∧ state.transitions.find? symbol = some id
  numbered : construction.IsNumbered → next.IsNumbered

namespace GrowsInto

theorem refl (construction : Construction) : construction.GrowsInto construction :=
  ⟨.refl construction, fun _ new inRange => absurd inRange (Nat.not_lt.mpr new), id⟩

theorem trans (earlier : construction.GrowsInto next) (later : next.GrowsInto final) :
    construction.GrowsInto final := by
  refine ⟨earlier.keeps.trans later.keeps, fun id new inRange => ?_,
    fun numbered => later.numbered (earlier.numbered numbered)⟩
  rcases Nat.lt_or_ge id next.states.length with old | newer
  · obtain ⟨origin, state, symbol, lower, found, transition⟩ := earlier.entered id new old
    obtain ⟨kept, foundKept, keeps⟩ := later.keeps origin state found
    exact ⟨origin, kept, symbol, lower, foundKept, keeps symbol id transition⟩
  · exact later.entered id newer inRange

/-- A state keeps its number. -/
theorem lt_length (grows : construction.GrowsInto next) (known : id < construction.states.length) :
    id < next.states.length := by
  obtain ⟨later, found, _⟩ := grows.keeps id _ (List.getElem?_eq_getElem known)
  exact (List.getElem?_eq_some_iff.mp found).1

end GrowsInto

/-- A state that takes in what arrives stays where it is, with its transitions. -/
theorem states_absorb (construction : Construction) (id : Nat) (state : State)
    (kernel items : ItemSet) :
    (construction.absorb id state kernel items).states = construction.states.set id
      { state with kernel := state.kernel.merge kernel, items := state.items.merge items } := by
  rw [absorb_eq]
  dsimp only
  split <;> rfl

/-- What a state takes in is not told of as a new state. -/
theorem IsNumbered.absorb (numbered : construction.IsNumbered) (id : Nat) (state : State)
    (kernel items : ItemSet) : (construction.absorb id state kernel items).IsNumbered := by
  rw [IsNumbered, states_absorb, List.length_set, ← numbered]
  rw [absorb_eq]
  dsimp only
  split
  · rfl
  · simp [createdIds]

/-- A state that is made is the next one, and told of as such. -/
theorem IsNumbered.of_create_eq_ok {items : ItemSet} (numbered : construction.IsNumbered)
    (creates : construction.create grammar kernel items = .ok next) : next.IsNumbered := by
  obtain ⟨isFinal, _, made⟩ := exists_of_bind_eq_ok creates
  cases made
  have known : createdIds construction.history = List.range construction.states.length := numbered
  rw [createdIds] at known
  simp [IsNumbered, createdIds, known, List.range_succ]

/-- Where a kernel arrives, the only state that can be new is the one it arrives at. -/
theorem keeps_of_arrive_eq_ok
    (arrives : construction.arrive kind grammar first kernel = .ok (target, next)) :
    construction.Keeps next ∧
      (∀ id, construction.states.length ≤ id → id < next.states.length → id = target) ∧
      (construction.IsNumbered → next.IsNumbered) := by
  unfold arrive at arrives
  split at arrives
  · obtain ⟨items, _, creates⟩ := exists_of_bind_eq_ok arrives
    obtain ⟨created, isCreated, same⟩ := exists_of_bind_eq_ok creates
    cases same
    have isNumbered (numbered : construction.IsNumbered) : next.IsNumbered :=
      numbered.of_create_eq_ok isCreated
    obtain ⟨isFinal, _, made⟩ := exists_of_bind_eq_ok isCreated
    cases made
    refine ⟨fun id state found => ⟨state, ?_, fun _ _ transition => transition⟩,
      fun id new inRange => ?_, isNumbered⟩
    · rw [List.getElem?_append_left (List.getElem?_eq_some_iff.mp found).1, found]
    · rw [List.length_append, List.length_singleton] at inRange
      exact Nat.le_antisymm (Nat.le_of_lt_succ inRange) new
  · split at arrives
    · rename_i state known _
      obtain ⟨items, _, absorbs⟩ := exists_of_bind_eq_ok arrives
      cases absorbs
      refine ⟨fun other earlier isEarlier => ?_, fun other new inRange => ?_,
        fun numbered => numbered.absorb target state kernel items⟩
      · rw [states_absorb]
        by_cases here : target = other
        · subst here
          cases known.symm.trans isEarlier
          exact ⟨_, List.getElem?_set_self (List.getElem?_eq_some_iff.mp known).1,
            fun _ _ transition => transition⟩
        · exact ⟨earlier, by rw [List.getElem?_set_ne here, isEarlier],
            fun _ _ transition => transition⟩
      · rw [states_absorb, List.length_set] at inRange
        exact absurd inRange (Nat.not_lt.mpr new)
    · cases arrives
      exact ⟨.refl _, fun _ new inRange => absurd inRange (Nat.not_lt.mpr new), id⟩

/-- Recording a transition keeps all others and adds no state. -/
theorem keeps_of_connect_eq_ok
    (connects : construction.connect grammar id symbol target = .ok next) :
    construction.Keeps next ∧ next.states.length = construction.states.length ∧
      next.history = construction.history ∧ ∃ state : State, next.states[id]? = some state ∧
        state.transitions.find? symbol = some target := by
  unfold connect at connects
  split at connects
  · cases connects
  · rename_i state found
    split at connects
    · rename_i unknown
      cases connects
      have inRange := (List.getElem?_eq_some_iff.mp found).1
      refine ⟨fun other earlier isEarlier => ?_, List.length_set, rfl, _,
        List.getElem?_set_self inRange, ?_⟩
      · by_cases here : id = other
        · subst here
          cases found.symm.trans isEarlier
          refine ⟨_, List.getElem?_set_self inRange, fun read target transition => ?_⟩
          rw [AscendingMap.find?_insert, if_neg, transition]
          rintro rfl
          cases unknown.symm.trans transition
        · exact ⟨earlier, by rw [List.getElem?_set_ne here, isEarlier],
            fun _ _ transition => transition⟩
      · rw [AscendingMap.find?_insert, if_pos rfl]
    · rename_i existing transition
      split at connects
      · rename_i same
        cases connects
        exact ⟨.refl _, rfl, rfl, state, found, same ▸ transition⟩
      · exact absurd connects bind_raise_ne_ok

/-- Following a successor adds at most its target. -/
theorem growsInto_of_follow_eq_ok {successor : Symbol × ItemSet}
    (known : id < construction.states.length)
    (follows : construction.follow kind grammar first id successor = .ok next) :
    construction.GrowsInto next := by
  obtain ⟨⟨target, arrived⟩, arrives, connects⟩ := exists_of_bind_eq_ok follows
  obtain ⟨keeps, onlyTarget, isNumbered⟩ := keeps_of_arrive_eq_ok (eq_ok_of_liftM_eq_ok arrives)
  obtain ⟨keepsOn, sameLength, sameHistory, origin, found, transition⟩ :=
    keeps_of_connect_eq_ok connects
  refine ⟨keeps.trans keepsOn, fun other new inRange => ?_, fun numbered => ?_⟩
  · obtain rfl := onlyTarget other new (sameLength ▸ inRange)
    exact ⟨id, origin, successor.1, Nat.lt_of_lt_of_le known new, found, transition⟩
  · rw [IsNumbered, sameHistory, sameLength]
    exact isNumbered numbered

theorem growsInto_of_expand_eq_ok (expands : construction.expand kind grammar first id = .ok next) :
    construction.GrowsInto next := by
  unfold expand at expands
  split at expands
  · cases expands
  · rename_i state found
    obtain ⟨successors, _, folds⟩ := exists_of_bind_eq_ok expands
    have known := (List.getElem?_eq_some_iff.mp found).1
    refine holds_of_foldlM_eq_ok (fun current successor later grows follows => ?_)
      (.refl construction) folds
    exact grows.trans (growsInto_of_follow_eq_ok (grows.lt_length known) follows)

/-- A construction grows as long as it runs. -/
theorem growsInto_of_run_eq_ok {bound : Nat}
    (runs : construction.run kind grammar first bound = .ok final) :
    construction.GrowsInto final := by
  induction bound generalizing construction with
  | zero =>
      cases runs
      exact .refl _
  | succ bound ih =>
      unfold run at runs
      split at runs
      · cases runs
        exact .refl _
      · rename_i id queue waiting
        obtain ⟨expanded, expands, runsOn⟩ := exists_of_bind_eq_ok runs
        -- The queue has no part in how a construction grows.
        have headGrows := growsInto_of_expand_eq_ok expands
        have grows : construction.GrowsInto expanded :=
          ⟨headGrows.keeps, headGrows.entered, headGrows.numbered⟩
        exact grows.trans (ih runsOn)

/-- Strings lead to all states of a construction that has grown from a single one. -/
theorem GrowsInto.exists_reaches (grows : construction.GrowsInto final)
    (single : construction.states.length = 1) (inRange : id < final.states.length) :
    ∃ string, (⟨kind, final.states⟩ : Automaton).Reaches string id := by
  induction id using Nat.strongRecOn with
  | ind id ih =>
      rcases Nat.eq_zero_or_pos id with rfl | positive
      · exact ⟨[], .start⟩
      · obtain ⟨origin, state, symbol, lower, found, transition⟩ :=
          grows.entered id (single ▸ positive) inRange
        obtain ⟨string, reaches⟩ := ih origin lower (List.getElem?_eq_some_iff.mp found).1
        exact ⟨string ++ [symbol], .read reaches found transition⟩

end Construction

/-- Strings lead to all states of an automaton. -/
theorem exists_reaches_of_build_eq_ok {start accept target : Nat} {automaton : Automaton}
    (fresh : grammar.HasFreshStart start accept target) (exact : FirstSets.Exact grammar first)
    (builds : build grammar first kind = .ok automaton) {id : Nat} {state : State}
    (found : automaton.states[id]? = some state) : ∃ string, automaton.Reaches string id := by
  obtain ⟨_, _, final, _, _, _, _, runs, _, alsoBuilds, _⟩ :=
    exists_run_seed_eq_ok fresh exact kind
  obtain ⟨built, isBuilt, same⟩ := exists_of_bind_eq_ok builds
  cases alsoBuilds.symm.trans isBuilt
  cases same
  exact (Construction.growsInto_of_run_eq_ok runs).exists_reaches rfl
    (List.getElem?_eq_some_iff.mp found).1

end DeterministicParsing.Automaton
