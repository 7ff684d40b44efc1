/-
# Routes through an automaton

A route is a sequence of transitions, each of which leads to the state of the next one. Walks are
the states along routes, and the strings that lead to a state are the symbols along the routes from
the initial state to it. The search for reachable states finds a route to each of them: what it has
found is distinct and on routes, and whatever it has followed has all its targets among what it has
found. Going back along a string from some states leads to the states from which a route with these
symbols leads to one of them.
-/
import DeterministicParsing.Automaton.Reachability
import DeterministicParsing.Proofs.Automaton.Recognition

namespace DeterministicParsing.Automaton

variable {automaton : Automaton} {first middle last id : Nat} {symbol : Symbol}
  {string : List Symbol} {path rest : List (Nat × Symbol)}

/-! ## Routes and walks -/

/-- Transitions lead one after another from the first state to the last. -/
inductive IsRoute (automaton : Automaton) : Nat → List (Nat × Symbol) → Nat → Prop where
  | nil (id : Nat) : IsRoute automaton id [] id
  | cons {id next last : Nat} {symbol : Symbol} {path : List (Nat × Symbol)} {state : State}
      (found : automaton.states[id]? = some state)
      (transition : state.transitions.find? symbol = some next)
      (rest : IsRoute automaton next path last) : IsRoute automaton id ((id, symbol) :: path) last

namespace IsRoute

theorem append (route : automaton.IsRoute first path middle)
    (goesOn : automaton.IsRoute middle rest last) :
    automaton.IsRoute first (path ++ rest) last := by
  induction route with
  | nil => exact goesOn
  | cons found transition _ ih => exact .cons found transition (ih goesOn)

theorem exists_of_append (route : automaton.IsRoute first (path ++ rest) last) :
    ∃ middle, automaton.IsRoute first path middle ∧ automaton.IsRoute middle rest last := by
  induction path generalizing first with
  | nil => exact ⟨first, .nil first, route⟩
  | cons transition path ih =>
      cases route with
      | cons found moves goesOn =>
          obtain ⟨middle, here, there⟩ := ih goesOn
          exact ⟨middle, .cons found moves here, there⟩

/-- The state of a transition is where the route in front of it leads. -/
theorem of_snoc {state : Nat} (route : automaton.IsRoute first (path ++ [(state, symbol)]) last) :
    automaton.IsRoute first path state := by
  obtain ⟨middle, here, there⟩ := route.exists_of_append
  cases there
  exact here

/-- A walk visits the states of a route. -/
theorem walk_eq (route : automaton.IsRoute first path last) :
    automaton.walk first (path.map Prod.snd) = .ok (some (path.map Prod.fst ++ [last])) := by
  induction route with
  | nil => rfl
  | cons found transition _ ih => simp [walk, transition_eq_ok found, transition, ih]

/-- The symbols of a route lead on to its last state. -/
theorem reaches (route : automaton.IsRoute first path last)
    (earlier : automaton.Reaches string first) :
    automaton.Reaches (string ++ path.map Prod.snd) last := by
  induction route generalizing string with
  | nil => simpa using earlier
  | cons found transition _ ih => simpa using ih (.read earlier found transition)

/-- Every symbol along a route occurs in the body of a rule. -/
theorem exists_mem_body {kind : AutomatonKind} {grammar : Grammar} {accept : Nat}
    (route : automaton.IsRoute first path last) (built : automaton.IsBuilt kind grammar accept)
    (member : symbol ∈ path.map Prod.snd) : ∃ rule ∈ grammar.rules, symbol ∈ rule.body := by
  induction route with
  | nil => cases member
  | cons found transition _ ih =>
      rcases List.mem_cons.mp member with rfl | later
      · obtain ⟨core, rest, _, rule, isRule, expected⟩ := built.exists_expects found transition
        refine ⟨rule, List.mem_of_getElem? isRule, List.mem_of_mem_drop (i := core.marker) ?_⟩
        rw [expected]
        exact .head _
      · exact ih later

end IsRoute

/-- A walk that goes through is a route. -/
theorem isRoute_of_walk_eq {visited : List Nat}
    (walks : automaton.walk first string = .ok (some visited)) :
    ∃ last, automaton.IsRoute first (visited.zip string) last ∧ visited.getLast? = some last ∧
      (visited.zip string).map Prod.snd = string := by
  induction string generalizing first visited with
  | nil =>
      cases walks
      exact ⟨first, .nil first, rfl, rfl⟩
  | cons symbol string ih =>
      obtain ⟨target, moves, goesOn⟩ := exists_of_bind_eq_ok walks
      cases target with
      | none => cases goesOn
      | some target =>
          obtain ⟨result, walksOn, isVisited⟩ := exists_of_bind_eq_ok goesOn
          obtain ⟨later, rfl, rfl⟩ := Option.map_eq_some_iff.mp (Except.ok.inj isVisited)
          obtain ⟨last, route, isLast, symbols⟩ := ih walksOn
          obtain ⟨state, isState, found⟩ := exists_of_bind_eq_ok moves
          have known : automaton.states[first]? = some state := by
            rw [Automaton.state] at isState
            cases inRange : automaton.states[first]? with
            | none => simp [inRange] at isState
            | some other =>
                rw [inRange] at isState
                rw [Except.ok.inj isState]
          refine ⟨last, .cons known (Except.ok.inj found) route, ?_, by simp [symbols]⟩
          rw [List.getLast?_cons, isLast, Option.getD_some]

/-- A string that leads to a state is what is read along a route to it. -/
theorem Reaches.exists_isRoute (reaches : automaton.Reaches string id) :
    ∃ path, automaton.IsRoute initial path id ∧ path.map Prod.snd = string := by
  induction reaches with
  | start => exact ⟨[], .nil _, rfl⟩
  | read _ found transition ih =>
      obtain ⟨path, route, rfl⟩ := ih
      exact ⟨_, route.append (.cons found transition (.nil _)), by simp⟩

/-! ## Going back -/

theorem exists_predecessors_eq_ok (automaton : Automaton) (symbol : Symbol) (targets : List Nat) :
    ∃ sources, automaton.predecessors symbol targets = .ok sources ∧ ∀ id, id ∈ sources ↔
      ∃ state next, automaton.states[id]? = some state ∧
        state.transitions.find? symbol = some next ∧ next ∈ targets := by
  obtain ⟨sources, filtered, mem_sources⟩ : ∃ sources,
      automaton.predecessors symbol targets = .ok sources ∧
        ∀ id, id ∈ sources ↔ id ∈ automaton.stateIds ∧ ∃ state next,
          automaton.states[id]? = some state ∧
          state.transitions.find? symbol = some next ∧ next ∈ targets := by
    refine exists_filterM_eq_ok fun id member => ?_
    obtain ⟨state, found⟩ : ∃ state, automaton.states[id]? = some state :=
      ⟨_, List.getElem?_eq_getElem (List.mem_range.mp member)⟩
    rw [transition_eq_ok found, ok_bind]
    cases moves : state.transitions.find? symbol with
    | none => exact ⟨false, rfl, by simp [found, moves]⟩
    | some next => exact ⟨targets.contains next, rfl, by simp [found, moves]⟩
  refine ⟨sources, filtered, fun id => ?_⟩
  rw [mem_sources, and_iff_right_of_imp]
  rintro ⟨state, _, found, _⟩
  exact List.mem_range.mpr (List.getElem?_eq_some_iff.mp found).1

/-- Going back along a string leads to where the routes with these symbols begin. -/
theorem exists_foldrM_predecessors_eq_ok (automaton : Automaton)
    (string : List Symbol) (last : Nat) :
    ∃ sources, string.foldrM automaton.predecessors [last] = .ok sources ∧ ∀ id,
      id ∈ sources ↔ ∃ path, automaton.IsRoute id path last ∧
        path.map Prod.snd = string := by
  induction string with
  | nil =>
      refine ⟨[last], rfl, fun id => ?_⟩
      rw [List.mem_singleton]
      constructor
      · rintro rfl
        exact ⟨[], .nil id, rfl⟩
      · rintro ⟨path, route, empty⟩
        obtain rfl := List.map_eq_nil_iff.mp empty
        cases route
        rfl
  | cons symbol string ih =>
      obtain ⟨targets, folded, mem_targets⟩ := ih
      obtain ⟨sources, found, mem_sources⟩ := automaton.exists_predecessors_eq_ok symbol targets
      refine ⟨sources, by rw [List.foldrM_cons, folded, ok_bind, found], fun id => ?_⟩
      rw [mem_sources]
      constructor
      · rintro ⟨state, next, isState, moves, isTarget⟩
        obtain ⟨path, route, rfl⟩ := (mem_targets next).mp isTarget
        exact ⟨_, .cons isState moves route, rfl⟩
      · rintro ⟨path, route, symbols⟩
        cases route with
        | nil => cases symbols
        | cons isState moves goesOn =>
            obtain ⟨rfl, rfl⟩ := List.cons.inj symbols
            exact ⟨_, _, isState, moves, (mem_targets _).mpr ⟨_, goesOn, rfl⟩⟩

/-! ## Reachable states -/

/-- What has been found is distinct and on routes. -/
structure AreReached (automaton : Automaton) (found : List Reached) : Prop where
  distinct : (found.map Reached.state).Nodup
  isRoute : ∀ reached ∈ found, automaton.IsRoute initial reached.trail.reverse reached.state

/-- All targets of a state have been found. -/
def IsFollowed (automaton : Automaton) (found : List Reached) (id : Nat) : Prop :=
  ∀ state symbol next, automaton.states[id]? = some state →
    state.transitions.find? symbol = some next → next ∈ found.map Reached.state

variable {found : List Reached} {origin : Reached}

/-- Following a transition adds its target at the end, unless it has been found before. -/
theorem AreReached.reachVia (areReached : automaton.AreReached found) (member : origin ∈ found)
    {state : State} (isState : automaton.states[origin.state]? = some state)
    {transition : Symbol × Nat}
    (moves : state.transitions.find? transition.1 = some transition.2) :
    automaton.AreReached (reachVia origin found transition) ∧
      found <+: Automaton.reachVia origin found transition ∧
      transition.2 ∈ (Automaton.reachVia origin found transition).map Reached.state := by
  rw [Automaton.reachVia]
  split
  · rename_i known
    obtain ⟨reached, isFound, same⟩ := List.any_eq_true.mp known
    refine ⟨areReached, List.prefix_refl _,
      List.mem_map.mpr ⟨reached, isFound, by simpa using same⟩⟩
  · rename_i isNew
    have absent : transition.2 ∉ found.map Reached.state := by
      intro old
      obtain ⟨reached, isFound, same⟩ := List.mem_map.mp old
      exact isNew (List.any_eq_true.mpr ⟨reached, isFound, by simp [same]⟩)
    refine ⟨⟨?_, ?_⟩, List.prefix_append _ _, by simp⟩
    · rw [List.map_append, List.map_singleton, ← List.concat_eq_append]
      exact areReached.distinct.concat absent
    · intro reached isMember
      rcases List.mem_append.mp isMember with old | new
      · exact areReached.isRoute reached old
      · rw [List.mem_singleton.mp new, List.reverse_cons]
        exact (areReached.isRoute origin member).append (.cons isState moves (.nil _))

theorem AreReached.foldl_reachVia (areReached : automaton.AreReached found)
    (member : origin ∈ found) {state : State}
    (isState : automaton.states[origin.state]? = some state) {transitions : List (Symbol × Nat)}
    (moves : ∀ transition ∈ transitions,
      state.transitions.find? transition.1 = some transition.2) :
    automaton.AreReached (transitions.foldl (Automaton.reachVia origin) found) ∧
      found <+: transitions.foldl (Automaton.reachVia origin) found ∧
      ∀ transition ∈ transitions,
        transition.2 ∈
          (transitions.foldl (Automaton.reachVia origin) found).map Reached.state := by
  induction transitions generalizing found with
  | nil => exact ⟨areReached, List.prefix_refl _, by simp⟩
  | cons transition transitions ih =>
      obtain ⟨next, extended, isTarget⟩ :=
        areReached.reachVia member isState (moves transition (by simp))
      obtain ⟨final, extendedOn, areTargets⟩ := ih next (extended.subset member)
        fun other later => moves other (by simp [later])
      refine ⟨final, extended.trans extendedOn, fun other isMember => ?_⟩
      rcases List.mem_cons.mp isMember with rfl | later
      · exact (extendedOn.map Reached.state).subset isTarget
      · exact areTargets other later

theorem IsFollowed.mono {final : List Reached} (followed : automaton.IsFollowed found id)
    (extended : found <+: final) : automaton.IsFollowed final id :=
  fun state symbol next isState moves =>
    (extended.map Reached.state).subset (followed state symbol next isState moves)

theorem isFollowed_of_mem {state : State} (isState : automaton.states[id]? = some state)
    (areTargets : ∀ transition ∈ state.transitions.entries,
      transition.2 ∈ found.map Reached.state) : automaton.IsFollowed found id := by
  intro other symbol next isOther moves
  obtain rfl := Option.some.inj (isState.symm.trans isOther)
  exact areTargets (symbol, next) (AscendingMap.mem_entries.mpr moves)

/-- There are no more states to be found than the automaton has. -/
theorem AreReached.length_le (areReached : automaton.AreReached found)
    (within : ∀ string id, automaton.Reaches string id → id < automaton.states.length) :
    found.length ≤ automaton.states.length := by
  have inRange : found.map Reached.state ⊆ List.range automaton.states.length := by
    intro id member
    obtain ⟨reached, isFound, rfl⟩ := List.mem_map.mp member
    exact List.mem_range.mpr (within _ _ ((areReached.isRoute reached isFound).reaches .start))
  simpa using (areReached.distinct.subperm inRange).length_le

/-- What has been found before an index has been followed. -/
def FollowedBefore (automaton : Automaton) (index : Nat) (found : List Reached) : Prop :=
  ∀ before reached, before < index → found[before]? = some reached →
    automaton.IsFollowed found reached.state

/-- Once the index is beyond what has been found, all of it has been followed. -/
theorem FollowedBefore.isFollowed {index : Nat} (followed : automaton.FollowedBefore index found)
    (beyond : found.length ≤ index) :
    ∀ reached ∈ found, automaton.IsFollowed found reached.state := by
  intro reached member
  obtain ⟨before, inRange, same⟩ := List.mem_iff_getElem.mp member
  exact followed before reached (by omega) (by rw [List.getElem?_eq_getElem inRange, same])

/-- Following what has been found at the index moves the index on. -/
theorem FollowedBefore.succ {index : Nat} {final : List Reached}
    (followed : automaton.FollowedBefore index found) (isOrigin : found[index]? = some origin)
    (extended : found <+: final) (originFollowed : automaton.IsFollowed final origin.state) :
    automaton.FollowedBefore (index + 1) final := by
  intro before reached earlier isReached
  have old : found[before]? = some reached := by
    have short : before < found.length :=
      Nat.lt_of_lt_of_le earlier (List.getElem?_eq_some_iff.mp isOrigin).1
    obtain ⟨later, isExtension⟩ := extended
    rwa [← isExtension, List.getElem?_append_left short] at isReached
  rcases Nat.lt_succ_iff_lt_or_eq.mp earlier with before | rfl
  · exact (followed _ reached before old).mono extended
  · obtain rfl := Option.some.inj (isOrigin.symm.trans old)
    exact originFollowed

/-- The search follows everything that it finds. -/
theorem AreReached.exists_reachFrom_eq_ok (areReached : automaton.AreReached found)
    (within : ∀ string id, automaton.Reaches string id → id < automaton.states.length)
    {bound index : Nat} (followed : automaton.FollowedBefore index found)
    (enough : automaton.states.length ≤ bound + index) :
    ∃ final, automaton.reachFrom bound index found = .ok final ∧ automaton.AreReached final ∧
      found <+: final ∧ ∀ reached ∈ final, automaton.IsFollowed final reached.state := by
  induction bound generalizing index found with
  | zero =>
      have few := areReached.length_le within
      exact ⟨found, rfl, areReached, List.prefix_refl _, followed.isFollowed (by omega)⟩
  | succ bound ih =>
      rw [reachFrom]
      cases isOrigin : found[index]? with
      | none =>
          have beyond := List.getElem?_eq_none_iff.mp isOrigin
          exact ⟨found, rfl, areReached, List.prefix_refl _, followed.isFollowed beyond⟩
      | some origin =>
          have member := List.mem_of_getElem? isOrigin
          have inRange := within _ _ ((areReached.isRoute origin member).reaches .start)
          have isState : automaton.states[origin.state]? = some automaton.states[origin.state] :=
            List.getElem?_eq_getElem inRange
          obtain ⟨nextReached, extended, areTargets⟩ := areReached.foldl_reachVia member isState
            fun transition isEntry => AscendingMap.mem_entries.mp isEntry
          obtain ⟨final, searched, finalReached, extendedOn, finalFollowed⟩ :=
            ih nextReached (followed.succ isOrigin extended (isFollowed_of_mem isState areTargets))
              (by omega)
          refine ⟨final, ?_, finalReached, extended.trans extendedOn, finalFollowed⟩
          simp only [Automaton.state, isState, ok_bind, searched]

/-- All states to which strings lead are found, each with a route to it. -/
theorem exists_reachable_eq_ok
    (within : ∀ string id, automaton.Reaches string id → id < automaton.states.length) :
    ∃ found, automaton.reachable = .ok found ∧
      (∀ reached ∈ found, automaton.IsRoute initial reached.trail.reverse reached.state) ∧
      ∀ string id, automaton.Reaches string id → ∃ reached ∈ found, reached.state = id := by
  have areReached : automaton.AreReached [⟨initial, []⟩] := by
    refine ⟨List.nodup_singleton _, fun reached member => ?_⟩
    rw [List.mem_singleton.mp member]
    exact .nil _
  have nothing : automaton.FollowedBefore 0 [⟨initial, []⟩] :=
    fun before _ impossible => absurd impossible (Nat.not_lt_zero before)
  obtain ⟨found, searched, finalReached, extended, followed⟩ :=
    areReached.exists_reachFrom_eq_ok within nothing (Nat.le_refl automaton.states.length)
  refine ⟨found, searched, finalReached.isRoute, fun string id reaches => ?_⟩
  induction reaches with
  | start => exact ⟨_, extended.subset (List.mem_singleton.mpr rfl), rfl⟩
  | read _ isState moves ih =>
      obtain ⟨reached, member, rfl⟩ := ih
      exact List.mem_map.mp (followed reached member _ _ _ isState moves)

/-! ## The nearest state -/

section Picking

variable {α : Type} {pick : Option α → α → Option α} {list : List α}

/-- Picking the better one time after time comes down to what there was at first or a member of the
list. -/
theorem eq_or_mem_of_foldl_pick {best : Option α} {chosen : α}
    (picked : list.foldl pick best = some chosen) (first : ∀ next, pick none next = some next)
    (better : ∀ known next, pick (some known) next = some known ∨
      pick (some known) next = some next) : best = some chosen ∨ chosen ∈ list := by
  induction list generalizing best with
  | nil => exact .inl picked
  | cons next list ih =>
      have isFirst : pick best next = best ∨ pick best next = some next := by
        cases best with
        | none => exact .inr (first next)
        | some known => exact better known next
      rcases ih picked with same | later
      · rcases isFirst with kept | taken
        · exact .inl (kept ▸ same)
        · rw [taken, Option.some.injEq] at same
          exact .inr (same ▸ .head _)
      · exact .inr (.tail _ later)

/-- Something is picked if there is anything to pick from. -/
theorem eq_nil_of_foldl_pick {best : Option α} (picked : list.foldl pick best = none)
    (first : ∀ next, pick none next = some next)
    (better : ∀ known next, pick (some known) next = some known ∨
      pick (some known) next = some next) : best = none ∧ list = [] := by
  induction list generalizing best with
  | nil => exact ⟨picked, rfl⟩
  | cons next list ih =>
      have impossible := (ih picked).1
      cases best with
      | none => simp [first] at impossible
      | some known =>
          rcases better known next with kept | taken
          · simp [kept] at impossible
          · simp [taken] at impossible

end Picking

/-- The nearest of some states is one of them that has been reached. There is none only if none of
them has been reached. -/
theorem nearest_spec (reached : List Reached) (states : List Nat) :
    (nearest reached states = none → ∀ origin ∈ reached, origin.state ∉ states) ∧
    ∀ origin, nearest reached states = some origin →
      origin ∈ reached ∧ origin.state ∈ states := by
  refine ⟨fun none origin isReached isState => ?_, fun origin isNearest => ?_⟩
  · obtain ⟨_, empty⟩ := eq_nil_of_foldl_pick none (fun _ => rfl)
      fun _ _ => (ite_eq_or_eq _ _ _).symm
    rw [List.filterMap_eq_nil_iff] at empty
    exact absurd (List.find?_eq_none.mp (empty _ isState) origin isReached) (by simp)
  · have member := (eq_or_mem_of_foldl_pick isNearest (fun _ => rfl)
      fun _ _ => (ite_eq_or_eq _ _ _).symm).resolve_left (by simp)
    obtain ⟨id, isState, found⟩ := List.mem_filterMap.mp member
    have same : origin.state = id := by simpa using List.find?_some found
    exact ⟨List.mem_of_find?_eq_some found, same ▸ isState⟩

end DeterministicParsing.Automaton
