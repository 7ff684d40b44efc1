/-
# The structure of built automata

An automaton is coherent if its parts fit together: the items of each state are the closure of its
kernel, the states with a complete item are the final ones, a state has transitions exactly on the
symbols that its items can read, and each transition leads to the state with the kernel that
results. Where lookaheads are merged, a kernel allows what results from all transitions into its
state together. That nothing else is allowed does not have to be followed through the construction:
what a kernel allows can come after some string that leads to the kernel, and the last symbol of
that string is read by one of these transitions.
-/
import DeterministicParsing.Proofs.Automaton.Reachability

namespace DeterministicParsing.Automaton

variable {kind : AutomatonKind} {grammar : Grammar} {first : FirstSets} {start accept target : Nat}

namespace Construction

variable {construction final : Construction}

/-- States are expanded until none waits any more, however many expansions it takes. -/
inductive Finishes (kind : AutomatonKind) (grammar : Grammar) (first : FirstSets) :
    Construction → Construction → Prop where
  /-- No state waits. -/
  | idle {construction : Construction} (empty : construction.queue = []) :
      Finishes kind grammar first construction construction
  /-- The state that has waited longest is expanded. -/
  | expanded {construction next final : Construction} {id : Nat} {queue : List Nat}
      (waiting : construction.queue = id :: queue)
      (expands : { construction with queue }.expand kind grammar first id = .ok next)
      (later : Finishes kind grammar first next final) :
      Finishes kind grammar first construction final

/-- A run that leaves no state waiting was not cut short by its bound. -/
theorem finishes_of_run_eq_ok {bound : Nat}
    (runs : construction.run kind grammar first bound = .ok final) (empty : final.queue = []) :
    construction.Finishes kind grammar first final := by
  induction bound generalizing construction with
  | zero =>
      cases runs
      exact .idle empty
  | succ bound ih =>
      unfold run at runs
      split at runs
      · rename_i waiting
        cases runs
        exact .idle waiting
      · rename_i id queue waiting
        obtain ⟨next, expands, runsOn⟩ := exists_of_bind_eq_ok runs
        exact .expanded waiting expands (ih runsOn)

theorem isNumbered_of_seed_eq_ok (begins : seed grammar first kind = .ok construction) :
    construction.IsNumbered := by
  obtain ⟨rule, _, closes⟩ := exists_of_bind_eq_ok begins
  obtain ⟨items, _, creates⟩ := exists_of_bind_eq_ok closes
  have isNumbered : IsNumbered ⟨[], [], []⟩ := rfl
  exact isNumbered.of_create_eq_ok (eq_ok_of_liftM_eq_ok creates)

end Construction

/-- The parts of an automaton fit together. -/
structure IsCoherent (kind : AutomatonKind) (grammar : Grammar) (first : FirstSets)
    (automaton : Automaton) : Prop where
  /-- Items have lookaheads exactly if the construction has. -/
  marked : ∀ state ∈ automaton.states, state.kernel.Marked kind.marked
  /-- The items of a state are the closure of its kernel. -/
  close_eq : ∀ state ∈ automaton.states, kind.close grammar first state.kernel = .ok state.items
  /-- A state is final if the marker of some item stands at the end. -/
  isFinal_iff : ∀ state ∈ automaton.states,
    state.isFinal = true ↔ ∃ item ∈ state.items.items, grammar.Completes item.core
  /-- A state has a transition on the symbols that some item expects. -/
  transition_iff : ∀ state ∈ automaton.states, ∀ symbol, ∃ kernel,
    state.items.goto grammar symbol = .ok kernel ∧
      ((∃ target, state.transitions.find? symbol = some target) ↔ kernel.items ≠ [])
  /-- It leads to the state with the kernel that results, or with the same cores where lookaheads
  are merged. -/
  target_eq : ∀ state ∈ automaton.states, ∀ symbol target kernel,
    state.transitions.find? symbol = some target →
      state.items.goto grammar symbol = .ok kernel →
    ∃ next, automaton.states[target]? = some next ∧ next.kernel.cores = kernel.cores ∧
      (kind ≠ .lalr1 → next.kernel = kernel)
  /-- Merged lookaheads are those that result from all transitions into the state. -/
  merges : kind = .lalr1 → ∀ id state, id ≠ initial → automaton.states[id]? = some state →
    ∀ core terminal, state.kernel.Allows core terminal ↔
      ∃ origin ∈ automaton.states, ∃ symbol kernel,
        origin.transitions.find? symbol = some id ∧
        origin.items.goto grammar symbol = .ok kernel ∧ kernel.Allows core terminal
  /-- No two states have the same kernel, or the same cores in it where lookaheads are merged. -/
  distinct : ∀ (id other : Nat) (state otherState : State), automaton.states[id]? = some state →
    automaton.states[other]? = some otherState → state.kernel.cores = otherState.kernel.cores →
    (kind ≠ .lalr1 → state.kernel = otherState.kernel) → id = other
  /-- Transitions lead from the initial state to every state. -/
  reachable : ∀ id < automaton.states.length, ∃ string, automaton.Reaches string id
  /-- No transition leads back to the initial state. -/
  not_entered : ∀ state ∈ automaton.states, ∀ symbol,
    state.transitions.find? symbol ≠ some initial

namespace IsBuilt

variable {automaton : Automaton} {id : Nat} {state : State} {symbol : Symbol} {core : Core}
  {terminal : Nat}

theorem isSound_state (built : automaton.IsBuilt kind grammar accept)
    (member : state ∈ automaton.states) : state.IsSound kind grammar accept := by
  obtain ⟨id, found⟩ := List.getElem?_of_mem member
  exact built.isSound.states id state found

/-- The closure of the kernel of a state is found, and is what the state holds. -/
theorem close_eq (built : automaton.IsBuilt kind grammar accept) (bodies : grammar.BodiesDeclared)
    (exact : FirstSets.Exact grammar first) (member : state ∈ automaton.states) :
    kind.close grammar first state.kernel = .ok state.items := by
  have sound := built.isSound_state member
  obtain ⟨items, closed, closes⟩ := AutomatonKind.exists_close_eq_ok bodies exact
    sound.kernel.within.hasRules sound.kernel.marked
  rw [closed, closes.unique sound.closes]

/-- What the items of a state become when a symbol is read is found. -/
theorem exists_goto_eq_ok (built : automaton.IsBuilt kind grammar accept)
    (member : state ∈ automaton.states) (symbol : Symbol) :
    ∃ kernel, state.items.goto grammar symbol = .ok kernel ∧
      ItemSet.IsSuccessor grammar state.items symbol kernel ∧ kernel.Marked kind.marked := by
  have sound := built.isSound_state member
  obtain ⟨kernel, found, successor, marked⟩ :=
    ItemSet.exists_goto_eq_ok (sound.closes.within sound.kernel.within).hasRules symbol
  exact ⟨kernel, found, successor, marked _ sound.closes.marked⟩

theorem exists_transition_iff (built : automaton.IsBuilt kind grammar accept)
    (member : state ∈ automaton.states) {kernel : ItemSet}
    (successor : ItemSet.IsSuccessor grammar state.items symbol kernel) :
    (∃ target, state.transitions.find? symbol = some target) ↔ kernel.items ≠ [] := by
  obtain ⟨id, found⟩ := List.getElem?_of_mem member
  constructor
  · rintro ⟨target, transition⟩
    obtain ⟨core, rest, holds, expects⟩ := built.exists_expects found transition
    obtain ⟨lookahead, isFound⟩ := (successor.holds _).mpr ⟨core, rest, rfl, holds, expects⟩
    have inKernel : ⟨core.advanced, lookahead⟩ ∈ kernel.items := ItemSet.mem_items.mpr isFound
    exact List.ne_nil_of_mem inKernel
  · intro nonempty
    obtain ⟨item, inKernel⟩ := List.exists_mem_of_ne_nil _ nonempty
    obtain ⟨core, rest, _, holds, expects⟩ :=
      (successor.holds item.core).mp ⟨_, ItemSet.mem_items.mp inKernel⟩
    obtain ⟨target, _, transition, _⟩ :=
      built.settled id state core symbol rest found holds expects
    exact ⟨target, transition⟩

theorem exists_target_eq (built : automaton.IsBuilt kind grammar accept)
    (member : state ∈ automaton.states) {target : Nat} {kernel : ItemSet}
    (transition : state.transitions.find? symbol = some target)
    (successor : ItemSet.IsSuccessor grammar state.items symbol kernel)
    (marked : kernel.Marked kind.marked) :
    ∃ next, automaton.states[target]? = some next ∧ next.kernel.cores = kernel.cores ∧
      (kind ≠ .lalr1 → next.kernel = kernel) := by
  obtain ⟨id, found⟩ := List.getElem?_of_mem member
  obtain ⟨next, foundNext, leads⟩ :=
    built.isSound.transitions id state symbol target found transition
  have sameCores (core : Core) : next.kernel.Holds core ↔ kernel.Holds core :=
    (leads.holds core).trans (successor.holds core).symm
  refine ⟨next, foundNext, ItemSet.cores_eq_iff.mpr sameCores, fun exact => ?_⟩
  have nextMarked := (built.isSound.states target next foundNext).kernel.marked
  refine ItemSet.ext_of_marked nextMarked marked sameCores fun core terminal => ?_
  rw [(leads.isSuccessor exact).allows, successor.allows]

/-- A kernel takes in what results from each transition into its state. -/
theorem allows_of_transition (built : automaton.IsBuilt kind grammar accept)
    (found : automaton.states[id]? = some state) {origin : State} {kernel : ItemSet}
    (member : origin ∈ automaton.states) (transition : origin.transitions.find? symbol = some id)
    (successor : ItemSet.IsSuccessor grammar origin.items symbol kernel)
    (allows : kernel.Allows core terminal) : state.kernel.Allows core terminal := by
  obtain ⟨originId, foundOrigin⟩ := List.getElem?_of_mem member
  obtain ⟨earlier, rest, rfl, earlierAllows, expects⟩ :=
    (successor.allows core terminal).mp allows
  obtain ⟨target, next, alsoTransition, foundNext, taken⟩ :=
    built.settled originId origin earlier symbol rest foundOrigin earlierAllows.holds expects
  obtain rfl := Option.some.inj (transition.symm.trans alsoTransition)
  obtain rfl := Option.some.inj (found.symm.trans foundNext)
  exact taken terminal earlierAllows

/-- A state other than the initial one is entered by a string with its cores on which the terminal
can come next. -/
theorem exists_transition_of_allows (fresh : grammar.HasFreshStart start accept target)
    (built : automaton.IsBuilt .lalr1 grammar accept) (entered : id ≠ initial)
    (found : automaton.states[id]? = some state) (allows : state.kernel.Allows core terminal) :
    ∃ origin ∈ automaton.states, ∃ symbol, origin.transitions.find? symbol = some id ∧
      ∃ earlier rest, core = earlier.advanced ∧ origin.items.Allows earlier terminal ∧
        grammar.Expects earlier symbol rest := by
  -- The state is identified by the string, because no other state has its cores.
  have identified {other : Nat} {otherState : State} {string : List Symbol}
      (foundOther : automaton.states[other]? = some otherState)
      (isKernel : state.kernel.IsKernelFor grammar accept string)
      (otherKernel : otherState.kernel.IsKernelFor grammar accept string) : other = id :=
    built.isSound.distinct other id otherState state foundOther found
      ⟨fun core => otherKernel.holds_iff isKernel, fun exact => absurd rfl exact⟩
  obtain ⟨string, isKernel, valid⟩ :=
    (built.isSound.states id state found).kernel.sound core terminal allows
  have viable : grammar.ViablePrefix string := by
    obtain ⟨after, validFor, _⟩ := valid
    exact ⟨core, after, validFor⟩
  obtain ⟨other, reaches⟩ := built.exists_reaches fresh viable
  obtain ⟨otherState, foundOther⟩ := built.exists_state reaches
  obtain rfl := identified foundOther isKernel (built.isKernelFor fresh reaches foundOther)
  obtain rfl := Option.some.inj (foundOther.symm.trans found)
  cases reaches with
  | start => exact absurd rfl entered
  | @read string originId _ origin symbol earlier foundOrigin transition =>
      obtain ⟨next, foundNext, leads⟩ :=
        built.isSound.transitions originId origin symbol other foundOrigin transition
      obtain rfl := Option.some.inj (foundNext.symm.trans found)
      obtain ⟨_, _, rfl, _⟩ := (leads.holds core).mp allows.holds
      obtain ⟨before, rest, isAdvanced, validBefore, expects⟩ :=
        valid.exists_earlier (Nat.succ_pos _)
      exact ⟨origin, List.mem_of_getElem? foundOrigin, symbol, transition, before, rest,
        isAdvanced, built.allows_of_validLookahead fresh rfl earlier foundOrigin validBefore,
        expects⟩

/-- The initial state holds the accept rule with nothing read, which no transition results in. -/
theorem not_entered (fresh : grammar.HasFreshStart start accept target)
    (built : automaton.IsBuilt kind grammar accept) (member : state ∈ automaton.states)
    (symbol : Symbol) : state.transitions.find? symbol ≠ some initial := by
  intro transition
  obtain ⟨id, found⟩ := List.getElem?_of_mem member
  obtain ⟨begun, foundBegun, isKernel, _⟩ := built.isSound.initial
  obtain ⟨next, foundNext, leads⟩ :=
    built.isSound.transitions id state symbol initial found transition
  obtain rfl := Option.some.inj (foundNext.symm.trans foundBegun)
  have valid := (Grammar.Frame.start fresh.start_eq).validFor fresh.found rfl
  have holds := (isKernel ⟨accept, 0⟩).mpr ⟨⟨_, valid⟩, .inr rfl⟩
  obtain ⟨earlier, _, same, _⟩ := (leads.holds ⟨accept, 0⟩).mp holds
  cases same

/-- The automaton that is built is coherent. -/
theorem isCoherent (fresh : grammar.HasFreshStart start accept target)
    (exact : FirstSets.Exact grammar first) (built : automaton.IsBuilt kind grammar accept)
    (reachable : ∀ id state, automaton.states[id]? = some state →
      ∃ string, automaton.Reaches string id) :
    automaton.IsCoherent kind grammar first where
  marked state member := (built.isSound_state member).kernel.marked
  close_eq state member := built.close_eq fresh.bodies exact member
  isFinal_iff state member := by
    rw [(built.isSound_state member).isFinal_iff]
    constructor
    · rintro ⟨core, ⟨lookahead, found⟩, completes⟩
      exact ⟨⟨core, lookahead⟩, ItemSet.mem_items.mpr found, completes⟩
    · rintro ⟨item, inItems, completes⟩
      exact ⟨item.core, ⟨_, ItemSet.mem_items.mp inItems⟩, completes⟩
  transition_iff state member symbol := by
    obtain ⟨kernel, found, successor, _⟩ := built.exists_goto_eq_ok member symbol
    exact ⟨kernel, found, built.exists_transition_iff member successor⟩
  target_eq state member symbol target kernel transition results := by
    obtain ⟨_, found, successor, marked⟩ := built.exists_goto_eq_ok member symbol
    cases results.symm.trans found
    exact built.exists_target_eq member transition successor marked
  merges := by
    rintro rfl id state entered found core terminal
    constructor
    · intro allows
      obtain ⟨origin, member, symbol, transition, moved⟩ :=
        built.exists_transition_of_allows fresh entered found allows
      obtain ⟨kernel, results, successor, _⟩ := built.exists_goto_eq_ok member symbol
      exact ⟨origin, member, symbol, kernel, transition, results,
        (successor.allows core terminal).mpr moved⟩
    · rintro ⟨origin, member, symbol, kernel, transition, results, allows⟩
      obtain ⟨_, alsoResults, successor, _⟩ := built.exists_goto_eq_ok member symbol
      cases results.symm.trans alsoResults
      exact built.allows_of_transition found member transition successor allows
  distinct id other state otherState found foundOther sameCores sameKernels := by
    refine built.isSound.distinct id other state otherState found foundOther
      ⟨ItemSet.cores_eq_iff.mp sameCores, fun exact core terminal => ?_⟩
    rw [sameKernels exact]
  reachable id inRange := reachable id _ (List.getElem?_eq_getElem inRange)
  not_entered state member := built.not_entered fresh member

end IsBuilt

/-- For the augmentation of every well-formed grammar and every kind of automaton: the construction
begins with one state, goes on until no state waits, and succeeds. Its states were made under the
numbers that they have, one after another. The automaton is coherent: the items of each state are
the closure of its kernel, the final states are those with a complete item, each state has
transitions exactly on the symbols that its items can read, and these lead to the state with the
kernel that results, or where lookaheads are merged, to the state with its cores, which allows
exactly what results from all transitions into it. No two states have the same kernel, all are
reached from the initial one, and no transition leads back to that. -/
theorem built_automata_are_coherent (grammar : Grammar) (wellFormed : grammar.WellFormed) :
    ∃ augmented first, grammar.augmented = .ok augmented ∧
      FirstSets.compute augmented = .ok first ∧
      ∀ kind, ∃ begun final, seed augmented first kind = .ok begun ∧
        begun.Finishes kind augmented first final ∧
        buildWithHistory augmented first kind = .ok (⟨kind, final.states⟩, final.history) ∧
        build augmented first kind = .ok ⟨kind, final.states⟩ ∧
        Construction.createdIds final.history = List.range final.states.length ∧
        IsCoherent kind augmented first ⟨kind, final.states⟩ := by
  obtain ⟨augmented, target, augments, starts, _, isAugmentation⟩ := wellFormed.exists_augmented
  have fresh := isAugmentation.hasFreshStart wellFormed starts
  obtain ⟨first, computed, exact⟩ := FirstSets.exists_compute_eq_ok fresh.bodies
  refine ⟨augmented, first, augments, computed, fun kind => ?_⟩
  obtain ⟨state, history, final, begins, _, _, _, runs, empty, buildsWith, built⟩ :=
    exists_run_seed_eq_ok fresh exact kind
  have builds : build augmented first kind = .ok ⟨kind, final.states⟩ := by
    simp [build, buildsWith]
  refine ⟨_, final, begins, Construction.finishes_of_run_eq_ok runs empty, buildsWith, builds,
    (Construction.growsInto_of_run_eq_ok runs).numbered
      (Construction.isNumbered_of_seed_eq_ok begins), ?_⟩
  exact built.isCoherent fresh exact fun id state =>
    exists_reaches_of_build_eq_ok fresh exact builds

/-- The automaton of `S → ( S ) S` and `S → ε` with merged lookaheads has six states. The one
that `(` leads to, from three of them, allows `)` and the end of the input after the rule. -/
theorem automaton_of_brackets_is_coherent :
    Grammar.brackets.WellFormed ∧ ∃ augmented first automaton,
      Grammar.brackets.augmented = .ok augmented ∧ FirstSets.compute augmented = .ok first ∧
      build augmented first .lalr1 = .ok automaton ∧
      automaton.IsCoherent .lalr1 augmented first ∧
      automaton.states.map (·.transitions.entries.map Prod.snd) =
        [[1, 2], [1, 3], [], [4], [1, 5], []] ∧
      automaton.states[1]?.map State.kernel =
        some (.ofList [⟨⟨0, 1⟩, some (.ofList [endOfInput, 2])⟩]) := by
  obtain ⟨augmented, first, augments, computed, automata⟩ :=
    built_automata_are_coherent Grammar.brackets Grammar.wellFormed_brackets
  obtain ⟨begun, final, _, _, _, builds, _, coherent⟩ := automata .lalr1
  have evaluates : (Grammar.brackets.augmented.toOption.bind fun augmented =>
      (FirstSets.compute augmented).toOption.bind fun first =>
        (build augmented first .lalr1).toOption.map fun automaton =>
          (automaton.states.map (·.transitions.entries.map Prod.snd),
            automaton.states[1]?.map State.kernel)) =
      some ([[1, 2], [1, 3], [], [4], [1, 5], []],
        some (.ofList [⟨⟨0, 1⟩, some (.ofList [endOfInput, 2])⟩])) := by
    decide +kernel
  simp only [augments, computed, builds, Except.toOption, Option.bind_some, Option.map_some,
    Option.some.injEq, Prod.mk.injEq] at evaluates
  exact ⟨Grammar.wellFormed_brackets, augmented, first, _, augments, computed, builds, coherent,
    evaluates⟩

end DeterministicParsing.Automaton
