/-
# Canonical automata know the valid items

Reading a string in an automaton without merged lookaheads leads to a state exactly if the string is
a viable prefix. The state then holds exactly the cores that are valid for the string, and with
lookaheads each of them has exactly the terminals that can come after it.
-/
import DeterministicParsing.Proofs.Automaton.Build

namespace DeterministicParsing

namespace Automaton

variable {kind : AutomatonKind} {grammar : Grammar} {start accept target : Nat}
  {automaton : Automaton}

/-- Reading the string succeeds exactly if it is a viable prefix, and ends in a state of which the
given property holds. -/
def RecognisesWith (automaton : Automaton) (grammar : Grammar) (string : List Symbol)
    (property : State → Prop) : Prop :=
  ∃ result, automaton.walk initial string = .ok result ∧
    (result.isSome = true ↔ grammar.ViablePrefix string) ∧
    ∀ visited, result = some visited → ∃ id state, visited.getLast? = some id ∧
      automaton.state id = .ok state ∧ property state

theorem transition_eq_ok {id : Nat} {state : State} (found : automaton.states[id]? = some state)
    (symbol : Symbol) :
    automaton.transition id symbol = .ok (state.transitions.find? symbol) := by
  simp [transition, Automaton.state, found]

/-- Reading on from a state that a string leads to. -/
theorem IsBuilt.exists_walk_eq_ok (fresh : grammar.HasFreshStart start accept target)
    (built : automaton.IsBuilt kind grammar accept) {string : List Symbol} {id : Nat}
    (reaches : automaton.Reaches string id) (rest : List Symbol) :
    ∃ result, automaton.walk id rest = .ok result ∧
      (result.isSome = true ↔ grammar.ViablePrefix (string ++ rest)) ∧
      ∀ visited, result = some visited → ∃ last, visited.getLast? = some last ∧
        automaton.Reaches (string ++ rest) last := by
  induction rest generalizing string id with
  | nil =>
      rw [List.append_nil]
      refine ⟨some [id], rfl, iff_of_true rfl (built.viablePrefix fresh reaches), ?_⟩
      rintro visited ⟨⟩
      exact ⟨id, rfl, reaches⟩
  | cons symbol rest ih =>
      obtain ⟨state, found⟩ := built.exists_state reaches
      rw [walk, transition_eq_ok found, ok_bind]
      cases transition : state.transitions.find? symbol with
      | none =>
          refine ⟨none, rfl, iff_of_false (by simp) fun viable => ?_, by simp⟩
          rw [List.append_cons] at viable
          obtain ⟨next, isNext⟩ := built.exists_transition fresh reaches found viable.of_append
          rw [transition] at isNext
          cases isNext
      | some next =>
          obtain ⟨result, walks, viable, leads⟩ := ih (.read reaches found transition)
          rw [← List.append_cons] at viable leads
          refine ⟨result.map (id :: ·), by simp [walks], by simpa using viable, ?_⟩
          intro visited isVisited
          obtain ⟨others, rfl, rfl⟩ := Option.map_eq_some_iff.mp isVisited
          obtain ⟨last, isLast, reachesLast⟩ := leads others rfl
          refine ⟨last, ?_, reachesLast⟩
          rw [List.getLast?_cons, isLast]
          rfl

theorem IsBuilt.recognisesWith (fresh : grammar.HasFreshStart start accept target)
    (built : automaton.IsBuilt kind grammar accept) {string : List Symbol}
    {property : State → Prop}
    (known : ∀ id state, automaton.Reaches string id → automaton.states[id]? = some state →
      property state) :
    automaton.RecognisesWith grammar string property := by
  obtain ⟨result, walks, viable, leads⟩ := built.exists_walk_eq_ok fresh .start string
  refine ⟨result, walks, viable, fun visited isVisited => ?_⟩
  obtain ⟨last, isLast, reaches⟩ := leads visited isVisited
  obtain ⟨state, found⟩ := built.exists_state reaches
  exact ⟨last, state, isLast, by simp [Automaton.state, found], known last state reaches found⟩

/-- What the initial state allows can come after the empty string. -/
theorem IsBuilt.validLookahead_initial (fresh : grammar.HasFreshStart start accept target)
    (built : automaton.IsBuilt kind grammar accept) {state : State}
    (found : automaton.states[initial]? = some state) {core : Core} {terminal : Nat}
    (allows : state.kernel.Allows core terminal) : grammar.ValidLookahead [] core terminal := by
  obtain ⟨string, isKernel, valid⟩ :=
    (built.isSound.states initial state found).kernel.sound core terminal allows
  have acceptValid := (Grammar.Frame.start fresh.start_eq).validFor fresh.found rfl
  have holds :=
    (built.isKernelFor fresh .start found ⟨accept, 0⟩).mpr ⟨⟨_, acceptValid⟩, .inr rfl⟩
  obtain ⟨⟨after, alsoValid⟩, _⟩ := (isKernel ⟨accept, 0⟩).mp holds
  obtain ⟨rfl, _⟩ := fresh.eq_of_validFor_accept alsoValid
  exact valid

/-- If the kernel of a state allows only what can come after a string, so do its items. -/
theorem IsBuilt.validLookahead_of_kernel (fresh : grammar.HasFreshStart start accept target)
    (built : automaton.IsBuilt kind grammar accept) {string : List Symbol} {id : Nat}
    {state : State} (reaches : automaton.Reaches string id)
    (found : automaton.states[id]? = some state)
    (sound : ∀ core terminal, state.kernel.Allows core terminal →
      grammar.ValidLookahead string core terminal)
    (marked : kind.marked = true) {core : Core} {terminal : Nat}
    (allows : state.items.Allows core terminal) : grammar.ValidLookahead string core terminal := by
  rw [(built.isSound.states id state found).closes.allows marked] at allows
  have isKernel := built.isKernelFor fresh reaches found
  obtain ⟨other, rfl, valid⟩ :=
    @ItemSet.exists_validLookahead_of_closureAllows grammar start accept target state.kernel core
      terminal fresh {string} (Set.singleton_nonempty string) (fun other same => same ▸ isKernel)
      (fun core terminal isAllowed => ⟨string, rfl, sound core terminal isAllowed⟩) allows
  exact valid

/-- Without merging, what a state allows can come after every string that leads to it. -/
theorem IsBuilt.validLookahead_of_allows (fresh : grammar.HasFreshStart start accept target)
    (built : automaton.IsBuilt kind grammar accept) (exact : kind ≠ .lalr1)
    (marked : kind.marked = true) {string : List Symbol} {id : Nat} {state : State}
    (reaches : automaton.Reaches string id) (found : automaton.states[id]? = some state)
    {core : Core} {terminal : Nat} (allows : state.items.Allows core terminal) :
    grammar.ValidLookahead string core terminal := by
  -- The kernel allows what the items of the state before it allow, so the induction is on kernels.
  refine built.validLookahead_of_kernel fresh reaches found ?_ marked allows
  clear allows
  induction reaches generalizing state with
  | start => exact fun core terminal allows => built.validLookahead_initial fresh found allows
  | @read string id next earlierState symbol earlier foundEarlier transition ih =>
      intro core terminal allows
      obtain ⟨known, foundKnown, leads⟩ :=
        built.isSound.transitions _ _ _ _ foundEarlier transition
      obtain rfl := Option.some.inj (foundKnown.symm.trans found)
      obtain ⟨before, rest, rfl, earlierAllows, expects⟩ :=
        ((leads.isSuccessor exact).allows core terminal).mp allows
      have valid :=
        built.validLookahead_of_kernel fresh earlier foundEarlier
          (ih foundEarlier) marked earlierAllows
      exact valid.advance expects

/-- A state with exactly the valid cores, each with exactly the terminals that can come after it. -/
def HoldsValidItems (grammar : Grammar) (string : List Symbol) (state : State) : Prop :=
  (∀ core, core ∈ state.items.cores ↔ ∃ after, grammar.ValidFor string core after) ∧
    ∀ item ∈ state.items.items, ∃ allowed, item.lookahead = some allowed ∧
      ∀ terminal, terminal ∈ allowed ↔ grammar.ValidLookahead string item.core terminal

/-- A state with exactly the valid cores, all of them without lookaheads. -/
def HoldsValidCores (grammar : Grammar) (string : List Symbol) (state : State) : Prop :=
  (∀ core, core ∈ state.items.cores ↔ ∃ after, grammar.ValidFor string core after) ∧
    ∀ item ∈ state.items.items, item.lookahead = none

theorem IsBuilt.holdsValidItems (fresh : grammar.HasFreshStart start accept target)
    (built : automaton.IsBuilt .lr1 grammar accept) {string : List Symbol} {id : Nat}
    {state : State} (reaches : automaton.Reaches string id)
    (found : automaton.states[id]? = some state) :
    HoldsValidItems grammar string state := by
  refine ⟨fun core => ?_, fun item member => ?_⟩
  · rw [ItemSet.mem_cores]
    exact built.holds_iff fresh reaches found
  · have isFound := ItemSet.mem_items.mp member
    have isMarked := (built.isSound.states id state found).closes.marked item.core _ isFound
    obtain ⟨allowed, same⟩ := Option.isSome_iff_exists.mp isMarked
    rw [same] at isFound
    refine ⟨allowed, same, fun terminal => ⟨fun inAllowed => ?_, fun valid => ?_⟩⟩
    · exact built.validLookahead_of_allows fresh (by decide) rfl reaches found
        ⟨allowed, isFound, inAllowed⟩
    · obtain ⟨known, foundKnown, inKnown⟩ :=
        built.allows_of_validLookahead fresh rfl reaches found valid
      rw [isFound, Option.some.injEq, Option.some.injEq] at foundKnown
      rw [foundKnown]
      exact inKnown

theorem IsBuilt.holdsValidCores (fresh : grammar.HasFreshStart start accept target)
    (built : automaton.IsBuilt .lr0 grammar accept) {string : List Symbol} {id : Nat}
    {state : State} (reaches : automaton.Reaches string id)
    (found : automaton.states[id]? = some state) :
    HoldsValidCores grammar string state := by
  refine ⟨fun core => ?_, fun item member => ?_⟩
  · rw [ItemSet.mem_cores]
    exact built.holds_iff fresh reaches found
  · have isMarked := (built.isSound.states id state found).closes.marked item.core _
      (ItemSet.mem_items.mp member)
    simpa [AutomatonKind.marked] using isMarked

/-- For the augmentation of every well-formed grammar, the automaton without lookaheads recognises
exactly the viable prefixes, with exactly the valid cores, and the one with canonical lookaheads
recognises them with exactly the valid items. -/
theorem canonical_automata_recognise_viable_prefixes (grammar : Grammar)
    (wellFormed : grammar.WellFormed) :
    ∃ augmented first plain canonical, grammar.augmented = .ok augmented ∧
      FirstSets.compute augmented = .ok first ∧ build augmented first .lr0 = .ok plain ∧
      build augmented first .lr1 = .ok canonical ∧
      ∀ string, canonical.RecognisesWith augmented string (HoldsValidItems augmented string) ∧
        plain.RecognisesWith augmented string (HoldsValidCores augmented string) := by
  obtain ⟨augmented, target, augments, starts, _, isAugmentation⟩ := wellFormed.exists_augmented
  have fresh := isAugmentation.hasFreshStart wellFormed starts
  obtain ⟨first, computed, exact⟩ := FirstSets.exists_compute_eq_ok fresh.bodies
  obtain ⟨plain, buildsPlain, builtPlain⟩ := exists_build_eq_ok fresh exact .lr0
  obtain ⟨canonical, buildsCanonical, builtCanonical⟩ := exists_build_eq_ok fresh exact .lr1
  refine ⟨augmented, first, plain, canonical, augments, computed, buildsPlain, buildsCanonical,
    fun string => ⟨?_, ?_⟩⟩
  · exact builtCanonical.recognisesWith fresh fun id state reaches found =>
      builtCanonical.holdsValidItems fresh reaches found
  · exact builtPlain.recognisesWith fresh fun id state reaches found =>
      builtPlain.holdsValidCores fresh reaches found

/-- In the rules `S → C C`, `C → c C` and `C → d`, the string `c d` is a viable prefix and `d
c` is not. After `c d`, the first `C` is complete, so that what comes next begins another. -/
theorem canonical_automata_recognise_twoStrings :
    Grammar.twoStrings.WellFormed ∧ ∃ augmented first canonical,
      Grammar.twoStrings.augmented = .ok augmented ∧ FirstSets.compute augmented = .ok first ∧
      build augmented first .lr1 = .ok canonical ∧
      canonical.walk initial [.terminal 1, .terminal 2] = .ok (some [0, 1, 2]) ∧
      augmented.ViablePrefix [.terminal 1, .terminal 2] ∧
      canonical.walk initial [.terminal 2, .terminal 1] = .ok none ∧
      ¬ augmented.ViablePrefix [.terminal 2, .terminal 1] ∧
      ∀ terminal, augmented.ValidLookahead [.terminal 1, .terminal 2] ⟨2, 1⟩ terminal ↔
        terminal ∈ [1, 2] := by
  obtain ⟨augmented, first, plain, canonical, augments, computed, _, builds, recognises⟩ :=
    canonical_automata_recognise_viable_prefixes Grammar.twoStrings Grammar.wellFormed_twoStrings
  have evaluates : (Grammar.twoStrings.augmented.toOption.bind fun augmented =>
      (FirstSets.compute augmented).toOption.bind fun first =>
        (build augmented first .lr1).toOption.map fun canonical =>
          ((canonical.walk initial [.terminal 1, .terminal 2]).toOption,
            (canonical.walk initial [.terminal 2, .terminal 1]).toOption,
            canonical.states[2]?.map fun state => state.items.items)) =
      some (some (some [0, 1, 2]), some none,
        some [⟨⟨2, 1⟩, some (TerminalSet.ofList [1, 2])⟩]) := by
    decide +kernel
  rw [augments] at evaluates
  obtain ⟨reads, isReads, viable, holds⟩ := (recognises [.terminal 1, .terminal 2]).1
  obtain ⟨misses, isMisses, notViable, _⟩ := (recognises [.terminal 2, .terminal 1]).1
  simp only [Except.toOption, Option.bind_some, computed, builds, Option.map_some,
    Option.some.injEq, Prod.mk.injEq, isReads, isMisses] at evaluates
  obtain ⟨rfl, rfl, items⟩ := evaluates
  refine ⟨Grammar.wellFormed_twoStrings, augmented, first, canonical, augments, computed, builds,
    isReads, viable.mp rfl, isMisses, fun isViable => by simpa using notViable.mpr isViable,
    fun terminal => ?_⟩
  obtain ⟨id, state, isLast, isState, _, allows⟩ := holds _ rfl
  obtain rfl : 2 = id := by simpa using isLast
  obtain ⟨known, found, same⟩ := Option.map_eq_some_iff.mp items
  obtain rfl : known = state := by simpa [Automaton.state, found] using isState
  obtain ⟨allowed, isAllowed, mem_allowed⟩ := allows _ (same ▸ List.mem_singleton_self _)
  rw [← mem_allowed, ← Option.some.inj isAllowed, TerminalSet.mem_ofList]

end Automaton

end DeterministicParsing
