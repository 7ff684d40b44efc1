/-
# Sound states

A state is sound if its items are the closure of its kernel, and the kernel is the one of some
string. States evolve while an automaton is built: they keep the cores that they hold and the
transitions that they have, and only take in lookaheads. What a sound state can know is limited by
the grammar, and so is how often states can take in something new.
-/
import Mathlib.Data.Set.Card.Arithmetic
import DeterministicParsing.Proofs.Automaton.ViablePrefix

namespace DeterministicParsing

variable {kind : AutomatonKind} {grammar : Grammar} {first : FirstSets} {start accept target : Nat}

/-! ## Kernels and states -/

/-- A kernel that some strings lead to, and that allows nothing but what can come after them. -/
structure ItemSet.IsReached (kind : AutomatonKind) (grammar : Grammar) (accept : Nat)
    (kernel : ItemSet) : Prop where
  /-- It has lookaheads exactly if the construction has. -/
  marked : kernel.Marked kind.marked
  /-- It holds something. -/
  nonempty : ∃ core, kernel.Holds core
  /-- It is the kernel of some string. -/
  origin : ∃ string, kernel.IsKernelFor grammar accept string
  /-- What it allows can come after one of its strings. -/
  sound : ∀ core terminal, kernel.Allows core terminal → ∃ string,
    kernel.IsKernelFor grammar accept string ∧ grammar.ValidLookahead string core terminal

/-- A state whose kernel is reached, and whose items are the closure of the kernel. -/
structure State.IsSound (kind : AutomatonKind) (grammar : Grammar) (accept : Nat) (state : State) :
    Prop where
  /-- Strings lead to the kernel. -/
  kernel : state.kernel.IsReached kind grammar accept
  /-- The items are its closure. -/
  closes : kind.Closes grammar state.kernel state.items
  /-- The state is final if some item is complete. -/
  isFinal_iff : state.isFinal = true ↔ ∃ core, state.items.Holds core ∧ grammar.Completes core

/-- The kernel is where the items lead to when the symbol is read. Where lookaheads are merged,
others than those of the items may be there as well. -/
structure AutomatonKind.Leads (kind : AutomatonKind) (grammar : Grammar) (items : ItemSet)
    (symbol : Symbol) (kernel : ItemSet) : Prop where
  /-- The kernel holds the cores with the marker moved over the symbol. -/
  holds : ∀ core, kernel.Holds core ↔ ∃ earlier rest,
    core = earlier.advanced ∧ items.Holds earlier ∧ grammar.Expects earlier symbol rest
  /-- Unless lookaheads are merged, they are those of the items. -/
  isSuccessor : kind ≠ .lalr1 → ItemSet.IsSuccessor grammar items symbol kernel

namespace ItemSet

theorem IsReached.within {kernel : ItemSet} (reached : kernel.IsReached kind grammar accept) :
    kernel.Within grammar := by
  obtain ⟨string, isKernel⟩ := reached.origin
  exact isKernel.within

/-- A kernel with the same cores, merged into one that is reached, gives one that is reached. -/
theorem IsReached.merge {kernel other : ItemSet} (reached : kernel.IsReached kind grammar accept)
    (otherReached : other.IsReached kind grammar accept)
    (same : ∀ core, kernel.Holds core ↔ other.Holds core) :
    (kernel.merge other).IsReached kind grammar accept := by
  have holds (core : Core) : kernel.Holds core ↔ (kernel.merge other).Holds core := by
    rw [holds_merge, ← same core, or_self]
  refine ⟨reached.marked.merge otherReached.marked, ?_, ?_, fun core terminal allows => ?_⟩
  · obtain ⟨core, here⟩ := reached.nonempty
    exact ⟨core, (holds core).mp here⟩
  · obtain ⟨string, isKernel⟩ := reached.origin
    exact ⟨string, isKernel.of_holds_iff holds⟩
  · rcases allows_merge.mp allows with here | there
    · obtain ⟨string, isKernel, valid⟩ := reached.sound core terminal here
      exact ⟨string, isKernel.of_holds_iff holds, valid⟩
    · obtain ⟨string, isKernel, valid⟩ := otherReached.sound core terminal there
      refine ⟨string, isKernel.of_holds_iff fun core => ?_, valid⟩
      rw [← same core, holds core]

end ItemSet

namespace AutomatonKind

variable {first second : ItemSet}

/-- The kernels have the same cores and, unless lookaheads are merged, allow the same. -/
def Same (kind : AutomatonKind) (first second : ItemSet) : Prop :=
  (∀ core, first.Holds core ↔ second.Holds core) ∧
    (kind ≠ .lalr1 → ∀ core terminal, first.Allows core terminal ↔
      second.Allows core terminal)

theorem Same.refl (kernel : ItemSet) : kind.Same kernel kernel :=
  ⟨fun _ => Iff.rfl, fun _ _ _ => Iff.rfl⟩

theorem Same.symm (same : kind.Same first second) : kind.Same second first :=
  ⟨fun core => (same.1 core).symm, fun exact core terminal => (same.2 exact core terminal).symm⟩

theorem Same.trans {third : ItemSet} (same : kind.Same first second)
    (alsoSame : kind.Same second third) : kind.Same first third :=
  ⟨fun core => (same.1 core).trans (alsoSame.1 core),
    fun exact core terminal => (same.2 exact core terminal).trans
      (alsoSame.2 exact core terminal)⟩

theorem Same.eq (same : kind.Same first second) (exact : kind ≠ .lalr1)
    (firstMarked : first.Marked kind.marked) (secondMarked : second.Marked kind.marked) :
    first = second :=
  ItemSet.ext_of_marked firstMarked secondMarked same.1 (same.2 exact)

/-- The same kernels belong to the same state. -/
theorem identifies_eq_true (firstMarked : first.Marked kind.marked)
    (secondMarked : second.Marked kind.marked) :
    kind.identifies first second = true ↔ kind.Same first second := by
  by_cases merged : kind = .lalr1
  · subst merged
    simp [identifies, Same, ItemSet.cores_eq_iff]
  · have equal : kind.identifies first second = true ↔ first = second := by
      cases kind with
      | lr0 => exact beq_iff_eq
      | lr1 => exact beq_iff_eq
      | lalr1 => exact absurd rfl merged
    rw [equal]
    constructor
    · rintro rfl
      exact .refl first
    · intro same
      exact same.eq merged firstMarked secondMarked

/-- Two kernels to which the same items lead are the same. -/
theorem Leads.same {items : ItemSet} {symbol : Symbol}
    (leads : kind.Leads grammar items symbol first)
    (alsoLeads : kind.Leads grammar items symbol second) : kind.Same first second := by
  refine ⟨fun core => ?_, fun exact core terminal => ?_⟩
  · rw [leads.holds, alsoLeads.holds]
  · rw [(leads.isSuccessor exact).allows, (alsoLeads.isSuccessor exact).allows]

/-- Where items lead to a kernel, they lead to the same kernels only. -/
theorem Leads.of_same {items : ItemSet} {symbol : Symbol}
    (leads : kind.Leads grammar items symbol first) (same : kind.Same first second) :
    kind.Leads grammar items symbol second := by
  refine ⟨fun core => ?_, fun exact => ⟨fun core => ?_, fun core terminal => ?_⟩⟩
  · rw [← same.1, leads.holds]
  · rw [← same.1, leads.holds]
  · rw [← same.2 exact, (leads.isSuccessor exact).allows]

end AutomatonKind

/-- What a sound state becomes when a symbol is read is reached by its strings with that symbol. -/
theorem State.IsSound.isReached_of_isSuccessor {state : State} {symbol : Symbol} {kernel : ItemSet}
    (fresh : grammar.HasFreshStart start accept target) (sound : state.IsSound kind grammar accept)
    (successor : ItemSet.IsSuccessor grammar state.items symbol kernel)
    (marked : kernel.Marked kind.marked) (nonempty : ∃ core, kernel.Holds core) :
    kernel.IsReached kind grammar accept := by
  have longer (string : List Symbol) (isKernel : state.kernel.IsKernelFor grammar accept string) :
      kernel.IsKernelFor grammar accept (string ++ [symbol]) := by
    refine isKernel.successor fresh fun core => ?_
    simp only [successor.holds, sound.closes.holds]
  refine ⟨marked, nonempty, ?_, fun core terminal allows => ?_⟩
  · obtain ⟨string, isKernel⟩ := sound.kernel.origin
    exact ⟨_, longer string isKernel⟩
  · obtain ⟨earlier, rest, rfl, earlierAllows, expects⟩ :=
      (successor.allows core terminal).mp allows
    have hasLookaheads : kind.marked = true := by
      obtain ⟨allowed, found, _⟩ := earlierAllows
      exact (sound.closes.marked earlier _ found).symm
    rw [sound.closes.allows hasLookaheads] at earlierAllows
    obtain ⟨string, isKernel, valid⟩ :=
      @ItemSet.exists_validLookahead_of_closureAllows grammar start accept target state.kernel
        earlier terminal fresh
          {string | state.kernel.IsKernelFor grammar accept string} sound.kernel.origin
        (fun _ member => member) sound.kernel.sound earlierAllows
    exact ⟨_, longer string isKernel, valid.advance expects⟩

/-! ## How states and constructions evolve -/

/-- A state keeps its cores and its transitions, and changes only where lookaheads are merged. -/
structure State.Evolves (kind : AutomatonKind) (earlier later : State) : Prop where
  kernel_holds : ∀ core, later.kernel.Holds core ↔ earlier.kernel.Holds core
  items_holds : ∀ core, later.items.Holds core ↔ earlier.items.Holds core
  kernel_allows : ∀ core terminal,
    earlier.kernel.Allows core terminal → later.kernel.Allows core terminal
  transitions : ∀ symbol target,
    earlier.transitions.find? symbol = some target → later.transitions.find? symbol = some target
  fixed : kind ≠ .lalr1 → later.kernel = earlier.kernel ∧ later.items = earlier.items

namespace State.Evolves

theorem refl (state : State) : state.Evolves kind state :=
  ⟨fun _ => Iff.rfl, fun _ => Iff.rfl, fun _ _ => id, fun _ _ => id, fun _ => ⟨rfl, rfl⟩⟩

theorem trans {state second third : State} (earlier : state.Evolves kind second)
    (later : second.Evolves kind third) : state.Evolves kind third where
  kernel_holds core := (later.kernel_holds core).trans (earlier.kernel_holds core)
  items_holds core := (later.items_holds core).trans (earlier.items_holds core)
  kernel_allows core terminal allows :=
    later.kernel_allows core terminal (earlier.kernel_allows core terminal allows)
  transitions symbol target found :=
    later.transitions symbol target (earlier.transitions symbol target found)
  fixed exact := by
    obtain ⟨sameKernel, sameItems⟩ := earlier.fixed exact
    obtain ⟨alsoKernel, alsoItems⟩ := later.fixed exact
    exact ⟨alsoKernel.trans sameKernel, alsoItems.trans sameItems⟩

theorem same {state later : State} (evolves : state.Evolves kind later) :
    kind.Same state.kernel later.kernel := by
  refine ⟨fun core => (evolves.kernel_holds core).symm, fun exact core terminal => ?_⟩
  rw [(evolves.fixed exact).1]

theorem leads {state later next laterNext : State} {symbol : Symbol}
    (evolves : state.Evolves kind later) (nextEvolves : next.Evolves kind laterNext)
    (leads : kind.Leads grammar state.items symbol next.kernel) :
    kind.Leads grammar later.items symbol laterNext.kernel := by
  refine ⟨fun core => ?_, fun exact => ?_⟩
  · simp only [nextEvolves.kernel_holds, leads.holds, evolves.items_holds]
  · rw [(evolves.fixed exact).2, (nextEvolves.fixed exact).1]
    exact leads.isSuccessor exact

theorem leads_of_isSuccessor {state later : State} {symbol : Symbol} {kernel : ItemSet}
    (evolves : state.Evolves kind later)
    (successor : ItemSet.IsSuccessor grammar state.items symbol kernel) :
    kind.Leads grammar later.items symbol kernel := by
  refine ⟨fun core => ?_, fun exact => ?_⟩
  · simp only [successor.holds, evolves.items_holds]
  · rw [(evolves.fixed exact).2]
    exact successor

end State.Evolves

namespace AutomatonKind

/-- What tells the kernel of a state apart from others. -/
def key (kind : AutomatonKind) (kernel : ItemSet) : Set (Core × Option Nat) :=
  {fact | fact ∈ kernel.facts ∧ (kind = .lalr1 → fact.2 = none)}

/-- The state of a kernel and, where lookaheads are merged, each terminal that it allows. -/
def knowledge (kind : AutomatonKind) (kernel : ItemSet) :
    Set (Set (Core × Option Nat) × Option (Core × Nat)) :=
  {fact | fact.1 = kind.key kernel ∧ ∀ core terminal, fact.2 = some (core, terminal) →
    kind = .lalr1 ∧ kernel.Allows core terminal}

theorem same_of_key_eq {first second : ItemSet} (equal : kind.key first = kind.key second) :
    kind.Same first second := by
  refine ⟨fun core => ?_, fun exact core terminal => ?_⟩
  · have cores := Set.ext_iff.mp equal (core, none)
    simpa [key] using cores
  · have terminals := Set.ext_iff.mp equal (core, some terminal)
    simpa [key, exact] using terminals

theorem key_eq_of_evolves {earlier later : State} (evolves : earlier.Evolves kind later) :
    kind.key later.kernel = kind.key earlier.kernel := by
  by_cases merged : kind = .lalr1
  · ext ⟨core, terminal⟩
    cases terminal with
    | none =>
        have cores := evolves.kernel_holds core
        simpa [key] using cores
    | some terminal => simp [key, merged]
  · rw [(evolves.fixed merged).1]

theorem knowledge_subset_of_evolves {earlier later : State} (evolves : earlier.Evolves kind later) :
    kind.knowledge earlier.kernel ⊆ kind.knowledge later.kernel := by
  rintro ⟨key, fact⟩ ⟨same, allows⟩
  refine ⟨same.trans (key_eq_of_evolves evolves).symm, fun core terminal isFact => ?_⟩
  obtain ⟨merged, here⟩ := allows core terminal isFact
  exact ⟨merged, evolves.kernel_allows core terminal here⟩

end AutomatonKind

/-! ## How much there is to know -/

namespace Grammar

/-- All cores of a grammar. -/
def allCores (grammar : Grammar) : List Core :=
  grammar.rules.zipIdx.flatMap fun (rule, id) =>
    (List.range (rule.body.length + 1)).map fun marker => ⟨id, marker⟩

theorem mem_allCores {core : Core} : core ∈ grammar.allCores ↔ grammar.HasCore core := by
  simp only [allCores, List.mem_flatMap, Prod.exists, List.mem_zipIdx_iff_getElem?, List.mem_map,
    List.mem_range, Nat.lt_succ_iff]
  constructor
  · rintro ⟨rule, id, found, marker, within, rfl⟩
    exact ⟨rule, found, within⟩
  · rintro ⟨rule, found, within⟩
    exact ⟨rule, core.rule, found, core.marker, within, rfl⟩

theorem length_allCores : grammar.allCores.length = Automaton.coreCount grammar := by
  have counted (rules : List Rule) (next : Nat) :
      ((rules.zipIdx next).flatMap fun (rule, id) =>
        (List.range (rule.body.length + 1)).map fun marker => Core.mk id marker).length =
        (rules.flatMap Rule.body).length + rules.length := by
    induction rules generalizing next with
    | nil => rfl
    | cons rule rules ih =>
        rw [List.zipIdx_cons, List.flatMap_cons, List.length_append, ih]
        simp only [List.length_map, List.length_range, List.flatMap_cons, List.length_append,
          List.length_cons]
        omega
  exact counted grammar.rules 0

/-- The terminals that can be lookaheads. -/
def lookaheadTerminals (grammar : Grammar) : List Nat := endOfInput :: grammar.bodyTerminals

theorem length_lookaheadTerminals_le : grammar.lookaheadTerminals.length ≤ grammar.size + 1 :=
  Nat.succ_le_succ length_bodyTerminals_le

end Grammar

namespace AutomatonKind

/-- The lookaheads that can tell kernels apart. -/
def possibleLookaheads (kind : AutomatonKind) (grammar : Grammar) : Set (Option Nat) :=
  match kind with
  | lr0 | lr1 => optionsOf grammar.lookaheadTerminals
  | lalr1 => {none}

/-- What can be news to a state that is known already. -/
def possibleNews (kind : AutomatonKind) (grammar : Grammar) : Set (Option (Core × Nat)) :=
  match kind with
  | lr0 | lr1 => {none}
  | lalr1 => optionsOf (grammar.allCores ×ˢ grammar.lookaheadTerminals)

/-- The facts that can tell kernels apart. -/
def possibleKeys (kind : AutomatonKind) (grammar : Grammar) : Set (Core × Option Nat) :=
  {core | core ∈ grammar.allCores} ×ˢ kind.possibleLookaheads grammar

/-- All that states can know. -/
def possible (kind : AutomatonKind) (grammar : Grammar) :
    Set (Set (Core × Option Nat) × Option (Core × Nat)) :=
  𝒫 kind.possibleKeys grammar ×ˢ kind.possibleNews grammar

theorem finite_possibleKeys : (kind.possibleKeys grammar).Finite := by
  refine (List.finite_toSet _).prod ?_
  cases kind with
  | lr0 => exact finite_optionsOf _
  | lr1 => exact finite_optionsOf _
  | lalr1 => exact Set.finite_singleton none

theorem finite_possible : (kind.possible grammar).Finite := by
  refine finite_possibleKeys.powerset.prod ?_
  cases kind with
  | lr0 => exact Set.finite_singleton none
  | lr1 => exact Set.finite_singleton none
  | lalr1 => exact finite_optionsOf _

theorem knowledge_subset_possible {kernel : ItemSet}
    (reached : kernel.IsReached kind grammar accept) :
    kind.knowledge kernel ⊆ kind.possible grammar := by
  have listed (core : Core) (holds : kernel.Holds core) : core ∈ grammar.allCores :=
    Grammar.mem_allCores.mpr (reached.within core holds)
  have terminals (core : Core) (terminal : Nat) (allows : kernel.Allows core terminal) :
      terminal ∈ grammar.lookaheadTerminals := by
    obtain ⟨string, _, valid⟩ := reached.sound core terminal allows
    exact valid.mem
  rintro ⟨keys, fact⟩ ⟨rfl, known⟩
  refine ⟨?_, ?_⟩
  · rintro ⟨core, terminal⟩ ⟨isFact, merges⟩
    cases terminal with
    | none =>
        refine ⟨listed core isFact, ?_⟩
        cases kind <;> simp [possibleLookaheads, optionsOf]
    | some terminal =>
        have exact : kind ≠ .lalr1 := fun merged => by cases merges merged
        refine ⟨listed core (ItemSet.Allows.holds isFact), ?_⟩
        have member := terminals core terminal isFact
        cases kind with
        | lr0 => simpa [possibleLookaheads, optionsOf] using member
        | lr1 => simpa [possibleLookaheads, optionsOf] using member
        | lalr1 => exact absurd rfl exact
  · cases fact with
    | none => cases kind <;> simp [possibleNews, optionsOf]
    | some pair =>
        obtain ⟨merged, allows⟩ := known pair.1 pair.2 rfl
        have member : pair ∈ grammar.allCores ×ˢ grammar.lookaheadTerminals :=
          List.mem_product.mpr ⟨listed pair.1 allows.holds, terminals pair.1 pair.2 allows⟩
        subst merged
        simpa [possibleNews, optionsOf] using member

/-- Either kernels differ in their lookaheads and there are no news, or it is the other way
round. -/
theorem exists_ncard_le (kind : AutomatonKind) (grammar : Grammar) :
    ∃ lookaheads news, (kind.possibleLookaheads grammar).ncard ≤ lookaheads ∧
      (kind.possibleNews grammar).ncard ≤ 2 ^ news ∧
      Automaton.coreCount grammar * lookaheads + news ≤
        Automaton.coreCount grammar * (grammar.size + 3) + 1 := by
  have terminals : (optionsOf grammar.lookaheadTerminals).ncard ≤ grammar.size + 2 :=
    (ncard_optionsOf_le _).trans (Nat.succ_le_succ Grammar.length_lookaheadTerminals_le)
  have fewer : Automaton.coreCount grammar * (grammar.size + 2) ≤
      Automaton.coreCount grammar * (grammar.size + 3) := Nat.mul_le_mul_left _ (Nat.le_succ _)
  cases kind with
  | lr0 => exact ⟨grammar.size + 2, 0, terminals, by simp [possibleNews], by omega⟩
  | lr1 => exact ⟨grammar.size + 2, 0, terminals, by simp [possibleNews], by omega⟩
  | lalr1 =>
      refine ⟨1, Automaton.coreCount grammar * (grammar.size + 1), by simp [possibleLookaheads],
        ?_, ?_⟩
      · calc (possibleNews lalr1 grammar).ncard
          _ ≤ (grammar.allCores ×ˢ grammar.lookaheadTerminals).length + 1 :=
            ncard_optionsOf_le _
          _ ≤ Automaton.coreCount grammar * (grammar.size + 1) + 1 := by
              rw [List.length_product, Grammar.length_allCores]
              exact Nat.succ_le_succ (Nat.mul_le_mul_left _ Grammar.length_lookaheadTerminals_le)
          _ ≤ 2 ^ (Automaton.coreCount grammar * (grammar.size + 1)) := Nat.lt_two_pow_self
      · rw [← Nat.mul_add, Nat.add_comm 1]
        exact Nat.le_succ_of_le fewer

/-- There is not more to know than there are expansions to spare. -/
theorem ncard_possible_le : (kind.possible grammar).ncard ≤ Automaton.expansionBound grammar := by
  obtain ⟨lookaheads, news, lookaheadsBound, newsBound, enough⟩ := exists_ncard_le kind grammar
  have cores : {core | core ∈ grammar.allCores}.ncard ≤ Automaton.coreCount grammar :=
    Grammar.length_allCores ▸ ncard_setOf_mem_le grammar.allCores
  have keys : (kind.possibleKeys grammar).ncard ≤ Automaton.coreCount grammar * lookaheads := by
    rw [possibleKeys, Set.ncard_prod]
    exact Nat.mul_le_mul cores lookaheadsBound
  calc (kind.possible grammar).ncard
    _ = 2 ^ (kind.possibleKeys grammar).ncard * (kind.possibleNews grammar).ncard := by
        rw [possible, Set.ncard_prod, Set.ncard_powerset _ finite_possibleKeys]
    _ ≤ 2 ^ (Automaton.coreCount grammar * lookaheads) * 2 ^ news :=
        Nat.mul_le_mul (Nat.pow_le_pow_right Nat.two_pos keys) newsBound
    _ = 2 ^ (Automaton.coreCount grammar * lookaheads + news) := (Nat.pow_add _ _ _).symm
    _ ≤ Automaton.expansionBound grammar := Nat.pow_le_pow_right Nat.two_pos enough

end AutomatonKind

end DeterministicParsing
