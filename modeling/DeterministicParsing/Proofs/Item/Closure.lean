/-
# Closures are least

The closure of a kernel is described by two inductive relations, without any loop: which cores it
holds, and which terminals it allows after them. A core calls for the rules of the nonterminal after
its marker, and after these rules it allows whatever the rest of its own body can begin with and, if
that rest can be empty, whatever is allowed after itself. Both closures compute exactly this, and
with lookaheads the closure of two merged kernels is that of each of them, merged.
-/
import DeterministicParsing.Automaton.Construction
import DeterministicParsing.Proofs.FirstSets
import DeterministicParsing.Proofs.Item.Basic

namespace DeterministicParsing

namespace Grammar

/-- A core calls for the rules of the nonterminal after its marker, in front of the rest of its
body. -/
def CallsFor (grammar : Grammar) (core : Core) (id : Nat) (rest : List Symbol) : Prop :=
  ∃ rule, grammar.rules[id]? = some rule ∧ grammar.Expects core (.nonterminal rule.head) rest

end Grammar

namespace ItemSet

/-- The cores in the closure of a kernel. -/
inductive InClosure (grammar : Grammar) (kernel : ItemSet) : Core → Prop where
  /-- The cores of the kernel are in it. -/
  | kernel {core : Core} (holds : kernel.Holds core) : InClosure grammar kernel core
  /-- So are the rules that a core in it calls for. -/
  | rule {core : Core} {id : Nat} {rest : List Symbol} (outer : InClosure grammar kernel core)
      (calls : grammar.CallsFor core id rest) : InClosure grammar kernel ⟨id, 0⟩

/-- The terminals that the closure of a kernel allows after its cores. -/
inductive ClosureAllows (grammar : Grammar) (kernel : ItemSet) : Core → Nat → Prop where
  /-- What the kernel allows is allowed. -/
  | kernel {core : Core} {terminal : Nat} (allows : kernel.Allows core terminal) :
      ClosureAllows grammar kernel core terminal
  /-- After a rule that a core calls for, what the rest of the body can begin with is allowed. -/
  | first {core : Core} {id terminal : Nat} {rest : List Symbol}
      (outer : InClosure grammar kernel core) (calls : grammar.CallsFor core id rest)
      (begins : grammar.DerivesBeginning rest terminal) :
      ClosureAllows grammar kernel ⟨id, 0⟩ terminal
  /-- If the rest can be empty, what is allowed after the core is allowed after the rule. -/
  | through {core : Core} {id terminal : Nat} {rest : List Symbol}
      (outer : ClosureAllows grammar kernel core terminal) (calls : grammar.CallsFor core id rest)
      (vanishes : grammar.Derives rest []) : ClosureAllows grammar kernel ⟨id, 0⟩ terminal

variable {grammar : Grammar} {kernel set other : ItemSet} {core : Core} {terminal : Nat}

/-- All cores of the kernel are cores of the grammar. -/
def Within (grammar : Grammar) (set : ItemSet) : Prop :=
  ∀ core, set.Holds core → grammar.HasCore core

theorem Within.hasRules (within : set.Within grammar) : set.HasRules grammar :=
  fun core holds => (within core holds).hasRule

theorem InClosure.hasCore (within : kernel.Within grammar)
    (inClosure : InClosure grammar kernel core) :
    grammar.HasCore core := by
  cases inClosure with
  | kernel holds => exact within core holds
  | rule outer calls =>
      obtain ⟨rule, found, _⟩ := calls
      exact ⟨rule, found, Nat.zero_le _⟩

theorem InClosure.hasRule (hasRules : kernel.HasRules grammar)
    (inClosure : InClosure grammar kernel core) : grammar.HasRule core := by
  cases inClosure with
  | kernel holds => exact hasRules core holds
  | rule outer calls =>
      obtain ⟨rule, found, _⟩ := calls
      exact ⟨rule, found⟩

/-- A kernel with more cores has a closure with more cores. -/
theorem InClosure.of_holds (subset : ∀ core, kernel.Holds core → other.Holds core)
    (inClosure : InClosure grammar kernel core) : InClosure grammar other core := by
  induction inClosure with
  | kernel holds => exact .kernel (subset _ holds)
  | rule _ calls ih => exact .rule ih calls

theorem ClosureAllows.of_allows (subset : ∀ core, kernel.Holds core → other.Holds core)
    (less : ∀ core terminal, kernel.Allows core terminal → other.Allows core terminal)
    (allows : ClosureAllows grammar kernel core terminal) :
    ClosureAllows grammar other core terminal := by
  induction allows with
  | kernel allows => exact .kernel (less _ _ allows)
  | first outer calls begins => exact .first (outer.of_holds subset) calls begins
  | through _ calls vanishes ih => exact .through ih calls vanishes

/-- The closure of merged kernels holds what one of their closures holds. -/
theorem inClosure_merge : InClosure grammar (set.merge other) core ↔
    InClosure grammar set core ∨ InClosure grammar other core := by
  constructor
  · intro inClosure
    induction inClosure with
    | kernel holds =>
        rcases holds_merge.mp holds with inSet | inOther
        · exact .inl (.kernel inSet)
        · exact .inr (.kernel inOther)
    | rule _ calls ih =>
        rcases ih with inSet | inOther
        · exact .inl (.rule inSet calls)
        · exact .inr (.rule inOther calls)
  · rintro (inSet | inOther)
    · exact inSet.of_holds fun _ holds => holds_merge.mpr (.inl holds)
    · exact inOther.of_holds fun _ holds => holds_merge.mpr (.inr holds)

/-- The closure of merged kernels allows what one of their closures allows. -/
theorem closureAllows_merge : ClosureAllows grammar (set.merge other) core terminal ↔
    ClosureAllows grammar set core terminal ∨ ClosureAllows grammar other core terminal := by
  constructor
  · intro allows
    induction allows with
    | kernel allows =>
        rcases allows_merge.mp allows with inSet | inOther
        · exact .inl (.kernel inSet)
        · exact .inr (.kernel inOther)
    | first outer calls begins =>
        rcases inClosure_merge.mp outer with inSet | inOther
        · exact .inl (.first inSet calls begins)
        · exact .inr (.first inOther calls begins)
    | through _ calls vanishes ih =>
        rcases ih with inSet | inOther
        · exact .inl (.through inSet calls vanishes)
        · exact .inr (.through inOther calls vanishes)
  · rintro (inSet | inOther)
    · exact inSet.of_allows (fun _ holds => holds_merge.mpr (.inl holds))
        fun _ _ allows => allows_merge.mpr (.inl allows)
    · exact inOther.of_allows (fun _ holds => holds_merge.mpr (.inr holds))
        fun _ _ allows => allows_merge.mpr (.inr allows)

/-! ## Adding the rules that an item calls for -/

/-- The rules with the given numbers, with the marker at their beginning and one lookahead. -/
def ruleItems (ids : List Nat) (lookahead : Option TerminalSet) : List Item :=
  ids.map fun id => ⟨⟨id, 0⟩, lookahead⟩

theorem holds_ruleItems {ids : List Nat} {lookahead : Option TerminalSet} :
    ((ruleItems ids lookahead).foldl add set).Holds core ↔
      set.Holds core ∨ ∃ id ∈ ids, core = ⟨id, 0⟩ := by
  simp [holds_foldl_add, ruleItems]

theorem allows_ruleItems {ids : List Nat} {after : TerminalSet} :
    ((ruleItems ids (some after)).foldl add set).Allows core terminal ↔
      set.Allows core terminal ∨ ∃ id ∈ ids, core = ⟨id, 0⟩ ∧ terminal ∈ after := by
  simp [allows_foldl_add, ruleItems]

theorem callsFor_iff {id head : Nat} {rest : List Symbol}
    (expects : grammar.Expects core (.nonterminal head) rest) :
    (∃ rest, grammar.CallsFor core id rest) ↔
      ∃ rule, grammar.rules[id]? = some rule ∧ rule.head = head := by
  constructor
  · rintro ⟨other, rule, found, alsoExpects⟩
    exact ⟨rule, found, Symbol.nonterminal.inj (alsoExpects.unique expects).1⟩
  · rintro ⟨rule, found, rfl⟩
    exact ⟨rest, rule, found, expects⟩

/-- An item that expects no nonterminal calls for nothing. -/
theorem not_callsFor {id : Nat} {rest : List Symbol}
    (expected : ∀ head, grammar.next? core ≠ some (.nonterminal head)) :
    ¬ grammar.CallsFor core id rest := by
  rintro ⟨rule, _, expects⟩
  exact expected rule.head (Grammar.next?_eq_some.mpr ⟨rest, expects⟩)

/-- To serve a core without lookaheads is to meet the rules that it calls for. -/
theorem exists_servePlain_eq_ok (bodies : grammar.BodiesDeclared) (has : grammar.HasRule core)
    (state : Expansion × List Core) :
    ∃ ids : List Nat, servePlain grammar core state = .ok (ids.foldl meetPlain state) ∧
      ∀ id, id ∈ ids ↔ ∃ rest, grammar.CallsFor core id rest := by
  by_cases calls : ∃ head, grammar.next? core = some (.nonterminal head)
  · obtain ⟨head, expected⟩ := calls
    obtain ⟨rest, expects⟩ := Grammar.next?_eq_some.mp expected
    have declared : head < grammar.nonterminalCount := expects.declares bodies List.mem_cons_self
    obtain ⟨ids, found, _, members⟩ := grammar.valid.exists_rulesFor_eq_ok declared
    refine ⟨ids, by simp [servePlain, has.next_eq_ok, expected, found], fun id => ?_⟩
    rw [members, callsFor_iff expects]
  · have silent := not_exists.mp calls
    refine ⟨[], ?_, fun id => by simp [not_callsFor silent]⟩
    rw [servePlain, has.next_eq_ok, ok_bind]
    split
    · rename_i head expected
      exact absurd expected (silent head)
    · rfl

/-- To serve a core with lookaheads is to meet the rules that it calls for, with what may come after
them. -/
theorem exists_serveLookahead_eq_ok {first : FirstSets} (bodies : grammar.BodiesDeclared)
    (exact : FirstSets.Exact grammar first) (has : grammar.HasRule core) (known : Lookaheads)
    (pending : List Core) :
    ∃ (ids : List Nat) (after : TerminalSet), serveLookahead grammar first core (known, pending) =
        .ok (ids.foldl (meetLookahead after) (known, pending)) ∧
      (∀ id, id ∈ ids ↔ ∃ rest, grammar.CallsFor core id rest) ∧
      ∀ id rest, grammar.CallsFor core id rest → ∀ terminal, terminal ∈ after ↔
        grammar.DerivesBeginning rest terminal ∨
          (grammar.Derives rest [] ∧ terminal ∈ (known.find? core).getD ∅) := by
  by_cases calls : ∃ head, grammar.next? core = some (.nonterminal head)
  · obtain ⟨head, expected⟩ := calls
    obtain ⟨rest, expects⟩ := Grammar.next?_eq_some.mp expected
    have declared : head < grammar.nonterminalCount := expects.declares bodies List.mem_cons_self
    have restDeclared : ∀ symbol ∈ rest, grammar.Declares symbol :=
      fun symbol member => expects.declares bodies (List.mem_cons_of_mem _ member)
    obtain ⟨after, afterFound, members⟩ :=
      exact.exists_ofSequenceThen_eq_ok restDeclared ((known.find? core).getD ∅)
    obtain ⟨ids, found, _, rules⟩ := grammar.valid.exists_rulesFor_eq_ok declared
    refine ⟨ids, after, ?_, fun id => ?_, fun id other calls terminal => ?_⟩
    · simp [serveLookahead, has.next_eq_ok, expected, expects.rest_eq_ok, afterFound, found]
    · rw [rules, callsFor_iff expects]
    · obtain ⟨rule, _, alsoExpects⟩ := calls
      obtain ⟨_, rfl⟩ := alsoExpects.unique expects
      exact members terminal
  · have silent := not_exists.mp calls
    refine ⟨[], ∅, ?_, fun id => by simp [not_callsFor silent],
      fun id rest calls => absurd calls (not_callsFor silent)⟩
    rw [serveLookahead, has.next_eq_ok, ok_bind]
    split
    · rename_i head expected
      exact absurd expected (silent head)
    · rfl

/-! ## The facts of a set -/

/-- The cores that a set holds, and the terminals that it allows after them. -/
def facts (set : ItemSet) : Set (Core × Option Nat) := fun
  | (core, none) => set.Holds core
  | (core, some terminal) => set.Allows core terminal

@[simp]
theorem mem_facts_none : (core, none) ∈ set.facts ↔ set.Holds core := Iff.rfl

@[simp]
theorem mem_facts_some : (core, some terminal) ∈ set.facts ↔ set.Allows core terminal := Iff.rfl

theorem mem_allLookaheads : terminal ∈ set.allLookaheads ↔
    ∃ core, set.Allows core terminal := by
  have collected (items : List Item) (all : TerminalSet) :
      terminal ∈ items.foldl (fun all item => all ∪ item.lookahead.getD ∅) all ↔
        terminal ∈ all ∨ ∃ item ∈ items, terminal ∈ item.lookahead.getD ∅ := by
    induction items generalizing all with
    | nil => simp
    | cons item rest ih => simp [ih, or_assoc]
  rw [allLookaheads, collected]
  constructor
  · rintro (impossible | ⟨⟨core, lookahead⟩, member, inLookahead⟩)
    · simp at impossible
    · cases lookahead with
      | none => simp at inLookahead
      | some allowed => exact ⟨core, allowed, mem_items.mp member, inLookahead⟩
  · rintro ⟨core, allowed, found, member⟩
    exact .inr ⟨⟨core, some allowed⟩, mem_items.mpr found, member⟩

theorem finite_facts (set : ItemSet) : set.facts.Finite := by
  refine ((List.finite_toSet set.cores).prod (finite_optionsOf set.allLookaheads.toList)).subset ?_
  rintro ⟨core, fact⟩ known
  cases fact with
  | none => exact ⟨mem_cores.mpr known, .inl rfl⟩
  | some terminal =>
      refine ⟨mem_cores.mpr (Allows.holds known), .inr ⟨terminal, ?_, rfl⟩⟩
      exact TerminalSet.mem_toList.mpr (mem_allLookaheads.mpr ⟨core, known⟩)

/-! ## Meeting rules -/

variable {known : Lookaheads} {pending : List Core}

theorem find?_ofLookaheads :
    AscendingMap.find? (ofLookaheads known) core = (known.find? core).map some :=
  AscendingMap.find?_mapValues known some core

theorem holds_ofLookaheads :
    Holds (ofLookaheads known) core ↔ ∃ allowed, known.find? core = some allowed := by
  simp [Holds, find?_ofLookaheads]

theorem allows_ofLookaheads : Allows (ofLookaheads known) core terminal ↔
    terminal ∈ (known.find? core).getD ∅ := by
  cases found : known.find? core <;> simp [Allows, find?_ofLookaheads, found]

theorem marked_ofLookaheads (known : Lookaheads) : Marked true (ofLookaheads known) := by
  intro core lookahead found
  rw [find?_ofLookaheads, Option.map_eq_some_iff] at found
  obtain ⟨_, _, rfl⟩ := found
  rfl

/-- To meet a rule is to add it as an item. -/
theorem ofLookaheads_meetLookahead (after : TerminalSet) (state : Lookaheads × List Core)
    (rule : Nat) : ofLookaheads (meetLookahead after state rule).1 =
      add (ofLookaheads state.1) ⟨⟨rule, 0⟩, some after⟩ := by
  apply AscendingMap.ext_find?
  intro core
  rw [find?_add, find?_ofLookaheads, find?_ofLookaheads, find?_ofLookaheads, meetLookahead,
    AscendingMap.find?_insert]
  split
  · cases state.1.find? ⟨rule, 0⟩ with
    | none =>
        have noneBefore : (∅ : TerminalSet) ∪ after = after := TerminalSet.ext (by simp)
        simp [noneBefore]
    | some allowed => rfl
  · rfl

theorem ofLookaheads_foldl_meetLookahead (ids : List Nat) (after : TerminalSet)
    (state : Lookaheads × List Core) : ofLookaheads (ids.foldl (meetLookahead after) state).1 =
      (ruleItems ids (some after)).foldl add (ofLookaheads state.1) := by
  induction ids generalizing state with
  | nil => rfl
  | cons id ids ih =>
      rw [List.foldl_cons, ih, ofLookaheads_meetLookahead]
      rfl

/-- Sets with lookaheads that say the same are equal. -/
theorem ext_facts (setMarked : set.Marked true) (otherMarked : other.Marked true)
    (same : set.facts = other.facts) : set = other := by
  refine ext_of_marked setMarked otherMarked (fun core => ?_) fun core terminal => ?_
  · exact iff_of_eq (congrFun same (core, none))
  · exact iff_of_eq (congrFun same (core, some terminal))

theorem facts_add_subset (set : ItemSet) (item : Item) : set.facts ⊆ (set.add item).facts := by
  rintro ⟨core, fact⟩ known
  cases fact with
  | none => exact holds_add.mpr (.inl known)
  | some terminal => exact allows_add.mpr (.inl known)

/-- A lookahead that keeps its number of terminals when it is united with others already has
them. -/
theorem union_eq_self_of_size_eq {first second : TerminalSet}
    (same : (first ∪ second).size = first.size) : first ∪ second = first := by
  have distinct (set : TerminalSet) : set.toList.Nodup := set.pairwise_toList.imp Nat.ne_of_lt
  have within : first.toList ⊆ (first ∪ second).toList := by
    intro terminal member
    rw [TerminalSet.mem_toList] at member ⊢
    exact TerminalSet.mem_union.mpr (.inl member)
  have reordered := (List.subperm_of_subset (distinct first) within).perm_of_length_le same.le
  ext terminal
  simp only [← TerminalSet.mem_toList, reordered.mem_iff]

/-- The number of terminals tells whether a rule that is met brings news. -/
theorem isNews_iff {found : Option TerminalSet} {after : TerminalSet} :
    (found.isNone || (found.getD ∅ ∪ after).size != (found.getD ∅).size) = true ↔
      some (found.getD ∅ ∪ after) ≠ found := by
  cases found with
  | none => simp
  | some allowed =>
      simp only [Option.isNone_some, Bool.false_or, bne_iff_ne, Option.getD_some, ne_eq,
        Option.some.injEq]
      exact not_congr ⟨union_eq_self_of_size_eq, congrArg TerminalSet.size⟩

/-- Whatever is not as it was before has become pending, and is known. -/
structure Meets (before later : Lookaheads × List Core) : Prop where
  pays : Pays (fun known => facts (ofLookaheads known)) before later
  unchanged : ∀ core, later.1.find? core = before.1.find? core ∨ core ∈ later.2
  known : ∀ core ∈ later.2, core ∈ before.2 ∨ ∃ allowed, later.1.find? core = some allowed

namespace Meets

variable {before middle later : Lookaheads × List Core}

theorem refl (state : Lookaheads × List Core) : Meets state state :=
  ⟨.refl state, fun _ => .inl rfl, fun _ => .inl⟩

theorem trans (here : Meets before middle) (there : Meets middle later) : Meets before later := by
  refine ⟨here.pays.trans there.pays, fun core => ?_, fun core member => ?_⟩
  · rcases there.unchanged core with same | isPending
    · rcases here.unchanged core with sameHere | isPending
      · exact .inl (same.trans sameHere)
      · exact .inr (there.pays.pending core isPending)
    · exact .inr isPending
  · rcases there.known core member with isPending | isKnown
    · rcases here.known core isPending with isPending | ⟨allowed, found⟩
      · exact .inl isPending
      · exact .inr (holds_ofLookaheads.mp (there.pays.grown (a := (core, none))
          (holds_ofLookaheads.mpr ⟨allowed, found⟩)))
    · exact .inr isKnown

end Meets

theorem find?_meetLookahead (after : TerminalSet) (state : Lookaheads × List Core) (rule : Nat)
    (core : Core) : (meetLookahead after state rule).1.find? core =
      if core = ⟨rule, 0⟩ then some ((state.1.find? ⟨rule, 0⟩).getD ∅ ∪ after)
      else state.1.find? core :=
  AscendingMap.find?_insert state.1 ⟨rule, 0⟩ core _

/-- A rule that is known with all that may come after it is met for nothing. -/
theorem meetLookahead_eq_self {after : TerminalSet} {state : Lookaheads × List Core} {rule : Nat}
    (old : some ((state.1.find? ⟨rule, 0⟩).getD ∅ ∪ after) = state.1.find? ⟨rule, 0⟩) :
    meetLookahead after state rule = state := by
  refine Prod.ext (AscendingMap.ext_find? fun core => ?_) (if_neg fun pushes => ?_)
  · rw [find?_meetLookahead]
    split
    · rename_i same
      rw [old, same]
    · rfl
  · exact isNews_iff.mp pushes old

/-- A rule that is new, or that more may come after than was known, becomes pending. -/
theorem meets_of_news {after : TerminalSet} {state : Lookaheads × List Core} {rule : Nat}
    (news : some ((state.1.find? ⟨rule, 0⟩).getD ∅ ∪ after) ≠ state.1.find? ⟨rule, 0⟩) :
    Meets state (meetLookahead after state rule) := by
  have isPending : (meetLookahead after state rule).2 = ⟨rule, 0⟩ :: state.2 :=
    if_pos (isNews_iff.mpr news)
  have grown : facts (ofLookaheads state.1) ⊆
      facts (ofLookaheads (meetLookahead after state rule).1) := by
    rw [ofLookaheads_meetLookahead]
    exact facts_add_subset _ _
  -- equal facts would mean that the same was known of the rule before
  have more : facts (ofLookaheads state.1) ≠
      facts (ofLookaheads (meetLookahead after state rule).1) := by
    intro same
    have unchanged := ext_facts (marked_ofLookaheads _) (marked_ofLookaheads _) same
    have isFound := congrArg (AscendingMap.find? · (⟨rule, 0⟩ : Core)) unchanged
    simp only [find?_ofLookaheads, find?_meetLookahead, if_true] at isFound
    exact news (Option.map_injective (Option.some_injective _) isFound).symm
  refine ⟨⟨fun core member => ?_, grown, ?_⟩, fun core => ?_, fun core member => ?_⟩
  · rw [isPending]
    exact List.mem_cons_of_mem _ member
  · have strictly := Set.ncard_lt_ncard (grown.ssubset_of_ne more) (finite_facts _)
    rw [isPending, List.length_cons]
    omega
  · rw [isPending, find?_meetLookahead]
    by_cases same : core = ⟨rule, 0⟩ <;> simp [same]
  · rw [isPending] at member
    rcases List.mem_cons.mp member with rfl | member
    · exact .inr ⟨_, by rw [find?_meetLookahead, if_pos rfl]⟩
    · exact .inl member

theorem meets_foldl_meetLookahead (ids : List Nat) (after : TerminalSet)
    (state : Lookaheads × List Core) : Meets state (ids.foldl (meetLookahead after) state) := by
  induction ids generalizing state with
  | nil => exact .refl state
  | cons id ids ih =>
      refine Meets.trans ?_ (ih (meetLookahead after state id))
      by_cases old : some ((state.1.find? ⟨id, 0⟩).getD ∅ ∪ after) = state.1.find? ⟨id, 0⟩
      · rw [meetLookahead_eq_self old]
        exact .refl state
      · exact meets_of_news old

/-! ## The closure with lookaheads -/

/-- A set with lookaheads that holds the kernel and nothing beyond its closure. -/
structure Closing (grammar : Grammar) (kernel set : ItemSet) : Prop where
  marked : set.Marked true
  /-- The kernel is part of the set. -/
  kernel_subset : kernel.facts ⊆ set.facts
  inClosure : ∀ core, set.Holds core → InClosure grammar kernel core
  closureAllows : ∀ core terminal, set.Allows core terminal →
    ClosureAllows grammar kernel core terminal

theorem facts_lookaheads (kernel : ItemSet) :
    facts (ofLookaheads kernel.lookaheads) = kernel.facts := by
  have find (core : Core) : AscendingMap.find? kernel.lookaheads core =
      (kernel.find? core).map (·.getD ∅) :=
    AscendingMap.find?_mapValues kernel (·.getD ∅) core
  ext ⟨core, fact⟩
  cases fact with
  | none =>
      rw [mem_facts_none, mem_facts_none, holds_ofLookaheads, find, Holds]
      cases kernel.find? core <;> simp
  | some terminal =>
      rw [mem_facts_some, mem_facts_some, allows_ofLookaheads, find, Allows]
      rcases kernel.find? core with _ | _ | allowed <;> simp

theorem closing_lookaheads (grammar : Grammar) (kernel : ItemSet) :
    Closing grammar kernel (ofLookaheads kernel.lookaheads) where
  marked := marked_ofLookaheads _
  kernel_subset := (facts_lookaheads kernel).ge
  inClosure core holds := by
    rw [← mem_facts_none, facts_lookaheads] at holds
    exact .kernel holds
  closureAllows core terminal allows := by
    rw [← mem_facts_some, facts_lookaheads] at allows
    exact .kernel allows

/-- The rules that a core of the closure calls for are in the closure, with what may come after
them. -/
theorem Closing.foldl_ruleItems {ids : List Nat} {after : TerminalSet}
    (closing : Closing grammar kernel set) (inClosure : InClosure grammar kernel core)
    (called : ∀ id, id ∈ ids ↔ ∃ rest, grammar.CallsFor core id rest)
    (members : ∀ id rest, grammar.CallsFor core id rest → ∀ terminal, terminal ∈ after ↔
      grammar.DerivesBeginning rest terminal ∨
      (grammar.Derives rest [] ∧ set.Allows core terminal)) :
    Closing grammar kernel ((ruleItems ids (some after)).foldl add set) := by
  refine ⟨?_, ?_, ?_, ?_⟩
  · refine closing.marked.foldl_add fun added member => ?_
    obtain ⟨id, _, rfl⟩ := List.mem_map.mp member
    rfl
  · rintro ⟨core, fact⟩ known
    cases fact with
    | none => exact holds_ruleItems.mpr (.inl (closing.kernel_subset known))
    | some terminal => exact allows_ruleItems.mpr (.inl (closing.kernel_subset known))
  · intro core holds
    rcases holds_ruleItems.mp holds with known | ⟨id, member, rfl⟩
    · exact closing.inClosure core known
    · obtain ⟨rest, calls⟩ := (called id).mp member
      exact .rule inClosure calls
  · intro core terminal allows
    rcases allows_ruleItems.mp allows with known | ⟨id, member, rfl, inAfter⟩
    · exact closing.closureAllows core terminal known
    · obtain ⟨rest, calls⟩ := (called id).mp member
      rcases (members id rest calls terminal).mp inAfter with begins | ⟨vanishes, allowed⟩
      · exact .first inClosure calls begins
      · exact .through (closing.closureAllows _ _ allowed) calls vanishes

/-- The set has what a core calls for. -/
def Serves (grammar : Grammar) (set : ItemSet) (core : Core) : Prop :=
  ∀ id rest, grammar.CallsFor core id rest → set.Holds ⟨id, 0⟩ ∧
    ∀ terminal, grammar.DerivesBeginning rest terminal ∨
      (grammar.Derives rest [] ∧ set.Allows core terminal) → set.Allows ⟨id, 0⟩ terminal

/-- A set within the closure that has what its cores call for is the closure. -/
theorem Closing.complete (closing : Closing grammar kernel set)
    (serves : ∀ core, set.Holds core → Serves grammar set core) :
    (∀ core, InClosure grammar kernel core → set.Holds core) ∧
      ∀ core terminal, ClosureAllows grammar kernel core terminal →
        set.Allows core terminal := by
  have complete : ∀ core, InClosure grammar kernel core → set.Holds core := by
    intro core inClosure
    induction inClosure with
    | @kernel core holds =>
        exact closing.kernel_subset (show (core, none) ∈ kernel.facts from holds)
    | rule _ calls ih => exact (serves _ ih _ _ calls).1
  refine ⟨complete, fun core terminal allows => ?_⟩
  induction allows with
  | @kernel core terminal allows =>
      exact closing.kernel_subset (show (core, some terminal) ∈ kernel.facts from allows)
  | first outer calls begins =>
      exact (serves _ (complete _ outer) _ _ calls).2 _ (.inl begins)
  | through _ calls vanishes ih =>
      exact (serves _ ih.holds _ _ calls).2 _ (.inr ⟨vanishes, ih⟩)

/-- A closure with lookaheads under way: what is known is within the closure, and a core that has
not been served since its lookahead has grown is pending. -/
structure Underway (grammar : Grammar) (kernel : ItemSet)
    (state : Lookaheads × List Core) : Prop where
  closing : Closing grammar kernel (ofLookaheads state.1)
  known : ∀ core ∈ state.2, Holds (ofLookaheads state.1) core
  serves : ∀ core, Holds (ofLookaheads state.1) core →
    core ∈ state.2 ∨ Serves grammar (ofLookaheads state.1) core

theorem underway_lookaheads (grammar : Grammar) (kernel : ItemSet) :
    Underway grammar kernel (kernel.lookaheads, kernel.cores.reverse) := by
  have pending (core : Core) :
      core ∈ kernel.cores.reverse ↔ Holds (ofLookaheads kernel.lookaheads) core := by
    rw [List.mem_reverse, mem_cores, ← mem_facts_none, ← mem_facts_none, facts_lookaheads]
  exact ⟨closing_lookaheads grammar kernel, fun core => (pending core).mp,
    fun core holds => .inl ((pending core).mpr holds)⟩

/-- To serve a pending core leaves the closure under way. -/
theorem Underway.exists_serveLookahead_eq_ok {first : FirstSets}
    (bodies : grammar.BodiesDeclared) (exact : FirstSets.Exact grammar first)
    (hasRules : kernel.HasRules grammar)
    (underway : Underway grammar kernel (known, core :: pending)) :
    ∃ next, serveLookahead grammar first core (known, pending) = .ok next ∧
      Underway grammar kernel next ∧
      Pays (fun known => facts (ofLookaheads known)) (known, pending) next := by
  have isKnown := underway.known core List.mem_cons_self
  have inClosure := underway.closing.inClosure core isKnown
  obtain ⟨ids, after, served, called, members⟩ :=
    ItemSet.exists_serveLookahead_eq_ok bodies exact (inClosure.hasRule hasRules) known pending
  simp only [← allows_ofLookaheads] at members
  have meets := meets_foldl_meetLookahead ids after (known, pending)
  have isNext := ofLookaheads_foldl_meetLookahead ids after (known, pending)
  refine ⟨_, served, ⟨?_, fun other member => ?_, fun other holds => ?_⟩, meets.pays⟩
  · rw [isNext]
    exact underway.closing.foldl_ruleItems inClosure called members
  · rcases meets.known other member with isPending | isFound
    · exact meets.pays.grown (a := (other, none))
        (underway.known other (List.mem_cons_of_mem _ isPending))
    · exact holds_ofLookaheads.mpr isFound
  · rcases meets.unchanged other with same | isPending
    · -- what a core allows decides what it calls for, and that is as before
      have allowsSame (terminal : Nat) :
          Allows (ofLookaheads (ids.foldl (meetLookahead after) (known, pending)).1) other
            terminal ↔ Allows (ofLookaheads known) other terminal := by
        rw [allows_ofLookaheads, allows_ofLookaheads, same]
      rw [holds_ofLookaheads, same, ← holds_ofLookaheads] at holds
      rcases underway.serves other holds with member | serves
      · rcases List.mem_cons.mp member with rfl | member
        · refine .inr fun id rest calls => ?_
          have isCalled := (called id).mpr ⟨rest, calls⟩
          simp only [allowsSame]
          rw [isNext]
          exact ⟨holds_ruleItems.mpr (.inr ⟨id, isCalled, rfl⟩), fun terminal allowed =>
            allows_ruleItems.mpr
              (.inr ⟨id, isCalled, rfl, (members id rest calls terminal).mpr allowed⟩)⟩
        · exact .inl (meets.pays.pending other member)
      · refine .inr fun id rest calls => ?_
        obtain ⟨holdsRule, allowsRule⟩ := serves id rest calls
        simp only [allowsSame]
        exact ⟨meets.pays.grown (a := (⟨id, 0⟩, none)) holdsRule, fun terminal allowed =>
          meets.pays.grown (a := (⟨id, 0⟩, some terminal)) (allowsRule terminal allowed)⟩
    · exact .inl isPending

/-- What the closure allows is allowed in the kernel or occurs in a body. -/
theorem ClosureAllows.mem (allows : ClosureAllows grammar kernel core terminal) :
    terminal ∈ grammar.bodyTerminals ∨ ∃ core, kernel.Allows core terminal := by
  induction allows with
  | kernel allows => exact .inr ⟨_, allows⟩
  | @first core id terminal rest _ calls begins =>
      obtain ⟨_, _, rule, found, split⟩ := calls
      obtain ⟨string, derives⟩ := begins
      have inBody : ∃ rule ∈ grammar.rules, .terminal terminal ∈ rule.body := by
        rcases derives.mem List.mem_cons_self with inRest | inBody
        · refine ⟨rule, List.mem_of_getElem? found, List.mem_of_mem_drop (i := core.marker) ?_⟩
          rw [split]
          exact List.mem_cons_of_mem _ inRest
        · exact inBody
      exact .inl (Grammar.mem_bodyTerminals.mpr inBody)
  | through _ _ _ ih => exact ih

/-- The facts that a closure can add to its kernel: a rule with the marker at its beginning, and the
terminals after it. -/
def addedFacts (grammar : Grammar) (kernel : ItemSet) : Set (Core × Option Nat) :=
  (fun fact => (⟨fact.1, 0⟩, fact.2)) '' (Set.Iio grammar.rules.length ×ˢ
    optionsOf (grammar.bodyTerminals ++ kernel.allLookaheads.toList))

theorem finite_addedFacts : (addedFacts grammar kernel).Finite :=
  ((Set.finite_Iio _).prod (finite_optionsOf _)).image _

theorem ncard_addedFacts_le : (addedFacts grammar kernel).ncard ≤
    grammar.rules.length * (1 + grammar.size + kernel.allLookaheads.toList.length) := by
  refine (Set.ncard_image_le ((Set.finite_Iio _).prod (finite_optionsOf _))).trans ?_
  rw [Set.ncard_prod, Set.ncard_Iio_nat]
  refine Nat.mul_le_mul_left _ ((ncard_optionsOf_le _).trans ?_)
  have few := grammar.length_bodyTerminals_le
  rw [List.length_append]
  omega

theorem Closing.facts_subset (closing : Closing grammar kernel set) :
    set.facts ⊆ kernel.facts ∪ addedFacts grammar kernel := by
  have called {core : Core} {id : Nat} {rest : List Symbol}
      (calls : grammar.CallsFor core id rest) : id < grammar.rules.length := by
    obtain ⟨rule, found, _⟩ := calls
    exact (List.getElem?_eq_some_iff.mp found).1
  rintro ⟨core, fact⟩ known
  cases fact with
  | none =>
      cases closing.inClosure core known with
      | kernel holds => exact .inl holds
      | rule _ calls => exact .inr ⟨(_, none), ⟨called calls, .inl rfl⟩, rfl⟩
  | some terminal =>
      have allows := closing.closureAllows core terminal known
      have listed : terminal ∈ grammar.bodyTerminals ++ kernel.allLookaheads.toList := by
        rw [List.mem_append, TerminalSet.mem_toList, mem_allLookaheads]
        exact allows.mem
      cases allows with
      | kernel allows => exact .inl allows
      | first _ calls _ =>
          exact .inr ⟨(_, some terminal),
            ⟨called calls, .inr ⟨terminal, listed, rfl⟩⟩, rfl⟩
      | through _ calls _ =>
          exact .inr ⟨(_, some terminal),
            ⟨called calls, .inr ⟨terminal, listed, rfl⟩⟩, rfl⟩

/-- Serving pending cores comes to an end within the bound, and what is known then is the least
closure. -/
theorem exists_runsDry_serveLookahead {first : FirstSets} (bodies : grammar.BodiesDeclared)
    (exact : FirstSets.Exact grammar first) (hasRules : kernel.HasRules grammar) :
    ∃ known turns,
      RunsDry (serveLookahead grammar first) (kernel.lookaheads, kernel.cores.reverse)
        known turns ∧ turns ≤ closureBound grammar kernel ∧
      (∀ core, Holds (ofLookaheads known) core ↔ InClosure grammar kernel core) ∧
      ∀ core terminal,
        Allows (ofLookaheads known) core terminal ↔
          ClosureAllows grammar kernel core terminal := by
  obtain ⟨known, turns, runsDry, underway, atMost⟩ := exists_runsDry
    ((finite_facts kernel).union finite_addedFacts)
    (fun _ underway => underway.closing.facts_subset)
    (fun _ _ _ underway => underway.exists_serveLookahead_eq_ok bodies exact hasRules)
    (underway_lookaheads grammar kernel)
  have complete := underway.closing.complete fun core holds =>
    (underway.serves core holds).resolve_left List.not_mem_nil
  refine ⟨known, turns, runsDry, ?_, fun core => ?_, fun core terminal => ?_⟩
  · have held : (facts (ofLookaheads known)).ncard ≤ _ := Set.ncard_le_ncard
      underway.closing.facts_subset ((finite_facts kernel).union finite_addedFacts)
    have union := Set.ncard_union_le kernel.facts (addedFacts grammar kernel)
    have few := @ncard_addedFacts_le grammar kernel
    simp only [facts_lookaheads, List.length_reverse] at atMost
    rw [closureBound]
    omega
  · exact ⟨underway.closing.inClosure core, complete.1 core⟩
  · exact ⟨underway.closing.closureAllows core terminal, complete.2 core terminal⟩

theorem closeLookahead_eq_ok {first : FirstSets} {known : Lookaheads} {turns : Nat}
    (runsDry : RunsDry (serveLookahead grammar first) (kernel.lookaheads, kernel.cores.reverse)
      known turns) (enough : turns ≤ closureBound grammar kernel) :
    kernel.closeLookahead grammar first = .ok (ofLookaheads known) := by
  simp [closeLookahead, runsDry.drain_eq_ok enough]

/-! ## The closure without lookaheads -/

/-- A set that holds the kernel and nothing beyond the cores of its closure. The kernel keeps its
lookaheads, and the other items have none. -/
structure PlainClosing (grammar : Grammar) (kernel set : ItemSet) : Prop where
  /-- The kernel is part of the set. -/
  kernel_holds : ∀ core, kernel.Holds core → set.Holds core
  /-- No item has other lookaheads than in the kernel. -/
  lookahead_eq : ∀ core lookahead, set.find? core = some lookahead →
    lookahead = (kernel.find? core).getD none
  /-- Its cores are in the closure. -/
  inClosure : ∀ core, set.Holds core → InClosure grammar kernel core

/-- The cores that a set holds. -/
def heldCores (set : ItemSet) : Set Core := {core | set.Holds core}

/-- There is one such set with given cores. -/
theorem PlainClosing.eq_of_heldCores_eq (closing : PlainClosing grammar kernel set)
    (otherClosing : PlainClosing grammar kernel other) (same : set.heldCores = other.heldCores) :
    set = other := by
  apply AscendingMap.ext_find?
  intro core
  have sameCore : set.Holds core ↔ other.Holds core := iff_of_eq (congrFun same core)
  cases found : set.find? core with
  | some lookahead =>
      obtain ⟨otherLookahead, otherFound⟩ := sameCore.mp ⟨_, found⟩
      rw [otherFound, closing.lookahead_eq core _ found,
        otherClosing.lookahead_eq core _ otherFound]
  | none =>
      cases otherFound : other.find? core with
      | none => rfl
      | some otherLookahead =>
          obtain ⟨_, impossible⟩ := sameCore.mpr ⟨_, otherFound⟩
          rw [found] at impossible
          cases impossible

theorem plainClosing_kernel (grammar : Grammar) (kernel : ItemSet) :
    PlainClosing grammar kernel kernel where
  kernel_holds _ holds := holds
  lookahead_eq core lookahead found := by
    rw [found]
    rfl
  inClosure _ holds := .kernel holds

/-- Adding a core of the closure without lookaheads changes no lookahead. -/
theorem PlainClosing.add (closing : PlainClosing grammar kernel set)
    (inClosure : InClosure grammar kernel core) :
    PlainClosing grammar kernel (set.add ⟨core, none⟩) where
  kernel_holds other holds := holds_add.mpr (.inl (closing.kernel_holds other holds))
  lookahead_eq other lookahead found := by
    rw [find?_add] at found
    split at found
    · rename_i same
      obtain rfl : other = core := same
      cases known : set.find? other with
      | some old =>
          rw [known] at found
          cases found
          rw [← closing.lookahead_eq other old known]
          cases old <;> rfl
      | none =>
          have absent : kernel.find? other = none := by
            cases inKernel : kernel.find? other with
            | none => rfl
            | some old =>
                obtain ⟨_, impossible⟩ := closing.kernel_holds other ⟨old, inKernel⟩
                rw [known] at impossible
                cases impossible
          rw [known] at found
          cases found
          rw [absent]
          rfl
    · exact closing.lookahead_eq other lookahead found
  inClosure other holds := by
    rcases holds_add.mp holds with known | rfl
    · exact closing.inClosure other known
    · exact inClosure

/-- The items of the kernel, and those that have been added. -/
def Expansion.items (expansion : Expansion) (kernel : ItemSet) : ItemSet :=
  expansion.added.foldl add kernel

theorem Expansion.items_eq (expansion : Expansion) (kernel : ItemSet) :
    expansion.items kernel = ofList (kernel.items ++ expansion.added) := by
  rw [ofList, List.foldl_append, ← ofList, ofList_items, items]

/-- What has been seen is within the closure. -/
structure Expansion.IsOf (expansion : Expansion) (grammar : Grammar) (kernel : ItemSet) : Prop where
  closing : PlainClosing grammar kernel (expansion.items kernel)
  mem_seen : ∀ core, core ∈ expansion.seen ↔ (expansion.items kernel).Holds core

/-- What has been seen stays seen, and what comes to be seen has become pending. -/
structure PlainMeets (kernel : ItemSet) (before later : Expansion × List Core) : Prop where
  pays : Pays (fun expansion => heldCores (expansion.items kernel)) before later
  seen : ∀ core ∈ before.1.seen, core ∈ later.1.seen
  pending : ∀ core ∈ later.1.seen, core ∈ before.1.seen ∨ core ∈ later.2
  known : ∀ core ∈ later.2, core ∈ before.2 ∨ core ∈ later.1.seen

theorem finite_heldCores (set : ItemSet) : set.heldCores.Finite :=
  (List.finite_toSet set.cores).subset fun _ holds => mem_cores.mpr holds

namespace PlainMeets

variable {before middle later : Expansion × List Core}

theorem refl (kernel : ItemSet) (state : Expansion × List Core) : PlainMeets kernel state state :=
  ⟨.refl state, fun _ => id, fun _ => .inl, fun _ => .inl⟩

theorem trans (here : PlainMeets kernel before middle) (there : PlainMeets kernel middle later) :
    PlainMeets kernel before later := by
  refine ⟨here.pays.trans there.pays,
    fun core member => there.seen core (here.seen core member), fun core member => ?_,
    fun core member => ?_⟩
  · rcases there.pending core member with isSeen | isPending
    · exact (here.pending core isSeen).imp_right (there.pays.pending core)
    · exact .inr isPending
  · rcases there.known core member with isPending | isSeen
    · exact (here.known core isPending).imp_right (there.seen core)
    · exact .inr isSeen

end PlainMeets

/-- A rule of the closure that has not been seen is added, and becomes pending. -/
theorem meetPlain_spec_of_new {expansion : Expansion} {pending : List Core} {rule : Nat}
    (isOf : expansion.IsOf grammar kernel) (inClosure : InClosure grammar kernel ⟨rule, 0⟩)
    (new : ⟨rule, 0⟩ ∉ expansion.seen) :
    (meetPlain (expansion, pending) rule).1.IsOf grammar kernel ∧
      PlainMeets kernel (expansion, pending) (meetPlain (expansion, pending) rule) := by
  rw [meetPlain, if_neg new]
  have isItems : Expansion.items
      ⟨⟨rule, 0⟩ :: expansion.seen, expansion.added ++ [⟨⟨rule, 0⟩, none⟩]⟩ kernel =
        (expansion.items kernel).add ⟨⟨rule, 0⟩, none⟩ := by
    simp [Expansion.items]
  have isNew : ⟨rule, 0⟩ ∉ heldCores (expansion.items kernel) :=
    fun holds => new ((isOf.mem_seen _).mpr holds)
  have holds (core : Core) :
      core ∈ heldCores ((expansion.items kernel).add ⟨⟨rule, 0⟩, none⟩) ↔
        core ∈ heldCores (expansion.items kernel) ∨ core = ⟨rule, 0⟩ := holds_add
  refine ⟨⟨?_, fun core => ?_⟩, ⟨⟨fun core => List.mem_cons_of_mem _, ?_, ?_⟩,
    fun core => List.mem_cons_of_mem _, fun core member => ?_, fun core member => ?_⟩⟩
  · rw [isItems]
    exact isOf.closing.add inClosure
  · rw [isItems, List.mem_cons, isOf.mem_seen, or_comm]
    exact (holds core).symm
  · rw [isItems]
    exact fun core known => (holds core).mpr (.inl known)
  · have strictly : heldCores (expansion.items kernel) ⊂
        heldCores ((expansion.items kernel).add ⟨⟨rule, 0⟩, none⟩) :=
      ⟨fun core known => (holds core).mpr (.inl known),
        fun less => isNew (less ((holds _).mpr (.inr rfl)))⟩
    have more := Set.ncard_lt_ncard strictly (finite_heldCores _)
    simp only [isItems, List.length_cons]
    omega
  · rcases List.mem_cons.mp member with rfl | member
    · exact .inr List.mem_cons_self
    · exact .inl member
  · rcases List.mem_cons.mp member with rfl | member
    · exact .inr List.mem_cons_self
    · exact .inl member

/-- A rule of the closure that is met has been seen afterwards. -/
theorem meetPlain_spec {state : Expansion × List Core} {rule : Nat}
    (isOf : state.1.IsOf grammar kernel) (inClosure : InClosure grammar kernel ⟨rule, 0⟩) :
    (meetPlain state rule).1.IsOf grammar kernel ∧
    PlainMeets kernel state (meetPlain state rule) ∧
      ⟨rule, 0⟩ ∈ (meetPlain state rule).1.seen := by
  by_cases isSeen : ⟨rule, 0⟩ ∈ state.1.seen
  · rw [meetPlain, if_pos isSeen]
    exact ⟨isOf, .refl kernel state, isSeen⟩
  · obtain ⟨isOfNext, meets⟩ := meetPlain_spec_of_new isOf inClosure isSeen
    refine ⟨isOfNext, meets, ?_⟩
    rw [meetPlain, if_neg isSeen]
    exact List.mem_cons_self

theorem foldl_meetPlain_spec {state : Expansion × List Core} {ids : List Nat}
    (isOf : state.1.IsOf grammar kernel)
    (inClosure : ∀ id ∈ ids, InClosure grammar kernel ⟨id, 0⟩) :
    (ids.foldl meetPlain state).1.IsOf grammar kernel ∧
      PlainMeets kernel state (ids.foldl meetPlain state) ∧
      ∀ id ∈ ids, ⟨id, 0⟩ ∈ (ids.foldl meetPlain state).1.seen := by
  induction ids generalizing state with
  | nil => exact ⟨isOf, .refl kernel state, by simp⟩
  | cons id ids ih =>
      obtain ⟨isOfNext, here, seenHere⟩ := meetPlain_spec isOf (inClosure id List.mem_cons_self)
      obtain ⟨isOfLater, there, seenThere⟩ :=
        ih isOfNext fun other member => inClosure other (List.mem_cons_of_mem _ member)
      refine ⟨isOfLater, here.trans there, fun other member => ?_⟩
      rcases List.mem_cons.mp member with rfl | member
      · exact there.seen _ seenHere
      · exact seenThere other member

/-- A closure without lookaheads under way: a core that has been seen is pending or has been
served. -/
structure PlainUnderway (grammar : Grammar) (kernel : ItemSet) (state : Expansion × List Core) :
    Prop where
  isOf : state.1.IsOf grammar kernel
  known : ∀ core ∈ state.2, core ∈ state.1.seen
  serves : ∀ core ∈ state.1.seen, core ∈ state.2 ∨
    ∀ id rest, grammar.CallsFor core id rest → ⟨id, 0⟩ ∈ state.1.seen

theorem plainUnderway_kernel (grammar : Grammar) (kernel : ItemSet) :
    PlainUnderway grammar kernel (⟨kernel.cores, []⟩, kernel.cores.reverse) where
  isOf := ⟨plainClosing_kernel grammar kernel, fun _ => mem_cores⟩
  known _ := List.mem_reverse.mp
  serves _ member := .inl (List.mem_reverse.mpr member)

theorem PlainUnderway.exists_servePlain_eq_ok (bodies : grammar.BodiesDeclared)
    (hasRules : kernel.HasRules grammar) {expansion : Expansion}
    (underway : PlainUnderway grammar kernel (expansion, core :: pending)) :
    ∃ next, servePlain grammar core (expansion, pending) = .ok next ∧
      PlainUnderway grammar kernel next ∧
      Pays (fun expansion => heldCores (expansion.items kernel)) (expansion, pending) next := by
  have isSeen := underway.known core List.mem_cons_self
  have inClosure := underway.isOf.closing.inClosure core ((underway.isOf.mem_seen core).mp isSeen)
  obtain ⟨ids, served, called⟩ := ItemSet.exists_servePlain_eq_ok bodies
    (inClosure.hasRule hasRules) (expansion, pending)
  have ruleInClosure : ∀ id ∈ ids, InClosure grammar kernel ⟨id, 0⟩ := by
    intro id member
    obtain ⟨rest, calls⟩ := (called id).mp member
    exact .rule inClosure calls
  obtain ⟨isOf, meets, met⟩ :=
    @foldl_meetPlain_spec grammar kernel (expansion, pending) ids underway.isOf ruleInClosure
  refine ⟨_, served, ⟨isOf, fun other member => ?_, fun other member => ?_⟩, meets.pays⟩
  · rcases meets.known other member with isPending | isKnown
    · exact meets.seen other (underway.known other (List.mem_cons_of_mem _ isPending))
    · exact isKnown
  · rcases meets.pending other member with wasSeen | isPending
    · rcases underway.serves other wasSeen with member | serves
      · rcases List.mem_cons.mp member with rfl | member
        · exact .inr fun id rest calls => met id ((called id).mpr ⟨rest, calls⟩)
        · exact .inl (meets.pays.pending other member)
      · exact .inr fun id rest calls => meets.seen _ (serves id rest calls)
    · exact .inl isPending

/-- The cores with the marker at the beginning of a rule. -/
def startCores (grammar : Grammar) : Set Core :=
  (fun id => ⟨id, 0⟩) '' Set.Iio grammar.rules.length

theorem finite_startCores (grammar : Grammar) : (startCores grammar).Finite :=
  (Set.finite_Iio _).image _

theorem ncard_startCores_le (grammar : Grammar) :
    (startCores grammar).ncard ≤ grammar.rules.length :=
  (Set.ncard_image_le (Set.finite_Iio _)).trans (Set.ncard_Iio_nat _).le

theorem PlainClosing.heldCores_subset (closing : PlainClosing grammar kernel set) :
    set.heldCores ⊆ kernel.heldCores ∪ startCores grammar := by
  intro core holds
  cases closing.inClosure core holds with
  | kernel holds => exact .inl holds
  | rule _ calls =>
      obtain ⟨rule, found, _⟩ := calls
      exact .inr ⟨_, (List.getElem?_eq_some_iff.mp found).1, rfl⟩

/-- Serving pending cores without lookaheads comes to an end within the bound: the cores that have
been seen are those of the least closure, and the lookaheads of the kernel are kept. -/
theorem exists_runsDry_servePlain (bodies : grammar.BodiesDeclared)
    (hasRules : kernel.HasRules grammar) :
    ∃ expansion turns, RunsDry (servePlain grammar) (⟨kernel.cores, []⟩, kernel.cores.reverse)
        expansion turns ∧ turns ≤ kernel.cores.length + grammar.rules.length ∧
      PlainClosing grammar kernel (expansion.items kernel) ∧
      ∀ core, (expansion.items kernel).Holds core ↔ InClosure grammar kernel core := by
  obtain ⟨expansion, turns, runsDry, underway, atMost⟩ := exists_runsDry
    ((finite_heldCores kernel).union (finite_startCores grammar))
    (fun _ underway => underway.isOf.closing.heldCores_subset)
    (fun _ _ _ underway => underway.exists_servePlain_eq_ok bodies hasRules)
    (plainUnderway_kernel grammar kernel)
  have closing := underway.isOf.closing
  refine ⟨expansion, turns, runsDry, ?_, closing, fun core => ⟨closing.inClosure core, ?_⟩⟩
  · have held : (heldCores (expansion.items kernel)).ncard ≤ _ := Set.ncard_le_ncard
      closing.heldCores_subset ((finite_heldCores kernel).union (finite_startCores grammar))
    have union := Set.ncard_union_le kernel.heldCores (startCores grammar)
    have few := ncard_startCores_le grammar
    have start : Expansion.items ⟨kernel.cores, []⟩ kernel = kernel := rfl
    simp only [start, List.length_reverse] at atMost
    omega
  · intro inClosure
    rw [← underway.isOf.mem_seen]
    induction inClosure with
    | kernel holds => exact (underway.isOf.mem_seen _).mpr (closing.kernel_holds _ holds)
    | rule _ calls ih =>
        exact (underway.serves _ ih).resolve_left List.not_mem_nil _ _ calls

theorem closePlain_eq_ok {expansion : Expansion} {turns : Nat}
    (runsDry : RunsDry (servePlain grammar) (⟨kernel.cores, []⟩, kernel.cores.reverse)
      expansion turns) (enough : turns ≤ kernel.cores.length + grammar.rules.length) :
    kernel.closePlain grammar = .ok (expansion.items kernel) := by
  simp only [closePlain, runsDry.drain_eq_ok enough, ok_bind, pure_eq_ok, expansion.items_eq]

end ItemSet

namespace AutomatonKind

/-- Whether items have lookaheads. -/
def marked : AutomatonKind → Bool
  | lr0 => false
  | lr1 | lalr1 => true

/-- The items are the closure of the kernel, in the way of the construction. -/
structure Closes (kind : AutomatonKind) (grammar : Grammar) (kernel items : ItemSet) : Prop where
  /-- They have lookaheads exactly if the construction has. -/
  marked : items.Marked kind.marked
  /-- Their cores are those of the least closure. -/
  holds : ∀ core, items.Holds core ↔ ItemSet.InClosure grammar kernel core
  /-- They allow what the least closure allows. -/
  allows : kind.marked = true → ∀ core terminal,
    items.Allows core terminal ↔ ItemSet.ClosureAllows grammar kernel core terminal

variable {kind : AutomatonKind} {grammar : Grammar} {first : FirstSets} {kernel items : ItemSet}

theorem exists_close_eq_ok (bodies : grammar.BodiesDeclared)
    (exact : FirstSets.Exact grammar first) (hasRules : kernel.HasRules grammar)
    (kernelMarked : kernel.Marked kind.marked) :
    ∃ items, kind.close grammar first kernel = .ok items ∧
      kind.Closes grammar kernel items := by
  have withLookaheads : ∃ items, kernel.closeLookahead grammar first = .ok items ∧
      items.Marked true ∧
      (∀ core, items.Holds core ↔ ItemSet.InClosure grammar kernel core) ∧ ∀ core terminal,
        items.Allows core terminal ↔ ItemSet.ClosureAllows grammar kernel core terminal := by
    obtain ⟨known, _, runsDry, enough, closure⟩ :=
      ItemSet.exists_runsDry_serveLookahead bodies exact hasRules
    exact ⟨_, ItemSet.closeLookahead_eq_ok runsDry enough, ItemSet.marked_ofLookaheads known,
      closure⟩
  cases kind with
  | lr0 =>
      obtain ⟨_, _, runsDry, enough, closing, holds⟩ :=
        ItemSet.exists_runsDry_servePlain bodies hasRules
      refine ⟨_, ItemSet.closePlain_eq_ok runsDry enough, ⟨?_, holds, by simp [marked]⟩⟩
      intro core lookahead isFound
      rw [closing.lookahead_eq core lookahead isFound]
      cases known : kernel.find? core with
      | none => rfl
      | some old => exact kernelMarked core old known
  | lr1 =>
      obtain ⟨items, found, isMarked, holds, allows⟩ := withLookaheads
      exact ⟨items, found, ⟨isMarked, holds, fun _ => allows⟩⟩
  | lalr1 =>
      obtain ⟨items, found, isMarked, holds, allows⟩ := withLookaheads
      exact ⟨items, found, ⟨isMarked, holds, fun _ => allows⟩⟩

theorem Closes.merge {other otherItems : ItemSet} (closes : kind.Closes grammar kernel items)
    (otherCloses : kind.Closes grammar other otherItems) :
    kind.Closes grammar (kernel.merge other) (items.merge otherItems) := by
  refine ⟨closes.marked.merge otherCloses.marked,
    fun core => ?_, fun marked core terminal => ?_⟩
  · rw [ItemSet.holds_merge, closes.holds, otherCloses.holds, ItemSet.inClosure_merge]
  · rw [ItemSet.allows_merge, closes.allows marked, otherCloses.allows marked,
      ItemSet.closureAllows_merge]

/-- There is only one closure of a kernel. -/
theorem Closes.unique {other : ItemSet} (closes : kind.Closes grammar kernel items)
    (otherCloses : kind.Closes grammar kernel other) : items = other := by
  refine ItemSet.ext_of_marked closes.marked otherCloses.marked (fun core => ?_)
    fun core terminal => ?_
  · rw [closes.holds, otherCloses.holds]
  · cases isMarked : kind.marked with
    | true => rw [closes.allows isMarked, otherCloses.allows isMarked]
    | false =>
        have none := closes.marked
        have otherNone := otherCloses.marked
        rw [isMarked] at none otherNone
        exact iff_of_false (ItemSet.not_allows_of_marked none)
          (ItemSet.not_allows_of_marked otherNone)

theorem Closes.within (closes : kind.Closes grammar kernel items)
    (within : kernel.Within grammar) : items.Within grammar :=
  fun core holds => ((closes.holds core).mp holds).hasCore within

end AutomatonKind

end DeterministicParsing
