/-
# Valid cores, closures and successors

What the states of an automaton should know is said by frames, and what they do know is found by
closures and successors. This module relates the two for a single item set, before any automaton is
built. The kernel of a string holds the valid cores that have read something of it, and at the very
beginning the accept rule. Its closure then holds all valid cores, its successor for a symbol is the
kernel of the string with that symbol added, and the same goes for the terminals that can come after
a valid core.
-/
import DeterministicParsing.Proofs.Grammar.Augmentation
import DeterministicParsing.Proofs.Item.Closure

namespace DeterministicParsing

namespace Grammar

variable {grammar : Grammar} {string after rest : List Symbol} {core : Core} {symbol : Symbol}
  {terminal : Nat}

theorem ValidFor.hasCore (valid : grammar.ValidFor string core after) : grammar.HasCore core := by
  obtain ⟨rule, _, found, within, _⟩ := valid
  exact ⟨rule, found, within⟩

theorem ValidFor.advance (valid : grammar.ValidFor string core after)
    (expects : grammar.Expects core symbol rest) :
    grammar.ValidFor (string ++ [symbol]) core.advanced after := by
  obtain ⟨rule, found, split⟩ := expects
  exact valid.advanced found (drop_eq_cons.mp split).1

theorem ValidFor.inner {id : Nat} (valid : grammar.ValidFor string core after)
    (calls : grammar.CallsFor core id rest) :
    grammar.ValidFor string ⟨id, 0⟩ (rest ++ after) := by
  obtain ⟨inner, foundInner, rule, found, split⟩ := calls
  obtain ⟨next, rfl⟩ := drop_eq_cons.mp split
  exact valid.within found next foundInner

/-- A core that has read something was valid before it read its last symbol. -/
theorem ValidFor.exists_earlier (valid : grammar.ValidFor string core after)
    (moved : 0 < core.marker) :
    ∃ earlier before symbol rest, core = earlier.advanced ∧ string = before ++ [symbol] ∧
      grammar.ValidFor before earlier after ∧ grammar.Expects earlier symbol rest := by
  obtain ⟨id, marker⟩ := core
  obtain ⟨rule, before, found, within, frame, rfl⟩ := valid
  obtain ⟨marker, rfl⟩ := Nat.exists_eq_succ_of_ne_zero moved.ne'
  have next : rule.body[marker]? = some rule.body[marker] := List.getElem?_eq_getElem within
  refine ⟨⟨id, marker⟩, before ++ rule.body.take marker, rule.body[marker],
    rule.body.drop (marker + 1), rfl, ?_, ?_, ?_⟩
  · rw [List.append_assoc, List.take_add_one, next, Option.toList_some]
  · exact ⟨rule, before, found, Nat.le_of_succ_le within, frame, rfl⟩
  · exact ⟨rule, found, drop_eq_cons.mpr ⟨next, rfl⟩⟩

theorem ValidFor.exists_earlier_of_snoc (valid : grammar.ValidFor (string ++ [symbol]) core after)
    (moved : 0 < core.marker) :
    ∃ earlier rest, core = earlier.advanced ∧ grammar.ValidFor string earlier after ∧
      grammar.Expects earlier symbol rest := by
  obtain ⟨earlier, before, other, rest, isAdvanced, same, validEarlier, expects⟩ :=
    valid.exists_earlier moved
  obtain ⟨rfl, rfl⟩ : string = before ∧ symbol = other := by simpa using same
  exact ⟨earlier, rest, isAdvanced, validEarlier, expects⟩

/-- Where something stands in front of a frame, some core has just read the last of it. -/
theorem Frame.exists_validFor {before : List Symbol} {nonterminal : Nat}
    (frame : grammar.Frame before nonterminal after) (nonempty : before ≠ []) :
    ∃ core after, grammar.ValidFor before core after ∧ 0 < core.marker := by
  induction frame with
  | start starts => exact absurd rfl nonempty
  | @within before after left right head nonterminal outer member ih =>
      cases left with
      | nil =>
          rw [List.append_nil] at nonempty ⊢
          exact ih nonempty
      | cons symbol left =>
          obtain ⟨id, found⟩ := List.getElem?_of_mem member
          refine ⟨⟨id, (symbol :: left).length⟩, after,
            ⟨_, before, found, ?_, outer, ?_⟩, by simp⟩
          · simp
          · simp

theorem ViablePrefix.exists_validFor (viable : grammar.ViablePrefix string)
    (nonempty : string ≠ []) :
    ∃ core after, grammar.ValidFor string core after ∧ 0 < core.marker := by
  obtain ⟨core, after, valid⟩ := viable
  by_cases moved : 0 < core.marker
  · exact ⟨core, after, valid, moved⟩
  · obtain ⟨rule, before, found, _, frame, rfl⟩ := valid
    rw [Nat.eq_zero_of_not_pos moved, List.take_zero, List.append_nil] at nonempty ⊢
    exact frame.exists_validFor nonempty

/-- A string with one more symbol is viable exactly if a core that is valid for the string expects
the symbol. -/
theorem viablePrefix_snoc :
    grammar.ViablePrefix (string ++ [symbol]) ↔
      ∃ core after rest, grammar.ValidFor string core after ∧
        grammar.Expects core symbol rest := by
  constructor
  · intro viable
    obtain ⟨core, after, valid, moved⟩ := viable.exists_validFor (by simp)
    obtain ⟨earlier, rest, rfl, validEarlier, expects⟩ := valid.exists_earlier_of_snoc moved
    exact ⟨earlier, after, rest, validEarlier, expects⟩
  · rintro ⟨core, after, rest, valid, expects⟩
    exact ⟨core.advanced, after, valid.advance expects⟩

/-- What stands in front of a viable prefix is one itself. -/
theorem ViablePrefix.of_append {first second : List Symbol}
    (viable : grammar.ViablePrefix (first ++ second)) : grammar.ViablePrefix first := by
  induction second generalizing first with
  | nil => rwa [List.append_nil] at viable
  | cons symbol second ih =>
      rw [List.append_cons] at viable
      obtain ⟨core, after, _, valid, _⟩ := viablePrefix_snoc.mp (ih viable)
      exact ⟨core, after, valid⟩

/-! ## Lookaheads -/

theorem ValidLookahead.advance (valid : grammar.ValidLookahead string core terminal)
    (expects : grammar.Expects core symbol rest) :
    grammar.ValidLookahead (string ++ [symbol]) core.advanced terminal := by
  obtain ⟨after, valid, begins⟩ := valid
  exact ⟨after, valid.advance expects, begins⟩

/-- Moving the marker back changes nothing about what can come after the rule. -/
theorem ValidLookahead.exists_earlier
    (valid : grammar.ValidLookahead (string ++ [symbol]) core terminal) (moved : 0 < core.marker) :
    ∃ earlier rest, core = earlier.advanced ∧ grammar.ValidLookahead string earlier terminal ∧
      grammar.Expects earlier symbol rest := by
  obtain ⟨after, valid, begins⟩ := valid
  obtain ⟨earlier, rest, rfl, validEarlier, expects⟩ := valid.exists_earlier_of_snoc moved
  exact ⟨earlier, rest, rfl, ⟨after, validEarlier, begins⟩, expects⟩

theorem Frame.mem_after {before : List Symbol} {nonterminal : Nat}
    (frame : grammar.Frame before nonterminal after) (member : symbol ∈ after) :
    symbol = .terminal endOfInput ∨ ∃ rule ∈ grammar.rules, symbol ∈ rule.body := by
  induction frame with
  | start starts =>
      rw [word_cons, word_nil, List.mem_singleton] at member
      exact .inl member
  | within outer isRule ih =>
      rcases List.mem_append.mp member with inRight | inAfter
      · refine .inr ⟨_, isRule, ?_⟩
        simp [inRight]
      · exact ih inAfter

/-- Nothing can come after a rule but the end of the input and the terminals in the bodies. -/
theorem ValidLookahead.mem (valid : grammar.ValidLookahead string core terminal) :
    terminal ∈ endOfInput :: grammar.bodyTerminals := by
  obtain ⟨after, ⟨rule, before, _, _, frame, _⟩, tail, derives⟩ := valid
  rw [List.mem_cons, mem_bodyTerminals]
  rcases derives.mem List.mem_cons_self with inAfter | inBody
  · rcases frame.mem_after inAfter with same | inBody
    · exact .inl (Symbol.terminal.inj same)
    · exact .inr inBody
  · exact .inr inBody

theorem ValidLookahead.declares (bodies : grammar.BodiesDeclared)
    (valid : grammar.ValidLookahead string core terminal) : grammar.Declares (.terminal terminal) :=
  declares_of_mem_bodyTerminals bodies valid.mem

end Grammar

/-! ## The kernel of a string -/

namespace ItemSet

variable {grammar : Grammar} {start accept target : Nat} {kernel items next : ItemSet}
  {string : List Symbol} {core : Core} {symbol : Symbol} {terminal : Nat}

/-- The kernel holds the cores that are valid for the string and have read something of it, or
belong to the accept rule. -/
def IsKernelFor (grammar : Grammar) (accept : Nat) (kernel : ItemSet)
    (string : List Symbol) : Prop :=
  ∀ core, kernel.Holds core ↔
    (∃ after, grammar.ValidFor string core after) ∧ (0 < core.marker ∨ core.rule = accept)

/-- After every core that it holds, the kernel allows all terminals that can come there when the
string has been read. -/
def Admits (grammar : Grammar) (kernel : ItemSet) (string : List Symbol) : Prop :=
  ∀ core terminal, kernel.Holds core → grammar.ValidLookahead string core terminal →
    kernel.Allows core terminal

/-- Two kernels of the same string have the same cores. -/
theorem IsKernelFor.holds_iff {other : ItemSet}
    (isKernel : kernel.IsKernelFor grammar accept string)
    (isOther : other.IsKernelFor grammar accept string) :
    kernel.Holds core ↔ other.Holds core := by
  rw [isKernel core, isOther core]

theorem IsKernelFor.of_holds_iff {other : ItemSet}
    (isKernel : kernel.IsKernelFor grammar accept string)
    (same : ∀ core, kernel.Holds core ↔ other.Holds core) :
    other.IsKernelFor grammar accept string := by
  intro core
  rw [← same core]
  exact isKernel core

theorem IsKernelFor.within (isKernel : kernel.IsKernelFor grammar accept string) :
    kernel.Within grammar := by
  intro core holds
  obtain ⟨⟨after, valid⟩, _⟩ := (isKernel core).mp holds
  exact valid.hasCore

/-- At the beginning, the kernel holds nothing but the accept rule. -/
theorem isKernelFor_nil (fresh : grammar.HasFreshStart start accept target)
    (holds : ∀ core, kernel.Holds core ↔ core = ⟨accept, 0⟩) :
    kernel.IsKernelFor grammar accept [] := by
  intro core
  rw [holds core]
  constructor
  · rintro rfl
    refine ⟨⟨word [endOfInput], ?_⟩, .inr rfl⟩
    exact (Grammar.Frame.start fresh.start_eq).validFor fresh.found rfl
  · rintro ⟨⟨after, valid⟩, placed⟩
    have unmoved : ¬ 0 < core.marker := by
      intro moved
      obtain ⟨_, _, _, _, _, same, _⟩ := valid.exists_earlier moved
      simp at same
    obtain ⟨rule, marker⟩ := core
    obtain rfl : marker = 0 := Nat.eq_zero_of_not_pos unmoved
    obtain rfl : rule = accept := placed.resolve_left unmoved
    rfl

/-- All rules of a nonterminal that is looked for after the string are in the closure. -/
theorem inClosure_of_frame (fresh : grammar.HasFreshStart start accept target)
    {after : List Symbol} {nonterminal id : Nat} {rule : Rule}
    (frame : grammar.Frame string nonterminal after)
    (isKernel : kernel.IsKernelFor grammar accept string)
    (found : grammar.rules[id]? = some rule) (head : rule.head = nonterminal) :
    InClosure grammar kernel ⟨id, 0⟩ := by
  -- The outer rule is in the closure by induction if nothing of it has been read, and otherwise it
  -- is in the kernel.
  induction frame generalizing id rule with
  | start starts =>
      have valid := (Grammar.Frame.start starts).validFor found head
      obtain rfl := Except.ok.inj (starts.symm.trans fresh.start_eq)
      exact .kernel ((isKernel _).mpr ⟨⟨_, valid⟩, .inr (fresh.unique id rule found head)⟩)
  | @within before after left right outerHead nonterminal outer member ih =>
      obtain ⟨outerId, outerFound⟩ := List.getElem?_of_mem member
      have calls : grammar.CallsFor ⟨outerId, left.length⟩ id right :=
        ⟨rule, found, _, outerFound, by simp [head]⟩
      refine .rule ?_ calls
      cases left with
      | nil =>
          rw [List.append_nil] at isKernel
          exact ih isKernel outerFound rfl
      | cons symbol left =>
          refine .kernel
            ((isKernel _).mpr ⟨⟨after, _, before, outerFound, ?_, outer, ?_⟩, .inl ?_⟩)
          · simp
          · simp
          · simp

/-- The closure of the kernel of a string holds exactly the cores that are valid for it. -/
theorem IsKernelFor.inClosure_iff (fresh : grammar.HasFreshStart start accept target)
    (isKernel : kernel.IsKernelFor grammar accept string) :
    InClosure grammar kernel core ↔ ∃ after, grammar.ValidFor string core after := by
  constructor
  · intro inClosure
    induction inClosure with
    | kernel holds => exact ((isKernel _).mp holds).1
    | rule _ calls ih =>
        obtain ⟨after, valid⟩ := ih
        exact ⟨_, valid.inner calls⟩
  · rintro ⟨after, valid⟩
    by_cases moved : 0 < core.marker
    · exact .kernel ((isKernel core).mpr ⟨⟨after, valid⟩, .inl moved⟩)
    · obtain ⟨id, marker⟩ := core
      obtain ⟨rule, before, found, _, frame, rfl⟩ := valid
      obtain rfl : marker = 0 := Nat.eq_zero_of_not_pos moved
      rw [List.take_zero, List.append_nil] at isKernel
      exact inClosure_of_frame fresh frame isKernel found rfl

/-- What the closure of a kernel becomes when a symbol is read is the kernel of the longer
string. -/
theorem IsKernelFor.successor (fresh : grammar.HasFreshStart start accept target)
    (isKernel : kernel.IsKernelFor grammar accept string)
    (holds : ∀ core, next.Holds core ↔ ∃ earlier rest, core = earlier.advanced ∧
      InClosure grammar kernel earlier ∧ grammar.Expects earlier symbol rest) :
    next.IsKernelFor grammar accept (string ++ [symbol]) := by
  intro core
  rw [holds core]
  constructor
  · rintro ⟨earlier, rest, rfl, inClosure, expects⟩
    obtain ⟨after, valid⟩ := (isKernel.inClosure_iff fresh).mp inClosure
    exact ⟨⟨after, valid.advance expects⟩, .inl (Nat.succ_pos _)⟩
  · rintro ⟨⟨after, valid⟩, placed⟩
    have moved : 0 < core.marker := by
      rcases placed with moved | isAccept
      · exact moved
      · obtain ⟨id, marker⟩ := core
        obtain rfl : id = accept := isAccept
        have same := (fresh.eq_of_validFor_accept valid).1
        cases marker with
        | zero => simp at same
        | succ marker => exact Nat.succ_pos _
    obtain ⟨earlier, rest, rfl, validEarlier, expects⟩ := valid.exists_earlier_of_snoc moved
    exact ⟨earlier, rest, rfl,
      (isKernel.inClosure_iff fresh).mpr ⟨after, validEarlier⟩, expects⟩

/-! ## The lookaheads of a kernel -/

theorem closureAllows_of_frame (fresh : grammar.HasFreshStart start accept target)
    {after : List Symbol} {nonterminal id : Nat} {rule : Rule}
    (frame : grammar.Frame string nonterminal after)
    (isKernel : kernel.IsKernelFor grammar accept string) (admits : kernel.Admits grammar string)
    (found : grammar.rules[id]? = some rule) (head : rule.head = nonterminal)
    (begins : grammar.DerivesBeginning after terminal) :
    ClosureAllows grammar kernel ⟨id, 0⟩ terminal := by
  induction frame generalizing id rule with
  | start starts =>
      have valid := (Grammar.Frame.start starts).validFor found head
      obtain rfl := Except.ok.inj (starts.symm.trans fresh.start_eq)
      refine .kernel (admits _ _ ?_ ⟨_, valid, begins⟩)
      exact (isKernel _).mpr ⟨⟨_, valid⟩, .inr (fresh.unique id rule found head)⟩
  | @within before after left right outerHead nonterminal outer member ih =>
      obtain ⟨outerId, outerFound⟩ := List.getElem?_of_mem member
      have calls : grammar.CallsFor ⟨outerId, left.length⟩ id right :=
        ⟨rule, found, _, outerFound, by simp [head]⟩
      have valid : grammar.ValidFor (before ++ left) ⟨outerId, left.length⟩ after :=
        ⟨_, before, outerFound, by simp, outer, by simp⟩
      rcases Grammar.derivesBeginning_append.mp begins with inRight | ⟨vanishes, inAfter⟩
      · exact .first ((isKernel.inClosure_iff fresh).mpr ⟨after, valid⟩) calls inRight
      · refine .through ?_ calls vanishes
        cases left with
        | nil =>
            rw [List.append_nil] at isKernel admits
            exact ih isKernel admits outerFound rfl inAfter
        | cons symbol left =>
            refine .kernel (admits _ _ ((isKernel _).mpr ⟨⟨after, valid⟩, .inl ?_⟩)
              ⟨after, valid, inAfter⟩)
            simp

/-- If the kernel of a string allows what can come after its cores, so does its closure. -/
theorem IsKernelFor.closureAllows (fresh : grammar.HasFreshStart start accept target)
    (isKernel : kernel.IsKernelFor grammar accept string) (admits : kernel.Admits grammar string)
    (valid : grammar.ValidLookahead string core terminal) :
    ClosureAllows grammar kernel core terminal := by
  obtain ⟨after, valid, begins⟩ := valid
  by_cases moved : 0 < core.marker
  · refine .kernel (admits core terminal ?_ ⟨after, valid, begins⟩)
    exact (isKernel core).mpr ⟨⟨after, valid⟩, .inl moved⟩
  · obtain ⟨id, marker⟩ := core
    obtain ⟨rule, before, found, _, frame, rfl⟩ := valid
    obtain rfl : marker = 0 := Nat.eq_zero_of_not_pos moved
    rw [List.take_zero, List.append_nil] at isKernel admits
    exact closureAllows_of_frame fresh frame isKernel admits found rfl begins

/-- If whatever a kernel allows can come after one of its strings, the same goes for its closure. -/
theorem exists_validLookahead_of_closureAllows (fresh : grammar.HasFreshStart start accept target)
    {strings : Set (List Symbol)} (nonempty : strings.Nonempty)
    (isKernel : ∀ string ∈ strings, kernel.IsKernelFor grammar accept string)
    (sound : ∀ core terminal, kernel.Allows core terminal →
      ∃ string ∈ strings, grammar.ValidLookahead string core terminal)
    (allows : ClosureAllows grammar kernel core terminal) :
    ∃ string ∈ strings, grammar.ValidLookahead string core terminal := by
  induction allows with
  | kernel allows => exact sound _ _ allows
  | first outer calls begins =>
      obtain ⟨string, member⟩ := nonempty
      obtain ⟨after, valid⟩ := ((isKernel string member).inClosure_iff fresh).mp outer
      refine ⟨string, member, _, valid.inner calls, ?_⟩
      exact Grammar.derivesBeginning_append.mpr (.inl begins)
  | through _ calls vanishes ih =>
      obtain ⟨string, member, after, valid, begins⟩ := ih
      refine ⟨string, member, _, valid.inner calls, ?_⟩
      exact Grammar.derivesBeginning_append.mpr (.inr ⟨vanishes, begins⟩)

end ItemSet

end DeterministicParsing
