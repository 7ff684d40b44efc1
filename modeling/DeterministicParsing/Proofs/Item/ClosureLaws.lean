/-
# Laws of closures

What an item set says is a collection of facts: the cores that it holds, and the terminals that it
allows after them. A collection is closed if it has, with each core whose marker stands in front of
a nonterminal, the rules of that nonterminal, and after these rules all terminals with which the
rest of the body can begin when something that is allowed after the core comes next. The closure
with lookaheads says the least that is closed and includes what its kernel says. Its laws follow
from that: to close a closure changes nothing, a kernel that says more has a closure that says more,
and merged kernels have merged closures. The closure without lookaheads has the same cores.
-/
import DeterministicParsing.Proofs.Item.Closure

namespace DeterministicParsing

namespace ItemSet

/-- The collection has the rules that its cores call for, and allows after them what can come
next. -/
structure IsClosed (grammar : Grammar) (first : FirstSets) (facts : Set (Core × Option Nat)) :
    Prop where
  /-- With a core, the rules that it calls for are in the collection. -/
  rule : ∀ core id rest, (core, none) ∈ facts → grammar.CallsFor core id rest →
    (⟨id, 0⟩, none) ∈ facts
  /-- After these rules it allows all terminals with which the rest of the body of the core can
  begin if one of some terminals that it allows after the core comes next. -/
  lookahead : ∀ core id rest after reach, (core, none) ∈ facts →
    grammar.CallsFor core id rest → (∀ terminal ∈ after, (core, some terminal) ∈ facts) →
      first.ofSequenceThen rest after = .ok reach →
    ∀ terminal ∈ reach, (⟨id, 0⟩, some terminal) ∈ facts

/-- The closed collections that include what the kernel says. -/
def closedAround (grammar : Grammar) (first : FirstSets) (kernel : ItemSet) :
    Set (Set (Core × Option Nat)) :=
  {facts | kernel.facts ⊆ facts ∧ IsClosed grammar first facts}

variable {grammar : Grammar} {first : FirstSets} {kernel other items otherItems : ItemSet}
  {core : Core} {terminal : Nat} {facts : Set (Core × Option Nat)}

theorem ClosureAllows.inClosure (allows : ClosureAllows grammar kernel core terminal) :
    InClosure grammar kernel core := by
  induction allows with
  | kernel allows => exact .kernel allows.holds
  | first outer calls _ => exact .rule outer calls
  | through _ calls _ ih => exact .rule ih calls

/-- A closure holds nothing that closing it once more would add. -/
theorem InClosure.trans (inClosure : InClosure grammar items core)
    (within : ∀ core, items.Holds core → InClosure grammar kernel core) :
    InClosure grammar kernel core := by
  induction inClosure with
  | kernel holds => exact within _ holds
  | rule _ calls ih => exact .rule ih calls

/-! ## The least closed collection -/

/-- The rest of a body after a nonterminal can be looked up. -/
theorem exists_ofSequenceThen_eq_ok_of_callsFor (bodies : grammar.BodiesDeclared)
    (exact : FirstSets.Exact grammar first) {id : Nat} {rest : List Symbol}
    (calls : grammar.CallsFor core id rest) (after : TerminalSet) :
    ∃ reach, first.ofSequenceThen rest after = .ok reach ∧ ∀ terminal, terminal ∈ reach ↔
      grammar.DerivesBeginning rest terminal ∨
      (grammar.Derives rest [] ∧ terminal ∈ after) := by
  obtain ⟨rule, _, expects⟩ := calls
  exact exact.exists_ofSequenceThen_eq_ok
    (fun symbol member => expects.declares bodies (List.mem_cons_of_mem _ member)) after

/-- What a closure says is closed. -/
theorem isClosed_facts (bodies : grammar.BodiesDeclared) (exact : FirstSets.Exact grammar first)
    (closes : AutomatonKind.lr1.Closes grammar kernel items) :
    IsClosed grammar first items.facts where
  rule core id rest known calls := by
    rw [mem_facts_none, closes.holds] at known ⊢
    exact .rule known calls
  lookahead core id rest after reach known calls allowed found terminal member := by
    obtain ⟨_, alsoFound, members⟩ :=
      exists_ofSequenceThen_eq_ok_of_callsFor bodies exact calls after
    cases found.symm.trans alsoFound
    rw [mem_facts_none, closes.holds] at known
    rw [mem_facts_some, closes.allows rfl]
    rcases (members terminal).mp member with begins | ⟨vanishes, inAfter⟩
    · exact .first known calls begins
    · exact .through
        ((closes.allows rfl core terminal).mp (allowed terminal inAfter)) calls vanishes

/-- A closed collection that includes what the kernel says has the cores of its closure. -/
theorem mem_of_inClosure (around : facts ∈ closedAround grammar first kernel)
    (inClosure : InClosure grammar kernel core) : (core, none) ∈ facts := by
  obtain ⟨includes, closed⟩ := around
  induction inClosure with
  | kernel holds => exact includes (mem_facts_none.mpr holds)
  | rule _ calls ih => exact closed.rule _ _ _ ih calls

/-- It allows what the closure allows. -/
theorem mem_of_closureAllows (bodies : grammar.BodiesDeclared)
    (exact : FirstSets.Exact grammar first) (around : facts ∈ closedAround grammar first kernel)
    (allows : ClosureAllows grammar kernel core terminal) : (core, some terminal) ∈ facts := by
  induction allows with
  | kernel allows => exact around.1 (mem_facts_some.mpr allows)
  | @first core id terminal rest outer calls begins =>
      obtain ⟨reach, found, members⟩ :=
        exists_ofSequenceThen_eq_ok_of_callsFor bodies exact calls ∅
      exact around.2.lookahead core id rest ∅ reach (mem_of_inClosure around outer) calls
        (by simp) found terminal ((members terminal).mpr (.inl begins))
  | @through core id terminal rest outer calls vanishes ih =>
      obtain ⟨reach, found, members⟩ :=
        exists_ofSequenceThen_eq_ok_of_callsFor bodies exact calls {terminal}
      exact around.2.lookahead core id rest {terminal} reach
        (mem_of_inClosure around outer.inClosure) calls (by simpa using ih) found terminal
        ((members terminal).mpr (.inr ⟨vanishes, by simp⟩))

/-- A closure says the least that is closed and includes what its kernel says. -/
theorem isLeast_facts (bodies : grammar.BodiesDeclared) (exact : FirstSets.Exact grammar first)
    (closes : AutomatonKind.lr1.Closes grammar kernel items) :
    IsLeast (closedAround grammar first kernel) items.facts := by
  refine ⟨⟨?_, isClosed_facts bodies exact closes⟩, ?_⟩
  · rintro ⟨core, fact⟩ known
    cases fact with
    | none => exact (closes.holds core).mpr (.kernel known)
    | some terminal => exact (closes.allows rfl core terminal).mpr (.kernel known)
  · rintro facts around ⟨core, fact⟩ known
    cases fact with
    | none => exact mem_of_inClosure around ((closes.holds core).mp known)
    | some terminal =>
        exact mem_of_closureAllows bodies exact around ((closes.allows rfl core terminal).mp known)

/-- A kernel that says more has a closure that says more. -/
theorem facts_subset_of_isLeast (least : IsLeast (closedAround grammar first kernel) items.facts)
    (otherLeast : IsLeast (closedAround grammar first other) otherItems.facts)
    (less : kernel.facts ⊆ other.facts) : items.facts ⊆ otherItems.facts :=
  least.2 ⟨less.trans otherLeast.1.1, otherLeast.1.2⟩

/-- The closure of a closure says the same. -/
theorem facts_eq_of_isLeast (least : IsLeast (closedAround grammar first kernel) items.facts)
    (again : IsLeast (closedAround grammar first items) otherItems.facts) :
    otherItems.facts = items.facts :=
  again.unique ⟨⟨subset_rfl, least.1.2⟩, fun _ around => around.1⟩

/-! ## Closures that are found -/

theorem HasRules.merge (hasRules : kernel.HasRules grammar) (otherRules : other.HasRules grammar) :
    (kernel.merge other).HasRules grammar := by
  intro core holds
  rcases holds_merge.mp holds with here | there
  · exact hasRules core here
  · exact otherRules core there

theorem HasRules.of_inClosure (hasRules : kernel.HasRules grammar)
    (within : ∀ core, items.Holds core → InClosure grammar kernel core) :
    items.HasRules grammar :=
  fun core holds => (within core holds).hasRule hasRules

/-- The closure with lookaheads is found when no core is pending any more, however many are
served. -/
theorem exists_closes (bodies : grammar.BodiesDeclared) (exact : FirstSets.Exact grammar first)
    (hasRules : kernel.HasRules grammar) :
    ∃ known turns,
      RunsDry (serveLookahead grammar first) (kernel.lookaheads, kernel.cores.reverse)
        known turns ∧ kernel.closeLookahead grammar first = .ok (ofLookaheads known) ∧
      AutomatonKind.lr1.Closes grammar kernel (ofLookaheads known) := by
  obtain ⟨known, turns, runsDry, enough, holds, allows⟩ :=
    exists_runsDry_serveLookahead bodies exact hasRules
  exact ⟨known, turns, runsDry, closeLookahead_eq_ok runsDry enough, marked_ofLookaheads known,
    holds, fun _ => allows⟩

/-- To close a closure changes nothing. -/
theorem closeLookahead_eq_self (bodies : grammar.BodiesDeclared)
    (exact : FirstSets.Exact grammar first) (hasRules : kernel.HasRules grammar)
    (closes : AutomatonKind.lr1.Closes grammar kernel items) :
    items.closeLookahead grammar first = .ok items := by
  obtain ⟨again, _, _, found, closesAgain⟩ :=
    exists_closes bodies exact (hasRules.of_inClosure fun core => (closes.holds core).mp)
  have same : facts (ofLookaheads again) = items.facts :=
    facts_eq_of_isLeast (isLeast_facts bodies exact closes) (isLeast_facts bodies exact closesAgain)
  rw [found, ext_facts closesAgain.marked closes.marked same]

/-- Merged kernels have merged closures. -/
theorem closeLookahead_merge (bodies : grammar.BodiesDeclared)
    (exact : FirstSets.Exact grammar first) (hasRules : kernel.HasRules grammar)
    (otherRules : other.HasRules grammar) (closes : AutomatonKind.lr1.Closes grammar kernel items)
    (otherCloses : AutomatonKind.lr1.Closes grammar other otherItems) :
    (kernel.merge other).closeLookahead grammar first = .ok (items.merge otherItems) := by
  obtain ⟨merged, _, _, found, closesMerged⟩ :=
    exists_closes bodies exact (hasRules.merge otherRules)
  rw [found, closesMerged.unique (closes.merge otherCloses)]

/-- To close a closure without lookaheads changes nothing. -/
theorem closePlain_eq_self (bodies : grammar.BodiesDeclared) (hasRules : kernel.HasRules grammar)
    (closure : ∀ core, items.Holds core ↔ InClosure grammar kernel core) :
    items.closePlain grammar = .ok items := by
  obtain ⟨expansion, turns, runsDry, enough, closing, holds⟩ :=
    exists_runsDry_servePlain bodies (hasRules.of_inClosure fun core => (closure core).mp)
  have sameCores : heldCores (expansion.items items) = items.heldCores := by
    refine Set.Subset.antisymm (fun core inAgain => ?_) closing.kernel_holds
    exact (closure core).mpr (((holds core).mp inAgain).trans fun core => (closure core).mp)
  have same := closing.eq_of_heldCores_eq (plainClosing_kernel grammar items) sameCores
  rw [closePlain_eq_ok runsDry enough, same]

/-- The closure without lookaheads keeps the items of the kernel as they are. -/
theorem PlainClosing.find?_eq_some (closing : PlainClosing grammar kernel items)
    {lookahead : Option TerminalSet} (found : kernel.find? core = some lookahead) :
    items.find? core = some lookahead := by
  obtain ⟨kept, keptFound⟩ := closing.kernel_holds core ⟨lookahead, found⟩
  rw [keptFound, closing.lookahead_eq core kept keptFound, found, Option.getD_some]

end ItemSet

/-- For every grammar all of whose bodies are declared, with its First sets, and every kernel whose
rules exist: pending cores are served with lookaheads until there are none, however many it takes,
and what is known then is the closure that is computed. All its items have lookaheads, and what it
says is the least that includes what the kernel says and has, with a core in front of a nonterminal,
the rules of that nonterminal, each followed by all that the rest of the body and the lookaheads of
the core can begin with. To close it again changes nothing. A kernel that says more has a closure
that says more, and two merged kernels have the merged closures. The closure without lookaheads is
found likewise. It has the same cores, keeps the lookaheads of the kernel, and to close it again
changes nothing. -/
theorem closures_are_least_fixed_points (grammar : Grammar) (bodies : grammar.BodiesDeclared) :
    ∃ first, FirstSets.compute grammar = .ok first ∧
      ∀ kernel : ItemSet, kernel.HasRules grammar → ∃ items plain : ItemSet,
        (∃ known turns, RunsDry (ItemSet.serveLookahead grammar first)
          (kernel.lookaheads, kernel.cores.reverse) known turns ∧
          items = ItemSet.ofLookaheads known) ∧
        kernel.closeLookahead grammar first = .ok items ∧ items.Marked true ∧
        IsLeast (ItemSet.closedAround grammar first kernel) items.facts ∧
        items.closeLookahead grammar first = .ok items ∧
        (∀ other : ItemSet, other.HasRules grammar → ∃ otherItems,
          other.closeLookahead grammar first = .ok otherItems ∧
          (kernel.facts ⊆ other.facts → items.facts ⊆ otherItems.facts) ∧
          (kernel.merge other).closeLookahead grammar first = .ok (items.merge otherItems)) ∧
        (∃ expansion turns, RunsDry (ItemSet.servePlain grammar)
          (⟨kernel.cores, []⟩, kernel.cores.reverse) expansion turns ∧
          plain = ItemSet.ofList (kernel.items ++ expansion.added)) ∧
        kernel.closePlain grammar = .ok plain ∧ plain.cores = items.cores ∧
        (∀ core lookahead, kernel.find? core = some lookahead →
          plain.find? core = some lookahead) ∧
        plain.closePlain grammar = .ok plain := by
  obtain ⟨first, computed, exact⟩ := FirstSets.exists_compute_eq_ok bodies
  refine ⟨first, computed, fun kernel hasRules => ?_⟩
  obtain ⟨known, turns, runsDry, found, closes⟩ := ItemSet.exists_closes bodies exact hasRules
  obtain ⟨expansion, plainTurns, plainRunsDry, enough, closing, holds⟩ :=
    ItemSet.exists_runsDry_servePlain bodies hasRules
  have least := ItemSet.isLeast_facts bodies exact closes
  refine ⟨_, expansion.items kernel, ⟨known, turns, runsDry, rfl⟩, found, closes.marked,
    least, ItemSet.closeLookahead_eq_self bodies exact hasRules closes, fun other otherRules => ?_,
    ⟨expansion, plainTurns, plainRunsDry, expansion.items_eq kernel⟩,
    ItemSet.closePlain_eq_ok plainRunsDry enough, ?_,
    fun core lookahead => closing.find?_eq_some,
    ItemSet.closePlain_eq_self bodies hasRules holds⟩
  · obtain ⟨_, _, _, otherFound, otherCloses⟩ := ItemSet.exists_closes bodies exact otherRules
    exact ⟨_, otherFound,
      ItemSet.facts_subset_of_isLeast least (ItemSet.isLeast_facts bodies exact otherCloses),
      ItemSet.closeLookahead_merge bodies exact hasRules otherRules closes otherCloses⟩
  · exact ItemSet.cores_eq_iff.mpr fun core => (holds core).trans (closes.holds core).symm

/-- The item `S → · A b` before the end calls for `A → · A a` and `A → ·`. The first of
these calls for both of them again, so that `a` may come after them as well as `b`. -/
theorem closure_of_leftRecursion_is_least :
    let kernel := ItemSet.ofList [⟨⟨0, 0⟩, some {endOfInput}⟩]
    let items :=
      ItemSet.ofList [⟨⟨0, 0⟩, some {endOfInput}⟩, ⟨⟨1, 0⟩, some (.ofList [1, 2])⟩,
        ⟨⟨2, 0⟩, some (.ofList [1, 2])⟩]
    Grammar.leftRecursion.BodiesDeclared ∧ kernel.HasRules Grammar.leftRecursion ∧
      ∃ first, FirstSets.compute Grammar.leftRecursion = .ok first ∧
        kernel.closeLookahead Grammar.leftRecursion first = .ok items ∧
        IsLeast (ItemSet.closedAround Grammar.leftRecursion first kernel) items.facts ∧
        items.closeLookahead Grammar.leftRecursion first = .ok items := by
  intro kernel items
  have hasRules : kernel.HasRules Grammar.leftRecursion := by
    intro core holds
    rw [← ItemSet.mem_cores,
      show kernel.cores = [⟨0, 0⟩] by decide, List.mem_singleton] at holds
    exact ⟨⟨0, [.nonterminal 1, .terminal 2]⟩, holds ▸ rfl⟩
  obtain ⟨first, computed, closures⟩ :=
    closures_are_least_fixed_points Grammar.leftRecursion Grammar.wellFormed_leftRecursion.bodies
  obtain ⟨found, _, _, closed, _, least, closedAgain, _⟩ := closures kernel hasRules
  have evaluates : (FirstSets.compute Grammar.leftRecursion).bind
      (fun first => kernel.closeLookahead Grammar.leftRecursion first) = .ok items := by
    decide +kernel
  rw [computed] at evaluates
  obtain rfl : found = items := Except.ok.inj (closed.symm.trans evaluates)
  exact ⟨Grammar.wellFormed_leftRecursion.bodies, hasRules, first, computed,
    closed, least, closedAgain⟩

end DeterministicParsing
