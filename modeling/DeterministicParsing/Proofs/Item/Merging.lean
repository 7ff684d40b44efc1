/-
# The algebra of item sets

An item set says of each core whether it is there, whether it comes with a lookahead, and which
terminals the lookahead allows. These three things determine the set, and a list of items, or two
sets that are merged, say whatever some item of the list, or one of the two sets, says. So it does
not matter in which order items come, nor how often, and merging is idempotent, commutative and
associative.

A merge never takes anything back. Hence a lookahead that has changed on the way is different in the
end, and the report of a merge, which only compares lookaheads one by one, tells whether the set has
changed.
-/
import DeterministicParsing.Proofs.FirstSets
import DeterministicParsing.Proofs.Item.Basic

namespace DeterministicParsing

namespace ItemSet

variable {grammar : Grammar} {set other third : ItemSet} {core : Core} {terminal : Nat}
  {items others : List Item} {item : Item}

/-! ## Sets of listed items -/

theorem holds_ofList : (ofList items).Holds core ↔ ∃ item ∈ items, core = item.core := by
  simp [ofList, holds_foldl_add]

theorem looksAhead_ofList :
    (ofList items).LooksAhead core ↔ ∃ item ∈ items, core = item.core ∧
      item.lookahead ≠ none := by
  simp [ofList, looksAhead_foldl_add]

theorem allows_ofList : (ofList items).Allows core terminal ↔
    ∃ item ∈ items, core = item.core ∧ ∃ allowed, item.lookahead = some allowed ∧
      terminal ∈ allowed := by
  simp [ofList, allows_foldl_add]

/-- The order in which items are added does not matter, nor does how often they are. -/
theorem foldl_add_eq_of_mem_iff (same : ∀ item, item ∈ items ↔ item ∈ others) :
    items.foldl add set = others.foldl add set := by
  refine ext_of_iff (fun core => ?_) (fun core => ?_) fun core terminal => ?_
  · simp only [holds_foldl_add, same]
  · simp only [looksAhead_foldl_add, same]
  · simp only [allows_foldl_add, same]

/-- Merging sets of listed items makes the set of all of them. -/
theorem merge_ofList : (ofList items).merge (ofList others) = ofList (items ++ others) := by
  refine ext_of_iff (fun core => ?_) (fun core => ?_) fun core terminal => ?_
  · simp only [holds_merge, holds_ofList, List.mem_append, or_and_right, exists_or]
  · simp only [looksAhead_merge, looksAhead_ofList, List.mem_append, or_and_right, exists_or]
  · simp only [allows_merge, allows_ofList, List.mem_append, or_and_right, exists_or]

/-- The items are listed by core, and no core is listed twice. -/
theorem pairwise_items (set : ItemSet) : (set.items.map Item.core).Pairwise (· < ·) := by
  have ascending := AscendingMap.pairwise_keys set
  rwa [items, List.map_map]

/-- A core that is held is that of a single item. -/
theorem filter_items_eq {lookahead : Option TerminalSet} (found : set.find? core = some lookahead) :
    set.items.filter (·.core = core) = [⟨core, lookahead⟩] := by
  refine AscendingMap.eq_of_pairwise_lt Item.core ?_ (List.pairwise_singleton _ _) fun item => ?_
  · exact (List.pairwise_map.mp (pairwise_items set)).filter _
  · rw [List.mem_filter, mem_items, decide_eq_true_eq, List.mem_singleton]
    constructor
    · rintro ⟨member, rfl⟩
      obtain rfl := Option.some.inj (found.symm.trans member)
      rfl
    · rintro rfl
      exact ⟨found, rfl⟩

/-- What a list says of a core is united in one item. -/
theorem exists_filter_items_ofList (listed : ∃ item ∈ items, item.core = core) :
    ∃ lookahead, (ofList items).items.filter (·.core = core) = [⟨core, lookahead⟩] ∧
      (lookahead = none ↔ ∀ item ∈ items, item.core = core → item.lookahead = none) ∧
      ∀ allowed, lookahead = some allowed → ∀ terminal, terminal ∈ allowed ↔
        ∃ item ∈ items, item.core = core ∧ ∃ known, item.lookahead = some known ∧
          terminal ∈ known := by
  obtain ⟨lookahead, found⟩ : (ofList items).Holds core := by
    obtain ⟨item, member, rfl⟩ := listed
    exact holds_ofList.mpr ⟨item, member, rfl⟩
  refine ⟨lookahead, filter_items_eq found, ?_, ?_⟩
  · have looksAhead := @looksAhead_ofList core items
    simp only [LooksAhead, found, Option.some.injEq] at looksAhead
    rw [← not_iff_not, ← ne_eq, Option.ne_none_iff_exists', looksAhead]
    push Not
    simp only [eq_comm]
  · rintro allowed rfl terminal
    have allows := @allows_ofList core terminal items
    simp only [Allows, found, Option.some.injEq, exists_eq_left'] at allows
    rw [allows]
    simp only [eq_comm]

/-! ## Laws of merging -/

theorem merge_self : set.merge set = set :=
  ext_of_iff (fun _ => holds_merge.trans or_self_iff) (fun _ => looksAhead_merge.trans or_self_iff)
    fun _ _ => allows_merge.trans or_self_iff

theorem merge_comm : set.merge other = other.merge set := by
  refine ext_of_iff (fun core => ?_) (fun core => ?_) fun core terminal => ?_
  · rw [holds_merge, holds_merge, or_comm]
  · rw [looksAhead_merge, looksAhead_merge, or_comm]
  · rw [allows_merge, allows_merge, or_comm]

theorem merge_assoc : (set.merge other).merge third = set.merge (other.merge third) := by
  refine ext_of_iff (fun core => ?_) (fun core => ?_) fun core terminal => ?_
  · simp only [holds_merge, or_assoc]
  · simp only [looksAhead_merge, or_assoc]
  · simp only [allows_merge, or_assoc]

/-! ## The report of a merge -/

/-- Whether the core of an item is in the set. -/
def knows (set : ItemSet) (item : Item) : Bool := (set.find? item.core).isSome

theorem knows_iff : set.knows item = true ↔ set.Holds item.core := Option.isSome_iff_exists

/-- A set that takes items in can come out as it was only if none of them says anything new. -/
theorem add_eq_self_of_foldl_add_eq (same : items.foldl add (set.add item) = set) :
    set.add item = set := by
  refine ext_of_iff (fun core => ⟨fun holds => ?_, fun holds => ?_⟩)
    (fun core => ⟨fun looksAhead => ?_, fun looksAhead => ?_⟩)
    fun core terminal => ⟨fun allows => ?_, fun allows => ?_⟩
  · rw [← same]
    exact holds_foldl_add.mpr (.inl holds)
  · exact holds_add.mpr (.inl holds)
  · rw [← same]
    exact looksAhead_foldl_add.mpr (.inl looksAhead)
  · exact looksAhead_add.mpr (.inl looksAhead)
  · rw [← same]
    exact allows_foldl_add.mpr (.inl allows)
  · exact allows_add.mpr (.inl allows)

namespace Merging

variable {merging : Merging}

/-- An item whose core is there is added, and it is a change if the set is another one then. -/
theorem take_of_holds (holds : merging.set.Holds item.core) :
    merging.take item = ⟨merging.set.add item, merging.added,
      merging.changed || decide (merging.set.add item ≠ merging.set)⟩ := by
  obtain ⟨known, found⟩ := holds
  have sameSet : merging.set.insert item.core (Item.uniteLookaheads known item.lookahead) =
      merging.set.add item := by
    apply AscendingMap.ext_find?
    intro core
    rw [AscendingMap.find?_insert, find?_add, found]
  have changes : (Item.uniteLookaheads known item.lookahead != known) =
      decide (merging.set.add item ≠ merging.set) := by
    rw [bne, beq_eq_decide, ← decide_not, decide_eq_decide, not_iff_not]
    constructor
    · intro same
      apply AscendingMap.ext_find?
      intro core
      rw [find?_add, found]
      split
      · rename_i isCore
        rw [isCore, found]
        exact congrArg some same
      · rfl
    · intro same
      have here := congrArg (AscendingMap.find? · item.core) same
      simpa [find?_add, found] using here
  simp only [take, found, sameSet, changes]

/-- An item whose core is new is put aside. -/
theorem take_of_not_holds (absent : ¬ merging.set.Holds item.core) :
    merging.take item = ⟨merging.set, merging.added ++ [item], merging.changed⟩ := by
  have notFound : merging.set.find? item.core = none :=
    Option.eq_none_iff_forall_ne_some.mpr fun lookahead found => absent ⟨lookahead, found⟩
  simp only [take, notFound]

/-- Items whose cores are there are added, the others are put aside, and it is a change if the set
is another one in the end. -/
theorem foldl_take (items : List Item) (merging : Merging) :
    items.foldl take merging =
      ⟨(items.filter merging.set.knows).foldl add merging.set,
        merging.added ++ items.filter (!merging.set.knows ·),
        merging.changed ||
          decide ((items.filter merging.set.knows).foldl add merging.set ≠ merging.set)⟩ := by
  induction items generalizing merging with
  | nil => simp
  | cons item rest ih =>
      rw [List.foldl_cons, ih]
      by_cases known : merging.set.knows item = true
      · have sameKnown : (merging.set.add item).knows = merging.set.knows := by
          funext other
          rw [Bool.eq_iff_iff, knows_iff, knows_iff, holds_add, or_iff_left_iff_imp]
          exact fun same => same ▸ knows_iff.mp known
        simp only [take_of_holds (knows_iff.mp known), sameKnown, List.filter_cons, known, if_true,
          List.foldl_cons, Bool.not_true, Bool.false_eq_true, if_false, Bool.or_assoc]
        congr 2
        by_cases unchanged : merging.set.add item = merging.set
        · simp [unchanged]
        · have different : (rest.filter merging.set.knows).foldl add (merging.set.add item) ≠
              merging.set := fun same => unchanged (add_eq_self_of_foldl_add_eq same)
          simp [unchanged, different]
      · simp [take_of_not_holds (mt knows_iff.mpr known), known]

end Merging

/-- A merge reports rightly whether the set has changed. -/
theorem mergeReporting_eq :
    set.mergeReporting other = (set.merge other, decide (set.merge other ≠ set)) := by
  simp only [mergeReporting, Merging.foldl_take, List.nil_append, Bool.false_or]
  by_cases known : ∀ item ∈ other.items, set.knows item = true
  · have noneAside : other.items.filter (!set.knows ·) = [] := by
      rw [List.filter_eq_nil_iff]
      intro item member
      simp [known item member]
    rw [noneAside, List.isEmpty_nil, if_pos rfl, List.filter_eq_self.mpr known]
    rfl
  · push Not at known
    obtain ⟨item, member, isNew⟩ := known
    have someAside : (other.items.filter (!set.knows ·)).isEmpty = false := by
      rw [List.isEmpty_eq_false_iff]
      exact List.ne_nil_of_mem (List.mem_filter.mpr ⟨member, by simpa using isNew⟩)
    have sameSet : ofList (items ((other.items.filter set.knows).foldl add set) ++
        other.items.filter (!set.knows ·)) = set.merge other := by
      rw [ofList, List.foldl_append, ← ofList, ofList_items, ← List.foldl_append, merge]
      refine foldl_add_eq_of_mem_iff fun other => ?_
      rw [List.mem_append, List.mem_filter, List.mem_filter, ← and_or_left]
      cases set.knows other <;> simp
    have changed : set.merge other ≠ set := by
      intro same
      have holds : (set.merge other).Holds item.core :=
        holds_merge.mpr (.inr ⟨_, mem_items.mp member⟩)
      rw [same] at holds
      exact isNew (knows_iff.mpr holds)
    rw [someAside, sameSet, if_neg Bool.false_ne_true, decide_eq_true changed]

/-! ## Items by core and successors by symbol -/

theorem item?_eq_some : set.item? core = some item ↔ item ∈ set.items ∧ item.core = core := by
  rw [item?, Option.map_eq_some_iff, mem_items]
  constructor
  · rintro ⟨lookahead, found, rfl⟩
    exact ⟨found, rfl⟩
  · rintro ⟨found, rfl⟩
    exact ⟨item.lookahead, found, rfl⟩

theorem exists_item?_eq_some_iff : (∃ item, set.item? core = some item) ↔
    core ∈ set.cores := by
  simp only [mem_cores, Holds, item?, Option.map_eq_some_iff]
  constructor
  · rintro ⟨_, lookahead, found, -⟩
    exact ⟨lookahead, found⟩
  · rintro ⟨lookahead, found⟩
    exact ⟨_, lookahead, found, rfl⟩

theorem isEmpty_ofList : AscendingMap.isEmpty (ofList items) = true ↔ items = [] := by
  constructor
  · intro isEmpty
    refine List.eq_nil_iff_forall_not_mem.mpr fun item member => ?_
    obtain ⟨lookahead, found⟩ := holds_ofList.mpr ⟨item, member, rfl⟩
    have listed := AscendingMap.mem_entries.mpr found
    rw [List.isEmpty_iff.mp isEmpty] at listed
    cases listed
  · rintro rfl
    rfl

/-- The successor for a symbol is what the set becomes when the symbol is read, unless that is
empty. -/
theorem exists_successors_eq_goto (hasRules : set.HasRules grammar) :
    ∃ successors, set.successors grammar = .ok successors ∧ ∀ symbol,
      ∃ kernel : ItemSet, set.goto grammar symbol = .ok kernel ∧
        successors.find? symbol = if kernel.isEmpty then none else some kernel := by
  obtain ⟨successors, made, found⟩ := exists_successors_find?_eq hasRules
  refine ⟨successors, made, fun symbol => ⟨_, goto_eq_ok hasRules symbol, ?_⟩⟩
  rw [found]
  simp only [isEmpty_ofList, List.map_eq_nil_iff]

end ItemSet

/-- The set of listed items is sorted strictly by core and holds each core of the list once. The
lookaheads of a core are united; there is none if no item of that core has one. The order of the
list does not matter, nor does how often an item is listed. Merging the sets of two lists makes the
set of both, it is reported as a change exactly if the first set becomes another one, and merging is
idempotent, commutative and associative. In a set of items whose rules exist, an item is found by
its core exactly if the core is there, and the successor for each symbol is what the set becomes
when that symbol is read, with none for the symbols for which that is empty. -/
theorem item_sets_are_united_by_core :
    (∀ items : List Item, ((ItemSet.ofList items).items.map Item.core).Pairwise (· < ·) ∧
      (∀ core, core ∈ (ItemSet.ofList items).cores ↔ ∃ item ∈ items, item.core = core) ∧
      (∀ core, (∃ item ∈ items, item.core = core) →
        ∃ lookahead,
          (ItemSet.ofList items).items.filter (·.core = core) = [⟨core, lookahead⟩] ∧
          (lookahead = none ↔ ∀ item ∈ items, item.core = core → item.lookahead = none) ∧
          ∀ allowed, lookahead = some allowed → ∀ terminal, terminal ∈ allowed ↔
            ∃ item ∈ items, item.core = core ∧
              ∃ known, item.lookahead = some known ∧ terminal ∈ known) ∧
      ∀ others, (∀ item, item ∈ items ↔ item ∈ others) →
        ItemSet.ofList items = ItemSet.ofList others) ∧
    (∀ items others, (ItemSet.ofList items).mergeReporting (ItemSet.ofList others) =
      (ItemSet.ofList (items ++ others),
        decide (ItemSet.ofList (items ++ others) ≠ ItemSet.ofList items))) ∧
    (∀ set other : ItemSet,
      set.mergeReporting other = (set.merge other, decide (set.merge other ≠ set))) ∧
    (∀ set other third : ItemSet, set.merge set = set ∧ set.merge other = other.merge set ∧
      (set.merge other).merge third = set.merge (other.merge third)) ∧
    ∀ (grammar : Grammar) (set : ItemSet), set.HasRules grammar →
      (∀ core,
        (∀ item, set.item? core = some item ↔ item ∈ set.items ∧ item.core = core) ∧
        ((∃ item, set.item? core = some item) ↔ core ∈ set.cores)) ∧
      ∃ successors, set.successors grammar = .ok successors ∧ ∀ symbol,
        ∃ kernel : ItemSet, set.goto grammar symbol = .ok kernel ∧
          successors.find? symbol = if kernel.isEmpty then none else some kernel := by
  refine ⟨fun items => ⟨ItemSet.pairwise_items _, fun core => ?_,
      fun core => ItemSet.exists_filter_items_ofList,
        fun others => ItemSet.foldl_add_eq_of_mem_iff⟩,
    fun items others => ?_, fun set other => ItemSet.mergeReporting_eq,
    fun set other third => ⟨ItemSet.merge_self, ItemSet.merge_comm, ItemSet.merge_assoc⟩,
    fun grammar set hasRules => ⟨fun core => ⟨fun item => ItemSet.item?_eq_some,
      ItemSet.exists_item?_eq_some_iff⟩, ItemSet.exists_successors_eq_goto hasRules⟩⟩
  · rw [ItemSet.mem_cores, ItemSet.holds_ofList]
    simp only [eq_comm]
  · rw [ItemSet.mergeReporting_eq, ItemSet.merge_ofList]

/-- Items of `S → A b`, listed twice, and of `A → A a`, at their beginnings. -/
def ItemSet.beginningsOfLeftRecursion : List Item :=
  [⟨⟨0, 0⟩, some {0}⟩, ⟨⟨1, 0⟩, none⟩, ⟨⟨0, 0⟩, some {2}⟩]

/-- The two lookaheads of `S → A b` are united. To give `A → A a` a lookahead is a change, even
if that allows nothing. Reading an `A` moves the marker of both items, and reading an `a` moves
none. -/
theorem item_sets_of_leftRecursion_are_united_by_core :
    (ItemSet.ofList ItemSet.beginningsOfLeftRecursion).HasRules Grammar.leftRecursion ∧
      (ItemSet.ofList ItemSet.beginningsOfLeftRecursion).items =
        [⟨⟨0, 0⟩, some (.ofList [0, 2])⟩, ⟨⟨1, 0⟩, none⟩] ∧
      ((ItemSet.ofList ItemSet.beginningsOfLeftRecursion).mergeReporting
        (ItemSet.ofList [⟨⟨1, 0⟩, some ∅⟩])).2 = true ∧
      ∃ successors, (ItemSet.ofList ItemSet.beginningsOfLeftRecursion).successors
          Grammar.leftRecursion = .ok successors ∧
        successors.find? (.nonterminal 1) =
          some (ItemSet.ofList
            [⟨⟨0, 1⟩, some (.ofList [0, 2])⟩, ⟨⟨1, 1⟩, none⟩]) ∧
        successors.find? (.terminal 1) = none := by
  have hasRules :
      (ItemSet.ofList ItemSet.beginningsOfLeftRecursion).HasRules Grammar.leftRecursion := by
    intro core holds
    obtain ⟨item, member, rfl⟩ := ItemSet.holds_ofList.mp holds
    have rulesExist : ∀ item ∈ ItemSet.beginningsOfLeftRecursion,
        item.core.rule < 3 := by decide
    exact ⟨_, List.getElem?_eq_getElem (rulesExist item member)⟩
  obtain ⟨_, merges, _, _, reads⟩ := item_sets_are_united_by_core
  obtain ⟨_, successors, made, each⟩ := reads _ _ hasRules
  obtain ⟨overA, isOverA, foundA⟩ := each (.nonterminal 1)
  obtain ⟨overTerminal, isOverTerminal, foundTerminal⟩ := each (.terminal 1)
  have readA : (ItemSet.ofList ItemSet.beginningsOfLeftRecursion).goto Grammar.leftRecursion
      (.nonterminal 1) =
      .ok (ItemSet.ofList [⟨⟨0, 1⟩, some (.ofList [0, 2])⟩, ⟨⟨1, 1⟩, none⟩]) := by
    decide +kernel
  have readTerminal : (ItemSet.ofList ItemSet.beginningsOfLeftRecursion).goto Grammar.leftRecursion
      (.terminal 1) = .ok .empty := by
    decide +kernel
  cases isOverA.symm.trans readA
  cases isOverTerminal.symm.trans readTerminal
  refine ⟨hasRules, by decide +kernel, ?_, successors, made, foundA, foundTerminal⟩
  rw [merges]
  decide +kernel

end DeterministicParsing
