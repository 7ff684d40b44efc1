/-
# What an item set holds

An item set holds cores, and allows terminals after them. Both are read off the map that the set is,
and every operation on item sets is described by what it does to them. Within one construction
either all items have lookaheads or none has, and then the two determine the set.
-/
import DeterministicParsing.Item.Basic
import DeterministicParsing.Proofs.AscendingMap
import DeterministicParsing.Proofs.FixedPoint

namespace DeterministicParsing

namespace Grammar

variable {grammar : Grammar}

/-- The rule of the core exists. -/
def HasRule (grammar : Grammar) (core : Core) : Prop :=
  ∃ rule, grammar.rules[core.rule]? = some rule

/-- The rule of the core exists, and the marker stands within its body or at the end. -/
def HasCore (grammar : Grammar) (core : Core) : Prop :=
  ∃ rule, grammar.rules[core.rule]? = some rule ∧ core.marker ≤ rule.body.length

/-- The symbol stands right after the marker of the core, and the rest of the body after it. -/
def Expects (grammar : Grammar) (core : Core) (symbol : Symbol) (rest : List Symbol) : Prop :=
  ∃ rule, grammar.rules[core.rule]? = some rule ∧ rule.body.drop core.marker = symbol :: rest

theorem drop_eq_cons {α : Type} {list rest : List α} {index : Nat} {head : α} :
    list.drop index = head :: rest ↔
      list[index]? = some head ∧ list.drop (index + 1) = rest := by
  rw [← List.tail_drop, ← List.head?_drop]
  cases list.drop index with
  | nil => simp
  | cons first others => simp

/-- The symbol right after the marker. -/
def next? (grammar : Grammar) (core : Core) : Option Symbol :=
  grammar.rules[core.rule]?.bind fun rule => rule.body[core.marker]?

/-- The marker stands at the end of the body. -/
def Completes (grammar : Grammar) (core : Core) : Prop :=
  ∃ rule, grammar.rules[core.rule]? = some rule ∧ core.marker = rule.body.length

theorem next?_eq_some {core : Core} {symbol : Symbol} :
    grammar.next? core = some symbol ↔ ∃ rest, grammar.Expects core symbol rest := by
  rw [next?, Option.bind_eq_some_iff]
  constructor
  · rintro ⟨rule, found, next⟩
    exact ⟨_, rule, found, drop_eq_cons.mpr ⟨next, rfl⟩⟩
  · rintro ⟨rest, rule, found, split⟩
    exact ⟨rule, found, (drop_eq_cons.mp split).1⟩

namespace HasRule

variable {core : Core}

theorem next_eq_ok (has : grammar.HasRule core) : core.next grammar = .ok (grammar.next? core) := by
  obtain ⟨rule, found⟩ := has
  simp [Core.next, Arena.rule_eq_ok.mpr found, next?, found]

theorem exists_isComplete_eq_ok (has : grammar.HasRule core) :
    ∃ complete, core.isComplete grammar = .ok complete ∧
      (complete = true ↔ grammar.Completes core) := by
  obtain ⟨rule, found⟩ := has
  refine ⟨core.marker ==
    rule.body.length, by simp [Core.isComplete, Arena.rule_eq_ok.mpr found], ?_⟩
  simp [Completes, found]

end HasRule

namespace HasCore

variable {core : Core}

theorem hasRule (has : grammar.HasCore core) : grammar.HasRule core := by
  obtain ⟨rule, found, _⟩ := has
  exact ⟨rule, found⟩

theorem next_eq_ok (has : grammar.HasCore core) : core.next grammar = .ok (grammar.next? core) :=
  has.hasRule.next_eq_ok

/-- A core expects a symbol, or it is complete. -/
theorem next?_eq_none (has : grammar.HasCore core) :
    grammar.next? core = none ↔ grammar.Completes core := by
  obtain ⟨rule, found, within⟩ := has
  simp only [next?, found, Option.bind_some, List.getElem?_eq_none_iff, Completes,
    Option.some.injEq, exists_eq_left']
  omega

end HasCore

/-- A core expects one symbol at most. -/
theorem Expects.unique {core : Core} {first second : Symbol} {firstRest secondRest : List Symbol}
    (expects : grammar.Expects core first firstRest)
    (other : grammar.Expects core second secondRest) :
    first = second ∧ firstRest = secondRest := by
  obtain ⟨rule, found, split⟩ := expects
  obtain ⟨otherRule, otherFound, otherSplit⟩ := other
  obtain rfl : rule = otherRule := Option.some.inj (found.symm.trans otherFound)
  exact List.cons.inj (split.symm.trans otherSplit)

theorem Expects.rest_eq_ok {core : Core} {symbol : Symbol} {rest : List Symbol}
    (expects : grammar.Expects core symbol rest) : core.rest grammar = .ok rest := by
  obtain ⟨rule, found, split⟩ := expects
  simp [Core.rest, Arena.rule_eq_ok.mpr found, (drop_eq_cons.mp split).2]

/-- What a core expects is declared if the bodies are. -/
theorem Expects.declares {core : Core} {symbol other : Symbol} {rest : List Symbol}
    (expects : grammar.Expects core symbol rest) (bodies : grammar.BodiesDeclared)
    (member : other ∈ symbol :: rest) : grammar.Declares other := by
  obtain ⟨rule, found, split⟩ := expects
  rw [← split] at member
  exact bodies rule (List.mem_of_getElem? found) other (List.mem_of_mem_drop member)

end Grammar

namespace ItemSet

variable {grammar : Grammar} {set other : ItemSet} {core : Core} {terminal : Nat}

/-- The core is in the set. -/
def Holds (set : ItemSet) (core : Core) : Prop := ∃ lookahead, set.find? core = some lookahead

/-- The rules of all cores exist. -/
def HasRules (grammar : Grammar) (set : ItemSet) : Prop :=
  ∀ core, set.Holds core → grammar.HasRule core

/-- The core is in the set with a lookahead, even if that allows no terminal. -/
def LooksAhead (set : ItemSet) (core : Core) : Prop :=
  ∃ allowed, set.find? core = some (some allowed)

/-- The core is in the set, with the terminal among its lookaheads. -/
def Allows (set : ItemSet) (core : Core) (terminal : Nat) : Prop :=
  ∃ allowed, set.find? core = some (some allowed) ∧ terminal ∈ allowed

/-- Either all items have lookaheads, or none has. -/
def Marked (marked : Bool) (set : ItemSet) : Prop :=
  ∀ core lookahead, set.find? core = some lookahead → lookahead.isSome = marked

theorem mem_cores : core ∈ set.cores ↔ set.Holds core := AscendingMap.mem_keys

theorem mem_items {item : Item} : item ∈ set.items ↔
    set.find? item.core = some item.lookahead := by
  rw [← AscendingMap.mem_entries, items, List.mem_map]
  constructor
  · rintro ⟨entry, member, rfl⟩
    exact member
  · intro member
    exact ⟨_, member, rfl⟩

/-- An item is determined by its core. -/
theorem eq_of_core_eq {first second : Item} (inFirst : first ∈ set.items)
    (inSecond : second ∈ set.items) (same : first.core = second.core) : first = second := by
  obtain ⟨core, lookahead⟩ := first
  obtain ⟨otherCore, otherLookahead⟩ := second
  obtain rfl : core = otherCore := same
  obtain rfl : lookahead = otherLookahead :=
    Option.some.inj ((mem_items.mp inFirst).symm.trans (mem_items.mp inSecond))
  rfl

theorem cores_eq_iff : set.cores = other.cores ↔ ∀ core, set.Holds core ↔ other.Holds core :=
  AscendingMap.keys_eq_iff

/-- Two sets that hold the same cores, with and without lookaheads, and allow the same terminals are
equal. -/
theorem ext_of_iff (sameCores : ∀ core, set.Holds core ↔ other.Holds core)
    (sameLookaheads : ∀ core, set.LooksAhead core ↔ other.LooksAhead core)
    (sameTerminals : ∀ core terminal, set.Allows core terminal ↔ other.Allows core terminal) :
    set = other := by
  apply AscendingMap.ext_find?
  intro core
  have held := sameCores core
  have looksAhead := sameLookaheads core
  have allows := sameTerminals core
  simp only [Holds, LooksAhead, Allows] at held looksAhead allows
  rcases found : set.find? core with _ | _ | allowed <;>
    rcases otherFound : other.find? core with _ | _ | otherAllowed <;>
    simp [found, otherFound] at held looksAhead allows ⊢
  exact TerminalSet.ext allows

theorem looksAhead_of_marked {marked : Bool} (setMarked : set.Marked marked) :
    set.LooksAhead core ↔ set.Holds core ∧ marked = true := by
  constructor
  · rintro ⟨allowed, found⟩
    exact ⟨⟨_, found⟩, (setMarked core _ found).symm⟩
  · rintro ⟨⟨lookahead, found⟩, rfl⟩
    obtain ⟨allowed, rfl⟩ := Option.isSome_iff_exists.mp (setMarked core lookahead found)
    exact ⟨allowed, found⟩

/-- Two sets of the same sort that hold the same cores and allow the same terminals are equal. -/
theorem ext_of_marked {marked : Bool} (setMarked : set.Marked marked)
    (otherMarked : other.Marked marked) (sameCores : ∀ core, set.Holds core ↔ other.Holds core)
    (sameTerminals : ∀ core terminal, set.Allows core terminal ↔ other.Allows core terminal) :
    set = other := by
  refine ext_of_iff sameCores (fun core => ?_) sameTerminals
  rw [looksAhead_of_marked setMarked, looksAhead_of_marked otherMarked, sameCores]

/-- A terminal is allowed only after a core that is held. -/
theorem Allows.holds (allows : set.Allows core terminal) : set.Holds core := by
  obtain ⟨allowed, found, _⟩ := allows
  exact ⟨some allowed, found⟩

theorem not_allows_of_marked (setMarked : set.Marked false) : ¬ set.Allows core terminal := by
  rintro ⟨allowed, found, _⟩
  cases setMarked core _ found

/-! ## Adding items -/

theorem find?_add (item : Item) :
    (set.add item).find? core =
      if core = item.core then
        some (match set.find? item.core with
          | some known => Item.uniteLookaheads known item.lookahead
          | none => item.lookahead)
      else set.find? core :=
  AscendingMap.find?_alter set item.core core _

theorem holds_add {item : Item} : (set.add item).Holds core ↔
    set.Holds core ∨ core = item.core := by
  unfold Holds
  rw [find?_add]
  by_cases same : core = item.core
  · simp [same]
  · simp [same]

theorem allows_add {item : Item} :
    (set.add item).Allows core terminal ↔ set.Allows core terminal ∨
      (core = item.core ∧ ∃ allowed, item.lookahead = some allowed ∧
        terminal ∈ allowed) := by
  unfold Allows
  rw [find?_add]
  by_cases same : core = item.core
  · subst same
    cases set.find? item.core with
    | none => simp
    | some known => cases known <;> cases item.lookahead <;> simp [Item.uniteLookaheads]
  · simp [same]

theorem looksAhead_add {item : Item} : (set.add item).LooksAhead core ↔
    set.LooksAhead core ∨ (core = item.core ∧ item.lookahead ≠ none) := by
  unfold LooksAhead
  rw [find?_add]
  by_cases same : core = item.core
  · subst same
    cases set.find? item.core with
    | none => simp [Option.ne_none_iff_exists']
    | some known => cases known <;> cases item.lookahead <;> simp [Item.uniteLookaheads]
  · simp [same]

theorem isSome_uniteLookaheads (known added : Option TerminalSet) :
    (Item.uniteLookaheads known added).isSome = (known.isSome || added.isSome) := by
  cases known <;> cases added <;> rfl

theorem Marked.add {marked : Bool} (setMarked : set.Marked marked) {item : Item}
    (itemMarked : item.lookahead.isSome = marked) : (set.add item).Marked marked := by
  intro core lookahead found
  rw [find?_add] at found
  split at found
  · cases known : set.find? item.core with
    | none =>
        rw [known] at found
        cases found
        exact itemMarked
    | some old =>
        rw [known] at found
        cases found
        rw [isSome_uniteLookaheads, setMarked item.core old known, itemMarked, Bool.or_self]
  · exact setMarked core lookahead found

theorem holds_foldl_add {items : List Item} :
    (items.foldl add set).Holds core ↔ set.Holds core ∨
    ∃ item ∈ items, core = item.core := by
  induction items generalizing set with
  | nil => simp
  | cons item rest ih => simp [ih, holds_add, or_assoc]

theorem looksAhead_foldl_add {items : List Item} :
    (items.foldl add set).LooksAhead core ↔ set.LooksAhead core ∨
      ∃ item ∈ items, core = item.core ∧ item.lookahead ≠ none := by
  induction items generalizing set with
  | nil => simp
  | cons item rest ih => simp [ih, looksAhead_add, or_assoc]

theorem allows_foldl_add {items : List Item} :
    (items.foldl add set).Allows core terminal ↔ set.Allows core terminal ∨
      ∃ item ∈ items, core = item.core ∧
        ∃ allowed, item.lookahead = some allowed ∧ terminal ∈ allowed := by
  induction items generalizing set with
  | nil => simp
  | cons item rest ih => simp [ih, allows_add, or_assoc]

theorem Marked.foldl_add {marked : Bool} {items : List Item} (setMarked : set.Marked marked)
    (itemsMarked : ∀ item ∈ items, item.lookahead.isSome = marked) :
    (items.foldl ItemSet.add set).Marked marked := by
  induction items generalizing set with
  | nil => exact setMarked
  | cons item rest ih =>
      exact ih (setMarked.add (itemsMarked item (by simp)))
        fun other member => itemsMarked other (by simp [member])

theorem marked_empty (marked : Bool) : Marked marked AscendingMap.empty := by
  intro core lookahead found
  cases found

@[simp]
theorem not_holds_empty : ¬ Holds AscendingMap.empty core := by
  rintro ⟨lookahead, found⟩
  cases found

@[simp]
theorem not_looksAhead_empty : ¬ LooksAhead AscendingMap.empty core := by
  rintro ⟨allowed, found⟩
  cases found

@[simp]
theorem not_allows_empty : ¬ Allows AscendingMap.empty core terminal :=
  fun allows => not_holds_empty allows.holds

/-! ## Merging -/

theorem holds_merge : (set.merge other).Holds core ↔ set.Holds core ∨ other.Holds core := by
  rw [merge, holds_foldl_add]
  refine or_congr_right ?_
  constructor
  · rintro ⟨item, member, rfl⟩
    exact ⟨_, mem_items.mp member⟩
  · rintro ⟨lookahead, found⟩
    exact ⟨⟨core, lookahead⟩, mem_items.mpr found, rfl⟩

theorem looksAhead_merge :
    (set.merge other).LooksAhead core ↔ set.LooksAhead core ∨ other.LooksAhead core := by
  rw [merge, looksAhead_foldl_add]
  refine or_congr_right ?_
  constructor
  · rintro ⟨item, member, rfl, isSome⟩
    obtain ⟨allowed, lookahead⟩ := Option.ne_none_iff_exists'.mp isSome
    exact ⟨allowed, lookahead ▸ mem_items.mp member⟩
  · rintro ⟨allowed, found⟩
    exact ⟨⟨core, some allowed⟩, mem_items.mpr found, rfl, by simp⟩

theorem allows_merge :
    (set.merge other).Allows core terminal ↔ set.Allows core terminal ∨
    other.Allows core terminal := by
  rw [merge, allows_foldl_add]
  refine or_congr_right ?_
  constructor
  · rintro ⟨item, member, rfl, allowed, lookahead, inAllowed⟩
    exact ⟨allowed, lookahead ▸ mem_items.mp member, inAllowed⟩
  · rintro ⟨allowed, found, inAllowed⟩
    exact ⟨⟨core, some allowed⟩, mem_items.mpr found, rfl, allowed, rfl, inAllowed⟩

/-- A set is that of its own items. -/
theorem ofList_items : ofList set.items = set := by
  change merge .empty set = set
  refine ext_of_iff (fun core => ?_) (fun core => ?_) fun core terminal => ?_
  · rw [holds_merge, or_iff_right not_holds_empty]
  · rw [looksAhead_merge, or_iff_right not_looksAhead_empty]
  · rw [allows_merge, or_iff_right not_allows_empty]

theorem Marked.merge {marked : Bool} (setMarked : set.Marked marked)
    (otherMarked : other.Marked marked) : (set.merge other).Marked marked :=
  setMarked.foldl_add fun item member => otherMarked item.core _ (mem_items.mp member)

theorem Marked.ofList {marked : Bool} {items : List Item}
    (itemsMarked : ∀ item ∈ items, item.lookahead.isSome = marked) :
    Marked marked (ItemSet.ofList items) :=
  (marked_empty marked).foldl_add itemsMarked

/-! ## Complete items -/

theorem exists_anyM_isComplete_eq_ok {cores : List Core}
    (hasRules : ∀ core ∈ cores, grammar.HasRule core) :
    ∃ complete, cores.anyM (Core.isComplete grammar) = .ok complete ∧
      (complete = true ↔ ∃ core ∈ cores, grammar.Completes core) := by
  induction cores with
  | nil => exact ⟨false, rfl, by simp⟩
  | cons core rest ih =>
      obtain ⟨complete, found, completes⟩ := (hasRules core (by simp)).exists_isComplete_eq_ok
      obtain ⟨others, othersFound, othersComplete⟩ :=
        ih fun other member => hasRules other (by simp [member])
      cases complete with
      | true =>
          refine ⟨true, by simp [List.anyM, found], ?_⟩
          simp only [true_iff] at completes ⊢
          exact ⟨core, by simp, completes⟩
      | false =>
          refine ⟨others, by simp [List.anyM, found, othersFound], ?_⟩
          simp only [Bool.false_eq_true, false_iff] at completes
          simp [othersComplete, completes]

theorem exists_hasComplete_eq_ok (hasRules : set.HasRules grammar) :
    ∃ complete, set.hasComplete grammar = .ok complete ∧
      (complete = true ↔ ∃ core, set.Holds core ∧ grammar.Completes core) := by
  simp only [HasRules, ← mem_cores] at hasRules ⊢
  exact exists_anyM_isComplete_eq_ok hasRules

/-! ## Reading a symbol -/

/-- The kernel is what the items of the set become when the symbol is read. -/
structure IsSuccessor (grammar : Grammar) (set : ItemSet) (symbol : Symbol) (kernel : ItemSet) :
    Prop where
  /-- It holds the cores with the marker moved over the symbol. -/
  holds : ∀ core, kernel.Holds core ↔
    ∃ earlier rest, core = earlier.advanced ∧ set.Holds earlier ∧
      grammar.Expects earlier symbol rest
  /-- The lookaheads stay the same. -/
  allows : ∀ core terminal, kernel.Allows core terminal ↔ ∃ earlier rest,
    core = earlier.advanced ∧ set.Allows earlier terminal ∧ grammar.Expects earlier symbol rest

/-- The item with the marker moved over one symbol. -/
def advancedItem (item : Item) : Item := ⟨item.core.advanced, item.lookahead⟩

/-- The items of a list that expect a symbol. -/
def expecting (grammar : Grammar) (symbol : Symbol) (items : List Item) : List Item :=
  items.filter fun item => grammar.next? item.core = some symbol

/-- The items that expect a symbol, moved over it, are what the set becomes when it is read. -/
theorem isSuccessor_ofList (symbol : Symbol) :
    IsSuccessor grammar set symbol
      (ofList ((expecting grammar symbol set.items).map advancedItem)) where
  holds core := by
    simp only [ofList, holds_foldl_add, not_holds_empty, false_or, List.mem_map, expecting,
      List.mem_filter, decide_eq_true_eq, Grammar.next?_eq_some, mem_items]
    constructor
    · rintro ⟨_, ⟨item, ⟨found, rest, expects⟩, rfl⟩, rfl⟩
      exact ⟨item.core, rest, rfl, ⟨_, found⟩, expects⟩
    · rintro ⟨earlier, rest, rfl, ⟨lookahead, found⟩, expects⟩
      exact ⟨_, ⟨⟨earlier, lookahead⟩, ⟨found, rest, expects⟩, rfl⟩, rfl⟩
  allows core terminal := by
    simp only [ofList, allows_foldl_add, not_allows_empty, false_or, List.mem_map, expecting,
      List.mem_filter, decide_eq_true_eq, Grammar.next?_eq_some, mem_items]
    constructor
    · rintro ⟨_, ⟨item, ⟨found, rest, expects⟩, rfl⟩, rfl, allowed, lookahead, member⟩
      exact ⟨item.core, rest, rfl,
        ⟨allowed, found.trans (congrArg some lookahead), member⟩, expects⟩
    · rintro ⟨earlier, rest, rfl, ⟨allowed, found, member⟩, expects⟩
      exact ⟨_, ⟨⟨earlier, some allowed⟩, ⟨found, rest, expects⟩, rfl⟩,
        rfl, allowed, rfl, member⟩

theorem Marked.advanced {marked : Bool} (setMarked : set.Marked marked) (symbol : Symbol) :
    Marked marked (ItemSet.ofList ((expecting grammar symbol set.items).map advancedItem)) := by
  apply Marked.ofList
  intro advanced member
  obtain ⟨item, inList, rfl⟩ := List.mem_map.mp member
  exact setMarked item.core _ (mem_items.mp (List.mem_filter.mp inList).1)

/-- What the set becomes when a symbol is read can be computed for each symbol alone. -/
theorem goto_eq_ok (hasRules : set.HasRules grammar) (symbol : Symbol) :
    set.goto grammar symbol =
      .ok (ofList ((expecting grammar symbol set.items).map advancedItem)) := by
  have filtered : (set.items.filterM fun item => do
      return (← item.core.next grammar) == some symbol) =
      .ok (expecting grammar symbol set.items) := by
    refine filterM_eq_ok_filter fun item member => ?_
    have has := hasRules item.core ⟨_, mem_items.mp member⟩
    rw [has.next_eq_ok, ok_bind, pure_eq_ok, beq_eq_decide]
  rw [goto, filtered]
  rfl

theorem exists_goto_eq_ok (hasRules : set.HasRules grammar) (symbol : Symbol) :
    ∃ kernel, set.goto grammar symbol = .ok kernel ∧ IsSuccessor grammar set symbol kernel ∧
      ∀ marked, set.Marked marked → kernel.Marked marked :=
  ⟨_, goto_eq_ok hasRules symbol, isSuccessor_ofList symbol,
    fun _ setMarked => setMarked.advanced symbol⟩

/-- Put an item among those that a symbol led to. -/
def addAdvanced (known : Option ItemSet) (item : Item) : Option ItemSet :=
  some ((known.getD .empty).add (advancedItem item))

theorem exists_addSuccessor_eq_ok {known : AscendingMap Symbol ItemSet} {item : Item}
    (has : grammar.HasRule item.core) :
    ∃ next, addSuccessor grammar known item = .ok next ∧ ∀ symbol, next.find? symbol =
      if grammar.next? item.core = some symbol then addAdvanced (known.find? symbol) item
      else known.find? symbol := by
  cases expected : grammar.next? item.core with
  | none =>
      refine ⟨known, by simp [addSuccessor, has.next_eq_ok, expected], ?_⟩
      simp
  | some found =>
      refine ⟨_, by simp [addSuccessor, has.next_eq_ok, expected]; rfl, fun symbol => ?_⟩
      rw [AscendingMap.find?_alter]
      by_cases same : symbol = found
      · subst same
        simp [addAdvanced, advancedItem]
      · simp [same, Ne.symm same]

theorem exists_foldlM_addSuccessor_eq_ok {known : AscendingMap Symbol ItemSet} {items : List Item}
    (hasRules : ∀ item ∈ items, grammar.HasRule item.core) :
    ∃ final, items.foldlM (addSuccessor grammar) known = .ok final ∧ ∀ symbol,
      final.find? symbol =
        (expecting grammar symbol items).foldl addAdvanced (known.find? symbol) := by
  induction items generalizing known with
  | nil => exact ⟨known, rfl, fun symbol => rfl⟩
  | cons item rest ih =>
      obtain ⟨next, made, nextFind⟩ :=
        @exists_addSuccessor_eq_ok grammar known item (hasRules item (by simp))
      obtain ⟨final, reached, finalFind⟩ :=
        @ih next fun other member => hasRules other (by simp [member])
      refine ⟨final, by rw [List.foldlM_cons, made, ok_bind, reached], fun symbol => ?_⟩
      rw [finalFind, nextFind, expecting, expecting, List.filter_cons]
      by_cases expected : grammar.next? item.core = some symbol
      · simp [expected]
      · simp [expected]

theorem foldl_addAdvanced_some (known : ItemSet) (items : List Item) :
    items.foldl addAdvanced (some known) = some ((items.map advancedItem).foldl add known) := by
  induction items generalizing known with
  | nil => rfl
  | cons item rest ih => exact ih _

theorem foldl_addAdvanced_none {items : List Item} :
    items.foldl addAdvanced none =
      if items = [] then none else some (ofList (items.map advancedItem)) := by
  cases items with
  | nil => rfl
  | cons item rest =>
      rw [if_neg (by simp)]
      exact foldl_addAdvanced_some _ rest

/-- All successors at once are those for each symbol that some item expects. -/
theorem exists_successors_find?_eq (hasRules : set.HasRules grammar) :
    ∃ successors, set.successors grammar = .ok successors ∧ ∀ symbol,
      successors.find? symbol =
      if expecting grammar symbol set.items = [] then none
      else some (ofList ((expecting grammar symbol set.items).map advancedItem)) := by
  obtain ⟨successors, made, found⟩ :=
    @exists_foldlM_addSuccessor_eq_ok grammar .empty set.items fun item member =>
      hasRules item.core ⟨_, mem_items.mp member⟩
  simp only [AscendingMap.find?_empty, foldl_addAdvanced_none] at found
  exact ⟨successors, made, found⟩

/-- The successors of a set, by symbol: one for every symbol that some item expects. -/
theorem exists_successors_eq_ok (hasRules : set.HasRules grammar) :
    ∃ successors, set.successors grammar = .ok successors ∧
      (∀ symbol kernel, successors.find? symbol = some kernel →
        IsSuccessor grammar set symbol kernel ∧ (∃ core, kernel.Holds core) ∧
          ∀ marked, set.Marked marked → kernel.Marked marked) ∧
      ∀ symbol core rest, set.Holds core → grammar.Expects core symbol rest →
        ∃ kernel, successors.find? symbol = some kernel := by
  obtain ⟨successors, made, found⟩ := exists_successors_find?_eq hasRules
  refine ⟨successors, made, ?_, ?_⟩
  · intro symbol kernel isFound
    rw [found, ite_eq_iff] at isFound
    obtain ⟨_, absurdity⟩ | ⟨nonempty, same⟩ := isFound
    · cases absurdity
    · obtain rfl := Option.some.inj same
      have successor := @isSuccessor_ofList grammar set symbol
      refine ⟨successor, ?_, fun marked setMarked => ?_⟩
      · obtain ⟨item, member⟩ := List.exists_mem_of_ne_nil _ nonempty
        rw [expecting, List.mem_filter, mem_items, decide_eq_true_eq,
          Grammar.next?_eq_some] at member
        obtain ⟨itemFound, rest, expects⟩ := member
        exact ⟨_, (successor.holds _).mpr ⟨item.core, rest, rfl,
          ⟨_, itemFound⟩, expects⟩⟩
      · exact setMarked.advanced symbol
  · rintro symbol core rest ⟨lookahead, holds⟩ expects
    have nonempty : expecting grammar symbol set.items ≠ [] := by
      apply List.ne_nil_of_mem (a := ⟨core, lookahead⟩)
      rw [expecting, List.mem_filter, mem_items, decide_eq_true_eq, Grammar.next?_eq_some]
      exact ⟨holds, rest, expects⟩
    exact ⟨_, by rw [found, if_neg nonempty]⟩

end ItemSet

end DeterministicParsing
