/-
# Augmented grammars

Augmentation adds a new start with one rule, which leads to the old start. What the construction of
automata and tables needs of the result is that the start is fresh: it occurs in no body, and no
other rule has it as its head. So it is looked for only in front of the end of the input, and since
no string without it ever leads to it, derivations from the old start are the same in both grammars.
-/
import Mathlib.Data.List.Nodup
import DeterministicParsing.Automaton.ViablePrefix
import DeterministicParsing.Proofs.FixedPoint
import DeterministicParsing.Proofs.Grammar.Derivation

namespace DeterministicParsing

namespace Grammar

/-! ## Fresh names -/

variable {grammar : Grammar}

theorem mem_of_isSome_nonterminal? {name : String}
    (found : (grammar.nonterminal? name).isSome = true) : name ∈ grammar.nonterminalNames := by
  obtain ⟨id, isId⟩ := Option.isSome_iff_exists.mp found
  exact List.mem_of_getElem? (grammar.valid.nonterminal?_eq_some.mp isId)

/-- If priming a name ends at one that is taken, then all names on the way are taken. -/
theorem iterate_mem_of_primeUntilFresh_mem {bound : Nat} {name : String}
    (taken : grammar.primeUntilFresh bound name ∈ grammar.nonterminalNames) :
    ∀ primes ≤ bound, (· ++ "'")^[primes] name ∈ grammar.nonterminalNames := by
  induction bound generalizing name with
  | zero =>
      intro primes few
      rw [Nat.le_zero.mp few]
      exact taken
  | succ bound ih =>
      intro primes few
      unfold Arena.primeUntilFresh at taken
      split at taken
      · rename_i found
        cases primes with
        | zero => exact mem_of_isSome_nonterminal? found
        | succ primes => exact ih taken primes (by omega)
      · rename_i absent
        exact absurd taken (nonterminal?_eq_none.mp (Option.not_isSome_iff_eq_none.mp absent))

theorem length_iterate_prime (primes : Nat) (name : String) :
    ((· ++ "'")^[primes] name).length = name.length + primes := by
  induction primes generalizing name with
  | zero => rfl
  | succ primes ih =>
      rw [Function.iterate_succ_apply, ih, String.length_append]
      have single : "'".length = 1 := rfl
      omega

/-- The name of the new start is fresh: there are more candidates for it than nonterminals. -/
theorem primed_not_mem (name : String) : grammar.primed name ∉ grammar.nonterminalNames := by
  intro taken
  have allTaken := iterate_mem_of_primeUntilFresh_mem taken
  have distinct : ((List.range (grammar.nonterminalCount + 1)).map
      fun primes => (· ++ "'")^[primes] (name ++ "'")).Nodup := by
    refine List.Nodup.map ?_ List.nodup_range
    intro first second same
    have sameLength := congrArg String.length same
    simp only [length_iterate_prime] at sameLength
    omega
  have within : ((List.range (grammar.nonterminalCount + 1)).map
      fun primes => (· ++ "'")^[primes] (name ++ "'")) ⊆ grammar.nonterminalNames := by
    intro candidate member
    obtain ⟨primes, inRange, rfl⟩ := List.mem_map.mp member
    exact allTaken primes (Nat.lt_succ_iff.mp (List.mem_range.mp inRange))
  have tooMany := distinct.length_le_of_subset within
  simp [Arena.nonterminalCount] at tooMany

/-- Priming a name stops at the first name that is free, unless it runs out of primes. -/
theorem exists_primeUntilFresh_eq (bound : Nat) (name : String) :
    ∃ primes, grammar.primeUntilFresh bound name = (· ++ "'")^[primes] name ∧
      ∀ fewer < primes, (· ++ "'")^[fewer] name ∈ grammar.nonterminalNames := by
  induction bound generalizing name with
  | zero => exact ⟨0, rfl, by simp⟩
  | succ bound ih =>
      unfold Arena.primeUntilFresh
      split
      · rename_i taken
        obtain ⟨primes, same, allTaken⟩ := ih (name ++ "'")
        refine ⟨primes + 1, same, fun fewer few => ?_⟩
        cases fewer with
        | zero => exact mem_of_isSome_nonterminal? taken
        | succ fewer => exact allTaken fewer (Nat.lt_of_succ_lt_succ few)
      · exact ⟨0, rfl, by simp⟩

/-- A name that no nonterminal has yet goes to a new one. -/
theorem addNonterminal_of_not_mem {name : String} (fresh : name ∉ grammar.nonterminalNames) :
    grammar.toArena.addNonterminal name = (grammar.nonterminalCount,
      { grammar.toArena with
        nonterminalIds := (name, grammar.nonterminalCount) :: grammar.nonterminalIds
        nonterminalNames := grammar.nonterminalNames ++ [name]
        ruleLists := grammar.ruleLists ++ [[]] }) := by
  have absent : grammar.nonterminalIds.lookup name = none := nonterminal?_eq_none.mpr fresh
  rw [Arena.addNonterminal, absent]

/-! ## Grammars with a fresh start -/

/-- The start of the grammar has a single rule, the accept rule, which leads to `target`, and it
occurs in no body. -/
structure HasFreshStart (grammar : Grammar) (start accept target : Nat) : Prop where
  /-- All bodies are declared. -/
  bodies : grammar.BodiesDeclared
  /-- The start is declared. -/
  start_lt : start < grammar.nonterminalCount
  /-- It is the start. -/
  start_eq : grammar.start = .ok start
  /-- The accept rule is marked as such. -/
  acceptRule_eq : grammar.acceptRule = some accept
  /-- The accept rule leads from the start to the target. -/
  found : grammar.rules[accept]? = some ⟨start, [.nonterminal target]⟩
  /-- No other rule has the start as its head. -/
  unique : ∀ id rule, grammar.rules[id]? = some rule → rule.head = start → id = accept
  /-- The start occurs in no body. -/
  fresh : ∀ rule ∈ grammar.rules, .nonterminal start ∉ rule.body

namespace HasFreshStart

variable {start accept target : Nat}

theorem wellFormed (fresh : grammar.HasFreshStart start accept target) : grammar.WellFormed :=
  ⟨fresh.bodies, start, fresh.start_eq, fresh.start_lt⟩

/-- A fresh start is looked for nowhere but at the beginning. -/
theorem eq_of_frame_start (fresh : grammar.HasFreshStart start accept target)
    {before after : List Symbol} (frame : grammar.Frame before start after) :
    before = [] ∧ after = word [endOfInput] := by
  cases frame with
  | start starts => exact ⟨rfl, rfl⟩
  | within outer member =>
      refine absurd ?_ (fresh.fresh _ member)
      simp

/-- The accept rule is valid only for what it has recognised of its own body. -/
theorem eq_of_validFor_accept (fresh : grammar.HasFreshStart start accept target)
    {string after : List Symbol} {marker : Nat}
    (valid : grammar.ValidFor string ⟨accept, marker⟩ after) :
    string = [Symbol.nonterminal target].take marker ∧ after = word [endOfInput] := by
  obtain ⟨rule, before, found, _, frame, rfl⟩ := valid
  obtain rfl : _ = rule := Option.some.inj (fresh.found.symm.trans found)
  obtain ⟨rfl, rfl⟩ := fresh.eq_of_frame_start frame
  exact ⟨rfl, rfl⟩

end HasFreshStart

/-! ## Examples -/

/-- Any number of `a`, with the rules `S → a S` and `S → ε`. -/
def repetition : Grammar :=
  .ofLists ["a"] ["S"]
    [⟨0, [.terminal 1, .nonterminal 0]⟩, ⟨0, []⟩]
    (by decide) (by decide) (by decide)

theorem wellFormed_repetition : repetition.WellFormed := ⟨by decide, 0, rfl, by decide⟩

/-- Brackets one after another, with the rules `S → ( S ) S` and `S → ε`. -/
def brackets : Grammar :=
  .ofLists ["(", ")"] ["S"]
    [⟨0, [.terminal 1, .nonterminal 0, .terminal 2, .nonterminal 0]⟩, ⟨0, []⟩]
    (by decide) (by decide) (by decide)

theorem wellFormed_brackets : brackets.WellFormed := ⟨by decide, 0, rfl, by decide⟩

/-- Two strings of any number of `c` and a `d`, with the rules `S → C C`, `C → c C` and `C →
d`. -/
def twoStrings : Grammar :=
  .ofLists ["c", "d"] ["S", "C"]
    [⟨0, [.nonterminal 1, .nonterminal 1]⟩, ⟨1, [.terminal 1, .nonterminal 1]⟩,
      ⟨1, [.terminal 2]⟩]
    (by decide) (by decide) (by decide)

theorem wellFormed_twoStrings : twoStrings.WellFormed :=
  ⟨by decide, 0, rfl, by decide⟩

/-! ## The augmented grammar -/

/-- The second grammar is the first one with a new start that leads to the old one. -/
structure IsAugmentationOf (augmented grammar : Grammar) (target : Nat) : Prop where
  /-- The terminals are the same. -/
  terminalNames_eq : augmented.terminalNames = grammar.terminalNames
  /-- There is one more nonterminal. -/
  nonterminalCount_eq : augmented.nonterminalCount = grammar.nonterminalCount + 1
  /-- There is one more rule, from the new nonterminal to the old start. -/
  rules_eq : augmented.rules =
    grammar.rules ++ [⟨grammar.nonterminalCount, [.nonterminal target]⟩]
  /-- The new nonterminal is the start. -/
  start_eq : augmented.start = .ok grammar.nonterminalCount
  /-- The new rule is the accept rule. -/
  acceptRule_eq : augmented.acceptRule = some grammar.rules.length

/-- Augmentation puts a fresh name at the end of the nonterminals and one rule at the end of the
rules. -/
theorem exists_of_augmented_eq_ok {augmented : Grammar} (made : grammar.augmented = .ok augmented) :
    ∃ start name, grammar.start = .ok start ∧ grammar.nonterminalName start = .ok name ∧
      augmented.nonterminalNames = grammar.nonterminalNames ++ [grammar.primed name] ∧
      augmented.IsAugmentationOf grammar start := by
  obtain ⟨augmented, valid⟩ := augmented
  obtain ⟨start, name, starts, named, _, isAugmented⟩ :=
    Arena.exists_of_augmented_eq_ok (augmented_eq_ok_iff.mp made)
  rw [addNonterminal_of_not_mem (grammar.primed_not_mem name)] at isAugmented
  subst isAugmented
  exact ⟨start, name, starts, named, rfl, rfl, List.length_append, rfl, rfl, rfl⟩

/-- A well-formed grammar can be augmented. -/
theorem WellFormed.exists_augmented (wellFormed : grammar.WellFormed) :
    ∃ augmented target, grammar.augmented = .ok augmented ∧ grammar.start = .ok target ∧
      target < grammar.nonterminalCount ∧ augmented.IsAugmentationOf grammar target := by
  obtain ⟨_, target, starts, declared⟩ := wellFormed
  obtain ⟨name, named⟩ : ∃ name, grammar.nonterminalName target = .ok name :=
    ⟨_, Arena.nonterminalName_eq_ok.mpr (List.getElem?_eq_getElem declared)⟩
  obtain ⟨augmented, made⟩ : ∃ augmented, grammar.augmented = .ok augmented := by
    obtain ⟨arena, made⟩ : ∃ arena, grammar.toArena.augmented = .ok arena := by
      simp [Arena.augmented, starts, named, addNonterminal_of_not_mem (grammar.primed_not_mem name),
        Arena.addRule, grammar.valid.ruleLists_length]
    exact ⟨⟨arena, grammar.valid.augmented made⟩, augmented_eq_ok_iff.mpr made⟩
  obtain ⟨start, _, isStart, _, _, augments⟩ := exists_of_augmented_eq_ok made
  obtain rfl : start = target := Except.ok.inj (isStart.symm.trans starts)
  exact ⟨augmented, start, made, starts, declared, augments⟩

/-- The name of the new start is that of the old one with primes, no more of them than it takes. -/
theorem exists_nonterminalNames_of_augmented_eq_ok {augmented : Grammar}
    (made : grammar.augmented = .ok augmented) :
    ∃ start name primes, grammar.start = .ok start ∧
      grammar.nonterminalName start = .ok name ∧
      (∀ fewer < primes, (· ++ "'")^[fewer + 1] name ∈ grammar.nonterminalNames) ∧
        (· ++ "'")^[primes + 1] name ∉ grammar.nonterminalNames ∧
      augmented.nonterminalNames = grammar.nonterminalNames ++ [(· ++ "'")^[primes + 1] name] := by
  obtain ⟨start, name, starts, named, names, _⟩ := exists_of_augmented_eq_ok made
  obtain ⟨primes, isPrimed, allTaken⟩ :=
    grammar.exists_primeUntilFresh_eq grammar.nonterminalCount (name ++ "'")
  change grammar.primed name = (· ++ "'")^[primes + 1] name at isPrimed
  exact ⟨start, name, primes, starts, named, allTaken, isPrimed ▸ grammar.primed_not_mem name,
    isPrimed ▸ names⟩

/-- The symbols of a grammar keep their names when it is augmented. -/
theorem symbolName_of_augmented_eq_ok {augmented : Grammar}
    (made : grammar.augmented = .ok augmented) {symbol : Symbol}
    (declared : grammar.Declares symbol) :
    augmented.symbolName symbol = grammar.symbolName symbol := by
  obtain ⟨start, name, _, _, names, augments⟩ := exists_of_augmented_eq_ok made
  cases symbol with
  | terminal id =>
      simp only [Arena.symbolName, Arena.terminalName_eq, augments.terminalNames_eq]
  | nonterminal id =>
      have inRange : id < grammar.nonterminalNames.length := declared
      simp only [Arena.symbolName, Arena.nonterminalName, names,
        List.getElem?_append_left inRange]

namespace IsAugmentationOf

variable {augmented : Grammar} {target : Nat}

theorem hasFreshStart (augments : augmented.IsAugmentationOf grammar target)
    (wellFormed : grammar.WellFormed) (starts : grammar.start = .ok target) :
    augmented.HasFreshStart grammar.nonterminalCount grammar.rules.length target where
  bodies := by
    obtain ⟨bodies, start, found, declared⟩ := wellFormed
    obtain rfl : target = start := Except.ok.inj (starts.symm.trans found)
    have stillDeclared (symbol : Symbol) (here : grammar.Declares symbol) :
        augmented.Declares symbol := by
      cases symbol with
      | terminal id =>
          rw [Declares, Arena.terminalCount, augments.terminalNames_eq]
          exact here
      | nonterminal id =>
          rw [Declares, augments.nonterminalCount_eq]
          exact Nat.lt_succ_of_lt here
    intro rule member symbol inBody
    rw [augments.rules_eq, List.mem_append, List.mem_singleton] at member
    apply stillDeclared
    rcases member with member | rfl
    · exact bodies rule member symbol inBody
    · rw [List.mem_singleton.mp inBody]
      exact declared
  start_lt := by
    rw [augments.nonterminalCount_eq]
    exact Nat.lt_succ_self _
  start_eq := augments.start_eq
  acceptRule_eq := augments.acceptRule_eq
  found := by
    rw [augments.rules_eq]
    simp
  unique := by
    intro id rule found head
    rw [augments.rules_eq] at found
    rcases Nat.lt_or_ge id grammar.rules.length with old | new
    · rw [List.getElem?_append_left old] at found
      have declared := grammar.head_lt rule (List.mem_of_getElem? found)
      rw [head] at declared
      exact absurd declared (Nat.lt_irrefl _)
    · have inRange := (List.getElem?_eq_some_iff.mp found).1
      rw [List.length_append, List.length_singleton] at inRange
      omega
  fresh := by
    obtain ⟨bodies, start, found, declared⟩ := wellFormed
    obtain rfl : target = start := Except.ok.inj (starts.symm.trans found)
    intro rule member inBody
    rw [augments.rules_eq, List.mem_append, List.mem_singleton] at member
    rcases member with member | rfl
    · exact Nat.lt_irrefl _ (bodies rule member _ inBody)
    · rw [List.mem_singleton, Symbol.nonterminal.injEq] at inBody
      omega

/-- A rule of the grammar keeps its number. -/
theorem getElem?_rules (augments : augmented.IsAugmentationOf grammar target) {id : Nat}
    {rule : Rule} (found : grammar.rules[id]? = some rule) : augmented.rules[id]? = some rule := by
  rw [augments.rules_eq, List.getElem?_append_left (List.getElem?_eq_some_iff.mp found).1]
  exact found

/-- Every rule but the accept rule is one of the grammar. -/
theorem getElem?_rules_of_ne (augments : augmented.IsAugmentationOf grammar target) {id : Nat}
    {rule : Rule} (found : augmented.rules[id]? = some rule)
    (other : rule.head ≠ grammar.nonterminalCount) : grammar.rules[id]? = some rule := by
  rw [augments.rules_eq] at found
  rcases Nat.lt_or_ge id grammar.rules.length with old | new
  · rwa [List.getElem?_append_left old] at found
  · rw [List.getElem?_append_right new] at found
    rw [List.mem_singleton.mp (List.mem_of_getElem? found)] at other
    exact absurd rfl other

/-- Derivations of the grammar are derivations of its augmentation. -/
theorem derivesRightmost (augments : augmented.IsAugmentationOf grammar target)
    {first last : List Symbol} {rules : List Nat}
    (rightmost : grammar.DerivesRightmost first rules last) :
    augmented.DerivesRightmost first rules last := by
  induction rightmost with
  | refl => exact .refl _
  | head found before after _ ih => exact .head (augments.getElem?_rules found) before after ih

/-- Derivations of the augmentation from strings without the new start are derivations of the
grammar. -/
theorem derivesRightmost_of_not_mem (augments : augmented.IsAugmentationOf grammar target)
    (fresh : augmented.HasFreshStart grammar.nonterminalCount grammar.rules.length target)
    {first last : List Symbol} {rules : List Nat}
    (rightmost : augmented.DerivesRightmost first rules last)
    (absent : .nonterminal grammar.nonterminalCount ∉ first) :
    grammar.DerivesRightmost first rules last := by
  induction rightmost with
  | refl => exact .refl _
  | @head id rule found before after rules string _ ih =>
      simp only [List.mem_append, List.mem_cons, Symbol.nonterminal.injEq, not_or] at absent
      obtain ⟨notBefore, notHead, notAfter⟩ := absent
      refine .head (augments.getElem?_rules_of_ne found (Ne.symm notHead)) before after (ih ?_)
      simp only [List.mem_append, not_or]
      exact ⟨notBefore, fresh.fresh rule (List.mem_of_getElem? found), notAfter⟩

theorem derives (augments : augmented.IsAugmentationOf grammar target) {first last : List Symbol}
    (derives : grammar.Derives first last) : augmented.Derives first last := by
  induction derives with
  | refl => exact .refl _
  | head expands _ ih =>
      obtain ⟨member, left, right⟩ := expands
      exact .head (.replace (augments.rules_eq ▸ List.mem_append_left _ member) left right) ih

/-- Derivations of the augmentation from strings without the new start are derivations of the
grammar. -/
theorem derives_of_not_mem (augments : augmented.IsAugmentationOf grammar target)
    (fresh : augmented.HasFreshStart grammar.nonterminalCount grammar.rules.length target)
    {first last : List Symbol} (derives : augmented.Derives first last)
    (absent : .nonterminal grammar.nonterminalCount ∉ first) : grammar.Derives first last := by
  induction derives with
  | refl => exact .refl _
  | head expands _ ih =>
      obtain ⟨member, left, right⟩ := expands
      simp only [List.mem_append, List.mem_cons, Symbol.nonterminal.injEq, not_or] at absent ih
      obtain ⟨notLeft, notHead, notRight⟩ := absent
      refine .head (.replace ?_ left right) (ih ⟨notLeft, fresh.fresh _ member, notRight⟩)
      obtain ⟨id, found⟩ := List.getElem?_of_mem member
      exact List.mem_of_getElem? (augments.getElem?_rules_of_ne found (Ne.symm notHead))

/-- Whatever the new start derives apart from itself is derived from the old one. -/
theorem eq_or_derives_of_start (augments : augmented.IsAugmentationOf grammar target)
    (fresh : augmented.HasFreshStart grammar.nonterminalCount grammar.rules.length target)
    {last : List Symbol}
    (derives : augmented.Derives [.nonterminal grammar.nonterminalCount] last) :
    last = [.nonterminal grammar.nonterminalCount] ∨
    grammar.Derives [.nonterminal target] last := by
  generalize isStart : [Symbol.nonterminal grammar.nonterminalCount] = first at derives
  cases derives with
  | refl => exact .inl rfl
  | head expands later =>
      obtain ⟨member, left, right⟩ := expands
      obtain ⟨rfl, same, rfl⟩ : left = [] ∧ _ = grammar.nonterminalCount ∧ right = [] := by
        simpa [List.singleton_eq_append_iff] using isStart
      obtain ⟨id, found⟩ := List.getElem?_of_mem member
      rw [fresh.unique _ _ found same, fresh.found] at found
      obtain rfl := Option.some.inj found
      exact .inr (augments.derives_of_not_mem fresh later (fresh.fresh _ member))

/-- Wherever a nonterminal other than the new start is looked for, the old start derives it there,
with the end of the input after everything else. -/
theorem exists_derives_of_frame (augments : augmented.IsAugmentationOf grammar target)
    (fresh : augmented.HasFreshStart grammar.nonterminalCount grammar.rules.length target)
    {before after : List Symbol} {nonterminal : Nat}
    (frame : augmented.Frame before nonterminal after)
    (other : nonterminal ≠ grammar.nonterminalCount) :
    ∃ rest, after = rest ++ word [endOfInput] ∧
      grammar.Derives [.nonterminal target] (before ++ .nonterminal nonterminal :: rest) := by
  induction frame with
  | start isStart => exact absurd (Except.ok.inj (isStart.symm.trans augments.start_eq)) other
  | @within before after left right head nonterminal outer member ih =>
      rw [augments.rules_eq, List.mem_append, List.mem_singleton] at member
      rcases member with member | isAccept
      · obtain ⟨rest, rfl, derives⟩ := ih (Nat.ne_of_lt (grammar.head_lt _ member))
        have expanded := derives.trans (.head (.replace member before rest) (.refl _))
        exact ⟨right ++ rest, by simp, by simpa using expanded⟩
      · obtain ⟨rfl, body⟩ := Rule.mk.inj isAccept
        obtain ⟨rfl, rfl⟩ := fresh.eq_of_frame_start outer
        cases left with
        | nil =>
            obtain ⟨same, rfl⟩ := List.cons.inj body
            cases same
            exact ⟨[], rfl, .refl _⟩
        | cons symbol left => simp at body

/-- After every viable prefix, the old start derives a string that begins with it. -/
theorem exists_derives_of_viablePrefix (augments : augmented.IsAugmentationOf grammar target)
    (fresh : augmented.HasFreshStart grammar.nonterminalCount grammar.rules.length target)
    {string : List Symbol} (viable : augmented.ViablePrefix string) :
    ∃ rest, grammar.Derives [.nonterminal target] (string ++ rest) := by
  obtain ⟨core, after, rule, before, found, _, frame, rfl⟩ := viable
  by_cases isStart : rule.head = grammar.nonterminalCount
  · rw [isStart] at frame
    obtain ⟨rfl, _⟩ := fresh.eq_of_frame_start frame
    rw [fresh.unique _ _ found isStart, fresh.found] at found
    obtain rfl := Option.some.inj found
    refine ⟨[Symbol.nonterminal target].drop core.marker, ?_⟩
    rw [List.nil_append, List.take_append_drop]
    exact .refl _
  · obtain ⟨rest, _, derives⟩ := augments.exists_derives_of_frame fresh frame isStart
    have member := List.mem_of_getElem? (augments.getElem?_rules_of_ne found isStart)
    have expanded := derives.trans (.head (.replace member before rest) (.refl _))
    refine ⟨rule.body.drop core.marker ++ rest, ?_⟩
    rwa [List.append_assoc, ← List.append_assoc (rule.body.take core.marker),
      List.take_append_drop]

end IsAugmentationOf

end Grammar

end DeterministicParsing
