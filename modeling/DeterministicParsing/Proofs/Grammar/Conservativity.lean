/-
# Augmentation is conservative

An augmented grammar says of the old nonterminals what the grammar said before. No string without
the new start ever leads to it, so the old nonterminals derive the same strings, and with them they
keep their First sets. The Follow sets are found from other beginnings: the end of the input is put
behind the new start instead of the old one. It comes back to the old start through the accept rule,
and since the new start occurs in no body, nothing else comes with it.
-/
import DeterministicParsing.Proofs.FollowSets
import DeterministicParsing.Proofs.Grammar.Augmentation

namespace DeterministicParsing

/-! ## Sets that say the same -/

/-- The First sets of two grammars agree on a nonterminal that begins in the same ways in both. -/
theorem FirstSets.Exact.exists_get_eq {grammar other : Grammar} {first otherFirst : FirstSets}
    (exact : FirstSets.Exact grammar first) (otherExact : FirstSets.Exact other otherFirst)
    {id : Nat} (declared : id < grammar.nonterminalCount)
    (otherDeclared : id < other.nonterminalCount)
    (begins : ∀ terminal, other.DerivesBeginning [.nonterminal id] terminal ↔
      grammar.DerivesBeginning [.nonterminal id] terminal)
    (vanishes : other.Derives [.nonterminal id] [] ↔ grammar.Derives [.nonterminal id] []) :
    ∃ set, first.get id = .ok set ∧ otherFirst.get id = .ok set := by
  obtain ⟨set, found, setBegins, setVanishes⟩ := exact.exists_get_eq_ok declared
  obtain ⟨otherSet, otherFound, otherBegins, otherVanishes⟩ :=
    otherExact.exists_get_eq_ok otherDeclared
  have sameTerminals : otherSet.terminals = set.terminals :=
    TerminalSet.ext fun terminal => by rw [otherBegins, setBegins, begins]
  have sameNullable : otherSet.nullable = set.nullable :=
    Bool.eq_iff_iff.mpr (by rw [otherVanishes, setVanishes, vanishes])
  have same : otherSet = set := by
    cases otherSet
    cases set
    exact congr (congrArg FirstSet.mk sameTerminals) sameNullable
  exact ⟨set, found, same ▸ otherFound⟩

/-- The Follow sets of two grammars agree on a nonterminal that is followed by the same terminals in
both. -/
theorem FollowSets.Exact.exists_get_eq {grammar other : Grammar} {follow otherFollow : FollowSets}
    (exact : FollowSets.Exact grammar follow) (otherExact : FollowSets.Exact other otherFollow)
    {id : Nat} (declared : id < grammar.nonterminalCount)
    (otherDeclared : id < other.nonterminalCount)
    (follows : ∀ terminal, other.Follows id terminal ↔ grammar.Follows id terminal) :
    ∃ set, follow.get id = .ok set ∧ otherFollow.get id = .ok set := by
  obtain ⟨set, found, holds⟩ := exact.exists_get_eq_ok declared
  obtain ⟨otherSet, otherFound, otherHolds⟩ := otherExact.exists_get_eq_ok otherDeclared
  have same : otherSet = set :=
    TerminalSet.ext fun terminal => by rw [otherHolds, holds, follows]
  exact ⟨set, found, same ▸ otherFound⟩

namespace Grammar.IsAugmentationOf

variable {grammar augmented : Grammar} {target : Nat}

/-! ## Derivations in both grammars -/

/-- A string without the new start derives the same strings in both grammars. -/
theorem derives_iff (augments : augmented.IsAugmentationOf grammar target)
    (fresh : augmented.HasFreshStart grammar.nonterminalCount grammar.rules.length target)
    {first last : List Symbol} (absent : .nonterminal grammar.nonterminalCount ∉ first) :
    augmented.Derives first last ↔ grammar.Derives first last :=
  ⟨fun derives => augments.derives_of_not_mem fresh derives absent, augments.derives⟩

/-- An old nonterminal derives the same strings in both grammars. -/
theorem derives_nonterminal_iff (augments : augmented.IsAugmentationOf grammar target)
    (fresh : augmented.HasFreshStart grammar.nonterminalCount grammar.rules.length target)
    {id : Nat} (declared : id < grammar.nonterminalCount) {last : List Symbol} :
    augmented.Derives [.nonterminal id] last ↔ grammar.Derives [.nonterminal id] last := by
  refine augments.derives_iff fresh fun member => ?_
  rw [List.mem_singleton, Symbol.nonterminal.injEq] at member
  omega

/-- The new start leads to the old one. -/
theorem derives_target (augments : augmented.IsAugmentationOf grammar target) :
    augmented.Derives [.nonterminal grammar.nonterminalCount] [.nonterminal target] := by
  have member : ⟨grammar.nonterminalCount, [.nonterminal target]⟩ ∈ augmented.rules := by
    rw [augments.rules_eq]
    simp
  exact Derives.of_rule member

/-- Apart from itself, the new start derives what the old one derived. -/
theorem derives_start_iff (augments : augmented.IsAugmentationOf grammar target)
    (fresh : augmented.HasFreshStart grammar.nonterminalCount grammar.rules.length target)
    {last : List Symbol} (other : last ≠ [.nonterminal grammar.nonterminalCount]) :
    augmented.Derives [.nonterminal grammar.nonterminalCount] last ↔
      grammar.Derives [.nonterminal target] last :=
  ⟨fun derives => (augments.eq_or_derives_of_start fresh derives).resolve_left other,
    fun derives => augments.derives_target.trans (augments.derives derives)⟩

/-- The new start derives the terminal strings that the old one derived. -/
theorem generates_start_iff (augments : augmented.IsAugmentationOf grammar target)
    (fresh : augmented.HasFreshStart grammar.nonterminalCount grammar.rules.length target)
    {terminals : List Nat} :
    augmented.Generates [.nonterminal grammar.nonterminalCount] terminals ↔
      grammar.Generates [.nonterminal target] terminals := by
  refine augments.derives_start_iff fresh fun isStart => ?_
  have occurs : Symbol.nonterminal grammar.nonterminalCount ∈ word terminals := by simp [isStart]
  exact nonterminal_not_mem_word _ _ occurs

/-! ## What follows in both grammars -/

/-- An old nonterminal is followed by the same terminals in both grammars. -/
theorem follows_iff (augments : augmented.IsAugmentationOf grammar target)
    (fresh : augmented.HasFreshStart grammar.nonterminalCount grammar.rules.length target)
    (starts : grammar.start = .ok target) {id : Nat} (declared : id < grammar.nonterminalCount)
    (terminal : Nat) : augmented.Follows id terminal ↔ grammar.Follows id terminal := by
  have notStart : id ≠ grammar.nonterminalCount := Nat.ne_of_lt declared
  constructor
  · rintro (⟨head, left, right, derives⟩ | ⟨isEnd, start, left, isStart, derives⟩)
    · by_cases atStart : head = grammar.nonterminalCount
      · have long : left ++ .nonterminal id :: .terminal terminal :: right ≠
            [.nonterminal grammar.nonterminalCount] := by
          intro same
          have lengths := congrArg List.length same
          simp only [List.length_append, List.length_cons, List.length_nil] at lengths
          omega
        rw [atStart, augments.derives_start_iff fresh long] at derives
        exact .inl ⟨target, left, right, derives⟩
      · have absent : .nonterminal grammar.nonterminalCount ∉ [Symbol.nonterminal head] := by
          simpa using Ne.symm atStart
        exact .inl ⟨head, left, right, (augments.derives_iff fresh absent).mp derives⟩
    · obtain rfl : start = grammar.nonterminalCount :=
        Except.ok.inj (isStart.symm.trans augments.start_eq)
      have other : left ++ [.nonterminal id] ≠ [.nonterminal grammar.nonterminalCount] := by
        intro same
        have occurs : Symbol.nonterminal id ∈ [Symbol.nonterminal grammar.nonterminalCount] := by
          simp [← same]
        rw [List.mem_singleton, Symbol.nonterminal.injEq] at occurs
        exact notStart occurs
      exact .inr ⟨isEnd, target, left, starts,
        (augments.derives_start_iff fresh other).mp derives⟩
  · rintro (⟨head, left, right, derives⟩ | ⟨isEnd, start, left, isStart, derives⟩)
    · exact .inl ⟨head, left, right, augments.derives derives⟩
    · obtain rfl : start = target := Except.ok.inj (isStart.symm.trans starts)
      exact .inr ⟨isEnd, grammar.nonterminalCount, left, augments.start_eq,
        augments.derives_target.trans (augments.derives derives)⟩

end Grammar.IsAugmentationOf

/-- Every well-formed grammar, augmented already or not, can be augmented. Its terminals,
nonterminals and rules keep their numbers and names, and there is one more nonterminal and one more
rule. The name of the new nonterminal is that of the start with primes, as many as it takes to
differ from all other names. The new rule leads from it to the start, and it is the start and occurs
in no body. It derives the terminal strings that the start derived, and all other nonterminals keep
their First sets and Follow sets, where the Follow sets of either grammar are found with its own
First sets. -/
theorem augmentation_changes_only_the_start (grammar : Grammar) (wellFormed : grammar.WellFormed) :
    ∃ augmented start name primes,
      grammar.augmented = .ok augmented ∧ grammar.start = .ok start ∧
      grammar.nonterminalName start = .ok name ∧
      augmented.terminalNames = grammar.terminalNames ∧
      augmented.nonterminalNames = grammar.nonterminalNames ++ [(· ++ "'")^[primes + 1] name] ∧
      (· ++ "'")^[primes + 1] name ∉ grammar.nonterminalNames ∧
      (∀ fewer < primes, (· ++ "'")^[fewer + 1] name ∈ grammar.nonterminalNames) ∧
      augmented.rules = grammar.rules ++ [⟨grammar.nonterminalCount, [.nonterminal start]⟩] ∧
      (∀ rule ∈ augmented.rules, .nonterminal grammar.nonterminalCount ∉ rule.body) ∧
      augmented.start = .ok grammar.nonterminalCount ∧
      augmented.acceptRule = some grammar.rules.length ∧
      (∀ terminals, augmented.Generates [.nonterminal grammar.nonterminalCount] terminals ↔
        grammar.Generates [.nonterminal start] terminals) ∧
      ∃ first follow augmentedFirst augmentedFollow,
        FirstSets.compute grammar = .ok first ∧ FollowSets.compute grammar first = .ok follow ∧
        FirstSets.compute augmented = .ok augmentedFirst ∧
        FollowSets.compute augmented augmentedFirst = .ok augmentedFollow ∧
        ∀ id < grammar.nonterminalCount,
          (∃ set, first.get id = .ok set ∧ augmentedFirst.get id = .ok set) ∧
          ∃ set, follow.get id = .ok set ∧ augmentedFollow.get id = .ok set := by
  obtain ⟨augmented, start, made, starts, _, augments⟩ := wellFormed.exists_augmented
  obtain ⟨other, name, primes, otherStarts, named, taken, free, names⟩ :=
    Grammar.exists_nonterminalNames_of_augmented_eq_ok made
  obtain rfl : start = other := Except.ok.inj (starts.symm.trans otherStarts)
  have fresh := augments.hasFreshStart wellFormed starts
  obtain ⟨first, firstComputed, firstExact⟩ := FirstSets.exists_compute_eq_ok wellFormed.bodies
  obtain ⟨follow, passes, counted, followExact⟩ :=
    FollowSets.exists_computeCounted_eq_ok wellFormed firstExact
  obtain ⟨augmentedFirst, augmentedComputed, augmentedExact⟩ :=
    FirstSets.exists_compute_eq_ok fresh.bodies
  obtain ⟨augmentedFollow, augmentedPasses, augmentedCounted, augmentedFollowExact⟩ :=
    FollowSets.exists_computeCounted_eq_ok fresh.wellFormed augmentedExact
  refine ⟨augmented, start, name, primes, made, starts, named, augments.terminalNames_eq, names,
    free, taken, augments.rules_eq, fresh.fresh, augments.start_eq, augments.acceptRule_eq,
    fun terminals => augments.generates_start_iff fresh, first, follow,
      augmentedFirst, augmentedFollow,
    firstComputed, by simp [FollowSets.compute, counted], augmentedComputed,
    by simp [FollowSets.compute, augmentedCounted], fun id declared => ?_⟩
  have stillDeclared : id < augmented.nonterminalCount := by
    rw [augments.nonterminalCount_eq]
    exact Nat.lt_succ_of_lt declared
  refine ⟨firstExact.exists_get_eq augmentedExact declared stillDeclared (fun terminal => ?_)
    (augments.derives_nonterminal_iff fresh declared),
    followExact.exists_get_eq augmentedFollowExact declared stillDeclared
      (augments.follows_iff fresh starts declared)⟩
  exact exists_congr fun rest => augments.derives_nonterminal_iff fresh declared

/-- Any number of `a` and then `b` with other names: the nonterminals are `S` and `S'`, so that the
new start cannot have the first name that it would be given. -/
def Grammar.primedName : Grammar :=
  .ofLists ["a", "b"] ["S", "S'"] leftRecursion.rules leftRecursion.terminalNames_nodup (by decide)
    (by decide)

theorem Grammar.wellFormed_primedName : primedName.WellFormed := ⟨by decide, 0, rfl, by decide⟩

/-- The new start is `S''`, and `S'` still begins with `a` or is empty, and is followed by `a` or
`b`. -/
theorem augmentation_of_primedName_changes_only_the_start :
    Grammar.primedName.WellFormed ∧ ∃ augmented first follow,
      Grammar.primedName.augmented = .ok augmented ∧
      augmented.nonterminalNames = ["S", "S'", "S''"] ∧ augmented.start = .ok 2 ∧
      (∀ terminals, augmented.Generates [.nonterminal 2] terminals ↔
        Grammar.primedName.Generates [.nonterminal 0] terminals) ∧
      FirstSets.compute augmented = .ok first ∧
      FollowSets.compute augmented first = .ok follow ∧
      first.get 1 = .ok ⟨.ofList [1], true⟩ ∧ follow.get 1 = .ok (.ofList [1, 2]) := by
  obtain ⟨augmented, start, name, primes, made, starts, _, _, names, _, _, _, _, augmentedStarts,
    _, generates, first, follow, augmentedFirst, augmentedFollow, firstComputed, followComputed,
    augmentedComputed, augmentedFollowed, same⟩ :=
    augmentation_changes_only_the_start Grammar.primedName Grammar.wellFormed_primedName
  have evaluates : Grammar.primedName.augmented.map (·.nonterminalNames) =
      .ok ["S", "S'", "S''"] := by
    decide +kernel
  have sets : (FirstSets.compute Grammar.primedName).bind (fun first =>
      (FollowSets.compute Grammar.primedName first).map fun follow => (first.get 1, follow.get 1)) =
      .ok (.ok ⟨.ofList [1], true⟩, .ok (.ofList [1, 2])) := by
    decide +kernel
  rw [made] at evaluates
  rw [firstComputed, Except.bind, followComputed] at sets
  obtain ⟨isFirst, isFollow⟩ := Prod.mk.inj (Except.ok.inj sets)
  obtain ⟨⟨_, found, augmentedFound⟩, ⟨_, followed, augmentedFollows⟩⟩ :=
    same 1 (by decide)
  cases starts
  refine ⟨Grammar.wellFormed_primedName, augmented, augmentedFirst, augmentedFollow, made,
    Except.ok.inj evaluates, augmentedStarts, generates, augmentedComputed,
    augmentedFollowed, ?_, ?_⟩
  · rw [augmentedFound, ← found, isFirst]
  · rw [augmentedFollows, ← followed, isFollow]

end DeterministicParsing
