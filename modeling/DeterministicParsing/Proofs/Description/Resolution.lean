/-
# Grammars that are read are well-formed

Nothing checks that the symbols of a body are declared when a rule is added, but a description is
resolved in such an order that they are: all names are declared before the first body is put
together, a body is put together from names that are found, and what is declared stays declared. A
description without rules is refused, so there is a nonterminal to be the start, and a start that is
chosen is looked up by name. No step augments the grammar.
-/
import DeterministicParsing.Description.Resolution
import DeterministicParsing.Proofs.FixedPoint

namespace DeterministicParsing

/-! ## Declaring names -/

/-- The later arena differs from the earlier one in further names only. -/
structure Arena.Declaring (arena later : Arena) : Prop where
  rules_eq : later.rules = arena.rules
  chosenStart_eq : later.chosenStart = arena.chosenStart
  acceptRule_eq : later.acceptRule = arena.acceptRule
  terminalCount_le : arena.terminalCount ≤ later.terminalCount
  nonterminalCount_le : arena.nonterminalCount ≤ later.nonterminalCount

theorem Arena.declaring_addTerminal (arena : Arena) (name : String) :
    arena.Declaring (arena.addTerminal name).2 := by
  rw [addTerminal_eq]
  split
  · exact ⟨rfl, rfl, rfl, le_rfl, le_rfl⟩
  · exact ⟨rfl, rfl, rfl, by simp [terminalCount, terminalNames], le_rfl⟩

theorem Arena.declaring_addNonterminal (arena : Arena) (name : String) :
    arena.Declaring (arena.addNonterminal name).2 := by
  unfold addNonterminal
  split
  · exact ⟨rfl, rfl, rfl, le_rfl, le_rfl⟩
  · exact ⟨rfl, rfl, rfl, le_rfl, by simp [nonterminalCount]⟩

theorem Arena.Declaring.declares {grammar later : Grammar}
    (declaring : grammar.Declaring later.toArena) {symbol : Symbol}
    (declared : grammar.Declares symbol) : later.Declares symbol := by
  cases symbol with
  | terminal id => exact Nat.lt_of_lt_of_le declared declaring.terminalCount_le
  | nonterminal id => exact Nat.lt_of_lt_of_le declared declaring.nonterminalCount_le

namespace Description

variable {description : Description} {grammar later : Grammar}

/-- What is true of a grammar as long as its start has not been chosen. -/
structure IsUnderway (grammar : Grammar) : Prop where
  /-- All bodies so far are declared. -/
  bodies : grammar.BodiesDeclared
  /-- No start has been chosen. -/
  chosenStart_eq : grammar.chosenStart = none
  /-- No rule has been added by augmentation. -/
  acceptRule_eq : grammar.acceptRule = none

namespace IsUnderway

theorem empty : IsUnderway .empty := ⟨by decide, rfl, rfl⟩

theorem declaring (underway : IsUnderway grammar) (declaring : grammar.Declaring later.toArena) :
    IsUnderway later := by
  refine ⟨fun rule member symbol inBody => ?_,
    declaring.chosenStart_eq.trans underway.chosenStart_eq,
    declaring.acceptRule_eq.trans underway.acceptRule_eq⟩
  rw [declaring.rules_eq] at member
  exact declaring.declares (underway.bodies rule member symbol inBody)

theorem withTokens : IsUnderway description.withTokens := by
  unfold Description.withTokens
  refine List.foldlRecOn description.tokens _ empty fun grammar underway name _ => ?_
  exact underway.declaring (grammar.declaring_addTerminal name.text)

/-- A rule with a declared body is added. -/
theorem withRule (underway : IsUnderway grammar) {rule : Rule}
    (headDeclared : rule.head < grammar.nonterminalCount)
    (declared : ∀ symbol ∈ rule.body, grammar.Declares symbol) :
    IsUnderway (grammar.withRule rule headDeclared) := by
  refine ⟨fun other member symbol inBody => ?_, underway.chosenStart_eq, underway.acceptRule_eq⟩
  -- The rule adds no names, so what was declared is declared by the same proof.
  suffices isDeclared : grammar.Declares symbol by cases symbol <;> exact isDeclared
  rcases List.mem_append.mp member with old | new
  · exact underway.bodies other old symbol inBody
  · rw [List.mem_singleton.mp new] at inBody
    exact declared symbol inBody

end IsUnderway

/-! ## Resolving a description -/

/-- A head that is declared leaves the grammar with a nonterminal. -/
theorem isUnderway_of_addHead_eq_ok {declaration : RuleDeclaration} (underway : IsUnderway grammar)
    (added : description.addHead grammar declaration = .ok later) :
    IsUnderway later ∧ 0 < later.nonterminalCount := by
  unfold addHead at added
  split at added
  · cases added
  · cases added
    refine ⟨underway.declaring (grammar.declaring_addNonterminal _), ?_⟩
    exact Nat.lt_of_le_of_lt (Nat.zero_le _) (grammar.addNonterminal_lt declaration.name.text)

/-- A name in a variant stands for a declared symbol. -/
theorem declares_of_symbolOf_eq_ok {name : Name} {symbol : Symbol}
    (found : description.symbolOf grammar name = .ok symbol) : grammar.Declares symbol := by
  dsimp only [symbolOf] at found
  generalize isTerminal : (if description.declaresToken name.text then grammar.terminal? name.text
    else none) = terminal at found
  cases terminal with
  | some id =>
      cases found
      rw [Option.ite_none_right_eq_some] at isTerminal
      exact Grammar.lt_of_terminal?_eq_some isTerminal.2
  | none =>
      cases isNonterminal : grammar.nonterminal? name.text with
      | some id =>
          rw [isNonterminal] at found
          cases found
          exact Grammar.lt_of_nonterminal?_eq_some isNonterminal
      | none =>
          rw [isNonterminal] at found
          cases found

theorem isUnderway_of_addVariant_eq_ok {name : Name} {variant : List Name}
    (underway : IsUnderway grammar)
    (added : description.addVariant name grammar variant = .ok later) :
    IsUnderway later ∧ 0 < later.nonterminalCount := by
  obtain ⟨body, resolved, isLater⟩ := exists_of_bind_eq_ok added
  cases isLater
  have declaring := grammar.declaring_addNonterminal name.text
  have headDeclared := grammar.addNonterminal_lt name.text
  refine ⟨(underway.declaring declaring).withRule headDeclared fun symbol inBody => ?_,
    Nat.lt_of_le_of_lt (Nat.zero_le _) headDeclared⟩
  obtain ⟨_, _, isSymbol⟩ := exists_of_mem_right (forall₂_of_mapM_eq_ok resolved) inBody
  exact declaring.declares (declares_of_symbolOf_eq_ok isSymbol)

theorem isUnderway_of_addVariants_eq_ok {declaration : RuleDeclaration}
    (underway : IsUnderway grammar ∧ 0 < grammar.nonterminalCount)
    (added : description.addVariants grammar declaration = .ok later) :
    IsUnderway later ∧ 0 < later.nonterminalCount :=
  holds_of_foldlM_eq_ok (fun _ _ _ here => isUnderway_of_addVariant_eq_ok here.1) underway added

/-- Choosing the start of a grammar with a nonterminal makes it well-formed. -/
theorem wellFormed_of_chooseStart_eq_ok (underway : IsUnderway grammar)
    (nonempty : 0 < grammar.nonterminalCount)
    (chosen : description.chooseStart grammar = .ok later) :
    later.WellFormed ∧ later.isAugmented = false := by
  unfold chooseStart at chosen
  split at chosen
  · cases chosen
    have isNonempty := Grammar.isEmpty_nonterminalNames_of_lt nonempty
    refine ⟨⟨underway.bodies, 0, ?_, nonempty⟩, ?_⟩
    · simp [Arena.start, underway.chosenStart_eq, isNonempty]
    · simp [Arena.isAugmented, underway.acceptRule_eq]
  · split at chosen
    · rename_i id found
      cases chosen
      refine ⟨⟨fun rule member symbol inBody => ?_, id, rfl,
        Grammar.lt_of_nonterminal?_eq_some found⟩, ?_⟩
      · have declared := underway.bodies rule member symbol inBody
        cases symbol <;> exact declared
      · simp [Arena.isAugmented, Grammar.setStart, Arena.setStart, underway.acceptRule_eq]
    · cases chosen
  · cases chosen

/-- The grammar of a description is well-formed and not augmented. -/
theorem wellFormed_of_resolve_eq_ok (resolved : description.resolve = .ok grammar) :
    grammar.WellFormed ∧ grammar.isAugmented = false := by
  unfold resolve at resolved
  cases isRules : description.rules with
  | nil =>
      rw [isRules] at resolved
      cases resolved
  | cons first others =>
      rw [isRules] at resolved
      obtain ⟨declared, heads, resolved⟩ := exists_of_bind_eq_ok resolved
      obtain ⟨complete, bodies, chosen⟩ := exists_of_bind_eq_ok resolved
      rw [List.foldlM_cons] at heads
      obtain ⟨begun, firstHead, otherHeads⟩ := exists_of_bind_eq_ok heads
      have declaredUnderway := holds_of_foldlM_eq_ok
        (fun _ _ _ (here : IsUnderway _ ∧ 0 < _) => isUnderway_of_addHead_eq_ok here.1)
        (isUnderway_of_addHead_eq_ok .withTokens firstHead) otherHeads
      obtain ⟨underway, nonempty⟩ := holds_of_foldlM_eq_ok
        (fun _ _ _ here => isUnderway_of_addVariants_eq_ok here) declaredUnderway bodies
      exact wellFormed_of_chooseStart_eq_ok underway nonempty chosen

/-- Every grammar that is read is well-formed and not augmented. -/
theorem wellFormed_of_read_eq_ok {text : String} (reads : read text = .ok grammar) :
    grammar.WellFormed ∧ grammar.isAugmented = false := by
  obtain ⟨description, _, resolved⟩ := exists_of_bind_eq_ok reads
  exact wellFormed_of_resolve_eq_ok resolved

end Description

end DeterministicParsing
