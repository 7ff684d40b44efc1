/-
# Forests of derivations

The left parse of a forest is a leftmost derivation of its frontier from its roots. Every leftmost
derivation of a word is the left parse of a forest, and every rightmost one is, read backwards, the
right parse of a forest. Whatever is derived in some order therefore has a forest, and a forest
gives a leftmost derivation of the same word. This is how a rightmost derivation is turned into a
leftmost one.
-/
import DeterministicParsing.Forest
import DeterministicParsing.Proofs.Grammar.Augmentation

namespace DeterministicParsing.Forest

variable {grammar : Grammar} {forest first second third : Forest} {terminals : List Nat}

/-! ## Side by side -/

@[simp]
theorem roots_append : (first.append second).roots = first.roots ++ second.roots := by
  induction first <;> simp_all [append, roots]

@[simp]
theorem frontier_append : (first.append second).frontier = first.frontier ++ second.frontier := by
  induction first <;> simp_all [append, frontier]

@[simp]
theorem rightParse_append :
    (first.append second).rightParse = first.rightParse ++ second.rightParse := by
  induction first <;> simp_all [append, rightParse]

@[simp]
theorem leftParse_append :
    (first.append second).leftParse = first.leftParse ++ second.leftParse := by
  induction first <;> simp_all [append, leftParse]

theorem isOf_append :
    (first.append second).IsOf grammar ↔ first.IsOf grammar ∧ second.IsOf grammar := by
  induction first with
  | nil => exact ⟨fun whole => ⟨.nil, whole⟩, And.right⟩
  | leaf terminal others ih =>
      constructor
      · rintro (_ | ⟨_, whole⟩)
        exact ⟨.leaf terminal (ih.mp whole).1, (ih.mp whole).2⟩
      · rintro ⟨_ | ⟨_, left⟩, right⟩
        exact .leaf terminal (ih.mpr ⟨left, right⟩)
  | branch rule nonterminal below others _ ih =>
      constructor
      · rintro (_ | _ | ⟨found, inside, whole⟩)
        exact ⟨.branch found inside (ih.mp whole).1, (ih.mp whole).2⟩
      · rintro ⟨_ | _ | ⟨found, inside, left⟩, right⟩
        exact .branch found inside (ih.mpr ⟨left, right⟩)

/-- A forest can be divided wherever its roots can. -/
theorem exists_eq_append {left right : List Symbol} (divided : forest.roots = left ++ right) :
    ∃ first second : Forest, forest = first.append second ∧ first.roots = left ∧
      second.roots = right := by
  induction left generalizing forest with
  | nil => exact ⟨.nil, forest, rfl, rfl, divided⟩
  | cons symbol left ih =>
      cases forest with
      | nil => cases divided
      | leaf terminal others =>
          obtain ⟨rfl, rest⟩ := List.cons.inj divided
          obtain ⟨first, second, rfl, rfl, isRight⟩ := ih rest
          exact ⟨.leaf terminal first, second, rfl, rfl, isRight⟩
      | branch rule nonterminal below others =>
          obtain ⟨rfl, rest⟩ := List.cons.inj divided
          obtain ⟨first, second, rfl, rfl, isRight⟩ := ih rest
          exact ⟨.branch rule nonterminal below first, second, rfl, rfl, isRight⟩

/-! ## Words -/

@[simp]
theorem roots_ofWord (terminals : List Nat) : (ofWord terminals).roots = word terminals := by
  induction terminals <;> simp_all [ofWord, roots]

@[simp]
theorem frontier_ofWord (terminals : List Nat) : (ofWord terminals).frontier = terminals := by
  induction terminals <;> simp_all [ofWord, frontier]

@[simp]
theorem rightParse_ofWord (terminals : List Nat) : (ofWord terminals).rightParse = [] := by
  induction terminals <;> simp_all [ofWord, rightParse]

@[simp]
theorem leftParse_ofWord (terminals : List Nat) : (ofWord terminals).leftParse = [] := by
  induction terminals <;> simp_all [ofWord, leftParse]

theorem isOf_ofWord (grammar : Grammar) (terminals : List Nat) :
    (ofWord terminals).IsOf grammar := by
  induction terminals with
  | nil => exact .nil
  | cons terminal rest ih => exact .leaf terminal ih

/-- Where all roots are terminals, there is nothing below them. -/
theorem eq_ofWord (isWord : forest.roots = word terminals) : forest = ofWord terminals := by
  induction forest generalizing terminals with
  | nil =>
      cases terminals with
      | nil => rfl
      | cons => cases isWord
  | leaf terminal others ih =>
      cases terminals with
      | nil => cases isWord
      | cons first rest =>
          obtain ⟨same, others⟩ := List.cons.inj isWord
          cases same
          rw [ih others, ofWord]
  | branch =>
      cases terminals with
      | nil => cases isWord
      | cons => cases (List.cons.inj isWord).1

/-! ## Derivations -/

/-- The left parse is a leftmost derivation. -/
theorem IsOf.derivesLeftmost (isOf : forest.IsOf grammar) :
    grammar.DerivesLeftmost forest.roots forest.leftParse (word forest.frontier) := by
  induction isOf with
  | nil => exact .refl _
  | leaf terminal _ ih =>
      have terminalFirst := ih.context [terminal] []
      simp only [List.append_nil, word_cons, word_nil, List.nil_append,
        List.cons_append] at terminalFirst
      exact terminalFirst
  | branch found _ _ belowDerives othersDerive =>
      have fromRule := (Grammar.DerivesLeftmost.of_rule found).trans belowDerives
      exact fromRule.append othersDerive

/-- A leftmost derivation of a word is the left parse of a forest. -/
theorem exists_of_derivesLeftmost {symbols : List Symbol} {rules : List Nat}
    (leftmost : grammar.DerivesLeftmost symbols rules (word terminals)) :
    ∃ forest : Forest, forest.IsOf grammar ∧ forest.roots = symbols ∧
      forest.frontier = terminals ∧ forest.leftParse = rules := by
  generalize target : word terminals = last at leftmost
  induction leftmost with
  | refl =>
      subst target
      exact ⟨ofWord terminals, isOf_ofWord grammar terminals, by simp⟩
  | @head id rule found before after rules string _ ih =>
      obtain ⟨forest, isOf, form, rfl, rfl⟩ := ih target
      obtain ⟨first, rest, rfl, isWord, restRoots⟩ := exists_eq_append form
      obtain ⟨second, third, rfl, isBody, rfl⟩ := exists_eq_append restRoots
      obtain rfl := eq_ofWord isWord
      simp only [isOf_append] at isOf
      obtain ⟨firstOf, secondOf, thirdOf⟩ := isOf
      have ruled : grammar.rules[id]? = some ⟨rule.head, second.roots⟩ := by rw [isBody, found]
      refine ⟨(ofWord before).append (.branch id rule.head second third),
        isOf_append.mpr ⟨firstOf, .branch ruled secondOf thirdOf⟩, ?_⟩
      simp [roots, frontier, leftParse]

/-- A rightmost derivation of a word, read backwards, is the right parse of a forest. -/
theorem exists_of_derivesRightmost {symbols : List Symbol} {rules : List Nat}
    (rightmost : grammar.DerivesRightmost symbols rules (word terminals)) :
    ∃ forest : Forest, forest.IsOf grammar ∧ forest.roots = symbols ∧
      forest.frontier = terminals ∧ forest.rightParse = rules.reverse := by
  generalize target : word terminals = last at rightmost
  induction rightmost with
  | refl =>
      subst target
      exact ⟨ofWord terminals, isOf_ofWord grammar terminals, by simp⟩
  | @head id rule found before after rules string _ ih =>
      obtain ⟨forest, isOf, form, rfl, backwards⟩ := ih target
      obtain ⟨first, rest, rfl, rfl, restRoots⟩ := exists_eq_append form
      obtain ⟨second, third, rfl, isBody, isWord⟩ := exists_eq_append restRoots
      obtain rfl := eq_ofWord isWord
      simp only [isOf_append] at isOf
      obtain ⟨firstOf, secondOf, thirdOf⟩ := isOf
      have ruled : grammar.rules[id]? = some ⟨rule.head, second.roots⟩ := by rw [isBody, found]
      refine ⟨first.append (.branch id rule.head second (ofWord after)),
        isOf_append.mpr ⟨firstOf, .branch ruled secondOf thirdOf⟩, ?_⟩
      simp only [roots_append, frontier_append, rightParse_append, rightParse_ofWord,
        frontier_ofWord, List.append_nil] at backwards ⊢
      simp [roots, frontier, rightParse, ← backwards]

/-- A forest of the grammar is one of its augmentation. -/
theorem IsOf.augmented {augmented : Grammar} {target : Nat} (isOf : forest.IsOf grammar)
    (augments : augmented.IsAugmentationOf grammar target) : forest.IsOf augmented := by
  induction isOf with
  | nil => exact .nil
  | leaf terminal _ ih => exact .leaf terminal ih
  | branch found _ _ inside rest => exact .branch (augments.getElem?_rules found) inside rest

/-- A forest of the augmentation without the new start is one of the grammar. -/
theorem IsOf.of_not_mem {augmented : Grammar} {target : Nat} (isOf : forest.IsOf augmented)
    (augments : augmented.IsAugmentationOf grammar target)
    (fresh : augmented.HasFreshStart grammar.nonterminalCount grammar.rules.length target)
    (absent : .nonterminal grammar.nonterminalCount ∉ forest.roots) : forest.IsOf grammar := by
  induction isOf with
  | nil => exact .nil
  | leaf terminal _ ih => exact .leaf terminal (ih fun member => absent (.tail _ member))
  | branch found _ _ inside rest =>
      rw [roots, List.mem_cons, not_or] at absent
      have other := fun same => absent.1 (congrArg Symbol.nonterminal same).symm
      exact .branch (augments.getElem?_rules_of_ne found other)
        (inside (fresh.fresh _ (List.mem_of_getElem? found))) (rest absent.2)

/-- Every word that is derived is the frontier of a forest. -/
theorem exists_of_generates {symbols : List Symbol}
    (generates : grammar.Generates symbols terminals) :
    ∃ forest : Forest, forest.IsOf grammar ∧ forest.roots = symbols ∧
      forest.frontier = terminals := by
  obtain ⟨rules, rightmost⟩ := generates.exists_rightmost
  obtain ⟨forest, isOf, isRoots, isFrontier, _⟩ := exists_of_derivesRightmost rightmost
  exact ⟨forest, isOf, isRoots, isFrontier⟩

end DeterministicParsing.Forest

namespace DeterministicParsing.Grammar

/-- Every derivation of a word can be rearranged into a leftmost one. -/
theorem Generates.exists_leftmost {grammar : Grammar} {symbols : List Symbol} {terminals : List Nat}
    (generates : grammar.Generates symbols terminals) :
    ∃ rules, grammar.DerivesLeftmost symbols rules (word terminals) := by
  obtain ⟨forest, isOf, rfl, rfl⟩ := Forest.exists_of_generates generates
  exact ⟨forest.leftParse, isOf.derivesLeftmost⟩

end DeterministicParsing.Grammar
