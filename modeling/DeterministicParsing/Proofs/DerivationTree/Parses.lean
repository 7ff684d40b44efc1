/-
# Parses and their trees

A tree that is grown from a sequence of rules stands for a forest with a single root, and the
sequence is the left parse of that forest or, taken backwards, its right parse. So the rules can be
read off the tree again: a left parse lists them before those below them and a right parse after
those. Since a forest has both parses, so has every tree, and since neither the text of a tree nor
its frontier depends on the order in which its nodes were added, both parses give the same.
-/
import DeterministicParsing.Proofs.DerivationTree.Outcome
import DeterministicParsing.Proofs.DerivationTree.Structure
import DeterministicParsing.Proofs.Forest.Growth

namespace DeterministicParsing

namespace DerivationTree

variable {grammar : Grammar} {order : Order} {rules : List Nat} {tree : DerivationTree}
  {forest : Forest}

/-! ## Reading the rules off a tree -/

/-- The nodes below some nodes, each after its children. The bound limits how far down and to the
right they are looked for. -/
def postorderFrom (tree : DerivationTree) : Nat → List Nat → List Node
  | 0, _ => []
  | _ + 1, [] => []
  | bound + 1, id :: ids =>
      match tree.nodes[id]? with
      | none => tree.postorderFrom bound ids
      | some node => tree.postorderFrom bound node.children ++ node :: tree.postorderFrom bound ids

/-- All nodes, each after its children. -/
def postorder (tree : DerivationTree) : List Node := tree.postorderFrom tree.nodes.size [root]

/-- The rules of the nodes, each before those below it. -/
def preorderRules (tree : DerivationTree) : List Nat :=
  tree.preorder.filterMap fun entry => entry.1.rule

/-- The rules of the nodes, each after those below it. -/
def postorderRules (tree : DerivationTree) : List Nat := tree.postorder.filterMap Node.rule

theorem reads_rule : Reads (fun entry => entry.1.rule.toList) fun _ forest => forest.leftParse where
  nil _ := rfl
  leaf _ _ _ := rfl
  branch _ _ _ _ _ _ _ := rfl

theorem preorderRules_eq (stands : forest.StandsIn tree.nodes [root])
    (size_eq : tree.nodes.size = forest.size) : tree.preorderRules = forest.leftParse := by
  rw [preorderRules, List.filterMap_eq_flatMap_toList]
  exact reads_rule.flatMap_preorder stands size_eq

theorem filterMap_rule_postorderFrom {ids : List Nat} (stands : forest.StandsIn tree.nodes ids)
    {bound : Nat} (enough : forest.size ≤ bound) :
    (tree.postorderFrom bound ids).filterMap Node.rule = forest.rightParse := by
  induction stands generalizing bound with
  | nil => cases bound <;> rfl
  | leaf found _ ih =>
      obtain ⟨bound, rfl⟩ := Nat.exists_eq_add_of_le' (Nat.le_of_add_left_le enough)
      rw [Forest.size] at enough
      have none : tree.postorderFrom bound [] = [] := by cases bound <;> rfl
      simp only [postorderFrom, found, none, List.nil_append, List.filterMap_cons,
        ih (Nat.le_of_succ_le_succ enough), Forest.rightParse]
  | branch found _ _ belowRead othersRead =>
      obtain ⟨bound, rfl⟩ := Nat.exists_eq_add_of_le' (Nat.le_of_add_left_le enough)
      rw [Forest.size] at enough
      simp only [postorderFrom, found, List.filterMap_append, List.filterMap_cons,
        Forest.rightParse, belowRead (show _ ≤ bound by omega),
        othersRead (show _ ≤ bound by omega)]

theorem postorderRules_eq (stands : forest.StandsIn tree.nodes [root])
    (size_eq : tree.nodes.size = forest.size) : tree.postorderRules = forest.rightParse :=
  filterMap_rule_postorderFrom stands size_eq.ge

/-- The frontier of a tree is that of the forest it stands for, and does not depend on anything
else. -/
theorem frontier_eq_outline (stands : forest.StandsIn tree.nodes [root])
    (size_eq : tree.nodes.size = forest.size) :
    tree.frontier = (forest.outline 0).filterMap fun entry => terminalOf? entry.1 := by
  rw [frontier_eq, ← map_shape_preorder stands size_eq, List.filterMap_map]
  rfl

/-! ## The forest of a tree -/

/-- A derivation of a word, in either order, is that of a forest. -/
theorem Order.Derives.exists_forest {symbols : List Symbol} {terminals : List Nat}
    (derives : order.Derives grammar symbols rules (word terminals)) :
    ∃ forest : Forest, forest.IsOf grammar ∧ forest.roots = symbols ∧
      order.rulesOf forest = rules := by
  cases order with
  | leftmost =>
      obtain ⟨forest, isOf, isRoots, -, isParse⟩ :=
        Forest.exists_of_derivesLeftmost derives.derivesLeftmost
      exact ⟨forest, isOf, isRoots, isParse⟩
  | rightmost =>
      obtain ⟨forest, isOf, isRoots, -, isParse⟩ :=
        Forest.exists_of_derivesRightmost derives.derivesRightmost
      exact ⟨forest, isOf, isRoots, List.reverse_eq_iff.mpr isParse⟩

/-- A tree stands for a forest with a single root, which is a nonterminal. -/
structure IsTreeFor (grammar : Grammar) (forest : Forest) (tree : DerivationTree) : Prop where
  isOf : forest.IsOf grammar
  exists_root : ∃ nonterminal, forest.roots = [.nonterminal nonterminal] ∧
    nonterminal < grammar.nonterminalCount
  stands : forest.StandsIn tree.nodes [root]
  size_eq : tree.nodes.size = forest.size

/-- A sequence of rules grows a tree exactly if it derives a word from the head of its first
rule. -/
theorem exists_derive_eq_ok_iff (bodies : grammar.BodiesDeclared)
    (known : ∀ id ∈ rules, id < grammar.rules.length) :
    (∃ tree, derive grammar order rules = .ok tree) ↔
      ∃ first rule terminals, rules.head? = some first ∧ grammar.rules[first]? = some rule ∧
        order.Derives grammar [.nonterminal rule.head] rules (word terminals) := by
  constructor
  · rintro ⟨tree, derived⟩
    cases rules with
    | nil => cases derived
    | cons first later =>
        obtain ⟨rule, isRule⟩ : ∃ rule, grammar.rules[first]? = some rule :=
          ⟨_, List.getElem?_eq_getElem (known first List.mem_cons_self)⟩
        rcases derive_cases bodies order known isRule with ⟨_, terminals, _, derives⟩ |
          ⟨_, _, failed, _⟩ | ⟨_, _, _, _, _, _, failed⟩
        · exact ⟨first, rule, terminals, rfl, isRule, derives⟩
        · cases derived.symm.trans failed
        · cases derived.symm.trans failed
  · rintro ⟨first, rule, terminals, _, _, derives⟩
    obtain ⟨tree, derived, _⟩ := exists_derive_eq_ok derives
    exact ⟨tree, derived⟩

/-- The tree that is grown stands for the forest of the derivation, and its frontier is what is
derived. -/
theorem exists_isTreeFor (bodies : grammar.BodiesDeclared)
    (known : ∀ id ∈ rules, id < grammar.rules.length)
    (derived : derive grammar order rules = .ok tree) :
    ∃ forest first rule, tree.IsTreeFor grammar forest ∧ order.rulesOf forest = rules ∧
      rules.head? = some first ∧ grammar.rules[first]? = some rule ∧
      order.Derives grammar [.nonterminal rule.head] rules (word tree.frontier) := by
  obtain ⟨first, rule, terminals, isFirst, isRule, derives⟩ :=
    (exists_derive_eq_ok_iff bodies known).mp ⟨tree, derived⟩
  obtain ⟨_, alsoDerived, _, rfl⟩ := exists_derive_eq_ok derives
  cases derived.symm.trans alsoDerived
  obtain ⟨forest, isOf, isRoots, rfl⟩ := derives.exists_forest
  obtain ⟨_, stands, size_eq, grows⟩ := exists_derive_eq_ok_of_roots order isRoots
  cases derived.symm.trans (grows grammar isOf)
  have declared := grammar.head_lt rule (List.mem_of_getElem? isRule)
  exact ⟨forest, first, rule, ⟨isOf, ⟨_, isRoots, declared⟩, stands, size_eq⟩, rfl,
    isFirst, isRule, derives⟩

/-- The parses that are read off a tree grow trees with its text and its frontier. -/
theorem IsTreeFor.exists_parses (isTree : tree.IsTreeFor grammar forest)
    (bodies : grammar.BodiesDeclared) :
    ∃ left right text, ofLeftParse grammar tree.preorderRules = .ok left ∧
      ofRightParse grammar tree.postorderRules = .ok right ∧
      (tree.text grammar = .ok text ∧ left.text grammar = .ok text ∧
        right.text grammar = .ok text) ∧
      left.frontier = tree.frontier ∧ right.frontier = tree.frontier := by
  obtain ⟨isOf, ⟨nonterminal, isRoot, declared⟩, stands, size_eq⟩ := isTree
  obtain ⟨left, leftStands, leftSize, leftGrows⟩ :=
    exists_derive_eq_ok_of_roots .leftmost isRoot
  obtain ⟨right, rightStands, rightSize, rightGrows⟩ :=
    exists_derive_eq_ok_of_roots .rightmost isRoot
  obtain ⟨text, sameText⟩ :=
    exists_text_eq_ok isOf bodies (isRoot ▸ List.forall_mem_singleton.mpr declared)
  have isText (other : DerivationTree) := sameText grammar other fun _ _ => rfl
  refine ⟨left, right, text, ?_, ?_,
    ⟨isText tree stands size_eq, isText left leftStands leftSize,
      isText right rightStands rightSize⟩, ?_, ?_⟩
  · rw [preorderRules_eq stands size_eq]
    exact leftGrows grammar isOf
  · rw [postorderRules_eq stands size_eq]
    exact rightGrows grammar isOf
  · rw [frontier_eq_outline leftStands leftSize, frontier_eq_outline stands size_eq]
  · rw [frontier_eq_outline rightStands rightSize, frontier_eq_outline stands size_eq]

end DerivationTree

open DerivationTree

/-! ## Left parses and right parses -/

namespace Grammar

/-- Rules derive a word from the head of the first one, in the order of a leftmost derivation. -/
def IsLeftParse (grammar : Grammar) (rules terminals : List Nat) : Prop :=
  ∃ first rule, rules.head? = some first ∧ grammar.rules[first]? = some rule ∧
    grammar.DerivesLeftmost [.nonterminal rule.head] rules (word terminals)

/-- Rules derive a word from the head of the last one, in the reverse order of a rightmost
derivation. -/
def IsRightParse (grammar : Grammar) (rules terminals : List Nat) : Prop :=
  ∃ last rule, rules.getLast? = some last ∧ grammar.rules[last]? = some rule ∧
    grammar.DerivesRightmost [.nonterminal rule.head] rules.reverse (word terminals)

end Grammar

/-- For every grammar all of whose bodies are declared and every list of existing rules: a tree is
grown from the list as a left parse exactly if the list derives a word from the head of its first
rule by leftmost steps, and as a right parse exactly if, backwards, it derives one from the head of
its last rule by rightmost steps. The nodes form a tree in which the children of an expanded node
spell the body of its rule, with one node for the root and one for each symbol of the bodies. Its
frontier is the word that is derived. The rules of a left parse are read off it in preorder and
those of a right parse in postorder. Both parses of the tree give trees again, with the same text
and the same frontier. -/
theorem derivation_trees_are_those_of_parses (grammar : Grammar) (bodies : grammar.BodiesDeclared)
    (rules : List Nat) (known : ∀ id ∈ rules, id < grammar.rules.length) :
    ((∃ tree, ofLeftParse grammar rules = .ok tree) ↔
      ∃ terminals, grammar.IsLeftParse rules terminals) ∧
    ((∃ tree, ofRightParse grammar rules = .ok tree) ↔
      ∃ terminals, grammar.IsRightParse rules terminals) ∧
    ∀ tree,
      (ofLeftParse grammar rules = .ok tree →
        grammar.IsLeftParse rules tree.frontier ∧ tree.preorderRules = rules) ∧
      (ofRightParse grammar rules = .ok tree →
        grammar.IsRightParse rules tree.frontier ∧ tree.postorderRules = rules) ∧
      (ofLeftParse grammar rules = .ok tree ∨ ofRightParse grammar rules = .ok tree →
        tree.IsTreeOf grammar ∧ tree.nodes.size = 1 + bodyLength grammar rules ∧
        ∃ left right text, ofLeftParse grammar tree.preorderRules = .ok left ∧
          ofRightParse grammar tree.postorderRules = .ok right ∧
          (tree.text grammar = .ok text ∧ left.text grammar = .ok text ∧
            right.text grammar = .ok text) ∧
          left.frontier = tree.frontier ∧ right.frontier = tree.frontier) := by
  have knownBackwards : ∀ id ∈ rules.reverse, id < grammar.rules.length :=
    fun id member => known id (List.mem_reverse.mp member)
  refine ⟨?_, ?_, fun tree => ⟨fun derived => ?_, fun derived => ?_, ?_⟩⟩
  · refine (exists_derive_eq_ok_iff bodies known).trans ⟨?_, ?_⟩
    · rintro ⟨first, rule, terminals, isFirst, isRule, derives⟩
      exact ⟨terminals, first, rule, isFirst, isRule, derives.derivesLeftmost⟩
    · rintro ⟨terminals, first, rule, isFirst, isRule, leftmost⟩
      exact ⟨first, rule, terminals, isFirst, isRule, Order.derives_of_leftmost leftmost⟩
  · refine (exists_derive_eq_ok_iff bodies knownBackwards).trans ⟨?_, ?_⟩
    · rintro ⟨last, rule, terminals, isLast, isRule, derives⟩
      rw [List.head?_reverse] at isLast
      exact ⟨terminals, last, rule, isLast, isRule, derives.derivesRightmost⟩
    · rintro ⟨terminals, last, rule, isLast, isRule, rightmost⟩
      rw [← List.head?_reverse] at isLast
      exact ⟨last, rule, terminals, isLast, isRule, Order.derives_of_rightmost rightmost⟩
  · obtain ⟨forest, first, rule, isTree, isParse, isFirst, isRule, derives⟩ :=
      exists_isTreeFor bodies known derived
    exact ⟨⟨first, rule, isFirst, isRule, derives.derivesLeftmost⟩,
      (preorderRules_eq isTree.stands isTree.size_eq).trans isParse⟩
  · obtain ⟨forest, last, rule, isTree, isParse, isLast, isRule, derives⟩ :=
      exists_isTreeFor bodies knownBackwards derived
    rw [List.head?_reverse] at isLast
    exact ⟨⟨last, rule, isLast, isRule, derives.derivesRightmost⟩,
      (postorderRules_eq isTree.stands isTree.size_eq).trans (List.reverse_injective isParse)⟩
  · rintro (derived | derived)
    · obtain ⟨forest, _, _, isTree, _⟩ := exists_isTreeFor bodies known derived
      exact ⟨isTreeOf_of_derive_eq_ok derived, size_of_derive_eq_ok derived,
        isTree.exists_parses bodies⟩
    · obtain ⟨forest, _, _, isTree, _⟩ := exists_isTreeFor bodies knownBackwards derived
      refine ⟨isTreeOf_of_derive_eq_ok derived, ?_, isTree.exists_parses bodies⟩
      rw [size_of_derive_eq_ok derived, bodyLength_reverse]

/-- With `S → ( S ) S` and `S → ε`, the left parse of `(())()` grows a tree of 13 nodes. Its
right parse can be read off it, and grows a tree in which the nodes have other numbers and which has
the same text. -/
theorem derivation_trees_of_brackets_are_those_of_parses :
    Grammar.brackets.BodiesDeclared ∧
      (∀ id ∈ [0, 0, 1, 1, 0, 1, 1], id < Grammar.brackets.rules.length) ∧
      ∃ left right text, ofLeftParse Grammar.brackets [0, 0, 1, 1, 0, 1, 1] = .ok left ∧
        left.IsTreeOf Grammar.brackets ∧ left.nodes.size = 13 ∧
        left.frontier = [1, 1, 2, 2, 1, 2] ∧ left.postorderRules = [1, 1, 0, 1, 1, 0, 0] ∧
        ofRightParse Grammar.brackets [1, 1, 0, 1, 1, 0, 0] = .ok right ∧ left ≠ right ∧
        left.text Grammar.brackets = .ok text ∧ right.text Grammar.brackets = .ok text ∧
        right.frontier = [1, 1, 2, 2, 1, 2] := by
  have bodies := Grammar.wellFormed_brackets.bodies
  have known : ∀ id ∈ [0, 0, 1, 1, 0, 1, 1], id < Grammar.brackets.rules.length := by decide
  have evaluates : (ofLeftParse Grammar.brackets [0, 0, 1, 1, 0, 1, 1]).map (fun tree =>
      (tree.frontier, tree.postorderRules)) = .ok ([1, 1, 2, 2, 1, 2], [1, 1, 0, 1, 1, 0, 0]) := by
    decide +kernel
  have differ : ofLeftParse Grammar.brackets [0, 0, 1, 1, 0, 1, 1] ≠
      ofRightParse Grammar.brackets [1, 1, 0, 1, 1, 0, 0] := by
    decide +kernel
  cases derived : ofLeftParse Grammar.brackets [0, 0, 1, 1, 0, 1, 1] with
  | error reason =>
      rw [derived] at evaluates
      cases evaluates
  | ok left =>
      obtain ⟨_, _, ofTree⟩ :=
        derivation_trees_are_those_of_parses Grammar.brackets bodies _ known
      obtain ⟨isTree, size_eq, _, right, text, _, rightDerived,
        ⟨isText, _, alsoText⟩, _, sameFrontier⟩ :=
        (ofTree left).2.2 (.inl derived)
      rw [derived] at evaluates differ
      obtain ⟨frontier, backwards⟩ := Prod.mk.inj (Except.ok.inj evaluates)
      rw [backwards] at rightDerived
      refine ⟨bodies, known, left, right, text, rfl, isTree, size_eq, frontier, backwards,
        rightDerived, ?_, isText, alsoText, sameFrontier.trans frontier⟩
      rintro rfl
      exact differ rightDerived.symm

end DeterministicParsing
