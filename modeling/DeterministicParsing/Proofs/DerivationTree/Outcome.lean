/-
# How growing a tree ends

Rules are taken one after another, each for the nonterminal that is next. As long as their heads are
those nonterminals, they are the rules of a derivation. Either all of them are, and then the tree is
complete exactly if what they derive is a word; or there is a first one that is not, because another
nonterminal is next or because none is left. That rule is the one an error is about, and its index
is the number of rules taken before it. For a left parse this is its place in the parse. A right
parse is taken from its end, and there the index counts from the end, too.
-/
import DeterministicParsing.Proofs.DerivationTree
import DeterministicParsing.Proofs.FirstSets
import DeterministicParsing.Proofs.Printer

namespace DeterministicParsing

namespace DerivationTree

variable {grammar : Grammar} {order : Order} {symbols : List Symbol} {taken rules : List Nat}
  {id index : Nat} {error : Error}

namespace Order

/-! ## The next nonterminal -/

/-- A string is a word, or one of its nonterminals is the next to be replaced. -/
theorem isWord_or_exists_isNext (order : Order) (symbols : List Symbol) :
    (∃ terminals, symbols = word terminals) ∨ ∃ before nonterminal after,
      symbols = before ++ .nonterminal nonterminal :: after ∧ order.IsNext before after := by
  cases order with
  | leftmost =>
      induction symbols with
      | nil => exact .inl ⟨[], rfl⟩
      | cons symbol rest ih =>
          cases symbol with
          | nonterminal id => exact .inr ⟨[], id, rest, rfl, [], rfl⟩
          | terminal id =>
              rcases ih with ⟨terminals, rfl⟩ | ⟨_, nonterminal, after, rfl, terminals, rfl⟩
              · exact .inl ⟨id :: terminals, rfl⟩
              · exact .inr ⟨word (id :: terminals), nonterminal, after, rfl, _, rfl⟩
  | rightmost =>
      induction symbols using List.reverseRecOn with
      | nil => exact .inl ⟨[], rfl⟩
      | append_singleton rest symbol ih =>
          cases symbol with
          | nonterminal id => exact .inr ⟨rest, id, [], rfl, [], rfl⟩
          | terminal id =>
              rcases ih with ⟨terminals, rfl⟩ |
                ⟨before, nonterminal, _, rfl, terminals, rfl⟩
              · exact .inl ⟨terminals ++ [id], (word_append terminals [id]).symm⟩
              · refine .inr ⟨before, nonterminal, word (terminals ++ [id]), ?_, _, rfl⟩
                rw [word_append, List.append_assoc]
                rfl

/-- The rule at which a derivation breaks off, with the error that is due: the rules before it lead
to a string in which a nonterminal other than its head is next, or in which there is none. -/
inductive BreaksOff (grammar : Grammar) (order : Order) (symbols : List Symbol) (taken : List Nat)
    (id index : Nat) : Error → Prop where
  | mismatch {before after : List Symbol} {nonterminal : Nat} {rule : Rule}
      {expected found : String}
      (derives : order.Derives grammar symbols taken (before ++ .nonterminal nonterminal :: after))
      (isNext : order.IsNext before after) (isRule : grammar.rules[id]? = some rule)
      (different : nonterminal ≠ rule.head)
      (isExpected : grammar.nonterminalName nonterminal = .ok expected)
      (isFound : grammar.nonterminalName rule.head = .ok found) :
      BreaksOff grammar order symbols taken id index (.mismatch index expected found)
  | excess {terminals : List Nat} (derives : order.Derives grammar symbols taken (word terminals)) :
      BreaksOff grammar order symbols taken id index (.excess index)

/-- A derivation that breaks off does so after one more step in front, too. -/
theorem BreaksOff.head {first : Nat} {rule : Rule} {before after : List Symbol}
    (found : grammar.rules[first]? = some rule) (isNext : order.IsNext before after)
    (breaksOff : order.BreaksOff grammar (before ++ (rule.body ++ after)) taken id index error) :
    order.BreaksOff grammar (before ++ .nonterminal rule.head :: after) (first :: taken) id index
      error := by
  cases breaksOff with
  | mismatch derives nextIsNext isRule different isExpected isFound =>
      exact .mismatch (.head found isNext derives) nextIsNext isRule different isExpected isFound
  | excess derives => exact .excess (.head found isNext derives)

end Order

namespace Growth

/-- The node of the next nonterminal waits in front of all others. -/
theorem Spells.exists_pending {growth : Growth} {leaves : List (Nat × Symbol)}
    {before after : List Symbol} {nonterminal : Nat} (spelled : growth.Spells order leaves)
    (form : leaves.map Prod.snd = before ++ .nonterminal nonterminal :: after)
    (isNext : order.IsNext before after) :
    ∃ node pending, growth.pending = (node, nonterminal) :: pending := by
  obtain ⟨left, others, rfl, rfl, othersForm⟩ := List.map_eq_append_iff.mp form
  obtain ⟨⟨node, _⟩, right, rfl, rfl, rfl⟩ := List.map_eq_cons_iff.mp othersForm
  have arranged := (@arrange_nonterminalsOf order left right [] node nonterminal isNext).1
  exact ⟨node, _, spelled.pending_eq.trans arranged⟩

/-- A rule for a nonterminal that is not the next one is refused. -/
theorem Spells.exists_expand_eq_mismatch {growth : Growth} {leaves : List (Nat × Symbol)}
    {before after : List Symbol} {nonterminal : Nat} {rule : Rule}
    (spelled : growth.Spells order leaves)
    (form : leaves.map Prod.snd = before ++ .nonterminal nonterminal :: after)
    (isNext : order.IsNext before after) (declared : grammar.Declares (.nonterminal nonterminal))
    (isRule : grammar.rules[id]? = some rule)
    (different : nonterminal ≠ rule.head) (index : Nat) :
    ∃ error, expand grammar order growth (id, index) = Failure.raise error ∧
      order.BreaksOff grammar (before ++ .nonterminal nonterminal :: after) [] id index error := by
  obtain ⟨node, pending, isPending⟩ := spelled.exists_pending form isNext
  obtain ⟨expected, isExpected⟩ := Grammar.returns_nonterminalName declared
  obtain ⟨found, isFound⟩ :=
    Grammar.returns_nonterminalName (grammar.head_lt rule (List.mem_of_getElem? isRule))
  refine ⟨_, ?_, .mismatch (.refl _) isNext isRule different isExpected isFound⟩
  simp only [expand, isPending, Arena.rule_eq_ok.mpr isRule, liftM_ok, ok_bind, if_neg different,
    isExpected, isFound]

/-- Where no nonterminal is left, every rule is refused. -/
theorem Spells.expand_eq_excess {growth : Growth} {leaves : List (Nat × Symbol)}
    {terminals : List Nat} (spelled : growth.Spells order leaves)
    (form : leaves.map Prod.snd = word terminals) (id index : Nat) :
    expand grammar order growth (id, index) = Failure.raise (.excess index) := by
  have nothing : growth.pending = [] := by
    rw [spelled.pending_eq, nonterminalsOf_eq_nil form]
    cases order <;> rfl
  simp only [expand, nothing]

/-- Rules that are taken one after another make a derivation, or it breaks off at one of them. -/
theorem Spells.foldlM_expand_cases (bodies : grammar.BodiesDeclared)
    (known : ∀ id ∈ rules, id < grammar.rules.length) {growth : Growth}
    {leaves : List (Nat × Symbol)} (spelled : growth.Spells order leaves)
    (form : leaves.map Prod.snd = symbols)
    (declared : ∀ symbol ∈ symbols, grammar.Declares symbol) (index : Nat) :
    (∃ final numbered, (rules.zipIdx index).foldlM (expand grammar order) growth = .ok final ∧
      final.Spells order numbered ∧
      order.Derives grammar symbols rules (numbered.map Prod.snd)) ∨
    ∃ taken id rest error, rules = taken ++ id :: rest ∧
      order.BreaksOff grammar symbols taken id (index + taken.length) error ∧
      (rules.zipIdx index).foldlM (expand grammar order) growth = Failure.raise error := by
  induction rules generalizing growth leaves symbols index with
  | nil =>
      subst form
      exact .inl ⟨growth, leaves, rfl, spelled, .refl _⟩
  | cons id rest ih =>
      rw [List.zipIdx_cons, List.foldlM_cons]
      rcases order.isWord_or_exists_isNext symbols with ⟨terminals, isWord⟩ |
        ⟨before, nonterminal, after, rfl, isNext⟩
      · subst isWord
        refine .inr ⟨[], id, rest, _, rfl, .excess (.refl _), ?_⟩
        rw [spelled.expand_eq_excess form]
        rfl
      · obtain ⟨rule, isRule⟩ : ∃ rule, grammar.rules[id]? = some rule :=
          ⟨_, List.getElem?_eq_getElem (known id List.mem_cons_self)⟩
        by_cases isHead : nonterminal = rule.head
        · subst isHead
          obtain ⟨next, numbered, expands, nextSpelled, nextForm, -⟩ :=
            @Spells.exists_expand_eq_ok order grammar growth leaves id index rule before after
              spelled isRule isNext form
          have nextDeclared : ∀ symbol ∈ before ++ (rule.body ++ after),
              grammar.Declares symbol := by
            intro symbol member
            have inBody := bodies rule (List.mem_of_getElem? isRule) symbol
            have inContext := declared symbol
            simp only [List.mem_append, List.mem_cons] at member inContext
            tauto
          rw [expands, ok_bind]
          rcases ih (fun other member => known other (.tail _ member)) nextSpelled nextForm
            nextDeclared (index + 1) with ⟨final, leaves, folded, finalSpelled, derives⟩ |
            ⟨taken, other, later, error, rfl, breaksOff, folded⟩
          · exact .inl ⟨final, leaves, folded, finalSpelled, .head isRule isNext derives⟩
          · refine .inr ⟨id :: taken, other, later, error, rfl, .head isRule isNext ?_, folded⟩
            rwa [List.length_cons, Nat.add_comm taken.length, ← Nat.add_assoc]
        · obtain ⟨error, refused, breaksOff⟩ := spelled.exists_expand_eq_mismatch form isNext
            (declared _ (by simp)) isRule isHead index
          refine .inr ⟨[], id, rest, error, rfl, breaksOff, ?_⟩
          rw [refused]
          rfl

end Growth

/-! ## What becomes of a sequence of rules -/

/-- A sequence of rules grows a tree, or leaves nonterminals open, or breaks off. It does so in a
derivation from the head of its first rule. -/
theorem derive_cases (bodies : grammar.BodiesDeclared) (order : Order) {first : Nat}
    {later : List Nat} (known : ∀ id ∈ first :: later, id < grammar.rules.length) {rule : Rule}
    (isRule : grammar.rules[first]? = some rule) :
    (∃ tree terminals, derive grammar order (first :: later) = .ok tree ∧
      order.Derives grammar [.nonterminal rule.head] (first :: later) (word terminals)) ∨
    (∃ string remaining,
      derive grammar order (first :: later) = Failure.raise (.incomplete remaining) ∧
      0 < remaining ∧ order.Derives grammar [.nonterminal rule.head] (first :: later) string) ∨
    ∃ taken id rest error, first :: later = taken ++ id :: rest ∧
      order.BreaksOff grammar [.nonterminal rule.head] taken id taken.length error ∧
      derive grammar order (first :: later) = Failure.raise error := by
  have declared : ∀ symbol ∈ [Symbol.nonterminal rule.head], grammar.Declares symbol := by
    intro symbol member
    cases List.mem_singleton.mp member
    exact grammar.head_lt rule (List.mem_of_getElem? isRule)
  simp only [derive, Arena.rule_eq_ok.mpr isRule, liftM_ok, ok_bind]
  rcases (Growth.spells_ofRoot order rule.head).foldlM_expand_cases bodies known rfl declared 0 with
    ⟨final, leaves, folded, spelled, derives⟩ |
      ⟨taken, id, rest, error, split, breaksOff, folded⟩
  · rw [folded, ok_bind]
    by_cases isDone : final.pending = []
    · left
      rcases order.isWord_or_exists_isNext (leaves.map Prod.snd) with ⟨terminals, isWord⟩ |
        ⟨before, nonterminal, after, form, isNext⟩
      · exact ⟨_, terminals, by rw [isDone]; rfl, isWord ▸ derives⟩
      · obtain ⟨node, pending, isPending⟩ := spelled.exists_pending form isNext
        cases isDone.symm.trans isPending
    · right
      left
      refine ⟨leaves.map Prod.snd, _, ?_, List.length_pos_iff.mpr isDone, derives⟩
      rw [if_neg (by simpa using isDone)]
  · rw [Nat.zero_add] at breaksOff
    exact .inr (.inr ⟨taken, id, rest, error, split, breaksOff, by rw [folded]; rfl⟩)

/-- The index that an error gives. -/
def Error.index? : Error → Option Nat
  | mismatch index _ _ => some index
  | excess index => some index
  | empty => none
  | incomplete _ => none

/-- An error with an index is about the rule with that index among those taken. -/
theorem exists_breaksOff_of_derive_eq_raise (bodies : grammar.BodiesDeclared)
    (known : ∀ id ∈ rules, id < grammar.rules.length) (isIndex : error.index? = some index)
    (failed : derive grammar order rules = Failure.raise error) :
    ∃ first rule id, rules.head? = some first ∧ grammar.rules[first]? = some rule ∧
      rules[index]? = some id ∧
      order.BreaksOff grammar [.nonterminal rule.head] (rules.take index) id index error := by
  cases rules with
  | nil =>
      cases failed
      cases isIndex
  | cons first later =>
      obtain ⟨rule, isRule⟩ : ∃ rule, grammar.rules[first]? = some rule :=
        ⟨_, List.getElem?_eq_getElem (known first List.mem_cons_self)⟩
      rcases derive_cases bodies order known isRule with ⟨_, _, succeeds, _⟩ |
        ⟨_, _, incomplete, _⟩ | ⟨taken, id, rest, other, split, breaksOff, raised⟩
      · cases failed.symm.trans succeeds
      · cases failed.symm.trans incomplete
        cases isIndex
      · cases failed.symm.trans raised
        obtain rfl : taken.length = index := by
          cases breaksOff <;> exact Option.some.inj isIndex
        refine ⟨first, rule, id, rfl, isRule, by simp [split], ?_⟩
        rwa [split, List.take_left]

end DerivationTree

open DerivationTree

/-- For every grammar all of whose bodies are declared and every list of existing rules: if a tree
cannot be grown from the list and the error gives an index, the rules taken before the one with that
index are those of a derivation from the head of the first rule taken, and that one is the first
that does not go on with it. It is for a nonterminal other than the one that is next, and the error
names both; or it is left over, because no nonterminal is. A left parse is taken in order, so that
the index is a place in the list. A right parse is taken backwards, so that the index counts from
the end of the list. -/
theorem derivation_errors_count_rules_in_the_order_taken (grammar : Grammar)
    (bodies : grammar.BodiesDeclared) (rules : List Nat)
    (known : ∀ id ∈ rules, id < grammar.rules.length) (error : DerivationTree.Error)
    (index : Nat) (isIndex : error.index? = some index) :
    (ofLeftParse grammar rules = Failure.raise error →
      ∃ first rule id, rules.head? = some first ∧ grammar.rules[first]? = some rule ∧
        rules[index]? = some id ∧
        Order.leftmost.BreaksOff grammar [.nonterminal rule.head]
          (rules.take index) id index error) ∧
    (ofRightParse grammar rules = Failure.raise error →
      ∃ last rule id, rules.getLast? = some last ∧ grammar.rules[last]? = some rule ∧
        index < rules.length ∧ rules[rules.length - 1 - index]? = some id ∧
        Order.rightmost.BreaksOff grammar [.nonterminal rule.head] (rules.reverse.take index) id
          index error) := by
  refine ⟨exists_breaksOff_of_derive_eq_raise bodies known isIndex, fun failed => ?_⟩
  have knownBackwards : ∀ id ∈ rules.reverse, id < grammar.rules.length :=
    fun id member => known id (List.mem_reverse.mp member)
  obtain ⟨last, rule, id, isLast, isRule, isPlaced, breaksOff⟩ :=
    exists_breaksOff_of_derive_eq_raise bodies knownBackwards isIndex failed
  have inRange : index < rules.length := by
    rw [← List.length_reverse]
    exact (List.getElem?_eq_some_iff.mp isPlaced).1
  rw [List.head?_reverse] at isLast
  rw [List.getElem?_reverse inRange] at isPlaced
  exact ⟨last, rule, id, isLast, isRule, inRange, isPlaced, breaksOff⟩

/-- With `S → A b`, `A → A a` and `A → ε`, neither the first two rules are a right parse nor
the same in the other order a left parse: after the second rule, the nonterminal that is next is `A`
again. Both errors have the index 1. The rule they are about is the last of the left parse and the
first of the right parse. -/
theorem derivation_errors_of_leftRecursion_count_rules_in_the_order_taken :
    Grammar.leftRecursion.BodiesDeclared ∧ (Error.mismatch 1 "A" "S").index? = some 1 ∧
      ofLeftParse Grammar.leftRecursion [1, 0] = Failure.raise (.mismatch 1 "A" "S") ∧
      ofRightParse Grammar.leftRecursion [0, 1] = Failure.raise (.mismatch 1 "A" "S") ∧
      Order.leftmost.BreaksOff Grammar.leftRecursion [.nonterminal 1] [1] 0 1
        (.mismatch 1 "A" "S") ∧
      Order.rightmost.BreaksOff Grammar.leftRecursion [.nonterminal 1] [1] 0 1
        (.mismatch 1 "A" "S") := by
  have leftFailed : ofLeftParse Grammar.leftRecursion [1, 0] =
      Failure.raise (.mismatch 1 "A" "S") := by
    decide +kernel
  have rightFailed : ofRightParse Grammar.leftRecursion [0, 1] =
      Failure.raise (.mismatch 1 "A" "S") := by
    decide +kernel
  obtain ⟨first, _, _, isFirst, isRule, isPlaced, leftBreaksOff⟩ :=
    (derivation_errors_count_rules_in_the_order_taken Grammar.leftRecursion
      Grammar.wellFormed_leftRecursion.bodies [1, 0] (by decide)
        (.mismatch 1 "A" "S") 1 rfl).1 leftFailed
  cases isFirst
  cases isRule
  cases isPlaced
  obtain ⟨last, _, _, isLast, isRule, _, isPlaced, rightBreaksOff⟩ :=
    (derivation_errors_count_rules_in_the_order_taken Grammar.leftRecursion
      Grammar.wellFormed_leftRecursion.bodies [0, 1] (by decide)
        (.mismatch 1 "A" "S") 1 rfl).2 rightFailed
  cases isLast
  cases isRule
  cases isPlaced
  exact ⟨Grammar.wellFormed_leftRecursion.bodies, rfl, leftFailed, rightFailed, leftBreaksOff,
    rightBreaksOff⟩

/-- The place of the rule in the list is another one than the index of the error: of `S → A b` and
`A → A a` as a right parse, the one at index 1 is for `A`, which is not the nonterminal found.
With `A → ε` in the place of the second, the one at index 1 is not left over, since it is the one
that completes the tree. -/
theorem right_parse_errors_can_give_the_index_of_another_rule :
    ofRightParse Grammar.leftRecursion [0, 1] = Failure.raise (.mismatch 1 "A" "S") ∧
      (∀ id rule, [0, 1][1]? = some id → Grammar.leftRecursion.rules[id]? = some rule →
        Grammar.leftRecursion.nonterminalName rule.head ≠ .ok "S") ∧
      ofRightParse Grammar.leftRecursion [0, 2] = Failure.raise (.excess 1) ∧
      (ofRightParse Grammar.leftRecursion [2]).isOk := by
  refine ⟨by decide +kernel, ?_, by decide +kernel, by decide +kernel⟩
  rintro id rule isPlaced isRule
  cases isPlaced
  cases isRule
  decide

end DeterministicParsing
