/-
# Trees of left and right parses

The nodes below a list of waiting nodes, taken one after another from the front, spell a string of
leaves. Expanding an open leaf replaces it in that string by the body of the rule and leaves the
rest alone, so a tree that is grown by the rules of a leftmost or a rightmost derivation spells what
is derived, and the next open nonterminal is always the one that the derivation replaces.
-/
import DeterministicParsing.DerivationTree
import DeterministicParsing.Proofs.FixedPoint
import DeterministicParsing.Proofs.Grammar.Derivation

namespace DeterministicParsing.DerivationTree

variable {nodes later : Array Node} {waiting : List Nat} {leaves : List (Nat × Symbol)}
  {count : Nat}

/-- The nodes below the waiting ones, `count` in all, have the given leaves, each with its
symbol. -/
inductive Spells (nodes : Array Node) : List Nat → List (Nat × Symbol) → Nat → Prop where
  | nil : Spells nodes [] [] 0
  | leaf {id : Nat} {symbol : Symbol} {waiting : List Nat} {leaves : List (Nat × Symbol)}
      {count : Nat} (found : nodes[id]? = some ⟨symbol, none, []⟩)
      (rest : Spells nodes waiting leaves count) :
      Spells nodes (id :: waiting) ((id, symbol) :: leaves) (count + 1)
  | branch {id head rule : Nat} {children waiting : List Nat} {leaves : List (Nat × Symbol)}
      {count : Nat} (found : nodes[id]? = some ⟨.nonterminal head, some rule, children⟩)
      (below : Spells nodes (children ++ waiting) leaves count) :
      Spells nodes (id :: waiting) leaves (count + 1)

namespace Spells

theorem found (spells : Spells nodes waiting leaves count) {id : Nat} {symbol : Symbol}
    (member : (id, symbol) ∈ leaves) : nodes[id]? = some ⟨symbol, none, []⟩ := by
  induction spells with
  | nil => cases member
  | leaf found _ ih =>
      rcases List.mem_cons.mp member with same | inRest
      · cases same
        exact found
      · exact ih inRest
  | branch _ _ ih => exact ih member

/-- Leaves in front of the waiting nodes are spelled first. -/
theorem append (spells : Spells nodes waiting leaves count) {numbered : List (Nat × Symbol)}
    (found : ∀ id symbol, (id, symbol) ∈ numbered →
      nodes[id]? = some ⟨symbol, none, []⟩) :
    Spells nodes (numbered.map Prod.fst ++ waiting) (numbered ++ leaves)
      (numbered.length + count) := by
  induction numbered with
  | nil => simpa using spells
  | cons entry numbered ih =>
      have rest := ih fun id symbol member => found id symbol (by simp [member])
      have whole := Spells.leaf (found entry.1 entry.2 (by simp)) rest
      rw [List.map_cons, List.cons_append, List.cons_append, List.length_cons, Nat.add_right_comm]
      exact whole

/-- A change of a node that is no leaf here, and only open, changes nothing. -/
theorem of_ne (spells : Spells nodes waiting leaves count) {node : Nat} {symbol : Symbol}
    (isOpen : nodes[node]? = some ⟨symbol, none, []⟩)
    (same : ∀ (id : Nat) (value : Node), id ≠ node → nodes[id]? = some value →
      later[id]? = some value)
    (absent : node ∉ leaves.map Prod.fst) : Spells later waiting leaves count := by
  induction spells with
  | nil => exact .nil
  | @leaf id _ _ _ _ found _ ih =>
      rw [List.map_cons, List.mem_cons, not_or] at absent
      exact .leaf (same id _ (Ne.symm absent.1) found) (ih absent.2)
  | @branch id _ _ _ _ _ _ found _ ih =>
      have other : id ≠ node := by
        rintro rfl
        rw [isOpen] at found
        cases found
      exact .branch (same id _ other found) (ih absent)

/-- Giving children to an open leaf puts them in its place. -/
theorem expand {node head rule : Nat} {symbol : Symbol}
    {before rest numbered : List (Nat × Symbol)}
    (spells : Spells nodes waiting (before ++ (node, symbol) :: rest) count)
    (distinct : ((before ++ (node, symbol) :: rest).map Prod.fst).Nodup)
    (same : ∀ (id : Nat) (value : Node), id ≠ node → nodes[id]? = some value →
      later[id]? = some value)
    (parent : later[node]? = some ⟨.nonterminal head, some rule, numbered.map Prod.fst⟩)
    (fresh : ∀ id symbol, (id, symbol) ∈ numbered →
      later[id]? = some ⟨symbol, none, []⟩) :
    Spells later waiting (before ++ (numbered ++ rest)) (count + numbered.length) := by
  have isOpen := @found _ _ _ _ spells node symbol (by simp)
  generalize whole : before ++ (node, symbol) :: rest = leaves at spells distinct
  induction spells generalizing before with
  | nil => simp at whole
  | @leaf id other waiting leaves count found below ih =>
      cases before with
      | nil =>
          obtain ⟨isNode, rfl⟩ := List.cons.inj whole
          cases isNode
          have absent : node ∉ rest.map Prod.fst := (List.nodup_cons.mp distinct).1
          have children := (below.of_ne isOpen same absent).append fresh
          rw [List.nil_append, Nat.add_right_comm, Nat.add_comm count]
          exact .branch parent children
      | cons first before =>
          obtain ⟨rfl, rfl⟩ := List.cons.inj whole
          rw [List.map_cons, List.nodup_cons] at distinct
          have different : id ≠ node := by
            rintro rfl
            exact distinct.1 (by simp)
          rw [List.cons_append, Nat.add_right_comm]
          exact .leaf (same id _ different found) (ih rfl distinct.2)
  | @branch id _ _ _ _ _ count found below ih =>
      have different : id ≠ node := by
        rintro rfl
        rw [isOpen] at found
        cases found
      rw [Nat.add_right_comm]
      exact .branch (same id _ different found) (ih whole distinct)

end Spells

/-- The terminal that a symbol is. -/
def terminalOf? : Symbol → Option Nat
  | .terminal id => some id
  | .nonterminal _ => none

theorem frontier_eq (tree : DerivationTree) :
    tree.frontier = tree.preorder.filterMap fun entry => terminalOf? entry.1.symbol := by
  rw [frontier]
  congr 1

/-- The terminals of the nodes, each before its children, are those of the leaves. -/
theorem Spells.filterMap_preorderFrom (spells : Spells nodes waiting leaves count) {bound : Nat}
    (enough : count ≤ bound) (depths : List (Nat × Nat)) (same : depths.map Prod.fst = waiting) :
    ((⟨nodes⟩ : DerivationTree).preorderFrom bound depths).filterMap
        (fun entry => terminalOf? entry.1.symbol) =
      leaves.filterMap fun leaf => terminalOf? leaf.2 := by
  induction spells generalizing bound depths with
  | nil =>
      rw [List.map_eq_nil_iff.mp same]
      cases bound <;> rfl
  | leaf found _ ih =>
      obtain ⟨bound, rfl⟩ := Nat.exists_eq_add_of_le' (Nat.le_of_add_left_le enough)
      obtain ⟨⟨id, depth⟩, depths, rfl, rfl, rest⟩ := List.map_eq_cons_iff.mp same
      have below := ih (Nat.le_of_succ_le_succ enough) depths rest
      simp only [preorderFrom, found, List.map_nil, List.nil_append, List.filterMap_cons, below]
  | @branch _ _ _ children _ _ _ found _ ih =>
      obtain ⟨bound, rfl⟩ := Nat.exists_eq_add_of_le' (Nat.le_of_add_left_le enough)
      obtain ⟨⟨id, depth⟩, depths, rfl, rfl, rest⟩ := List.map_eq_cons_iff.mp same
      have waits : (children.map (fun child => (child, depth + 1)) ++ depths).map Prod.fst =
          children ++ depths.map Prod.fst := by
        simp [Function.comp_def]
      have below := ih (Nat.le_of_succ_le_succ enough) _ (waits.trans (by rw [rest]))
      rw [preorderFrom]
      simp only [found]
      rw [List.filterMap_cons_none rfl]
      exact below

/-! ## Derivations in a given order -/

namespace Order

variable {order : Order} {before after : List Symbol}

/-- Open leaves, listed from left to right, as they wait to be expanded. -/
def arrange {α : Type} : Order → List α → List α
  | leftmost, leaves => leaves
  | rightmost, leaves => leaves.reverse

theorem perm_arrange {α : Type} (order : Order) (list : List α) :
    (order.arrange list).Perm list := by
  cases order with
  | leftmost => exact .refl _
  | rightmost => exact list.reverse_perm

theorem mem_arrange {α : Type} {value : α} {list : List α} :
    value ∈ order.arrange list ↔ value ∈ list :=
  (perm_arrange order list).mem_iff

/-- A nonterminal between two strings is the next one to be replaced. -/
def IsNext : Order → List Symbol → List Symbol → Prop
  | leftmost, before, _ => ∃ terminals, before = word terminals
  | rightmost, _, after => ∃ terminals, after = word terminals

/-- A string leads to another one by the given rules, each of which replaces the next
nonterminal. -/
inductive Derives (grammar : Grammar) (order : Order) : List Symbol → List Nat →
    List Symbol → Prop where
  | refl (string : List Symbol) : Derives grammar order string [] string
  | head {id : Nat} {rule : Rule} (found : grammar.rules[id]? = some rule)
      {before after : List Symbol} (isNext : order.IsNext before after) {rules : List Nat}
      {string : List Symbol}
      (derives : Derives grammar order (before ++ (rule.body ++ after)) rules string) :
      Derives grammar order (before ++ .nonterminal rule.head :: after) (id :: rules) string

theorem derives_of_leftmost {grammar : Grammar} {first last : List Symbol} {rules : List Nat}
    (derives : grammar.DerivesLeftmost first rules last) :
    leftmost.Derives grammar first rules last := by
  induction derives with
  | refl string => exact .refl string
  | head found before after _ ih =>
      have isNext : leftmost.IsNext (word before) after := ⟨before, rfl⟩
      exact .head found isNext ih

theorem derives_of_rightmost {grammar : Grammar} {first last : List Symbol} {rules : List Nat}
    (derives : grammar.DerivesRightmost first rules last) :
    rightmost.Derives grammar first rules last := by
  induction derives with
  | refl string => exact .refl string
  | head found before after _ ih =>
      have isNext : rightmost.IsNext before (word after) := ⟨after, rfl⟩
      exact .head found isNext ih

theorem Derives.derivesLeftmost {grammar : Grammar} {first last : List Symbol} {rules : List Nat}
    (derives : leftmost.Derives grammar first rules last) :
    grammar.DerivesLeftmost first rules last := by
  induction derives with
  | refl string => exact .refl string
  | head found isNext _ ih =>
      obtain ⟨terminals, rfl⟩ := isNext
      exact .head found terminals _ ih

theorem Derives.derivesRightmost {grammar : Grammar} {first last : List Symbol} {rules : List Nat}
    (derives : rightmost.Derives grammar first rules last) :
    grammar.DerivesRightmost first rules last := by
  induction derives with
  | refl string => exact .refl string
  | head found isNext _ ih =>
      obtain ⟨terminals, rfl⟩ := isNext
      exact .head found _ terminals ih

/-- The first rule of a derivation of a word from a nonterminal is one for it. -/
theorem Derives.exists_first {grammar : Grammar} {nonterminal : Nat} {rules terminals : List Nat}
    (derives : order.Derives grammar [.nonterminal nonterminal] rules (word terminals)) :
    ∃ id rest rule, rules = id :: rest ∧ grammar.rules[id]? = some rule ∧
      rule.head = nonterminal := by
  generalize source : [Symbol.nonterminal nonterminal] = symbols at derives
  generalize target : word terminals = last at derives
  cases derives with
  | refl =>
      subst source
      have member : Symbol.nonterminal nonterminal ∈ word terminals := by simp [target]
      exact absurd member (nonterminal_not_mem_word nonterminal terminals)
  | @head id rule found before after _ rest _ _ =>
      refine ⟨id, rest, rule, rfl, found, ?_⟩
      have member : Symbol.nonterminal rule.head ∈ [Symbol.nonterminal nonterminal] := by
        simp [source]
      exact Symbol.nonterminal.inj (List.mem_singleton.mp member)

end Order

namespace Growth

variable {order : Order}

/-- The tree that is being grown spells the given leaves, and the nonterminals among them wait in
the order in which they are expanded. -/
structure Spells (order : Order) (growth : Growth) (leaves : List (Nat × Symbol)) : Prop where
  spells : DerivationTree.Spells growth.nodes [root] leaves growth.nodes.size
  distinct : (leaves.map Prod.fst).Nodup
  pending_eq : growth.pending = order.arrange (nonterminalsOf leaves)

theorem nonterminalsOf_append (first second : List (Nat × Symbol)) :
    nonterminalsOf (first ++ second) = nonterminalsOf first ++ nonterminalsOf second :=
  List.filterMap_append

theorem mem_nonterminalsOf {numbered : List (Nat × Symbol)} {id nonterminal : Nat} :
    (id, nonterminal) ∈ nonterminalsOf numbered ↔
      (id, .nonterminal nonterminal) ∈ numbered := by
  rw [nonterminalsOf, List.mem_filterMap]
  constructor
  · rintro ⟨⟨number, symbol⟩, member, isEntry⟩
    cases symbol with
    | terminal terminal => cases isEntry
    | nonterminal other =>
        cases isEntry
        exact member
  · intro member
    exact ⟨_, member, rfl⟩

/-- Leaves that are all terminals hold no nonterminals. -/
theorem nonterminalsOf_eq_nil {numbered : List (Nat × Symbol)} {terminals : List Nat}
    (same : numbered.map Prod.snd = word terminals) : nonterminalsOf numbered = [] := by
  rw [nonterminalsOf, List.filterMap_eq_nil_iff]
  rintro ⟨id, symbol⟩ member
  have inWord : symbol ∈ word terminals := same ▸ List.mem_map_of_mem member
  cases symbol with
  | terminal read => rfl
  | nonterminal read => exact absurd inWord (nonterminal_not_mem_word read terminals)

/-- The next nonterminal waits in front of all others, and its place is taken by those of the
body. -/
theorem arrange_nonterminalsOf {left rest numbered : List (Nat × Symbol)} {node nonterminal : Nat}
    (isNext : order.IsNext (left.map Prod.snd) (rest.map Prod.snd)) :
    order.arrange (nonterminalsOf (left ++ (node, .nonterminal nonterminal) :: rest)) =
        (node, nonterminal) :: order.arrange (nonterminalsOf (left ++ rest)) ∧
      order.arrange (nonterminalsOf (left ++ (numbered ++ rest))) =
        order.arrange (nonterminalsOf numbered) ++ order.arrange
          (nonterminalsOf (left ++ rest)) := by
  have single : nonterminalsOf ((node, .nonterminal nonterminal) :: rest) =
      (node, nonterminal) :: nonterminalsOf rest := rfl
  cases order with
  | leftmost =>
      obtain ⟨terminals, same⟩ := isNext
      simp [Order.arrange, nonterminalsOf_append, nonterminalsOf_eq_nil same, single]
  | rightmost =>
      obtain ⟨terminals, same⟩ := isNext
      simp [Order.arrange, nonterminalsOf_append, nonterminalsOf_eq_nil same, single]

theorem spells_ofRoot (order : Order) (nonterminal : Nat) :
    (ofRoot nonterminal).Spells order [(root, .nonterminal nonterminal)] := by
  refine ⟨.leaf rfl .nil, by simp, ?_⟩
  cases order <;> rfl

/-- The nodes after an expansion: the parent has its children, which are new, and the others are as
they were. -/
theorem getElem?_attach {node id : Nat} {rule : Rule} {pending : List (Nat × Nat)}
    {nodes : Array Node} (inRange : node < nodes.size) (index : Nat) :
    (attach order nodes pending node id rule).nodes[index]? =
      if index = node then
        some ⟨.nonterminal rule.head, some id, List.range' nodes.size rule.body.length⟩
      else if index < nodes.size then nodes[index]?
      else (rule.body[index - nodes.size]?).map fun symbol => ⟨symbol, none, []⟩ := by
  simp only [attach, Array.getElem?_append, Array.size_setIfInBounds]
  by_cases old : index < nodes.size
  · rw [if_pos old, Array.getElem?_setIfInBounds]
    by_cases here : index = node
    · subst here
      simp [inRange]
    · simp [here, Ne.symm here, old]
  · have other : index ≠ node := by
      rintro rfl
      exact old inRange
    simp [old, other]

/-- The nodes after an expansion are the one that is expanded, the other old ones, and leaves for
its body. -/
theorem eq_of_getElem?_attach {node id index : Nat} {rule : Rule} {pending : List (Nat × Nat)}
    {nodes : Array Node} {found : Node} (inRange : node < nodes.size)
    (isFound : (attach order nodes pending node id rule).nodes[index]? = some found) :
    (index = node ∧
        found = ⟨.nonterminal rule.head, some id, List.range' nodes.size rule.body.length⟩) ∨
      nodes[index]? = some found ∨ ∃ symbol ∈ rule.body, found = ⟨symbol, none, []⟩ := by
  rw [getElem?_attach inRange] at isFound
  split at isFound
  · rename_i isParent
    exact .inl ⟨isParent, (Option.some.inj isFound).symm⟩
  · split at isFound
    · exact .inr (.inl isFound)
    · obtain ⟨symbol, inBody, isLeaf⟩ := Option.map_eq_some_iff.mp isFound
      exact .inr (.inr ⟨symbol, List.mem_of_getElem? inBody, isLeaf.symm⟩)

theorem size_attach {node id : Nat} {rule : Rule}
    {pending : List (Nat × Nat)} {nodes : Array Node} :
    (attach order nodes pending node id rule).nodes.size =
      nodes.size + rule.body.length := by
  simp [attach]

/-- The body of a rule, numbered from the next free number on. -/
def children (nodes : Array Node) (rule : Rule) : List (Nat × Symbol) :=
  (List.range' nodes.size rule.body.length).zip rule.body

theorem map_fst_children (nodes : Array Node) (rule : Rule) :
    (children nodes rule).map Prod.fst = List.range' nodes.size rule.body.length :=
  List.map_fst_zip (by rw [List.length_range'])

theorem map_snd_children (nodes : Array Node) (rule : Rule) :
    (children nodes rule).map Prod.snd = rule.body :=
  List.map_snd_zip (by rw [List.length_range'])

theorem length_children (nodes : Array Node) (rule : Rule) :
    (children nodes rule).length = rule.body.length := by
  rw [children, List.length_zip, List.length_range', Nat.min_self]

theorem mem_children {nodes : Array Node} {rule : Rule} {number : Nat} {symbol : Symbol} :
    (number, symbol) ∈ children nodes rule ↔
      nodes.size ≤ number ∧ rule.body[number - nodes.size]? = some symbol := by
  rw [children, List.mem_iff_getElem?]
  constructor
  · rintro ⟨place, isPlaced⟩
    obtain ⟨isNumber, inBody⟩ := List.getElem?_zip_eq_some.mp isPlaced
    obtain ⟨_, rfl⟩ := List.getElem?_eq_some_iff.mp isNumber
    rw [List.getElem_range', Nat.one_mul, Nat.add_sub_cancel_left]
    exact ⟨Nat.le_add_right _ _, inBody⟩
  · rintro ⟨isNew, inBody⟩
    obtain ⟨inRange, -⟩ := List.getElem?_eq_some_iff.mp inBody
    refine ⟨number - nodes.size, List.getElem?_zip_eq_some.mpr ⟨?_, inBody⟩⟩
    rw [List.getElem?_range' inRange, Nat.one_mul, Nat.add_sub_cancel' isNew]

theorem getElem?_attach_of_mem_children {node id number : Nat} {rule : Rule} {symbol : Symbol}
    {pending : List (Nat × Nat)} {nodes : Array Node} (inRange : node < nodes.size)
    (member : (number, symbol) ∈ children nodes rule) :
    (attach order nodes pending node id rule).nodes[number]? = some ⟨symbol, none, []⟩ := by
  obtain ⟨isNew, inBody⟩ := mem_children.mp member
  rw [getElem?_attach inRange, if_neg (by omega), if_neg (by omega), inBody]
  rfl

theorem pending_attach {nodes : Array Node} {pending : List (Nat × Nat)}
    {node id : Nat} {rule : Rule} :
    (attach order nodes pending node id rule).pending =
      order.arrange (nonterminalsOf (children nodes rule)) ++ pending := by
  cases order <;> rfl

/-- An expansion gives children to the first node that waits, by a rule for its nonterminal. -/
theorem exists_attach_of_expand_eq_ok {grammar : Grammar} {growth next : Growth} {step : Nat × Nat}
    (expands : expand grammar order growth step = .ok next) :
    ∃ node rule pending, growth.pending = (node, rule.head) :: pending ∧
      grammar.rules[step.1]? = some rule ∧
      next = attach order growth.nodes pending node step.1 rule := by
  obtain ⟨nodes, pending⟩ := growth
  cases pending with
  | nil => cases expands
  | cons first rest =>
      obtain ⟨rule, ruled, goesOn⟩ := exists_of_bind_eq_ok expands
      split at goesOn
      · rename_i isHead
        cases goesOn
        refine ⟨first.1, rule, rest, ?_, Arena.rule_eq_ok.mp (eq_ok_of_liftM_eq_ok ruled), rfl⟩
        rw [← isHead]
      · obtain ⟨_, _, raises⟩ := exists_of_bind_eq_ok goesOn
        exact absurd raises bind_raise_ne_ok

/-- Expanding the next open nonterminal puts the body of the rule in its place. -/
theorem spells_attach {nodes : Array Node} {node : Nat} {rule : Rule}
    {left rest : List (Nat × Symbol)} {pending : List (Nat × Nat)}
    (spelled : Growth.Spells order ⟨nodes, pending⟩
      (left ++ (node, .nonterminal rule.head) :: rest))
    (inRange : node < nodes.size) (isNext : order.IsNext (left.map Prod.snd) (rest.map Prod.snd))
    (id : Nat) :
    (attach order nodes (order.arrange (nonterminalsOf (left ++ rest))) node id rule).Spells order
      (left ++ (children nodes rule ++ rest)) := by
  refine ⟨?_, ?_, ?_⟩
  · have parent : (attach order nodes (order.arrange (nonterminalsOf (left ++ rest))) node id
        rule).nodes[node]? = some ⟨.nonterminal rule.head, some id,
        (children nodes rule).map Prod.fst⟩ := by
      rw [getElem?_attach inRange, if_pos rfl, map_fst_children]
    rw [size_attach, ← length_children nodes rule]
    refine spelled.spells.expand spelled.distinct (fun other value different isFound => ?_) parent
      fun number symbol => getElem?_attach_of_mem_children inRange
    rw [getElem?_attach inRange, if_neg different,
      if_pos (Array.getElem?_eq_some_iff.mp isFound).1, isFound]
  · have fewer : ((left ++ rest).map Prod.fst).Nodup := by
      refine spelled.distinct.sublist (List.Sublist.map _ ?_)
      exact List.Sublist.append_left (List.sublist_cons_self _ _) left
    have known (leaf : Nat) (member : leaf ∈ (left ++ rest).map Prod.fst) :
        leaf < nodes.size := by
      obtain ⟨⟨number, symbol⟩, inLeaves, rfl⟩ := List.mem_map.mp member
      have isLeaf : (number, symbol) ∈ left ++ (node, .nonterminal rule.head) :: rest := by
        rcases List.mem_append.mp inLeaves with inLeft | inRest
        · simp [inLeft]
        · simp [inRest]
      exact (Array.getElem?_eq_some_iff.mp (spelled.spells.found isLeaf)).1
    have moved : ((left ++ (children nodes rule ++ rest)).map Prod.fst).Perm
        ((children nodes rule).map Prod.fst ++ (left ++ rest).map Prod.fst) := by
      simp only [List.map_append]
      exact List.perm_append_comm_assoc _ _ _
    rw [moved.nodup_iff, List.nodup_append, map_fst_children]
    refine ⟨List.nodup_range', fewer, ?_⟩
    rintro fresh isFresh other inLeaves rfl
    rw [List.mem_range'_1] at isFresh
    exact absurd (known fresh inLeaves) (Nat.not_lt.mpr isFresh.1)
  · rw [pending_attach, (@arrange_nonterminalsOf order left rest _ 0 0 isNext).2]

/-- A step of a derivation is a step of the growth. -/
theorem Spells.exists_expand_eq_ok {grammar : Grammar} {growth : Growth}
    {leaves : List (Nat × Symbol)} {id index : Nat} {rule : Rule} {before after : List Symbol}
    (spelled : growth.Spells order leaves) (found : grammar.rules[id]? = some rule)
    (isNext : order.IsNext before after)
    (form : leaves.map Prod.snd = before ++ .nonterminal rule.head :: after) :
    ∃ next numbered, expand grammar order growth (id, index) = .ok next ∧
      next.Spells order numbered ∧ numbered.map Prod.snd = before ++ (rule.body ++ after) ∧
      next.nodes[root]?.map Node.symbol = growth.nodes[root]?.map Node.symbol := by
  obtain ⟨left, others, rfl, leftForm, othersForm⟩ := List.map_eq_append_iff.mp form
  obtain ⟨⟨node, symbol⟩, rest, rfl, isHead, restForm⟩ := List.map_eq_cons_iff.mp othersForm
  change symbol = .nonterminal rule.head at isHead
  subst isHead
  have isOpen := @DerivationTree.Spells.found _ _ _ _ spelled.spells node (.nonterminal rule.head)
    (by simp)
  have inRange : node < growth.nodes.size := (Array.getElem?_eq_some_iff.mp isOpen).1
  rw [← leftForm, ← restForm] at isNext
  have pending := spelled.pending_eq
  rw [(@arrange_nonterminalsOf order left rest [] node rule.head isNext).1] at pending
  refine ⟨_, _, ?_, spells_attach spelled inRange isNext id, ?_, ?_⟩
  · simp [expand, pending, Arena.rule_eq_ok.mpr found]
  · rw [List.map_append, List.map_append, map_snd_children, leftForm, restForm]
  · rw [getElem?_attach inRange]
    by_cases isRoot : root = node
    · rw [if_pos isRoot, isRoot, isOpen]
      rfl
    · have isOld : root < growth.nodes.size := Nat.lt_of_le_of_lt (Nat.zero_le _) inRange
      rw [if_neg isRoot, if_pos isOld]

/-- The rules of a derivation grow a tree that spells what is derived. -/
theorem Spells.exists_foldlM_expand_eq_ok {grammar : Grammar} {growth : Growth}
    {leaves : List (Nat × Symbol)} {symbols last : List Symbol} {rules : List Nat}
    (derives : order.Derives grammar symbols rules last) (spelled : growth.Spells order leaves)
    (form : leaves.map Prod.snd = symbols) (index : Nat) :
    ∃ final numbered,
      (rules.zipIdx index).foldlM (expand grammar order) growth = .ok final ∧
      final.Spells order numbered ∧ numbered.map Prod.snd = last ∧
      final.nodes[root]?.map Node.symbol = growth.nodes[root]?.map Node.symbol := by
  induction derives generalizing growth leaves index with
  | refl => exact ⟨growth, leaves, rfl, spelled, form, rfl⟩
  | head found isNext _ ih =>
      obtain ⟨next, numbered, expands, nextSpelled, nextForm, sameRoot⟩ :=
        spelled.exists_expand_eq_ok found isNext form
      obtain ⟨final, finalNumbered, folds, finalSpelled, finalForm, finalRoot⟩ :=
        ih nextSpelled nextForm (index + 1)
      refine ⟨final, finalNumbered, ?_, finalSpelled, finalForm, finalRoot.trans sameRoot⟩
      rw [List.zipIdx_cons, List.foldlM_cons, expands, ok_bind, folds]

end Growth

/-- A tree is grown from the head of the first rule, and nothing waits when it is complete. -/
theorem exists_foldlM_of_derive_eq_ok {grammar : Grammar} {order : Order} {rules : List Nat}
    {tree : DerivationTree} (derived : derive grammar order rules = .ok tree) :
    ∃ top ∈ grammar.rules,
      rules.zipIdx.foldlM (Growth.expand grammar order) (.ofRoot top.head) =
        .ok ⟨tree.nodes, []⟩ := by
  cases rules with
  | nil => cases derived
  | cons first rest =>
      obtain ⟨top, ruled, goesOn⟩ := exists_of_bind_eq_ok derived
      have isRule := List.mem_of_getElem? (Arena.rule_eq_ok.mp (eq_ok_of_liftM_eq_ok ruled))
      obtain ⟨⟨nodes, pending⟩, folded, isDone⟩ := exists_of_bind_eq_ok goesOn
      split at isDone
      · rename_i isEmpty
        cases isDone
        obtain rfl := List.isEmpty_iff.mp isEmpty
        exact ⟨top, isRule, folded⟩
      · cases isDone

/-- The rules of a complete derivation grow a tree whose root is the nonterminal that the derivation
starts with and whose frontier is what it derives. -/
theorem exists_derive_eq_ok {grammar : Grammar} {order : Order} {nonterminal : Nat}
    {rules terminals : List Nat}
    (derives : order.Derives grammar [.nonterminal nonterminal] rules (word terminals)) :
    ∃ tree, derive grammar order rules = .ok tree ∧
      tree.nodes[root]?.map Node.symbol = some (.nonterminal nonterminal) ∧
      tree.frontier = terminals := by
  obtain ⟨growth, leaves, grown, spelled, form, sameRoot⟩ :=
    (Growth.spells_ofRoot order nonterminal).exists_foldlM_expand_eq_ok derives rfl 0
  have closed : growth.pending = [] := by
    rw [spelled.pending_eq, Growth.nonterminalsOf_eq_nil form]
    cases order <;> rfl
  obtain ⟨id, rest, rule, rfl, found, rfl⟩ := derives.exists_first
  have whole : DerivationTree.Spells growth.nodes [root] leaves growth.nodes.size := spelled.spells
  refine ⟨⟨growth.nodes⟩, ?_, sameRoot, ?_⟩
  · simp only [derive, Arena.rule_eq_ok.mpr found, liftM_ok, ok_bind, grown, closed,
      List.isEmpty_nil, ↓reduceIte, pure_eq_ok]
  · rw [frontier_eq, preorder, whole.filterMap_preorderFrom (Nat.le_refl _) _ rfl]
    have leafSymbols : leaves.filterMap (fun leaf => terminalOf? leaf.2) =
        (word terminals).filterMap terminalOf? := by
      rw [← form, List.filterMap_map]
      rfl
    rw [leafSymbols, word, List.filterMap_map]
    exact List.filterMap_some

/-- The rules of a complete rightmost derivation, from last to first, are the right parse of a tree
whose root is the nonterminal that the derivation starts with and whose frontier is what it
derives. -/
theorem exists_ofRightParse_eq_ok {grammar : Grammar} {nonterminal : Nat}
    {rules terminals : List Nat}
    (rightmost : grammar.DerivesRightmost [.nonterminal nonterminal] rules (word terminals)) :
    ∃ tree, ofRightParse grammar rules.reverse = .ok tree ∧
      tree.nodes[root]?.map Node.symbol = some (.nonterminal nonterminal) ∧
      tree.frontier = terminals := by
  rw [ofRightParse, List.reverse_reverse]
  exact exists_derive_eq_ok (Order.derives_of_rightmost rightmost)

/-- The rules of a complete leftmost derivation are the left parse of such a tree. -/
theorem exists_ofLeftParse_eq_ok {grammar : Grammar} {nonterminal : Nat}
    {rules terminals : List Nat}
    (leftmost : grammar.DerivesLeftmost [.nonterminal nonterminal] rules (word terminals)) :
    ∃ tree, ofLeftParse grammar rules = .ok tree ∧
      tree.nodes[root]?.map Node.symbol = some (.nonterminal nonterminal) ∧
      tree.frontier = terminals :=
  exists_derive_eq_ok (Order.derives_of_leftmost leftmost)

end DeterministicParsing.DerivationTree
