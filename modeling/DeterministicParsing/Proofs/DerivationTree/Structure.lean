/-
# Trees that are grown are trees

A tree is kept as an array of nodes with the numbers of their children. Growing it adds the children
of one node at a time, at the end, to a node that had none. So each node but the root gets its
parent when it is added, and no other later; parents come before their children. A node that has
been expanded has the body of its rule below it, and one that has not is a terminal or waits to be
expanded, so that when none waits the array is the tree of a derivation. It has a node for the root
and one for each symbol of the bodies.
-/
import DeterministicParsing.Proofs.DerivationTree

namespace DeterministicParsing

variable {grammar : Grammar} {order : DerivationTree.Order} {nodes : Array Node}
  {id parent child : Nat}

/-! ## Nodes of a tree -/

/-- A node is among the children of another one. -/
def Node.IsChild (nodes : Array Node) (parent child : Nat) : Prop :=
  ∃ node, nodes[parent]? = some node ∧ child ∈ node.children

/-- A node is a terminal without children, or a rule has been applied to its nonterminal and its
children spell the body. -/
inductive Node.Fits (grammar : Grammar) (nodes : Array Node) : Node → Prop where
  | leaf (terminal : Nat) : Fits grammar nodes ⟨.terminal terminal, none, []⟩
  | branch {id : Nat} {rule : Rule} {children : List Nat} (found : grammar.rules[id]? = some rule)
      (spells : children.map (fun child => nodes[child]?.map Node.symbol) = rule.body.map some) :
      Fits grammar nodes ⟨.nonterminal rule.head, some id, children⟩

/-- Numbered nodes form a tree: there is a root, every other node is a child of exactly one node, in
one place and of a node with a smaller number, and nothing else is a child. -/
structure Node.AreTree (nodes : Array Node) : Prop where
  root_lt : DerivationTree.root < nodes.size
  children_nodup : ∀ (id : Nat) (node : Node), nodes[id]? = some node → node.children.Nodup
  lt_of_isChild : ∀ parent child, IsChild nodes parent child →
    parent < child ∧ child < nodes.size
  existsUnique_parent : ∀ id < nodes.size, id ≠ DerivationTree.root →
    ∃! parent, IsChild nodes parent id

namespace DerivationTree

/-- The nodes form a tree, and each of them is as the grammar wants it. -/
structure IsTreeOf (grammar : Grammar) (tree : DerivationTree) : Prop
    extends Node.AreTree tree.nodes where
  fits : ∀ (id : Nat) (node : Node), tree.nodes[id]? = some node → node.Fits grammar tree.nodes

/-- The number of symbols in the bodies of rules. -/
def bodyLength (grammar : Grammar) (rules : List Nat) : Nat :=
  (rules.map fun id => (grammar.rules[id]?.map fun rule => rule.body.length).getD 0).sum

namespace Growth

variable {growth next : Growth} {pending : List (Nat × Nat)} {node : Nat} {rule : Rule}

/-! ## One expansion -/

/-- An expansion adds a node for each symbol of the body, and they have the symbols of the body. The
symbols of the others stay as they are. -/
theorem map_symbol_attach (isOpen : nodes[node]? = some ⟨.nonterminal rule.head, none, []⟩)
    (index : Nat) :
    (attach order nodes pending node id rule).nodes[index]?.map Node.symbol =
      if index < nodes.size then nodes[index]?.map Node.symbol
          else rule.body[index - nodes.size]? := by
  have inRange : node < nodes.size := (Array.getElem?_eq_some_iff.mp isOpen).1
  rw [getElem?_attach inRange]
  by_cases isNode : index = node
  · rw [if_pos isNode, isNode, if_pos inRange, isOpen]
    rfl
  · rw [if_neg isNode]
    split
    · rfl
    · rw [Option.map_map]
      exact congrFun Option.map_id_fun' _

/-- The children that are added are those of the node that is expanded. -/
theorem isChild_attach (isOpen : nodes[node]? = some ⟨.nonterminal rule.head, none, []⟩) :
    Node.IsChild (attach order nodes pending node id rule).nodes parent child ↔
      Node.IsChild nodes parent child ∨
        (parent = node ∧ nodes.size ≤ child ∧ child < nodes.size + rule.body.length) := by
  have inRange : node < nodes.size := (Array.getElem?_eq_some_iff.mp isOpen).1
  constructor
  · rintro ⟨found, isFound, isChild⟩
    rcases eq_of_getElem?_attach inRange isFound with ⟨rfl, rfl⟩ | isOld | ⟨symbol, _, rfl⟩
    · exact .inr ⟨rfl, List.mem_range'_1.mp isChild⟩
    · exact .inl ⟨found, isOld, isChild⟩
    · cases isChild
  · rintro (⟨found, isFound, isChild⟩ | ⟨rfl, isNew⟩)
    · have other : parent ≠ node := by
        rintro rfl
        cases isOpen.symm.trans isFound
        cases isChild
      refine ⟨found, ?_, isChild⟩
      rw [getElem?_attach inRange, if_neg other,
        if_pos (Array.getElem?_eq_some_iff.mp isFound).1, isFound]
    · refine ⟨_, (getElem?_attach inRange parent).trans (if_pos rfl), ?_⟩
      exact List.mem_range'_1.mpr isNew

theorem sublist_nonterminalsOf (numbered : List (Nat × Symbol)) :
    ((nonterminalsOf numbered).map Prod.fst).Sublist (numbered.map Prod.fst) := by
  induction numbered with
  | nil => exact .slnil
  | cons entry rest ih =>
      obtain ⟨number, symbol⟩ := entry
      cases symbol with
      | terminal terminal => exact ih.cons number
      | nonterminal nonterminal => exact ih.cons_cons number

/-- A node whose children are there still fits when another one is expanded. -/
theorem fits_attach {value : Node} (fits : value.Fits grammar nodes)
    (inside : ∀ child ∈ value.children, child < nodes.size)
    (isOpen : nodes[node]? = some ⟨.nonterminal rule.head, none, []⟩) :
    value.Fits grammar (attach order nodes pending node id rule).nodes := by
  cases fits with
  | leaf terminal => exact .leaf terminal
  | branch found spells =>
      refine .branch found (Eq.trans (List.map_congr_left fun child isChild => ?_) spells)
      rw [map_symbol_attach isOpen, if_pos (inside child isChild)]

/-- The node that is expanded fits. -/
theorem fits_parent (found : grammar.rules[id]? = some rule)
    (isOpen : nodes[node]? = some ⟨.nonterminal rule.head, none, []⟩) :
    Node.Fits grammar (attach order nodes pending node id rule).nodes
      ⟨.nonterminal rule.head, some id, List.range' nodes.size rule.body.length⟩ := by
  refine .branch found (List.ext_getElem (by simp) fun place inRange inBody => ?_)
  rw [List.length_map] at inBody
  rw [List.getElem_map, List.getElem_range', map_symbol_attach isOpen, if_neg (by omega),
    List.getElem_map, ← List.getElem?_eq_getElem inBody]
  congr 1
  omega

/-- The nodes are a tree again when one of them has been expanded: what is new is below that
node. -/
theorem areTree_attach (tree : Node.AreTree nodes)
    (isOpen : nodes[node]? = some ⟨.nonterminal rule.head, none, []⟩) :
    Node.AreTree (attach order nodes pending node id rule).nodes := by
  have inRange : node < nodes.size := (Array.getElem?_eq_some_iff.mp isOpen).1
  refine ⟨?_, fun index found isFound => ?_, fun parent child isChild => ?_,
    fun child isNode other => ?_⟩
  · rw [size_attach]
    exact Nat.lt_add_right _ tree.root_lt
  · rcases eq_of_getElem?_attach inRange isFound with ⟨_, rfl⟩ | isOld | ⟨symbol, _, rfl⟩
    · exact List.nodup_range'
    · exact tree.children_nodup index found isOld
    · exact .nil
  · rw [size_attach]
    rcases (isChild_attach isOpen).mp isChild with isOld | ⟨rfl, isNew, isLast⟩
    · obtain ⟨isLater, isNode⟩ := tree.lt_of_isChild parent child isOld
      exact ⟨isLater, Nat.lt_add_right _ isNode⟩
    · exact ⟨Nat.lt_of_lt_of_le inRange isNew, isLast⟩
  · rw [size_attach] at isNode
    simp only [isChild_attach isOpen]
    by_cases isOld : child < nodes.size
    · obtain ⟨parent, isParent, unique⟩ := tree.existsUnique_parent child isOld other
      refine ⟨parent, .inl isParent, ?_⟩
      rintro second (isSecond | ⟨_, isNew, _⟩)
      · exact unique second isSecond
      · exact absurd isOld (Nat.not_lt.mpr isNew)
    · refine ⟨node, .inr ⟨rfl, Nat.not_lt.mp isOld, isNode⟩, ?_⟩
      rintro second (isSecond | ⟨rfl, _⟩)
      · exact absurd (tree.lt_of_isChild second child isSecond).2 isOld
      · rfl

/-! ## Trees that are being grown -/

/-- The nodes form a tree. Those that wait have not been expanded, wait once, and are the only ones
that do not fit. -/
structure IsBranching (grammar : Grammar) (growth : Growth) :
    Prop extends Node.AreTree growth.nodes where
  pending_nodup : (growth.pending.map Prod.fst).Nodup
  isOpen : ∀ id nonterminal, (id, nonterminal) ∈ growth.pending →
    growth.nodes[id]? = some ⟨.nonterminal nonterminal, none, []⟩
  fits : ∀ (id : Nat) (node : Node), growth.nodes[id]? = some node →
    (∃ nonterminal, (id, nonterminal) ∈ growth.pending) ∨ node.Fits grammar growth.nodes

/-- A node that waits after the first one is there, and another one. -/
theorem IsBranching.lt_and_ne {nonterminal : Nat}
    (branching : IsBranching grammar ⟨nodes, (node, nonterminal) :: pending⟩)
    {entry : Nat × Nat} (member : entry ∈ pending) :
    entry.1 < nodes.size ∧ entry.1 ≠ node := by
  have waits := branching.isOpen entry.1 entry.2 (.tail _ member)
  refine ⟨(Array.getElem?_eq_some_iff.mp waits).1, ?_⟩
  rintro rfl
  exact (List.nodup_cons.mp branching.pending_nodup).1 (List.mem_map.mpr ⟨entry, member, rfl⟩)

theorem isBranching_ofRoot (grammar : Grammar) (nonterminal : Nat) :
    IsBranching grammar (ofRoot nonterminal) := by
  have isRoot {index : Nat} {found : Node}
    (isFound : (ofRoot nonterminal).nodes[index]? = some found) :
      index = root ∧ found = ⟨.nonterminal nonterminal, none, []⟩ := by
    obtain ⟨inRange, same⟩ := Array.getElem?_eq_some_iff.mp isFound
    obtain rfl := Nat.lt_one_iff.mp inRange
    exact ⟨rfl, same.symm⟩
  have noChild {parent child : Nat} : ¬ Node.IsChild (ofRoot nonterminal).nodes parent child := by
    rintro ⟨found, isFound, isChild⟩
    rw [(isRoot isFound).2] at isChild
    cases isChild
  refine ⟨⟨Nat.one_pos, fun id found isFound => ?_, fun _ _ isChild => absurd isChild noChild,
    fun id inRange other => absurd (Nat.lt_one_iff.mp inRange) other⟩,
      List.nodup_singleton _, ?_, ?_⟩
  · rw [(isRoot isFound).2]
    exact .nil
  · intro id other member
    cases List.mem_singleton.mp member
    rfl
  · intro id found isFound
    obtain ⟨rfl, -⟩ := isRoot isFound
    exact .inl ⟨nonterminal, .head _⟩

/-- After an expansion, the nonterminals of the body wait in front of the others. No node waits
twice, as the numbers of the first ones are new. -/
theorem IsBranching.nodup_pending_attach {nonterminal : Nat}
    (branching : IsBranching grammar ⟨nodes, (node, nonterminal) :: pending⟩) :
    ((attach order nodes pending node id rule).pending.map Prod.fst).Nodup := by
  rw [pending_attach, List.map_append]
  refine List.nodup_append.mpr ⟨?_, (List.nodup_cons.mp branching.pending_nodup).2, ?_⟩
  · rw [((order.perm_arrange _).map Prod.fst).nodup_iff]
    refine (sublist_nonterminalsOf _).nodup ?_
    rw [map_fst_children]
    exact List.nodup_range'
  · intro fresh isFresh waiting waits same
    obtain ⟨first, member, rfl⟩ := List.mem_map.mp isFresh
    obtain ⟨second, inRest, rfl⟩ := List.mem_map.mp waits
    obtain ⟨isNew, -⟩ := mem_children.mp (mem_nonterminalsOf.mp (Order.mem_arrange.mp member))
    have isOld := (branching.lt_and_ne inRest).1
    omega

/-- The nodes after an expansion wait or fit, as they did before, and so do the new ones. -/
theorem IsBranching.waits_or_fits_attach
    (branching : IsBranching grammar ⟨nodes, (node, rule.head) :: pending⟩)
    (found : grammar.rules[id]? = some rule) {number : Nat} {value : Node}
    (isFound : (attach order nodes pending node id rule).nodes[number]? = some value) :
    (∃ nonterminal,
      (number, nonterminal) ∈ (attach order nodes pending node id rule).pending) ∨
      value.Fits grammar (attach order nodes pending node id rule).nodes := by
  have isOpen := branching.isOpen node rule.head (.head _)
  have inRange : node < nodes.size := (Array.getElem?_eq_some_iff.mp isOpen).1
  rw [getElem?_attach inRange] at isFound
  simp only [pending_attach, List.mem_append, Order.mem_arrange, mem_nonterminalsOf]
  split at isFound
  · cases isFound
    exact .inr (fits_parent found isOpen)
  · rename_i isOther
    split at isFound <;> rename_i isOld
    · rcases branching.fits number value isFound with ⟨nonterminal, waits⟩ | fits
      · rcases List.mem_cons.mp waits with same | waits
        · exact absurd (congrArg Prod.fst same) isOther
        · exact .inl ⟨nonterminal, .inr waits⟩
      · refine .inr (fits_attach fits (fun child isChild => ?_) isOpen)
        exact (branching.lt_of_isChild number child ⟨value, isFound, isChild⟩).2
    · obtain ⟨symbol, inBody, rfl⟩ := Option.map_eq_some_iff.mp isFound
      cases symbol with
      | terminal terminal => exact .inr (.leaf terminal)
      | nonterminal nonterminal =>
          exact .inl ⟨nonterminal, .inl (mem_children.mpr ⟨Nat.not_lt.mp isOld, inBody⟩)⟩

/-- The tree stays one when the next node is expanded. -/
theorem IsBranching.attach
    (branching : IsBranching grammar ⟨nodes, (node, rule.head) :: pending⟩)
    (found : grammar.rules[id]? = some rule) :
    IsBranching grammar (attach order nodes pending node id rule) := by
  have isOpen := branching.isOpen node rule.head (.head _)
  have inRange : node < nodes.size := (Array.getElem?_eq_some_iff.mp isOpen).1
  refine ⟨areTree_attach branching.toAreTree isOpen, branching.nodup_pending_attach,
    fun number nonterminal member => ?_, fun number value => branching.waits_or_fits_attach found⟩
  rw [pending_attach, List.mem_append, Order.mem_arrange] at member
  rcases member with isNew | waits
  · exact getElem?_attach_of_mem_children inRange (mem_nonterminalsOf.mp isNew)
  · obtain ⟨isOld, isOther⟩ := branching.lt_and_ne waits
    rw [getElem?_attach inRange, if_neg isOther, if_pos isOld]
    exact branching.isOpen number nonterminal (.tail _ waits)

theorem IsBranching.of_expand_eq_ok {step : Nat × Nat} (branching : IsBranching grammar growth)
    (expands : expand grammar order growth step = .ok next) : IsBranching grammar next := by
  obtain ⟨node, rule, pending, isPending, found, rfl⟩ := exists_attach_of_expand_eq_ok expands
  obtain ⟨nodes, _⟩ := growth
  obtain rfl := isPending
  exact branching.attach found

/-- Expansions add as many nodes as the bodies of their rules have symbols. -/
theorem size_of_foldlM_eq_ok {rules : List Nat} {index : Nat} {final : Growth}
    (folded : (rules.zipIdx index).foldlM (expand grammar order) growth = .ok final) :
    final.nodes.size = growth.nodes.size + bodyLength grammar rules := by
  induction rules generalizing growth index with
  | nil =>
      cases folded
      rfl
  | cons id rest ih =>
      rw [List.zipIdx_cons, List.foldlM_cons] at folded
      obtain ⟨next, expands, others⟩ := exists_of_bind_eq_ok folded
      obtain ⟨node, rule, pending, -, found, rfl⟩ := exists_attach_of_expand_eq_ok expands
      change grammar.rules[id]? = some rule at found
      rw [ih others, size_attach, bodyLength, bodyLength, List.map_cons,
        List.sum_cons, found, Nat.add_assoc]
      rfl

end Growth

/-! ## Trees that have been grown -/

/-- A tree that can be grown is the tree of a derivation. -/
theorem isTreeOf_of_derive_eq_ok {rules : List Nat} {tree : DerivationTree}
    (derived : derive grammar order rules = .ok tree) : tree.IsTreeOf grammar := by
  obtain ⟨top, -, folded⟩ := exists_foldlM_of_derive_eq_ok derived
  have branching :=
    holds_of_foldlM_eq_ok (fun _ _ _ branching expands => branching.of_expand_eq_ok expands)
      (Growth.isBranching_ofRoot grammar top.head) folded
  refine ⟨branching.toAreTree, fun id node isFound => ?_⟩
  rcases branching.fits id node isFound with ⟨_, impossible⟩ | fits
  · cases impossible
  · exact fits

/-- It has a node for the root and one for each symbol of the bodies. -/
theorem size_of_derive_eq_ok {rules : List Nat} {tree : DerivationTree}
    (derived : derive grammar order rules = .ok tree) :
    tree.nodes.size = 1 + bodyLength grammar rules := by
  obtain ⟨top, -, folded⟩ := exists_foldlM_of_derive_eq_ok derived
  exact Growth.size_of_foldlM_eq_ok folded

theorem bodyLength_reverse (grammar : Grammar) (rules : List Nat) :
    bodyLength grammar rules.reverse = bodyLength grammar rules := by
  rw [bodyLength, List.map_reverse, List.sum_reverse, bodyLength]

end DerivationTree

end DeterministicParsing
