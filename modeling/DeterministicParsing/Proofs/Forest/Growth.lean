/-
# Trees that stand for a forest

A tree is grown by expanding open nodes. Whatever the order, the rules of a forest, taken in that
order, grow nodes that stand for it: those of a left parse, which take the trees of a body from left
to right, and those of a right parse from last to first, which take them from right to left. Between
the two, nodes that are finished stay as they are, and nodes that are still open stay open. The text
of a tree shows nothing but the forest it stands for, so trees grown in both orders are shown alike.
-/
import DeterministicParsing.Forest
import DeterministicParsing.Proofs.DerivationTree
import DeterministicParsing.Proofs.Forest.Derivation

namespace DeterministicParsing

variable {nodes next final : Array Node} {forest : Forest} {ids touched : List Nat}
  {numbered : List (Nat × Symbol)}

/-! ## Nodes that stay -/

/-- All nodes are kept, except those with the numbers given. -/
def Extends (nodes final : Array Node) (touched : List Nat) : Prop :=
  ∀ id node, nodes[id]? = some node → id ∉ touched → final[id]? = some node

theorem Extends.trans {first second : List Nat} (earlier : Extends nodes next first)
    (later : Extends next final second) : Extends nodes final (first ++ second) := by
  intro id node found absent
  rw [List.mem_append, not_or] at absent
  exact later id node (earlier id node found absent.1) absent.2

/-- A node is waiting to be expanded. -/
def IsWaiting (nodes : Array Node) (id : Nat) : Prop :=
  ∃ nonterminal, nodes[id]? = some ⟨.nonterminal nonterminal, none, []⟩

/-- A forest goes on to stand where it stands while others are expanded. -/
theorem Forest.StandsIn.extends (stands : forest.StandsIn nodes ids)
    (kept : Extends nodes final touched) (waiting : ∀ id ∈ touched, IsWaiting nodes id) :
    forest.StandsIn final ids := by
  induction stands with
  | nil => exact .nil
  | @leaf id _ _ _ found _ ih =>
      refine .leaf (kept id _ found fun member => ?_) ih
      obtain ⟨nonterminal, isWaiting⟩ := waiting id member
      cases found.symm.trans isWaiting
  | @branch id _ _ _ _ _ _ found _ _ belowStands othersStand =>
      refine .branch (kept id _ found fun member => ?_) belowStands othersStand
      obtain ⟨nonterminal, isWaiting⟩ := waiting id member
      cases found.symm.trans isWaiting

namespace DerivationTree

/-- The rules of a forest in the order in which a tree is grown by them. -/
def Order.rulesOf : Order → Forest → List Nat
  | leftmost, forest => forest.leftParse
  | rightmost, forest => forest.rightParse.reverse

namespace Growth

variable {order : Order}

/-- Nodes without children have the numbers and symbols given. -/
structure IsOpen (nodes : Array Node) (numbered : List (Nat × Symbol)) : Prop where
  distinct : (numbered.map Prod.fst).Nodup
  found : ∀ id symbol, (id, symbol) ∈ numbered → nodes[id]? = some ⟨symbol, none, []⟩

/-- The numbers of the nonterminals among numbered symbols. -/
def nonterminalIds (numbered : List (Nat × Symbol)) : List Nat :=
  (nonterminalsOf numbered).map Prod.fst

theorem mem_nonterminalIds {id : Nat} :
    id ∈ nonterminalIds numbered ↔
      ∃ nonterminal, (id, Symbol.nonterminal nonterminal) ∈ numbered := by
  simp [nonterminalIds, mem_nonterminalsOf]

theorem IsOpen.isWaiting (isOpen : IsOpen nodes numbered) {id : Nat}
    (member : id ∈ nonterminalIds numbered) : IsWaiting nodes id := by
  obtain ⟨nonterminal, member⟩ := mem_nonterminalIds.mp member
  exact ⟨nonterminal, isOpen.found id _ member⟩

theorem IsOpen.tail {id : Nat} {symbol : Symbol}
    (isOpen : IsOpen nodes ((id, symbol) :: numbered)) :
    IsOpen nodes numbered ∧ id ∉ numbered.map Prod.fst := by
  obtain ⟨distinct, found⟩ := isOpen
  rw [List.map_cons, List.nodup_cons] at distinct
  exact ⟨⟨distinct.2, fun other value member => found other value (.tail _ member)⟩,
    distinct.1⟩

theorem IsOpen.extends (isOpen : IsOpen nodes numbered) (kept : Extends nodes final touched)
    (absent : ∀ id ∈ numbered.map Prod.fst, id ∉ touched) : IsOpen final numbered :=
  ⟨isOpen.distinct, fun id symbol member =>
    kept id _ (isOpen.found id symbol member) (absent id (List.mem_map_of_mem member))⟩

theorem nonterminalIds_subset {id : Nat} (member : id ∈ nonterminalIds numbered) :
    id ∈ numbered.map Prod.fst := by
  obtain ⟨nonterminal, member⟩ := mem_nonterminalIds.mp member
  exact List.mem_map_of_mem member

/-- What has become of open nodes when the rules of a forest have been applied. -/
structure IsGrown (nodes final : Array Node) (numbered : List (Nat × Symbol)) (forest : Forest) :
    Prop where
  kept : Extends nodes final (nonterminalIds numbered)
  stands : forest.StandsIn final (numbered.map Prod.fst)
  size_eq : final.size + numbered.length = nodes.size + forest.size

/-- The rules of the forest expand open nodes into it and leave the others waiting. -/
def Expands (order : Order) (forest : Forest) (nodes final : Array Node)
    (numbered : List (Nat × Symbol)) (pending : List (Nat × Nat)) : Prop :=
  ∀ (grammar : Grammar) (index : Nat), forest.IsOf grammar →
    ((order.rulesOf forest).zipIdx index).foldlM (expand grammar order)
      ⟨nodes, order.arrange (nonterminalsOf numbered) ++ pending⟩ = .ok ⟨final, pending⟩

/-- A forest can be grown from open nodes wherever its roots are. -/
def Grows (order : Order) (forest : Forest) : Prop :=
  ∀ nodes numbered pending, numbered.map Prod.snd = forest.roots → IsOpen nodes numbered →
    ∃ final, Expands order forest nodes final numbered pending ∧
      IsGrown nodes final numbered forest

theorem grows_nil (order : Order) : Grows order .nil := by
  intro nodes numbered pending form _
  obtain rfl := List.map_eq_nil_iff.mp form
  refine ⟨nodes, fun grammar index _ => ?_, fun _ _ found _ => found, .nil, rfl⟩
  cases order <;> rfl

theorem grows_leaf {terminal : Nat} {others : Forest} (grows : Grows order others) :
    Grows order (.leaf terminal others) := by
  intro nodes numbered pending form isOpen
  obtain ⟨⟨id, symbol⟩, rest, rfl, isTerminal, restForm⟩ := List.map_eq_cons_iff.mp form
  change symbol = .terminal terminal at isTerminal
  subst isTerminal
  obtain ⟨restOpen, absent⟩ := isOpen.tail
  obtain ⟨final, expands, grown⟩ := grows nodes rest pending restForm restOpen
  have found := isOpen.found id _ List.mem_cons_self
  refine ⟨final, fun grammar index isOf => ?_, grown.kept, ?_, ?_⟩
  · cases isOf with
    | leaf _ isOf =>
        have unfolded := expands grammar index isOf
        cases order <;> exact unfolded
  · exact .leaf (grown.kept id _ found fun member => absent (nonterminalIds_subset member))
      grown.stands
  · have sizes := grown.size_eq
    simp only [List.length_cons, Forest.size]
    omega

/-- A single tree is grown from an open node by the rule for its root, and then what is below. -/
theorem exists_expands_tree (rule : Nat) {nonterminal id : Nat} {below : Forest}
    (grows : Grows order below)
    (isOpen : nodes[id]? = some ⟨.nonterminal nonterminal, none, []⟩)
    (pending : List (Nat × Nat)) :
    ∃ final, (∀ (grammar : Grammar) (index : Nat),
        grammar.rules[rule]? = some ⟨nonterminal, below.roots⟩ → below.IsOf grammar →
        ((rule :: order.rulesOf below).zipIdx index).foldlM (expand grammar order)
          ⟨nodes, (id, nonterminal) :: pending⟩ = .ok ⟨final, pending⟩) ∧
      IsGrown nodes final [(id, .nonterminal nonterminal)]
        (.branch rule nonterminal below .nil) := by
  have inRange : id < nodes.size := (Array.getElem?_eq_some_iff.mp isOpen).1
  let inner : Rule := ⟨nonterminal, below.roots⟩
  let grown := attach order nodes pending id rule inner
  have fresh (child : Nat) (member : child ∈ (children nodes inner).map Prod.fst) :
      nodes.size ≤ child := by
    rw [map_fst_children, List.mem_range'_1] at member
    exact member.1
  have childrenOpen : IsOpen grown.nodes (children nodes inner) := by
    refine ⟨?_, fun number symbol => getElem?_attach_of_mem_children inRange⟩
    rw [map_fst_children]
    exact List.nodup_range'
  obtain ⟨final, expands, kept, stands, size_eq⟩ :=
    grows grown.nodes (children nodes inner) pending (map_snd_children nodes inner) childrenOpen
  have notFresh {number : Nat} (old : number < nodes.size) :
      number ∉ nonterminalIds (children nodes inner) := fun member =>
    Nat.not_le.mpr old (fresh number (nonterminalIds_subset member))
  refine ⟨final, fun grammar index found isOf => ?_, ?_, ?_, ?_⟩
  · have attached : expand grammar order ⟨nodes, (id, nonterminal) :: pending⟩ (rule, index) =
        .ok grown := by
      simp only [expand, Arena.rule_eq_ok.mpr found, liftM_ok, ok_bind, if_true, pure_eq_ok]
      rfl
    have isPending : grown.pending =
        order.arrange (nonterminalsOf (children nodes inner)) ++ pending :=
      pending_attach
    have unfolded := expands grammar (index + 1) isOf
    rw [← isPending] at unfolded
    rw [List.zipIdx_cons, List.foldlM_cons, attached, ok_bind]
    exact unfolded
  · intro number node found absent
    have old : number < nodes.size := (Array.getElem?_eq_some_iff.mp found).1
    have other : number ≠ id := fun same => absent (by simp [same, mem_nonterminalIds])
    refine kept number node ?_ (notFresh old)
    rw [getElem?_attach inRange, if_neg other, if_pos old, found]
  · have parent : grown.nodes[id]? =
        some ⟨.nonterminal nonterminal, some rule, (children nodes inner).map Prod.fst⟩ := by
      rw [getElem?_attach inRange, if_pos rfl, map_fst_children]
    exact .branch (kept id _ parent (notFresh inRange)) stands .nil
  · have sizes : grown.nodes.size = nodes.size + inner.body.length := size_attach
    rw [length_children] at size_eq
    simp only [List.length_singleton, Forest.size]
    omega

/-- What is grown first stands while something else is grown from nodes that are still open. -/
theorem IsGrown.andThen {first second : List (Nat × Symbol)} {earlier later : Forest}
    (firstGrown : IsGrown nodes next first earlier) (secondGrown : IsGrown next final second later)
    (isOpen : IsOpen next second) :
    Extends nodes final (nonterminalIds first ++ nonterminalIds second) ∧
      earlier.StandsIn final (first.map Prod.fst) ∧ later.StandsIn final (second.map Prod.fst) ∧
      final.size + (first.length + second.length) = nodes.size + (earlier.size + later.size) := by
  refine ⟨firstGrown.kept.trans secondGrown.kept, ?_, secondGrown.stands, ?_⟩
  · exact firstGrown.stands.extends secondGrown.kept fun id member => isOpen.isWaiting member
  · have firstSize := firstGrown.size_eq
    have secondSize := secondGrown.size_eq
    omega

/-- A tree and a forest next to it, grown in either order, stand side by side. -/
theorem isGrown_branch {rule nonterminal id : Nat} {below others : Forest}
    (kept : Extends nodes final touched)
    (isTouched : ∀ number ∈ touched, number = id ∨ number ∈ nonterminalIds numbered)
    (tree : (Forest.branch rule nonterminal below .nil).StandsIn final [id])
    (rest : others.StandsIn final (numbered.map Prod.fst))
    (size_eq : final.size + (1 + numbered.length) =
      nodes.size + ((Forest.branch rule nonterminal below .nil).size + others.size)) :
    IsGrown nodes final ((id, .nonterminal nonterminal) :: numbered)
      (.branch rule nonterminal below others) := by
  refine ⟨fun number node found absent => kept number node found fun member => ?_, ?_, ?_⟩
  · rcases isTouched number member with rfl | inRest
    · exact absent (mem_nonterminalIds.mpr ⟨nonterminal, List.mem_cons_self⟩)
    · obtain ⟨other, member⟩ := mem_nonterminalIds.mp inRest
      exact absent (mem_nonterminalIds.mpr ⟨other, .tail _ member⟩)
  · cases tree with
    | branch found inside _ => exact .branch found inside rest
  · simp only [List.length_cons, Forest.size] at size_eq ⊢
    omega

/-- The node for the first tree of a forest is open, and so are those for the others. -/
theorem IsOpen.exists_cons {nonterminal : Nat} {roots : List Symbol}
    (isOpen : IsOpen nodes numbered)
    (form : numbered.map Prod.snd = .nonterminal nonterminal :: roots) :
    ∃ id rest, numbered = (id, .nonterminal nonterminal) :: rest ∧ rest.map Prod.snd = roots ∧
      nodes[id]? = some ⟨.nonterminal nonterminal, none, []⟩ ∧ IsOpen nodes rest ∧
      id ∉ rest.map Prod.fst := by
  obtain ⟨⟨id, symbol⟩, rest, rfl, isNonterminal, restForm⟩ := List.map_eq_cons_iff.mp form
  change symbol = .nonterminal nonterminal at isNonterminal
  subst isNonterminal
  exact ⟨id, rest, rfl, restForm, isOpen.found id _ List.mem_cons_self, isOpen.tail⟩

theorem nonterminalIds_singleton (id nonterminal : Nat) :
    nonterminalIds [(id, .nonterminal nonterminal)] = [id] := rfl

/-- From the left, a tree in front of a forest is grown before it. -/
theorem grows_branch_leftmost {rule nonterminal : Nat} {below others : Forest}
    (belowGrows : Grows .leftmost below) (othersGrow : Grows .leftmost others) :
    Grows .leftmost (.branch rule nonterminal below others) := by
  intro nodes numbered pending form isOpen
  obtain ⟨id, rest, rfl, restForm, found, restOpen, absent⟩ := isOpen.exists_cons form
  obtain ⟨between, treeExpands, tree⟩ :=
    exists_expands_tree rule belowGrows found (nonterminalsOf rest ++ pending)
  have stillOpen : IsOpen between rest := restOpen.extends tree.kept fun other member isId =>
    absent (List.mem_singleton.mp (nonterminalIds_singleton id nonterminal ▸ isId) ▸ member)
  obtain ⟨final, othersExpand, grown⟩ := othersGrow between rest pending restForm stillOpen
  obtain ⟨kept, treeStands, othersStand, size_eq⟩ := tree.andThen grown stillOpen
  refine ⟨final, fun grammar index isOf => ?_,
    isGrown_branch kept ?_ treeStands othersStand size_eq⟩
  · cases isOf with
    | branch isRule inside outside =>
        have treeDone := treeExpands grammar index isRule inside
        have split : Order.rulesOf .leftmost (.branch rule nonterminal below others) =
            (rule :: Order.rulesOf .leftmost below) ++ Order.rulesOf .leftmost others := rfl
        rw [split, List.zipIdx_append, List.foldlM_append]
        refine (congrArg (· >>= _) treeDone).trans ?_
        exact othersExpand grammar _ outside
  · intro number member
    rw [nonterminalIds_singleton] at member
    simpa using member

/-- From the right, a tree in front of a forest is grown after it. -/
theorem grows_branch_rightmost {rule nonterminal : Nat} {below others : Forest}
    (belowGrows : Grows .rightmost below) (othersGrow : Grows .rightmost others) :
    Grows .rightmost (.branch rule nonterminal below others) := by
  intro nodes numbered pending form isOpen
  obtain ⟨id, rest, rfl, restForm, found, restOpen, absent⟩ := isOpen.exists_cons form
  obtain ⟨between, othersExpand, grown⟩ :=
    othersGrow nodes rest ((id, nonterminal) :: pending) restForm restOpen
  have stillOpen : between[id]? = some ⟨.nonterminal nonterminal, none, []⟩ :=
    grown.kept id _ found fun member => absent (nonterminalIds_subset member)
  obtain ⟨final, treeExpands, tree⟩ := exists_expands_tree rule belowGrows stillOpen pending
  have singleOpen : IsOpen between [(id, .nonterminal nonterminal)] := by
    refine ⟨List.nodup_singleton id, fun other symbol member => ?_⟩
    cases List.mem_singleton.mp member
    exact stillOpen
  obtain ⟨kept, othersStand, treeStands, size_eq⟩ := grown.andThen tree singleOpen
  rw [Nat.add_comm rest.length, Nat.add_comm others.size] at size_eq
  refine ⟨final, fun grammar index isOf => ?_,
    isGrown_branch kept ?_ treeStands othersStand size_eq⟩
  · cases isOf with
    | branch isRule inside outside =>
        have othersDone := othersExpand grammar index outside
        have split : Order.rulesOf .rightmost (.branch rule nonterminal below others) =
            Order.rulesOf .rightmost others ++ rule :: Order.rulesOf .rightmost below := by
          simp [Order.rulesOf, Forest.rightParse]
        have arranged : Order.arrange .rightmost
              (nonterminalsOf ((id, .nonterminal nonterminal) :: rest)) ++ pending =
            Order.arrange .rightmost (nonterminalsOf rest) ++ (id, nonterminal) :: pending := by
          simp [Order.arrange, nonterminalsOf]
        rw [split, List.zipIdx_append, List.foldlM_append, arranged]
        refine (congrArg (· >>= _) othersDone).trans ?_
        exact treeExpands grammar _ isRule inside
  · intro number member
    rw [nonterminalIds_singleton] at member
    simpa [or_comm] using member

/-- Every forest grows, in either order. -/
theorem grows (order : Order) (forest : Forest) : Grows order forest := by
  induction forest with
  | nil => exact grows_nil order
  | leaf terminal others ih => exact grows_leaf ih
  | branch rule nonterminal below others belowGrows othersGrow =>
      cases order with
      | leftmost => exact grows_branch_leftmost belowGrows othersGrow
      | rightmost => exact grows_branch_rightmost belowGrows othersGrow

end Growth

/-- The rules of a single tree, in either order, grow nodes that stand for it. -/
theorem exists_derive_eq_ok_of_roots (order : Order) {forest : Forest} {nonterminal : Nat}
    (isTree : forest.roots = [.nonterminal nonterminal]) :
    ∃ tree, forest.StandsIn tree.nodes [root] ∧ tree.nodes.size = forest.size ∧
      ∀ grammar, forest.IsOf grammar →
        derive grammar order (order.rulesOf forest) = .ok tree := by
  obtain ⟨final, expands, grown⟩ := Growth.grows order forest
    (Growth.ofRoot nonterminal).nodes [(root, .nonterminal nonterminal)] [] isTree.symm
    ⟨List.nodup_singleton root,
      fun id symbol member => by cases List.mem_singleton.mp member; rfl⟩
  refine ⟨⟨final⟩, grown.stands, ?_, fun grammar isOf => ?_⟩
  · have size_eq : final.size + 1 = 1 + forest.size := grown.size_eq
    show final.size = forest.size
    omega
  · have folded := expands grammar 0 isOf
    have isRoot : (⟨(Growth.ofRoot nonterminal).nodes,
        order.arrange (Growth.nonterminalsOf [(root, .nonterminal nonterminal)]) ++ []⟩ :
          Growth) =
        .ofRoot nonterminal := by
      cases order <;> rfl
    rw [isRoot] at folded
    obtain ⟨rule, rest, isRules, found⟩ : ∃ rule rest, order.rulesOf forest = rule :: rest ∧
        ∃ body, grammar.rules[rule]? = some ⟨nonterminal, body⟩ := by
      cases isOf with
      | nil => cases isTree
      | leaf => cases (List.cons.inj isTree).1
      | @branch rule _ below others found inside _ =>
          obtain ⟨isHead, noOthers⟩ := List.cons.inj isTree
          cases isHead
          obtain rfl : others = .nil := @Forest.eq_ofWord others [] noOthers
          refine ⟨rule, order.rulesOf below, ?_, below.roots, found⟩
          cases order <;> simp [Order.rulesOf, Forest.leftParse, Forest.rightParse]
    obtain ⟨body, found⟩ := found
    rw [isRules] at folded ⊢
    simp only [derive, Arena.rule_eq_ok.mpr found, liftM_ok, ok_bind, folded, List.isEmpty_nil,
      if_true, pure_eq_ok]

/-! ## The text of a tree -/

/-- What the text of a tree shows of a node: its symbol, whether its body is empty, and its
depth. -/
def shape (entry : Node × Nat) : Symbol × Bool × Nat :=
  (entry.1.symbol, entry.1.rule.isSome && entry.1.children.isEmpty, entry.2)

end DerivationTree

/-- What the text of a tree shows of the nodes of a forest, each before those below it. -/
def Forest.outline : Nat → Forest → List (Symbol × Bool × Nat)
  | _, .nil => []
  | depth, .leaf terminal others => (.terminal terminal, false, depth) :: others.outline depth
  | depth, .branch _ nonterminal below others =>
      (.nonterminal nonterminal, below.roots.isEmpty, depth) ::
        (below.outline (depth + 1) ++ others.outline depth)

namespace DerivationTree

theorem length_eq_of_standsIn (stands : forest.StandsIn nodes ids) :
    ids.length = forest.roots.length := by
  induction stands with
  | nil => rfl
  | leaf _ _ ih => rw [List.length_cons, ih]; rfl
  | branch _ _ _ _ ih => rw [List.length_cons, ih]; rfl

/-- What is read off a node and its depth is read off the root of a forest that it stands for:
before what is read off the forest below the root, and then the trees next to it. -/
structure Reads {β : Type} (view : Node × Nat → List β)
    (views : Nat → Forest → List β) : Prop where
  nil : ∀ depth, views depth .nil = []
  leaf : ∀ depth terminal others, views depth (.leaf terminal others) =
    view (⟨.terminal terminal, none, []⟩, depth) ++ views depth others
  branch : ∀ depth rule nonterminal (below others : Forest) (children : List Nat),
    children.length = below.roots.length →
    views depth (.branch rule nonterminal below others) =
      view (⟨.nonterminal nonterminal, some rule, children⟩, depth) ++
        (views (depth + 1) below ++ views depth others)

/-- The nodes that stand for a forest are visited in the order in which the forest is read. -/
theorem Reads.flatMap_preorderFrom {β : Type} {view : Node × Nat → List β}
    {views : Nat → Forest → List β} (reads : Reads view views)
    (stands : forest.StandsIn nodes ids) (depth bound : Nat) (waiting : List (Nat × Nat)) :
    ((⟨nodes⟩ : DerivationTree).preorderFrom (forest.size + bound)
        (ids.map (fun id => (id, depth)) ++ waiting)).flatMap view =
      views depth forest ++
        ((⟨nodes⟩ : DerivationTree).preorderFrom bound waiting).flatMap view := by
  induction stands generalizing depth bound waiting with
  | nil => simp [Forest.size, reads.nil]
  | @leaf id terminal others ids found _ ih =>
      rw [Forest.size, Nat.add_right_comm, reads.leaf, List.append_assoc]
      simp only [List.map_cons, List.cons_append, preorderFrom, found, List.map_nil,
        List.nil_append, List.flatMap_cons, ih]
  | @branch id rule nonterminal below others children ids found inside _
      belowVisited othersVisited =>
      have countsAll : below.size + others.size + 1 + bound =
          below.size + (others.size + bound) + 1 := by omega
      rw [Forest.size, countsAll, reads.branch depth rule nonterminal below others children
        (length_eq_of_standsIn inside)]
      simp only [List.map_cons, List.cons_append, preorderFrom, found, List.flatMap_cons,
        belowVisited, othersVisited, List.append_assoc]

theorem Reads.flatMap_preorder {β : Type} {view : Node × Nat → List β}
    {views : Nat → Forest → List β} (reads : Reads view views) {tree : DerivationTree}
    (stands : forest.StandsIn tree.nodes [root]) (size_eq : tree.nodes.size = forest.size) :
    tree.preorder.flatMap view = views 0 forest := by
  have visited := reads.flatMap_preorderFrom stands 0 0 []
  rw [preorder, size_eq]
  simpa [preorderFrom] using visited

theorem reads_shape : Reads (fun entry => [shape entry]) Forest.outline where
  nil _ := rfl
  leaf _ _ _ := rfl
  branch depth rule nonterminal below others children length_eq := by
    have isEmpty : children.isEmpty = below.roots.isEmpty := by
      rw [Bool.eq_iff_iff, List.isEmpty_iff_length_eq_zero,
        List.isEmpty_iff_length_eq_zero, length_eq]
    simp [Forest.outline, shape, isEmpty]

theorem map_shape_preorder {tree : DerivationTree} (stands : forest.StandsIn tree.nodes [root])
    (size_eq : tree.nodes.size = forest.size) : tree.preorder.map shape = forest.outline 0 := by
  rw [List.map_eq_flatMap]
  exact reads_shape.flatMap_preorder stands size_eq

/-- The lines of a node by its shape. -/
def shapeLines (grammar : Grammar) (shape : Symbol × Bool × Nat) :
    Except Fault (List String) := do
  let line := indent shape.2.2 ++ (← grammar.symbolName shape.1)
  if shape.2.1 then
    return [line, indent (shape.2.2 + 1) ++ Grammar.emptyText]
  else
    return [line]

/-- The text of a tree depends on its outline only. -/
theorem text_eq {tree : DerivationTree} (stands : forest.StandsIn tree.nodes [root])
    (size_eq : tree.nodes.size = forest.size) (grammar : Grammar) :
    tree.text grammar = (do
      let lines ← (forest.outline 0).mapM (shapeLines grammar)
      return "\n".intercalate lines.flatten) := by
  rw [← map_shape_preorder stands size_eq, List.mapM_map]
  rfl

end DerivationTree

/-- All symbols of a forest are declared if its roots are. -/
theorem Forest.IsOf.declares {grammar : Grammar} (isOf : forest.IsOf grammar)
    (bodies : grammar.BodiesDeclared)
    (declared : ∀ symbol ∈ forest.roots, grammar.Declares symbol) {depth : Nat}
    {entry : Symbol × Bool × Nat} (member : entry ∈ forest.outline depth) :
    grammar.Declares entry.1 := by
  induction isOf generalizing depth with
  | nil => cases member
  | leaf terminal _ ih =>
      obtain ⟨terminalDeclared, othersDeclared⟩ := List.forall_mem_cons.mp declared
      rcases List.mem_cons.mp member with rfl | inOthers
      · exact terminalDeclared
      · exact ih othersDeclared inOthers
  | branch found _ _ below rest =>
      obtain ⟨headDeclared, othersDeclared⟩ := List.forall_mem_cons.mp declared
      rcases List.mem_cons.mp member with rfl | inside
      · exact headDeclared
      · rcases List.mem_append.mp inside with inBelow | inOthers
        · exact below (bodies _ (List.mem_of_getElem? found)) inBelow
        · exact rest othersDeclared inOthers

/-- All trees that stand for a forest have the same text, in every grammar that has the same names
for its symbols. -/
theorem DerivationTree.exists_text_eq_ok {grammar : Grammar} (isOf : forest.IsOf grammar)
    (bodies : grammar.BodiesDeclared)
    (declared : ∀ symbol ∈ forest.roots, grammar.Declares symbol) :
    ∃ text, ∀ (used : Grammar) (tree : DerivationTree),
      (∀ symbol, grammar.Declares symbol →
        used.symbolName symbol = grammar.symbolName symbol) →
      forest.StandsIn tree.nodes [root] → tree.nodes.size = forest.size →
        tree.text used = .ok text := by
  have total : ∀ entry ∈ forest.outline 0, ∃ lines,
      shapeLines grammar entry = .ok lines ∧ True := by
    intro entry member
    obtain ⟨name, named⟩ :=
      Grammar.exists_symbolName_eq_ok (isOf.declares bodies declared member)
    rw [shapeLines, named, ok_bind]
    split <;> exact ⟨_, rfl, trivial⟩
  obtain ⟨lines, computed, _⟩ := exists_mapM_eq_ok total
  refine ⟨"\n".intercalate lines.flatten, fun used tree sameNames stands size_eq => ?_⟩
  have sameLines : (forest.outline 0).mapM (shapeLines used) =
      (forest.outline 0).mapM (shapeLines grammar) := by
    refine mapM_congr fun entry member => ?_
    rw [shapeLines, shapeLines, sameNames _ (isOf.declares bodies declared member)]
  rw [text_eq stands size_eq, sameLines, computed, ok_bind, pure_eq_ok]

end DeterministicParsing
