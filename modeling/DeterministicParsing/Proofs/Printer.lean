/-
# What is declared can be written

Writing faults where it comes upon a symbol or a rule that is not declared, or a marker beyond the
end of a body. The symbols of the bodies of a well-formed grammar are declared, and so is everything
in an automaton that is built for it: its items are items of the grammar, their lookaheads are
terminals of the bodies or the end of the input, and there are transitions only on symbols that some
item expects. While a tree is grown, its nodes carry declared symbols only, and the children of a
node are among the nodes after it.
-/
import DeterministicParsing.Grammar.Printer
import DeterministicParsing.Automaton.Printer
import DeterministicParsing.Proofs.Fault
import DeterministicParsing.Proofs.Automaton.Build
import DeterministicParsing.Proofs.DerivationTree

namespace DeterministicParsing

variable {grammar : Grammar}

/-! ## Grammars -/

namespace Grammar

variable {id : Nat} {rule : Rule}

theorem returns_symbolName {symbol : Symbol} (declared : grammar.Declares symbol) :
    Returns (grammar.symbolName symbol) :=
  exists_symbolName_eq_ok declared

theorem returns_terminalName (declared : grammar.Declares (.terminal id)) :
    Returns (grammar.terminalName id) :=
  exists_symbolName_eq_ok declared

theorem returns_nonterminalName (declared : grammar.Declares (.nonterminal id)) :
    Returns (grammar.nonterminalName id) :=
  exists_symbolName_eq_ok declared

theorem returns_sentenceText {symbols : List Symbol}
    (declared : ∀ symbol ∈ symbols, grammar.Declares symbol) :
    Returns (grammar.sentenceText symbols) :=
  (Returns.mapM fun symbol member => returns_symbolName (declared symbol member)).bind
    fun _ _ => .ok _

theorem returns_terminalsText {terminals : List Nat}
    (declared : ∀ terminal ∈ terminals, grammar.Declares (.terminal terminal)) :
    Returns (grammar.terminalsText terminals) :=
  (Returns.mapM fun terminal member => returns_terminalName (declared terminal member)).bind
    fun _ _ => .ok _

/-- The rules of a grammar with declared bodies can be written. -/
theorem BodiesDeclared.returns_ruleIdText (bodies : grammar.BodiesDeclared)
    (found : grammar.rules[id]? = some rule) : Returns (grammar.ruleIdText id) := by
  have member := List.mem_of_getElem? found
  rw [ruleIdText, Arena.rule_eq_ok.mpr found, ok_bind]
  refine (returns_nonterminalName (grammar.head_lt rule member)).bind fun _ _ => ?_
  exact (returns_sentenceText (bodies rule member)).bind fun _ _ => .ok _

/-- All declared terminals can be written. -/
theorem returns_mapM_terminalName (grammar : Grammar) :
    Returns (grammar.terminals.mapM grammar.terminalName) :=
  .mapM fun _ member => returns_terminalName (List.mem_range.mp member)

end Grammar

/-! ## Items and states -/

/-- An item of the grammar with declared lookaheads can be written. -/
theorem Item.returns_text {item : Item} (bodies : grammar.BodiesDeclared)
    (has : grammar.HasCore item.core)
    (lookaheads : ∀ set, item.lookahead = some set →
      ∀ terminal ∈ set, grammar.Declares (.terminal terminal)) :
        Returns (item.text grammar) := by
  obtain ⟨rule, found, within⟩ := has
  have member := List.mem_of_getElem? found
  have names (symbols : List Symbol) (part : symbols ⊆ rule.body) :
      Returns (symbols.mapM grammar.symbolName) :=
    .mapM fun symbol inside => Grammar.returns_symbolName (bodies rule member symbol (part inside))
  have lookaheadText : Returns (lookaheadText grammar item.lookahead) := by
    cases isLookahead : item.lookahead with
    | none => exact .ok _
    | some set =>
        refine Returns.bind (.mapM fun terminal inside => ?_) fun _ _ => .ok _
        exact Grammar.returns_terminalName
          (lookaheads set isLookahead terminal (TerminalSet.mem_toList.mp inside))
  rw [text, Arena.rule_eq_ok.mpr found, ok_bind]
  refine (Grammar.returns_nonterminalName (grammar.head_lt rule member)).bind fun _ _ => ?_
  rw [if_neg (Nat.not_lt.mpr within)]
  refine (names _ (List.take_subset _ _)).bind fun _ _ => ?_
  refine (names _ (List.drop_subset _ _)).bind fun _ _ => ?_
  exact lookaheadText.bind fun _ _ => .ok _

namespace Automaton.IsBuilt

variable {kind : AutomatonKind} {start accept target id : Nat} {automaton : Automaton}
  {state : State}

/-- The symbol of a transition is declared. -/
theorem declares_of_transition (bodies : grammar.BodiesDeclared)
    (built : automaton.IsBuilt kind grammar accept) (found : automaton.states[id]? = some state)
    {symbol : Symbol} {next : Nat} (transition : state.transitions.find? symbol = some next) :
    grammar.Declares symbol := by
  obtain ⟨core, rest, _, expects⟩ := built.exists_expects found transition
  exact expects.declares bodies (.head _)

/-- A transition leads to a state. -/
theorem lt_of_transition (built : automaton.IsBuilt kind grammar accept)
    (found : automaton.states[id]? = some state) {symbol : Symbol} {next : Nat}
    (transition : state.transitions.find? symbol = some next) : next < automaton.states.length := by
  obtain ⟨_, foundNext, _⟩ := built.isSound.transitions id state symbol next found transition
  exact (List.getElem?_eq_some_iff.mp foundNext).1

theorem returns_stateText (fresh : grammar.HasFreshStart start accept target)
    (built : automaton.IsBuilt kind grammar accept) (found : automaton.states[id]? = some state) :
    Returns (state.text grammar id) := by
  have sound := built.isSound.states id state found
  have within := sound.closes.within sound.kernel.within
  refine Returns.bind (.mapM fun item member => ?_) fun _ _ => ?_
  · have isFound := ItemSet.mem_items.mp member
    have has := within item.core ⟨_, isFound⟩
    refine Item.returns_text fresh.bodies has fun set isSet terminal inside => ?_
    rw [isSet] at isFound
    exact built.declares_of_allows fresh found ⟨set, isFound, inside⟩
  · refine Returns.bind (.mapM fun (symbol, next) member => ?_) fun _ _ => .ok _
    have declared :=
      built.declares_of_transition fresh.bodies found (AscendingMap.mem_entries.mp member)
    exact (Grammar.returns_symbolName declared).bind fun _ _ => .ok _

/-- The automaton of a grammar can be written. -/
theorem returns_text (fresh : grammar.HasFreshStart start accept target)
    (built : automaton.IsBuilt kind grammar accept) : Returns (automaton.text grammar) := by
  refine Returns.bind (.mapM fun (state, id) member => ?_) fun _ _ => .ok _
  exact built.returns_stateText fresh (List.mem_zipIdx_iff_getElem?.mp member)

end Automaton.IsBuilt

/-! ## Trees -/

/-- All nodes carry declared symbols, and their children are among the nodes after them. -/
structure Node.AreClosed (grammar : Grammar) (nodes : Array Node) : Prop where
  declares : ∀ (id : Nat) (node : Node), nodes[id]? = some node → grammar.Declares node.symbol
  children : ∀ (id : Nat) (node : Node), nodes[id]? = some node → ∀ child ∈ node.children,
    id < child ∧ child < nodes.size

namespace DerivationTree

variable {order : Order} {rules : List Nat} {tree : DerivationTree}

namespace Growth

variable {growth next : Growth} {nodes : Array Node} {pending : List (Nat × Nat)} {node id : Nat}
  {rule : Rule}

/-- The nodes are closed, and those that wait to be expanded are among them. -/
structure IsClosed (grammar : Grammar) (growth : Growth) : Prop where
  nodes : Node.AreClosed grammar growth.nodes
  pending_lt : ∀ entry ∈ growth.pending, entry.1 < growth.nodes.size

theorem isClosed_ofRoot {nonterminal : Nat} (declared : nonterminal < grammar.nonterminalCount) :
    IsClosed grammar (ofRoot nonterminal) := by
  have isRoot {index : Nat} {found : Node}
    (isFound : (ofRoot nonterminal).nodes[index]? = some found) :
      found = ⟨.nonterminal nonterminal, none, []⟩ := by
    simpa [ofRoot] using Array.mem_of_getElem? isFound
  refine ⟨⟨fun index found isFound => ?_,
    fun index found isFound child isChild => ?_⟩, by simp [ofRoot]⟩
  · rw [isRoot isFound]
    exact declared
  · rw [isRoot isFound] at isChild
    cases isChild

theorem lt_of_mem_nonterminalsOf {entry : Nat × Nat}
    (member : entry ∈ nonterminalsOf (children nodes rule)) :
    entry.1 < nodes.size + rule.body.length := by
  obtain ⟨isFresh, inBody⟩ := mem_children.mp (mem_nonterminalsOf.mp member)
  obtain ⟨inRange, -⟩ := List.getElem?_eq_some_iff.mp inBody
  omega

/-- An expansion by a rule of the grammar keeps the nodes closed. -/
theorem IsClosed.attach (bodies : grammar.BodiesDeclared) (isRule : rule ∈ grammar.rules)
    {nonterminal : Nat} (closed : IsClosed grammar ⟨nodes, (node, nonterminal) :: pending⟩) :
    IsClosed grammar (attach order nodes pending node id rule) := by
  have inRange : node < nodes.size := closed.pending_lt (node, nonterminal) (.head _)
  refine ⟨⟨fun index found isFound => ?_, fun index found isFound child isChild => ?_⟩,
    fun entry isEntry => ?_⟩
  · rcases eq_of_getElem?_attach inRange isFound with ⟨_, rfl⟩ | isOld |
      ⟨symbol, inBody, rfl⟩
    · exact grammar.head_lt rule isRule
    · exact closed.nodes.declares index found isOld
    · exact bodies rule isRule symbol inBody
  · rw [size_attach]
    rcases eq_of_getElem?_attach inRange isFound with ⟨rfl, rfl⟩ | isOld | ⟨symbol, _, rfl⟩
    · obtain ⟨isFresh, isLast⟩ := List.mem_range'_1.mp isChild
      exact ⟨Nat.lt_of_lt_of_le inRange isFresh, isLast⟩
    · obtain ⟨isLater, isNode⟩ := closed.nodes.children index found isOld child isChild
      exact ⟨isLater, Nat.lt_add_right _ isNode⟩
    · cases isChild
  · rw [size_attach]
    rw [pending_attach, List.mem_append, Order.mem_arrange] at isEntry
    rcases isEntry with isFresh | isOld
    · exact lt_of_mem_nonterminalsOf isFresh
    · exact Nat.lt_add_right _ (closed.pending_lt entry (.tail _ isOld))

theorem IsClosed.of_expand_eq_ok (bodies : grammar.BodiesDeclared) {step : Nat × Nat}
    (closed : IsClosed grammar growth) (expands : expand grammar order growth step = .ok next) :
    IsClosed grammar next := by
  obtain ⟨node, rule, pending, isPending, found, rfl⟩ := exists_attach_of_expand_eq_ok expands
  obtain ⟨nodes, _⟩ := growth
  obtain rfl := isPending
  exact closed.attach bodies (List.mem_of_getElem? found)

end Growth

/-- Every tree that can be grown is closed. -/
theorem areClosed_of_derive_eq_ok (bodies : grammar.BodiesDeclared)
    (grown : derive grammar order rules = .ok tree) : Node.AreClosed grammar tree.nodes := by
  obtain ⟨top, isRule, folded⟩ := exists_foldlM_of_derive_eq_ok grown
  have atRoot := Growth.isClosed_ofRoot (grammar.head_lt top isRule)
  exact (holds_of_foldlM_eq_ok
    (fun _ _ _ closed expands => Growth.IsClosed.of_expand_eq_ok bodies closed expands) atRoot
      folded).nodes

/-- Only nodes of the tree are visited. -/
theorem exists_getElem?_of_mem_preorderFrom {bound : Nat} {waiting : List (Nat × Nat)}
    {entry : Node × Nat} (member : entry ∈ tree.preorderFrom bound waiting) : ∃ id :
    Nat, tree.nodes[id]? = some entry.1 := by
  induction bound generalizing waiting with
  | zero => cases member
  | succ bound ih =>
      cases waiting with
      | nil => cases member
      | cons first rest =>
          rw [preorderFrom] at member
          split at member
          · exact ih member
          · rename_i node found
            rcases List.mem_cons.mp member with rfl | inRest
            · exact ⟨first.1, found⟩
            · exact ih inRest

/-- A closed tree can be written. -/
theorem returns_text (closed : Node.AreClosed grammar tree.nodes) :
    Returns (tree.text grammar) := by
  refine Returns.bind (.mapM fun (node, depth) member => ?_) fun _ _ => .ok _
  obtain ⟨id, found⟩ := exists_getElem?_of_mem_preorderFrom member
  refine (Grammar.returns_symbolName (closed.declares id node found)).bind fun _ _ => ?_
  split
  · exact .ok _
  · exact .ok _

/-- A tree is grown. It is closed, and can be written. -/
def IsShown (grammar : Grammar) (grown : Except (Failure Error) DerivationTree) : Prop :=
  ∃ tree, grown = .ok tree ∧ Node.AreClosed grammar tree.nodes ∧ Returns (tree.text grammar)

theorem isShown_derive {nonterminal : Nat} {terminals : List Nat} (bodies : grammar.BodiesDeclared)
    (derives : order.Derives grammar [.nonterminal nonterminal] rules (word terminals)) :
    IsShown grammar (derive grammar order rules) := by
  obtain ⟨tree, grown, _, _⟩ := exists_derive_eq_ok derives
  have closed := areClosed_of_derive_eq_ok bodies grown
  exact ⟨tree, grown, closed, returns_text closed⟩

/-- The rules of a complete rightmost derivation, from last to first, grow a tree. -/
theorem IsShown.of_derivesRightmost {nonterminal : Nat} {terminals : List Nat}
    (bodies : grammar.BodiesDeclared)
    (rightmost : grammar.DerivesRightmost [.nonterminal nonterminal] rules (word terminals)) :
    IsShown grammar (ofRightParse grammar rules.reverse) := by
  rw [ofRightParse, List.reverse_reverse]
  exact isShown_derive bodies (Order.derives_of_rightmost rightmost)

/-- The rules of a complete leftmost derivation grow a tree. -/
theorem IsShown.of_derivesLeftmost {nonterminal : Nat} {terminals : List Nat}
    (bodies : grammar.BodiesDeclared)
    (leftmost : grammar.DerivesLeftmost [.nonterminal nonterminal] rules (word terminals)) :
    IsShown grammar (ofLeftParse grammar rules) :=
  isShown_derive bodies (Order.derives_of_leftmost leftmost)

end DerivationTree

end DeterministicParsing
