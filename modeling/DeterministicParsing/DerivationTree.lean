/-
# Derivation trees

A tree is grown from a sequence of rules, by expanding one open nonterminal after another: always
the leftmost one for a left parse, and always the rightmost one for a right parse, whose rules are
then taken from last to first. Nodes are numbered in the order in which they are added. The root is
node 0, and a child always has a higher number than its parent.
-/
import DeterministicParsing.Grammar.Printer

namespace DeterministicParsing

structure Node where
  symbol : Symbol
  rule : Option Nat
  children : List Nat
  deriving DecidableEq

structure DerivationTree where
  nodes : Array Node
  deriving DecidableEq

namespace DerivationTree

/-- Why a sequence of rules is no derivation. -/
inductive Error where
  | empty
  /-- The head of a rule is not the nonterminal whose turn it is. The index counts the rules in the
  order in which they are taken. -/
  | mismatch (index : Nat) (expected found : String)
  | incomplete (remaining : Nat)
  /-- Rules are left when no nonterminal is. The index is that of the first such rule. -/
  | excess (index : Nat)
  deriving DecidableEq

def Error.message : Error → String
  | empty => "empty parse"
  | mismatch index expected found =>
      s!"rule {index} expands `" ++ found ++ "`, but `" ++ expected ++ "` is next"
  | incomplete remaining => s!"{remaining} nonterminals left unexpanded"
  | excess index => s!"derivation is complete after {index} rules"

/-- Which of the open nonterminals is expanded next. -/
inductive Order where
  | leftmost
  | rightmost
  deriving DecidableEq

/-- A tree that is being grown. -/
structure Growth where
  nodes : Array Node
  /-- The nodes that have not been expanded, each with its nonterminal, the next one first. -/
  pending : List (Nat × Nat)

namespace Growth

/-- A tree that is nothing but its root. -/
def ofRoot (nonterminal : Nat) : Growth :=
  ⟨#[⟨.nonterminal nonterminal, none, []⟩], [(0, nonterminal)]⟩

/-- The nonterminals among numbered symbols. -/
def nonterminalsOf (numbered : List (Nat × Symbol)) : List (Nat × Nat) :=
  numbered.filterMap fun
    | (id, .nonterminal nonterminal) => some (id, nonterminal)
    | (_, .terminal _) => none

/-- Give a node the body of a rule as children. -/
def attach (order : Order) (nodes : Array Node) (pending : List (Nat × Nat)) (node id : Nat)
    (rule : Rule) : Growth :=
  let children := List.range' nodes.size rule.body.length
  let fresh := nonterminalsOf (children.zip rule.body)
  let parent : Node := ⟨.nonterminal rule.head, some id, children⟩
  let leaves := rule.body.map fun symbol => (⟨symbol, none, []⟩ : Node)
  { nodes := nodes.setIfInBounds node parent ++ leaves.toArray
    pending :=
      match order with
      | .leftmost => fresh ++ pending
      | .rightmost => fresh.reverse ++ pending }

/-- Expand the next open nonterminal by a rule, which is given with its index among those taken. -/
def expand (grammar : Grammar) (order : Order) (growth : Growth) (step : Nat × Nat) :
    Except (Failure Error) Growth := do
  let (id, index) := step
  match growth.pending with
  | [] => Failure.raise (.excess index)
  | (node, nonterminal) :: pending =>
      let rule ← grammar.rule id
      if nonterminal = rule.head then
        return attach order growth.nodes pending node id rule
      else
        let expected ← grammar.nonterminalName nonterminal
        let found ← grammar.nonterminalName rule.head
        Failure.raise (.mismatch index expected found)

end Growth

/-- Grow a tree by rules, which are taken in the given order. -/
def derive (grammar : Grammar) (order : Order) (rules : List Nat) :
    Except (Failure Error) DerivationTree := do
  match rules with
  | [] => Failure.raise .empty
  | top :: _ =>
      let root ← grammar.rule top
      let growth ← rules.zipIdx.foldlM (Growth.expand grammar order) (.ofRoot root.head)
      if growth.pending.isEmpty then
        return ⟨growth.nodes⟩
      else
        Failure.raise (.incomplete growth.pending.length)

/-- The tree of a left parse. -/
def ofLeftParse (grammar : Grammar) (rules : List Nat) : Except (Failure Error) DerivationTree :=
  derive grammar .leftmost rules

/-- The tree of a right parse, whose rules are taken from last to first. -/
def ofRightParse (grammar : Grammar) (rules : List Nat) : Except (Failure Error) DerivationTree :=
  derive grammar .rightmost rules.reverse

def root : Nat := 0

/-- The nodes below the waiting ones, each before its children and with its depth, at most `bound`
of them. -/
def preorderFrom (tree : DerivationTree) : Nat → List (Nat × Nat) → List (Node × Nat)
  | 0, _ => []
  | _ + 1, [] => []
  | bound + 1, (id, depth) :: waiting =>
      match tree.nodes[id]? with
      | none => tree.preorderFrom bound waiting
      | some node =>
          let children := node.children.map fun child => (child, depth + 1)
          (node, depth) :: tree.preorderFrom bound (children ++ waiting)

/-- All nodes, each before its children and with its depth. -/
def preorder (tree : DerivationTree) : List (Node × Nat) :=
  tree.preorderFrom tree.nodes.size [(root, 0)]

def frontier (tree : DerivationTree) : List Nat :=
  tree.preorder.filterMap fun (node, _) =>
    match node.symbol with
    | .terminal id => some id
    | .nonterminal _ => none

/-- Blanks in front of a node, two for each level above it. -/
def indent (depth : Nat) : String := String.ofList (List.replicate (depth * 2) ' ')

/-- The lines of a node. An empty body is shown as a child. -/
def nodeLines (grammar : Grammar) (node : Node) (depth : Nat) : Except Fault (List String) := do
  let line := indent depth ++ (← grammar.symbolName node.symbol)
  if node.rule.isSome && node.children.isEmpty then
    return [line, indent (depth + 1) ++ Grammar.emptyText]
  else
    return [line]

def text (grammar : Grammar) (tree : DerivationTree) : Except Fault String := do
  let lines ← tree.preorder.mapM fun (node, depth) => nodeLines grammar node depth
  return "\n".intercalate lines.flatten

end DerivationTree

end DeterministicParsing
