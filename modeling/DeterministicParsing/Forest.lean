/-
# Forests

Derivation trees side by side, told from their roots down. A tree that is grown by a parser has its
nodes in the order in which they came into being, which differs from parser to parser. A forest has
no such order, so it is what trees grown in different ways have in common: it has leaves from left
to right, a left parse and a right parse, and attributes that are computed from its leaves up.
-/
import DeterministicParsing.DerivationTree
import DeterministicParsing.Grammar.Derivation
import DeterministicParsing.Semantics

namespace DeterministicParsing

/-- Derivation trees, from left to right. -/
inductive Forest where
  | nil
  | leaf (terminal : Nat) (others : Forest)
  /-- A nonterminal and the rule applied to it, with the trees for the body of the rule below it and
  other trees to the right of it. -/
  | branch (rule nonterminal : Nat) (below others : Forest)
  deriving DecidableEq

namespace Forest

def roots : Forest → List Symbol
  | nil => []
  | leaf terminal others => .terminal terminal :: others.roots
  | branch _ nonterminal _ others => .nonterminal nonterminal :: others.roots

def frontier : Forest → List Nat
  | nil => []
  | leaf terminal others => terminal :: others.frontier
  | branch _ _ below others => below.frontier ++ others.frontier

/-- The rules, each before those below it. -/
def leftParse : Forest → List Nat
  | nil => []
  | leaf _ others => others.leftParse
  | branch rule _ below others => rule :: (below.leftParse ++ others.leftParse)

/-- The rules, each after those below it. -/
def rightParse : Forest → List Nat
  | nil => []
  | leaf _ others => others.rightParse
  | branch rule _ below others => below.rightParse ++ rule :: others.rightParse

def size : Forest → Nat
  | nil => 0
  | leaf _ others => others.size + 1
  | branch _ _ below others => below.size + others.size + 1

def append : Forest → Forest → Forest
  | nil, second => second
  | leaf terminal others, second => leaf terminal (others.append second)
  | branch rule nonterminal below others, second =>
      branch rule nonterminal below (others.append second)

/-- A word as a forest of leaves. -/
def ofWord : List Nat → Forest
  | [] => nil
  | terminal :: rest => leaf terminal (ofWord rest)

/-- The rules of the forest are those of the grammar, and each has the trees for its body below
it. -/
inductive IsOf (grammar : Grammar) : Forest → Prop where
  | nil : IsOf grammar .nil
  | leaf (terminal : Nat) {others : Forest} (rest : IsOf grammar others) :
      IsOf grammar (.leaf terminal others)
  | branch {rule nonterminal : Nat} {below others : Forest}
      (found : grammar.rules[rule]? = some ⟨nonterminal, below.roots⟩)
      (inside : IsOf grammar below) (rest : IsOf grammar others) :
      IsOf grammar (.branch rule nonterminal below others)

/-- Numbered nodes stand for the roots of a forest, and the nodes below them for what is below the
roots. -/
inductive StandsIn (nodes : Array Node) : Forest → List Nat → Prop where
  | nil : StandsIn nodes .nil []
  | leaf {id terminal : Nat} {others : Forest} {ids : List Nat}
      (found : nodes[id]? = some ⟨.terminal terminal, none, []⟩)
      (rest : StandsIn nodes others ids) :
      StandsIn nodes (.leaf terminal others) (id :: ids)
  | branch {id rule nonterminal : Nat} {below others : Forest} {children ids : List Nat}
      (found : nodes[id]? = some ⟨.nonterminal nonterminal, some rule, children⟩)
      (inside : StandsIn nodes below children) (rest : StandsIn nodes others ids) :
      StandsIn nodes (.branch rule nonterminal below others) (id :: ids)

/-- The attributes at the roots, computed from the leaves up. The leaf that has `position` others to
the left of it has the token at that place, and a nonterminal has what the function of its rule
computes from the attributes below it, if the rule has one. -/
def evaluate {V : Type} (semantics : Semantics V) (tokens : List Token) (position : Nat) :
    Forest → Except Fault (List (Attribute V))
  | nil => .ok []
  | leaf _ others =>
      match tokens[position]? with
      | none => .error .missingAttribute
      | some token => do
          let rest ← evaluate semantics tokens (position + 1) others
          return .token token :: rest
  | branch rule _ below others => do
      let attributes ← evaluate semantics tokens position below
      let value ← semantics.apply rule attributes
      let rest ← evaluate semantics tokens (position + below.frontier.length) others
      return .value value :: rest

end Forest

end DeterministicParsing
