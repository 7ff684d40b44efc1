/-
# Short sentences

For every nonterminal, a shortest terminal string that can be derived from it, and for every
terminal a shortest one that begins with it. Both are found by passing over the rules until nothing
changes: a rule contributes a sentence as soon as all symbols of its body have one, and a sentence
is only ever replaced by a shorter one.
-/
import DeterministicParsing.FixedPoint
import DeterministicParsing.Grammar.Basic

namespace DeterministicParsing

/-- Short sentences of the nonterminals of a grammar, by number. -/
structure Sentences where
  shortest : List (Option (List Nat))
  /-- A shortest sentence of each nonterminal for every terminal that can begin one. -/
  starting : List (AscendingMap Nat (List Nat))
  deriving DecidableEq

namespace Sentences

variable (sentences : Sentences)

def shortestOf : Symbol → Except Fault (Option (List Nat))
  | .terminal id => .ok (some [id])
  | .nonterminal id =>
      match sentences.shortest[id]? with
      | some sentence => .ok sentence
      | none => .error (.nonterminal id)

/-- The sentences of a symbol by the terminal they begin with. -/
def startsOf : Symbol → Except Fault (AscendingMap Nat (List Nat))
  | .terminal id => .ok (AscendingMap.empty.insert id [id])
  | .nonterminal id =>
      match sentences.starting[id]? with
      | some starts => .ok starts
      | none => .error (.nonterminal id)

/-- A shortest sentence of a symbol among those that begin with a terminal. -/
def startingWith (symbol : Symbol) (terminal : Nat) : Except Fault (Option (List Nat)) := do
  return (← sentences.startsOf symbol).find? terminal

def isNullable (symbol : Symbol) : Except Fault Bool := do
  return (← sentences.shortestOf symbol) == some []

/-- The shortest sentences of symbols one after another. There is none as soon as a symbol has none,
and the symbols after it are not looked at. -/
def sequence : List Symbol → Except Fault (Option (List Nat))
  | [] => .ok (some [])
  | symbol :: rest => do
      match ← sentences.shortestOf symbol with
      | none => return none
      | some sentence => return (← sequence rest).map (sentence ++ ·)

/-- The shorter of a known sentence and a new one, which has to be shorter to be taken. -/
def shorter (known : Option (List Nat)) (candidate : List Nat) : List Nat :=
  match known with
  | none => candidate
  | some sentence => if candidate.length < sentence.length then candidate else sentence

/-- Let a rule contribute to the shortest sentences. -/
def visitShortest (sentences : Sentences) (rule : Rule) : Except Fault Sentences := do
  match ← sentences.sequence rule.body with
  | none => return sentences
  | some candidate =>
      return { sentences with
        shortest := sentences.shortest.modify rule.head fun known =>
          some (shorter known candidate) }

/-- The sentences of a body by the terminal they begin with, those in which the first symbols are
empty after those in which they are not. -/
def bodyStarts : List Symbol → Except Fault (List (Nat × List Nat))
  | [] => .ok []
  | symbol :: rest => do
      match ← sentences.sequence rest with
      | none => return []
      | some tail =>
          let starts ← sentences.startsOf symbol
          let here := starts.entries.map fun (terminal, sentence) => (terminal, sentence ++ tail)
          if ← sentences.isNullable symbol then
            return here ++ (← bodyStarts rest)
          else
            return here

/-- Let a rule contribute to the sentences by first terminal. -/
def visitStarting (sentences : Sentences) (rule : Rule) : Except Fault Sentences := do
  let candidates ← sentences.bodyStarts rule.body
  return { sentences with
    starting := sentences.starting.modify rule.head fun known =>
      candidates.foldl (fun starts (terminal, candidate) =>
        starts.alter terminal fun sentence => shorter sentence candidate) known }

/-- No shortest sentence is ever longer than this. The nonterminals get their first sentences one
after another, each from those before it. -/
def lengthBound (grammar : Grammar) : Nat := (grammar.size + 1).pow grammar.nonterminalCount

/-- No more passes than this are needed for the shortest sentences. Every pass but the last gives a
nonterminal its first sentence or a shorter one. -/
def shortestPassBound (grammar : Grammar) : Nat :=
  grammar.nonterminalCount * (lengthBound grammar + 1) + 1

/-- No more passes than this are needed for the sentences by first terminal. They get their first
sentences one after another, each from one before it and the shortest sentences of part of a
body. -/
def startingPassBound (grammar : Grammar) : Nat :=
  let slots := grammar.nonterminalCount * grammar.size
  slots * (slots * grammar.size * lengthBound grammar + 2) + 1

def compute (grammar : Grammar) : Except Fault Sentences := do
  let none : Sentences :=
    ⟨List.replicate grammar.nonterminalCount none,
      List.replicate grammar.nonterminalCount .empty⟩
  let (shortest, _) ←
    stabilize (grammar.rules.foldlM visitShortest) (shortestPassBound grammar) none
  let (complete, _) ←
    stabilize (grammar.rules.foldlM visitStarting) (startingPassBound grammar) shortest
  return complete

end Sentences

end DeterministicParsing
