/-
# Items and item sets

An item is a rule with a marker that tells how much of its body has been recognised, and, for some
constructions, the set of terminals that may come after the rule. Rule and marker are the core of
the item. An item set holds each core at most once: it is a map from cores to lookaheads, and adding
an item whose core is there already unites the lookaheads.
-/
import DeterministicParsing.Grammar.Basic

namespace DeterministicParsing

/-- A rule and a place in its body. -/
structure Core where
  rule : Nat
  marker : Nat
  deriving DecidableEq

namespace Core

/-- Cores stand by rule, and those of a rule by marker. -/
def before (first second : Core) : Bool :=
  first.rule < second.rule || (first.rule == second.rule && first.marker < second.marker)

instance : LT Core := ⟨fun first second => first.before second = true⟩

instance : DecidableLT Core := fun first second =>
  inferInstanceAs (Decidable (first.before second = true))

theorem lt_def {first second : Core} :
    first < second ↔
      first.rule < second.rule ∨ (first.rule = second.rule ∧ first.marker < second.marker) := by
  change first.before second = true ↔ _
  simp [before]

instance : KeyOrder Core where
  irrefl core := by simp [lt_def]
  trans := by
    intro first second third firstBelow secondBelow
    rw [lt_def] at *
    omega
  total := by
    intro first second notBelow different
    rw [lt_def] at *
    cases first
    cases second
    simp only [ne_eq, mk.injEq, not_and] at *
    omega

/-- Whether the marker stands at the end of the body. -/
def isComplete (grammar : Grammar) (core : Core) : Except Fault Bool := do
  return core.marker == (← grammar.rule core.rule).body.length

/-- The symbol after the marker. There is none at the end of the body or beyond it. -/
def next (grammar : Grammar) (core : Core) : Except Fault (Option Symbol) := do
  return (← grammar.rule core.rule).body[core.marker]?

/-- What comes after the symbol after the marker. -/
def rest (grammar : Grammar) (core : Core) : Except Fault (List Symbol) := do
  return (← grammar.rule core.rule).body.drop (core.marker + 1)

def advanced (core : Core) : Core := ⟨core.rule, core.marker + 1⟩

end Core

/-- A core with the terminals that may come after its rule. An item without lookahead makes no
statement about them, which differs from allowing none. -/
structure Item where
  core : Core
  lookahead : Option TerminalSet
  deriving DecidableEq

namespace Item

/-- The item with the marker moved over one symbol, unless the marker stands at the end. -/
def advance (grammar : Grammar) (item : Item) : Except Fault (Option Item) := do
  if ← item.core.isComplete grammar then
    return none
  else
    return some ⟨item.core.advanced, item.lookahead⟩

/-- Unite two lookaheads. One that is missing adds nothing. -/
def uniteLookaheads : Option TerminalSet → Option TerminalSet → Option TerminalSet
  | some first, some second => some (first ∪ second)
  | none, some second => some second
  | known, none => known

end Item

/-- A set of items with different cores: a map from cores to lookaheads. -/
abbrev ItemSet := AscendingMap Core (Option TerminalSet)

namespace ItemSet

def items (set : ItemSet) : List Item := set.entries.map fun entry => ⟨entry.1, entry.2⟩

def cores (set : ItemSet) : List Core := set.keys

def item? (set : ItemSet) (core : Core) : Option Item :=
  (set.find? core).map fun lookahead => ⟨core, lookahead⟩

/-- Add an item. If its core is there already, the lookaheads are united. -/
def add (set : ItemSet) (item : Item) : ItemSet :=
  set.alter item.core fun
    | some known => Item.uniteLookaheads known item.lookahead
    | none => item.lookahead

def ofList (items : List Item) : ItemSet := items.foldl add .empty

def merge (set other : ItemSet) : ItemSet := other.items.foldl add set

/-- A merge under way. -/
structure Merging where
  /-- The set, with lookaheads united as far as the merge has come. -/
  set : ItemSet
  /-- The items so far whose cores are not in the set. -/
  added : List Item
  changed : Bool

/-- Go on with an item: unite the lookaheads if its core is there, or else put it aside. -/
def Merging.take (merging : Merging) (item : Item) : Merging :=
  match merging.set.find? item.core with
  | some known =>
      let united := Item.uniteLookaheads known item.lookahead
      { merging with
        set := merging.set.insert item.core united
        changed := merging.changed || united != known }
  | none => { merging with added := merging.added ++ [item] }

/-- Merge and report whether the set has changed. Items with new cores come in at the end, all
together, and are a change in any case. -/
def mergeReporting (set other : ItemSet) : ItemSet × Bool :=
  let merging := other.items.foldl Merging.take ⟨set, [], false⟩
  if merging.added.isEmpty then
    (merging.set, merging.changed)
  else
    (ofList (merging.set.items ++ merging.added), true)

/-- Whether some item has its marker at the end. Items after the first such one are not looked
at. -/
def hasComplete (grammar : Grammar) (set : ItemSet) : Except Fault Bool :=
  set.cores.anyM (Core.isComplete grammar)

/-- Move one item over the symbol after its marker, into the successor for that symbol. -/
def addSuccessor (grammar : Grammar) (successors : AscendingMap Symbol ItemSet) (item : Item) :
    Except Fault (AscendingMap Symbol ItemSet) := do
  match ← item.core.next grammar with
  | none => return successors
  | some symbol =>
      return successors.alter symbol fun known =>
        (known.getD .empty).add ⟨item.core.advanced, item.lookahead⟩

/-- What the items become when a symbol is read, for every symbol after some marker. -/
def successors (grammar : Grammar) (set : ItemSet) : Except Fault (AscendingMap Symbol ItemSet) :=
  set.items.foldlM (addSuccessor grammar) .empty

/-- What the items become when the given symbol is read. -/
def goto (grammar : Grammar) (set : ItemSet) (symbol : Symbol) : Except Fault ItemSet := do
  let ready ← set.items.filterM fun item => do
    return (← item.core.next grammar) == some symbol
  return ofList (ready.map fun item => ⟨item.core.advanced, item.lookahead⟩)

end ItemSet

end DeterministicParsing
