/-
# Grammars

A context-free grammar is an arena whose containers agree: terminals, nonterminals and rules are
referred to by number, and a number keeps its meaning for good. The operations are those of the
arena, each with the proof that the containers still agree.

A rule can only be added for a nonterminal that is declared. The symbols of its body are not
checked, nor is a start that is chosen by number, so a grammar can refer to symbols it does not
declare. What is then asked of such a symbol is a fault, and `WellFormed` singles out the grammars
without one.
-/
import DeterministicParsing.Grammar.Arena

namespace DeterministicParsing

structure Grammar extends Arena where
  valid : toArena.Valid

namespace Grammar

def empty : Grammar := ⟨.empty, .empty⟩

variable (grammar : Grammar)

/-! ## Growing a grammar -/

/-- Declare a terminal. A name that is declared already keeps its number. -/
def addTerminal (name : String) : Nat × Grammar :=
  ((grammar.toArena.addTerminal name).1,
    ⟨(grammar.toArena.addTerminal name).2, grammar.valid.addTerminal name⟩)

/-- Declare a nonterminal. A name that is declared already keeps its number. -/
def addNonterminal (name : String) : Nat × Grammar :=
  ((grammar.toArena.addNonterminal name).1,
    ⟨(grammar.toArena.addNonterminal name).2, grammar.valid.addNonterminal name⟩)

/-- The number of a name that has just been declared is in use. -/
theorem addNonterminal_lt (name : String) :
    (grammar.addNonterminal name).1 < (grammar.addNonterminal name).2.nonterminalCount :=
  (List.getElem?_eq_some_iff.mp (grammar.valid.addNonterminal_getElem? name)).1

/-- The grammar with one more rule, for a declared nonterminal. -/
def withRule (added : Rule) (declared : added.head < grammar.nonterminalCount) : Grammar :=
  ⟨grammar.toArena.withRule added, grammar.valid.withRule declared⟩

/-- Add a rule. Its number is the next one. A head that is not declared is a fault. -/
def addRule (added : Rule) : Except Fault (Nat × Grammar) :=
  match isMade : grammar.toArena.addRule added with
  | .ok (id, made) => .ok (id, ⟨made, grammar.valid.addRule isMade⟩)
  | .error fault => .error fault

/-- Choose the start. The number is not checked. A grammar whose start moves away from the one that
augmentation added is not augmented any more. -/
def setStart (id : Nat) : Grammar := ⟨grammar.toArena.setStart id, grammar.valid.setStart id⟩

/-- The augmented grammar: a new start with a single rule that leads to the old start. All numbers
keep their meaning. -/
def augmented : Except Fault Grammar :=
  match isMade : grammar.toArena.augmented with
  | .ok made => .ok ⟨made, grammar.valid.augmented isMade⟩
  | .error fault => .error fault

theorem augmented_eq_ok_iff {grammar later : Grammar} :
    grammar.augmented = .ok later ↔ grammar.toArena.augmented = .ok later.toArena := by
  unfold augmented
  split <;> rename_i isMade
  · rcases later with ⟨arena, valid⟩
    simp [isMade, eq_comm]
  · simp [isMade]

/-- The grammar itself if it is augmented, and its augmentation otherwise. -/
def ensureAugmented : Except Fault Grammar :=
  if grammar.isAugmented then .ok grammar else grammar.augmented

/-- The grammar with the given names and rules, in the order of their numbers. -/
def ofLists (terminals nonterminals : List String) (rules : List Rule)
    (distinctTerminals : (endName :: terminals).Nodup) (distinctNonterminals : nonterminals.Nodup)
    (declared : ∀ rule ∈ rules, rule.head < nonterminals.length) : Grammar :=
  ⟨.ofLists terminals nonterminals rules,
    .ofLists distinctTerminals distinctNonterminals declared⟩

@[simp]
theorem rules_ofLists {terminals nonterminals : List String} {rules : List Rule}
    (distinctTerminals : (endName :: terminals).Nodup) (distinctNonterminals : nonterminals.Nodup)
    (declared : ∀ rule ∈ rules, rule.head < nonterminals.length) :
    (ofLists terminals nonterminals rules distinctTerminals distinctNonterminals declared).rules =
      rules := rfl

/-! ## Names and numbers -/

theorem end_first : grammar.terminalNames[endOfInput]? = some endName := rfl

theorem terminalNames_nodup : grammar.terminalNames.Nodup := grammar.valid.terminalNames_nodup

theorem head_lt (rule : Rule) (member : rule ∈ grammar.rules) :
    rule.head < grammar.nonterminalCount :=
  grammar.valid.head_lt rule member

variable {grammar}

theorem nonterminal?_eq_none {name : String} :
    grammar.nonterminal? name = none ↔ name ∉ grammar.nonterminalNames :=
  grammar.valid.nonterminal?_eq_none

theorem lt_of_terminal?_eq_some {name : String} {id : Nat}
    (found : grammar.terminal? name = some id) : id < grammar.terminalCount :=
  (List.getElem?_eq_some_iff.mp (grammar.valid.terminal?_eq_some.mp found)).1

theorem lt_of_nonterminal?_eq_some {name : String} {id : Nat}
    (found : grammar.nonterminal? name = some id) : id < grammar.nonterminalCount :=
  (List.getElem?_eq_some_iff.mp (grammar.valid.nonterminal?_eq_some.mp found)).1

/-! ## Well-formed grammars -/

variable (grammar)

def Declares : Symbol → Prop
  | .terminal id => id < grammar.terminalCount
  | .nonterminal id => id < grammar.nonterminalCount

instance : DecidablePred grammar.Declares
  | .terminal id => inferInstanceAs (Decidable (id < grammar.terminalCount))
  | .nonterminal id => inferInstanceAs (Decidable (id < grammar.nonterminalCount))

def BodiesDeclared : Prop :=
  ∀ rule ∈ grammar.rules, ∀ symbol ∈ rule.body, grammar.Declares symbol

instance : Decidable grammar.BodiesDeclared :=
  inferInstanceAs (Decidable (∀ rule ∈ grammar.rules, ∀ symbol ∈ rule.body,
    grammar.Declares symbol))

theorem exists_symbolName_eq_ok {grammar : Grammar} {symbol : Symbol}
    (declared : grammar.Declares symbol) : ∃ name, grammar.symbolName symbol = .ok name := by
  cases symbol with
  | terminal id => exact ⟨_, Arena.terminalName_eq_ok.mpr (List.getElem?_eq_getElem declared)⟩
  | nonterminal id =>
      exact ⟨_, Arena.nonterminalName_eq_ok.mpr (List.getElem?_eq_getElem declared)⟩

/-- Where a nonterminal is declared, the grammar is not without nonterminals. -/
theorem isEmpty_nonterminalNames_of_lt {grammar : Grammar} {id : Nat}
    (declared : id < grammar.nonterminalCount) : grammar.nonterminalNames.isEmpty = false := by
  rw [List.isEmpty_eq_false_iff, ← List.length_pos_iff]
  exact Nat.lt_of_le_of_lt (Nat.zero_le _) declared

def BodiesEndFree : Prop :=
  ∀ rule ∈ grammar.rules, .terminal endOfInput ∉ rule.body

instance : Decidable grammar.BodiesEndFree :=
  inferInstanceAs (Decidable (∀ rule ∈ grammar.rules, .terminal endOfInput ∉ rule.body))

/-- A grammar with a declared start all of whose bodies are declared. -/
structure WellFormed : Prop where
  bodies : grammar.BodiesDeclared
  start : ∃ id, grammar.start = .ok id ∧ id < grammar.nonterminalCount

end Grammar

end DeterministicParsing
