/-
# Sets of terminals

Terminals are numbers, and a set of terminals is a mask of bits, one for each number. Two sets with
the same members are therefore equal, unions are cheap, and the members can be listed in ascending
order, which is the order in which sets are printed.
-/

namespace DeterministicParsing

/-- A finite set of terminals. -/
structure TerminalSet where
  /-- Bit `t` says whether terminal `t` is a member. -/
  mask : Nat
  deriving DecidableEq

namespace TerminalSet

def contains (set : TerminalSet) (terminal : Nat) : Bool :=
  set.mask.testBit terminal

instance : Membership Nat TerminalSet := ⟨fun set terminal => set.contains terminal = true⟩

instance (terminal : Nat) (set : TerminalSet) : Decidable (terminal ∈ set) :=
  inferInstanceAs (Decidable (set.contains terminal = true))

instance : EmptyCollection TerminalSet := ⟨⟨0⟩⟩

instance : Singleton Nat TerminalSet := ⟨fun terminal => ⟨1 <<< terminal⟩⟩

instance : Union TerminalSet := ⟨fun first second => ⟨first.mask ||| second.mask⟩⟩

def ofList (terminals : List Nat) : TerminalSet :=
  terminals.foldr (fun terminal set => {terminal} ∪ set) ∅

def toList (set : TerminalSet) : List Nat :=
  (List.range (set.mask.log2 + 1)).filter set.contains

def size (set : TerminalSet) : Nat := set.toList.length

theorem mem_def {terminal : Nat} {set : TerminalSet} :
    terminal ∈ set ↔ set.mask.testBit terminal = true := Iff.rfl

@[simp]
theorem contains_iff {terminal : Nat} {set : TerminalSet} :
    set.contains terminal = true ↔ terminal ∈ set := Iff.rfl

@[ext]
theorem ext {first second : TerminalSet}
    (same : ∀ terminal, terminal ∈ first ↔ terminal ∈ second) : first = second := by
  cases first
  cases second
  congr
  apply Nat.eq_of_testBit_eq
  intro terminal
  exact Bool.eq_iff_iff.mpr (same terminal)

@[simp]
theorem not_mem_empty (terminal : Nat) : ¬ terminal ∈ (∅ : TerminalSet) := by
  simp [mem_def, EmptyCollection.emptyCollection]

@[simp]
theorem mem_singleton {terminal other : Nat} :
    terminal ∈ ({other} : TerminalSet) ↔ terminal = other := by
  simp [mem_def, Singleton.singleton, Nat.shiftLeft_eq, Nat.testBit_two_pow,
    eq_comm]

@[simp]
theorem mem_union {terminal : Nat} {first second : TerminalSet} :
    terminal ∈ first ∪ second ↔ terminal ∈ first ∨ terminal ∈ second := by
  simp [mem_def, Union.union, Nat.testBit_or]

@[simp]
theorem mem_ofList {terminal : Nat} {terminals : List Nat} :
    terminal ∈ ofList terminals ↔ terminal ∈ terminals := by
  induction terminals with
  | nil => simp [ofList]
  | cons head rest ih =>
      have unfolded : ofList (head :: rest) = {head} ∪ ofList rest := rfl
      simp [unfolded, ih]

theorem lt_of_mem {terminal : Nat} {set : TerminalSet} (member : terminal ∈ set) :
    terminal < set.mask.log2 + 1 := by
  apply Decidable.byContradiction
  intro beyond
  have small : set.mask < 2 ^ terminal :=
    Nat.lt_of_lt_of_le Nat.lt_log2_self (Nat.pow_le_pow_right (by decide) (by omega))
  rw [mem_def, Nat.testBit_lt_two_pow small] at member
  contradiction

@[simp]
theorem mem_toList {terminal : Nat} {set : TerminalSet} :
    terminal ∈ set.toList ↔ terminal ∈ set := by
  simp only [toList, List.mem_filter, List.mem_range, contains_iff]
  exact ⟨And.right, fun member => ⟨lt_of_mem member, member⟩⟩

theorem pairwise_toList (set : TerminalSet) : set.toList.Pairwise (· < ·) :=
  List.pairwise_lt_range.filter _

end TerminalSet

end DeterministicParsing
