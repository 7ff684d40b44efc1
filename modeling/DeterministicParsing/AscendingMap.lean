/-
# Maps with ascending keys

A finite map kept as the list of its entries, ordered by key. Its order is the order in which
everything that is listed by key is printed, and since equal maps are equal lists, maps can be
compared. Item sets, the successors of a state and the sentences by first terminal are such maps.
-/

namespace DeterministicParsing

/-- A strict order in which two different keys always compare. -/
class KeyOrder (κ : Type) [LT κ] : Prop where
  irrefl : ∀ key : κ, ¬ key < key
  trans : ∀ {first second third : κ}, first < second → second < third → first < third
  total : ∀ {first second : κ}, ¬ first < second → first ≠ second → second < first

instance : KeyOrder Nat where
  irrefl := Nat.lt_irrefl
  trans := Nat.lt_trans
  total := fun notBelow different => by omega

/-- A finite map as the list of its entries, in ascending order of their keys. -/
structure AscendingMap (κ β : Type) [LT κ] where
  entries : List (κ × β)
  /-- Each key is below all later ones, so no key is listed twice. -/
  ascending : entries.Pairwise (fun first second => first.1 < second.1)
  deriving DecidableEq

namespace AscendingMap

variable {κ β : Type} [LT κ] [DecidableLT κ] [DecidableEq κ]

def empty : AscendingMap κ β := ⟨[], .nil⟩

/-- The value of the first entry with a key, in a list of entries. -/
def lookupEntries (key : κ) : List (κ × β) → Option β
  | [] => none
  | (other, value) :: rest => if key = other then some value else lookupEntries key rest

def find? (map : AscendingMap κ β) (key : κ) : Option β :=
  lookupEntries key map.entries

def keys (map : AscendingMap κ β) : List κ := map.entries.map Prod.fst

def isEmpty (map : AscendingMap κ β) : Bool := map.entries.isEmpty

def size (map : AscendingMap κ β) : Nat := map.entries.length

def mapValues {γ : Type} (map : AscendingMap κ β) (change : β → γ) : AscendingMap κ γ where
  entries := map.entries.map fun entry => (entry.1, change entry.2)
  ascending := by simpa [List.pairwise_map] using map.ascending

/-- Replace the value under a key by what `change` makes of it, in a list of entries; a key that is
not there yet is put in its place in the order. -/
def alterEntries (key : κ) (change : Option β → β) : List (κ × β) → List (κ × β)
  | [] => [(key, change none)]
  | (other, value) :: rest =>
      if key < other then (key, change none) :: (other, value) :: rest
      else if key = other then (other, change (some value)) :: rest
      else (other, value) :: alterEntries key change rest

theorem key_of_mem_alterEntries {key : κ} {change : Option β → β} {list : List (κ × β)}
    {entry : κ × β} (member : entry ∈ alterEntries key change list) :
    entry.1 = key ∨ ∃ other ∈ list, other.1 = entry.1 := by
  induction list with
  | nil => simp_all [alterEntries]
  | cons head rest ih =>
      obtain ⟨other, value⟩ := head
      unfold alterEntries at member
      split at member
      · grind
      · split at member <;> grind

theorem pairwise_alterEntries [KeyOrder κ] (key : κ) (change : Option β → β)
    {list : List (κ × β)} (ascending : list.Pairwise (fun first second => first.1 < second.1)) :
    (alterEntries key change list).Pairwise (fun first second => first.1 < second.1) := by
  induction ascending with
  | nil => simp [alterEntries]
  | @cons head rest above tail ih =>
      obtain ⟨other, value⟩ := head
      unfold alterEntries
      split
      · rename_i below
        refine .cons ?_ (.cons above tail)
        intro entry member
        rcases List.mem_cons.mp member with rfl | member
        · exact below
        · exact KeyOrder.trans below (above entry member)
      · rename_i notBelow
        split
        · exact .cons above tail
        · rename_i different
          refine .cons ?_ ih
          intro entry member
          rcases key_of_mem_alterEntries member with same | ⟨old, member, same⟩
          · exact same ▸ KeyOrder.total notBelow different
          · exact same ▸ above old member

/-- Replace the value under a key by what `change` makes of it. -/
def alter [KeyOrder κ] (map : AscendingMap κ β) (key : κ) (change : Option β → β) :
    AscendingMap κ β :=
  ⟨alterEntries key change map.entries, pairwise_alterEntries key change map.ascending⟩

def insert [KeyOrder κ] (map : AscendingMap κ β) (key : κ) (value : β) : AscendingMap κ β :=
  map.alter key fun _ => value

omit [DecidableLT κ] in
theorem lookupEntries_eq_none [KeyOrder κ] {key : κ} {list : List (κ × β)}
    (below : ∀ entry ∈ list, key < entry.1) : lookupEntries key list = none := by
  induction list with
  | nil => rfl
  | cons head rest ih =>
      have different : key ≠ head.1 := fun same =>
        KeyOrder.irrefl key (by simpa [← same] using below head (by simp))
      simp only [lookupEntries, if_neg different]
      exact ih fun entry member => below entry (by simp [member])

theorem lookupEntries_alterEntries [KeyOrder κ] (key : κ) (change : Option β → β)
    (wanted : κ) {list : List (κ × β)}
    (ascending : list.Pairwise (fun first second => first.1 < second.1)) :
    lookupEntries wanted (alterEntries key change list) =
      if wanted = key then some (change (lookupEntries key list))
      else lookupEntries wanted list := by
  induction ascending with
  | nil => rfl
  | @cons head rest above tail ih =>
      obtain ⟨other, value⟩ := head
      have absent (below : key < other) : lookupEntries key rest = none :=
        lookupEntries_eq_none fun entry member => KeyOrder.trans below (above entry member)
      have different (below : key < other) : key ≠ other := fun same =>
        KeyOrder.irrefl key (by simpa [← same] using below)
      unfold alterEntries
      grind [lookupEntries]

/-- Altering a key changes what is found under it and nothing else. -/
theorem find?_alter [KeyOrder κ] (map : AscendingMap κ β) (key wanted : κ)
    (change : Option β → β) :
    (map.alter key change).find? wanted =
      if wanted = key then some (change (map.find? key)) else map.find? wanted :=
  lookupEntries_alterEntries key change wanted map.ascending

end AscendingMap

end DeterministicParsing
