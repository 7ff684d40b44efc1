/-
# What an ascending map holds

A map with ascending keys is determined by what is found under each key, and its list of keys by
which keys are there. Both follow from the order: an ascending list is determined by its members.
-/
import Mathlib.Data.List.Sort
import DeterministicParsing.AscendingMap

namespace DeterministicParsing

namespace AscendingMap

variable {κ β γ : Type} [LT κ] [DecidableEq κ]

/-- An entry is listed in an ascending list exactly if its value is found under its key. -/
theorem mem_iff_lookupEntries [KeyOrder κ] {list : List (κ × β)} {key : κ} {value : β}
    (ascending : list.Pairwise (fun first second => first.1 < second.1)) :
    (key, value) ∈ list ↔ lookupEntries key list = some value := by
  induction ascending with
  | nil => simp [lookupEntries]
  | @cons entry rest above tail ih =>
      obtain ⟨other, stored⟩ := entry
      by_cases same : key = other
      · subst same
        have absent : (key, value) ∉ rest := fun member =>
          KeyOrder.irrefl key (above (key, value) member)
        simp [lookupEntries, absent, eq_comm]
      · simp [lookupEntries, same, ih]

/-- An entry is listed exactly if its value is found under its key. -/
theorem mem_entries [KeyOrder κ] {map : AscendingMap κ β} {key : κ} {value : β} :
    (key, value) ∈ map.entries ↔ map.find? key = some value :=
  mem_iff_lookupEntries map.ascending

/-- A key is listed exactly if something is found under it. -/
theorem mem_keys [KeyOrder κ] {map : AscendingMap κ β} {key : κ} :
    key ∈ map.keys ↔ ∃ value, map.find? key = some value := by
  simp [keys, ← mem_entries]

omit [DecidableEq κ] in
/-- The keys are ascending. -/
theorem pairwise_keys (map : AscendingMap κ β) : map.keys.Pairwise (· < ·) := by
  simpa [keys, List.pairwise_map] using map.ascending

omit [DecidableEq κ] in
/-- Two ascending lists with the same members are equal. -/
theorem eq_of_pairwise_lt [KeyOrder κ] (key : γ → κ) {first second : List γ}
    (firstAscends : first.Pairwise (fun left right => key left < key right))
    (secondAscends : second.Pairwise (fun left right => key left < key right))
    (same : ∀ member, member ∈ first ↔ member ∈ second) : first = second := by
  have irreflexive : Std.Irrefl (fun left right : γ => key left < key right) :=
    ⟨fun member => KeyOrder.irrefl (key member)⟩
  have antisymmetric : Std.Antisymm (fun left right : γ => key left < key right) :=
    ⟨fun _ _ below above => absurd (KeyOrder.trans below above) (KeyOrder.irrefl _)⟩
  exact firstAscends.eq_of_mem_iff secondAscends same

/-- A map is determined by what is found under each key. -/
theorem ext_find? [KeyOrder κ] {first second : AscendingMap κ β}
    (same : ∀ key, first.find? key = second.find? key) : first = second := by
  obtain ⟨entries, ascending⟩ := first
  congr 1
  apply eq_of_pairwise_lt Prod.fst ascending second.ascending
  rintro ⟨key, value⟩
  rw [mem_entries, ← same key]
  exact mem_iff_lookupEntries ascending

/-- The keys of a map are determined by which of them are there. -/
theorem keys_eq_iff [KeyOrder κ] {first : AscendingMap κ β} {second : AscendingMap κ γ} :
    first.keys = second.keys ↔
      ∀ key, (∃ value, first.find? key = some value) ↔
        ∃ value, second.find? key = some value := by
  constructor
  · intro same key
    rw [← mem_keys, ← mem_keys, same]
  · intro same
    apply eq_of_pairwise_lt id (pairwise_keys first) (pairwise_keys second)
    intro key
    rw [mem_keys, mem_keys]
    exact same key

omit [LT κ] in
/-- Replacing every value in a list of entries replaces what is found. -/
theorem lookupEntries_map (change : β → γ) (key : κ) (list : List (κ × β)) :
    lookupEntries key (list.map fun entry => (entry.1, change entry.2)) =
      (lookupEntries key list).map change := by
  induction list with
  | nil => rfl
  | cons entry rest ih =>
      by_cases same : key = entry.1
      · simp [lookupEntries, same]
      · simp [lookupEntries, same, ih]

@[simp]
theorem find?_mapValues (map : AscendingMap κ β) (change : β → γ) (key : κ) :
    (map.mapValues change).find? key = (map.find? key).map change :=
  lookupEntries_map change key map.entries

@[simp]
theorem find?_empty (key : κ) : (empty : AscendingMap κ β).find? key = none := rfl

/-- Storing a value changes what is found under its key and nothing else. -/
theorem find?_insert [DecidableLT κ] [KeyOrder κ] (map : AscendingMap κ β) (key wanted : κ)
    (value : β) :
    (map.insert key value).find? wanted = if wanted = key then some value else map.find? wanted :=
  find?_alter map key wanted fun _ => value

end AscendingMap

end DeterministicParsing
