/-
# Maps in order of insertion

A finite map kept as the list of its entries, in the order in which their keys came up. A new value
for a key takes the place of the old one. Parsing tables are such maps, so that their cells are
listed in the order in which they were filled.
-/

namespace DeterministicParsing

/-- A finite map as the list of its entries, the key that came up first at the front. -/
structure InsertionMap (κ β : Type) where
  entries : List (κ × β)
  /-- No key is listed twice. -/
  distinct : entries.Pairwise fun first second => first.1 ≠ second.1
  deriving DecidableEq

namespace InsertionMap

variable {κ β : Type} [DecidableEq κ]

def empty : InsertionMap κ β := ⟨[], .nil⟩

def find? (map : InsertionMap κ β) (key : κ) : Option β := map.entries.lookup key

/-- Store a value under a key of a list of entries, at its end if the key is not there yet. -/
def insertEntry (key : κ) (value : β) : List (κ × β) → List (κ × β)
  | [] => [(key, value)]
  | entry :: rest =>
      if entry.1 = key then (key, value) :: rest else entry :: insertEntry key value rest

theorem mem_insertEntry {key : κ} {value : β} {list : List (κ × β)} {entry : κ × β}
    (member : entry ∈ insertEntry key value list) : entry.1 = key ∨ entry ∈ list := by
  induction list with
  | nil => simp_all [insertEntry]
  | cons head rest ih =>
      rw [insertEntry] at member
      split at member
      · rcases List.mem_cons.mp member with rfl | later
        · exact .inl rfl
        · exact .inr (List.mem_cons_of_mem head later)
      · rcases List.mem_cons.mp member with rfl | later
        · exact .inr (List.mem_cons_self ..)
        · exact (ih later).imp_right (List.mem_cons_of_mem head)

theorem pairwise_insertEntry (key : κ) (value : β) {list : List (κ × β)}
    (distinct : list.Pairwise fun first second => first.1 ≠ second.1) :
    (insertEntry key value list).Pairwise fun first second => first.1 ≠ second.1 := by
  induction distinct with
  | nil => simp [insertEntry]
  | @cons head rest others tail ih =>
      rw [insertEntry]
      split
      · rename_i same
        exact .cons (same ▸ others) tail
      · rename_i differs
        refine .cons (fun entry member => ?_) ih
        rcases mem_insertEntry member with same | old
        · rwa [same]
        · exact others entry old

def insert (map : InsertionMap κ β) (key : κ) (value : β) : InsertionMap κ β :=
  ⟨insertEntry key value map.entries, pairwise_insertEntry key value map.distinct⟩

@[simp]
theorem find?_empty (key : κ) : (empty : InsertionMap κ β).find? key = none := rfl

/-- What is found under a key is what is listed for it. -/
theorem find?_eq_some_iff {map : InsertionMap κ β} {key : κ} {value : β} :
    map.find? key = some value ↔ (key, value) ∈ map.entries := by
  obtain ⟨entries, distinct⟩ := map
  rw [find?]
  induction distinct with
  | nil => simp
  | @cons head rest others _ ih =>
      obtain ⟨other, held⟩ := head
      by_cases same : key = other
      · subst same
        have absent : (key, value) ∉ rest := fun member => others _ member rfl
        simp [absent, eq_comm]
      · have differs : (key == other) = false := beq_false_of_ne same
        simpa [List.lookup_cons, same, differs] using ih

theorem lookup_insertEntry (key wanted : κ) (value : β) (list : List (κ × β)) :
    (insertEntry key value list).lookup wanted =
      if wanted = key then some value else list.lookup wanted := by
  induction list with
  | nil => grind [insertEntry]
  | cons head rest ih => grind [insertEntry]

@[simp]
theorem find?_insert (map : InsertionMap κ β) (key wanted : κ) (value : β) :
    (map.insert key value).find? wanted = if wanted = key then some value else map.find? wanted :=
  lookup_insertEntry key wanted value map.entries

end InsertionMap

end DeterministicParsing
