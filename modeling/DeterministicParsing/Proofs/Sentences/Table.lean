/-
# Tables that take shorter sentences

Sentences are offered to a table under keys, and the table takes a sentence if it has none under the
same key or only a longer one. A sentence that is the first one under its key is put together from
those of fewer keys, so with every new key the sentences get longer by a bounded amount at most. The
lengths of all sentences together, a missing one counted as longer than any other, are therefore a
measure that every change lowers.
-/
import Mathlib.Algebra.Order.BigOperators.Group.Finset
import DeterministicParsing.Sentences

namespace DeterministicParsing.Sentences

variable {κ : Type} [DecidableEq κ]

/-- A table after a sentence has been offered under a key. -/
def offer (table : κ → Option (List Nat)) (entry : κ × List Nat) : κ → Option (List Nat) :=
  Function.update table entry.1 (some (shorter (table entry.1) entry.2))

/-- The number of keys that have a sentence. -/
def filled (slots : Finset κ) (table : κ → Option (List Nat)) : Nat :=
  (slots.filter fun key => (table key).isSome).card

/-- The length of a sentence, or something longer than the limit if there is none. -/
def lengthOr (limit : Nat) : Option (List Nat) → Nat
  | none => limit + 1
  | some sentence => sentence.length

/-- The lengths of all sentences together, where each missing one counts as longer than the
limit. -/
def room (slots : Finset κ) (limit : Nat) (table : κ → Option (List Nat)) : Nat :=
  ∑ key ∈ slots, lengthOr limit (table key)

/-- Only the given keys have sentences, and as long as few of them do, all sentences are short. -/
structure Bounded (slots : Finset κ) (limit : Nat → Nat)
    (table : κ → Option (List Nat)) : Prop where
  mem : ∀ key sentence, table key = some sentence → key ∈ slots
  length_le : ∀ key sentence, table key = some sentence →
    sentence.length ≤ limit (filled slots table)

variable {slots : Finset κ} {limit : Nat → Nat} {table : κ → Option (List Nat)}
  {entry : κ × List Nat} {entries : List (κ × List Nat)}

theorem offer_self : offer table entry entry.1 = some (shorter (table entry.1) entry.2) :=
  Function.update_self ..

theorem offer_of_ne {key : κ} (other : key ≠ entry.1) : offer table entry key = table key :=
  Function.update_of_ne other ..

theorem shorter_eq_or (known : Option (List Nat)) (candidate : List Nat) :
    shorter known candidate = candidate ∨ known = some (shorter known candidate) := by
  cases known with
  | none => exact .inl rfl
  | some sentence =>
      rw [shorter]
      split
      · exact .inl rfl
      · exact .inr rfl

theorem length_shorter_le_right (known : Option (List Nat)) (candidate : List Nat) :
    (shorter known candidate).length ≤ candidate.length := by
  cases known with
  | none => exact le_rfl
  | some sentence =>
      rw [shorter]
      split <;> omega

theorem length_shorter_le_left {known : Option (List Nat)} {sentence : List Nat}
    (isKnown : known = some sentence) (candidate : List Nat) :
    (shorter known candidate).length ≤ sentence.length := by
  subst isKnown
  rw [shorter]
  split <;> omega

/-- What a table holds after an offer was there before or is what was offered. -/
theorem of_offer_eq_some {key : κ} {sentence : List Nat}
    (held : offer table entry key = some sentence) :
    table key = some sentence ∨ (key, sentence) = entry := by
  by_cases same : key = entry.1
  · subst same
    rw [offer_self, Option.some.injEq] at held
    rcases shorter_eq_or (table entry.1) entry.2 with taken | kept
    · exact .inr (by rw [← held, taken])
    · exact .inl (by rw [kept, held])
  · rw [offer_of_ne same] at held
    exact .inl held

/-- No key loses its sentence, unless to a shorter one. -/
theorem exists_offer_eq_some {key : κ} {sentence : List Nat} (held : table key = some sentence)
    (entry : κ × List Nat) :
    ∃ next, offer table entry key = some next ∧ next.length ≤ sentence.length := by
  by_cases same : key = entry.1
  · subst same
    exact ⟨_, offer_self, length_shorter_le_left held entry.2⟩
  · exact ⟨sentence, (offer_of_ne same).trans held, le_rfl⟩

theorem filled_le_filled_offer (slots : Finset κ) (table : κ → Option (List Nat))
    (entry : κ × List Nat) : filled slots table ≤ filled slots (offer table entry) := by
  refine Finset.card_le_card fun key member => ?_
  rw [Finset.mem_filter] at member ⊢
  obtain ⟨sentence, held⟩ := Option.isSome_iff_exists.mp member.2
  obtain ⟨next, nextHeld, _⟩ := exists_offer_eq_some held entry
  exact ⟨member.1, by rw [nextHeld, Option.isSome_some]⟩

theorem filled_offer_of_none (slot : entry.1 ∈ slots) (absent : table entry.1 = none) :
    filled slots (offer table entry) = filled slots table + 1 := by
  have grown : (slots.filter fun key => (offer table entry key).isSome) =
      insert entry.1 (slots.filter fun key => (table key).isSome) := by
    ext key
    by_cases same : key = entry.1
    · simp [same, offer_self, slot]
    · simp [same, offer_of_ne same]
  rw [filled, grown, Finset.card_insert_of_notMem (by simp [absent]), filled]

omit [DecidableEq κ] in
theorem filled_le_card (slots : Finset κ) (table : κ → Option (List Nat)) :
    filled slots table ≤ slots.card :=
  Finset.card_filter_le slots _

/-- A sentence that is not longer than those of one more key would be keeps the table bounded, and
changes it only to make it shorter. -/
theorem Bounded.offer (bounded : Bounded slots limit table) (monotone : Monotone limit)
    (slot : entry.1 ∈ slots) (short : entry.2.length ≤ limit (filled slots table + 1)) :
    Bounded slots limit (offer table entry) ∧ (Sentences.offer table entry = table ∨
      room slots (limit slots.card) (Sentences.offer table entry) <
        room slots (limit slots.card) table) := by
  have inSlots {key : κ} {sentence : List Nat}
      (held : Sentences.offer table entry key = some sentence) : key ∈ slots := by
    rcases of_offer_eq_some held with known | rfl
    · exact bounded.mem key sentence known
    · exact slot
  have lower (less : lengthOr (limit slots.card) (Sentences.offer table entry entry.1) <
      lengthOr (limit slots.card) (table entry.1)) :
      room slots (limit slots.card) (Sentences.offer table entry) <
        room slots (limit slots.card) table := by
    refine Finset.sum_lt_sum (fun key _ => ?_) ⟨entry.1, slot, less⟩
    by_cases same : key = entry.1
    · rw [same]
      exact less.le
    · rw [offer_of_ne same]
  cases known : table entry.1 with
  | none =>
      have grown := filled_offer_of_none slot known
      have few := filled_le_card slots (Sentences.offer table entry)
      refine ⟨⟨fun _ _ => inSlots, fun key sentence held => ?_⟩, .inr (lower ?_)⟩
      · rw [grown]
        rcases of_offer_eq_some held with before | rfl
        · exact (bounded.length_le key sentence before).trans (monotone (Nat.le_succ _))
        · exact short
      · have within : limit (filled slots table + 1) ≤ limit slots.card := monotone (by omega)
        rw [offer_self, known]
        change entry.2.length < limit slots.card + 1
        omega
  | some sentence =>
      by_cases less : entry.2.length < sentence.length
      · refine ⟨⟨fun _ _ => inSlots, fun key next held => ?_⟩, .inr (lower ?_)⟩
        · have monotoneFilled := monotone (filled_le_filled_offer slots table entry)
          rcases of_offer_eq_some held with before | rfl
          · exact (bounded.length_le key next before).trans monotoneFilled
          · exact (less.le.trans (bounded.length_le _ sentence known)).trans monotoneFilled
        · rw [offer_self, known, shorter, if_pos less]
          exact less
      · have same : Sentences.offer table entry = table := by
          rw [Sentences.offer, known, shorter, if_neg less, ← known, Function.update_eq_self]
        rw [same]
        exact ⟨bounded, .inl rfl⟩

theorem Bounded.foldl_offer (bounded : Bounded slots limit table) (monotone : Monotone limit)
    {count : Nat} (few : count ≤ filled slots table)
    (short : ∀ entry ∈ entries, entry.1 ∈ slots ∧ entry.2.length ≤ limit (count + 1)) :
    Bounded slots limit (entries.foldl Sentences.offer table) ∧
      (entries.foldl Sentences.offer table = table ∨
        room slots (limit slots.card) (entries.foldl Sentences.offer table) <
          room slots (limit slots.card) table) := by
  induction entries generalizing table with
  | nil => exact ⟨bounded, .inl rfl⟩
  | cons entry entries ih =>
      obtain ⟨slot, shortEntry⟩ := short entry (by simp)
      obtain ⟨nextBounded, lower⟩ := bounded.offer monotone slot
        (shortEntry.trans (monotone (by omega)))
      obtain ⟨finalBounded, lowerRest⟩ := ih nextBounded
        (few.trans (filled_le_filled_offer slots table entry))
        fun other member => short other (by simp [member])
      refine ⟨finalBounded, ?_⟩
      rw [List.foldl_cons]
      rcases lowerRest with same | lowerRest
      · rw [same]
        exact lower
      · rcases lower with same | lower
        · rw [same] at lowerRest ⊢
          exact .inr lowerRest
        · exact .inr (lowerRest.trans lower)

theorem of_foldl_offer_eq_some {key : κ} {sentence : List Nat}
    (held : entries.foldl offer table key = some sentence) :
    table key = some sentence ∨ (key, sentence) ∈ entries := by
  induction entries generalizing table with
  | nil => exact .inl held
  | cons entry entries ih =>
      rcases ih held with before | later
      · rcases of_offer_eq_some before with known | rfl
        · exact .inl known
        · exact .inr (by simp)
      · exact .inr (by simp [later])

theorem exists_foldl_offer_eq_some {key : κ} {sentence : List Nat}
    (held : table key = some sentence) (entries : List (κ × List Nat)) :
    ∃ next, entries.foldl offer table key = some next ∧ next.length ≤ sentence.length := by
  induction entries generalizing table sentence with
  | nil => exact ⟨sentence, held, le_rfl⟩
  | cons entry entries ih =>
      obtain ⟨next, nextHeld, less⟩ := exists_offer_eq_some held entry
      obtain ⟨final, finalHeld, lesser⟩ := ih nextHeld
      exact ⟨final, finalHeld, lesser.trans less⟩

/-- When all sentences have been offered, none of them is shorter than what the table holds. -/
theorem exists_foldl_offer_le (member : entry ∈ entries) :
    ∃ next, entries.foldl offer table entry.1 = some next ∧ next.length ≤ entry.2.length := by
  induction entries generalizing table with
  | nil => cases member
  | cons first entries ih =>
      rcases List.mem_cons.mp member with rfl | later
      · obtain ⟨next, held, less⟩ :=
          exists_foldl_offer_eq_some (@offer_self _ _ table entry) entries
        exact ⟨next, held, less.trans (length_shorter_le_right _ _)⟩
      · exact ih later

end DeterministicParsing.Sentences
