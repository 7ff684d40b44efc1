/-
# Viable prefixes

What the states of an automaton are to know. While an input is being read, a nonterminal is looked
for in a place: some symbols stand in front of it, and some come after it. The places of the start
and, for every rule of a nonterminal that is looked for, the places of the nonterminals in its body
are the frames of a grammar. A string of symbols is a viable prefix if it consists of what stands in
front of some frame and the first part of a rule for it, and the rule, with the marker after that
part, is then valid for it.
-/
import DeterministicParsing.Grammar.Derivation
import DeterministicParsing.Item.Basic

namespace DeterministicParsing

namespace Grammar

variable (grammar : Grammar)

/-- A nonterminal is looked for with the first symbols in front of it and the last ones after it. -/
inductive Frame : List Symbol → Nat → List Symbol → Prop where
  /-- The start is looked for at the beginning, with the end of the input after it. -/
  | start {nonterminal : Nat} (starts : grammar.start = .ok nonterminal) :
      Frame [] nonterminal (word [endOfInput])
  /-- A nonterminal of the body of a rule is looked for where the rule is. -/
  | within {before after left right : List Symbol} {head nonterminal : Nat}
      (outer : Frame before head after)
      (member : ⟨head, left ++ .nonterminal nonterminal :: right⟩ ∈ grammar.rules) :
      Frame (before ++ left) nonterminal (right ++ after)

/-- A core is valid for a string if the string is what stands in front of a frame followed by what
the core has recognised of its rule. The last argument is what comes after the frame. -/
def ValidFor (string : List Symbol) (core : Core) (after : List Symbol) : Prop :=
  ∃ rule before, grammar.rules[core.rule]? = some rule ∧ core.marker ≤ rule.body.length ∧
    grammar.Frame before rule.head after ∧ string = before ++ rule.body.take core.marker

def ViablePrefix (string : List Symbol) : Prop :=
  ∃ core after, grammar.ValidFor string core after

/-- A terminal can come after the rule of a valid core. -/
def ValidLookahead (string : List Symbol) (core : Core) (terminal : Nat) : Prop :=
  ∃ after, grammar.ValidFor string core after ∧ grammar.DerivesBeginning after terminal

variable {grammar}

/-- Every rule of a nonterminal that is looked for is valid, with the marker at its beginning. -/
theorem Frame.validFor {before after : List Symbol} {nonterminal id : Nat} {rule : Rule}
    (frame : grammar.Frame before nonterminal after) (found : grammar.rules[id]? = some rule)
    (same : rule.head = nonterminal) : grammar.ValidFor before ⟨id, 0⟩ after :=
  ⟨rule, before, found, Nat.zero_le _, same ▸ frame, by simp⟩

/-- Reading the symbol after the marker keeps a core valid. -/
theorem ValidFor.advanced {string after : List Symbol} {core : Core} {rule : Rule}
    {symbol : Symbol} (valid : grammar.ValidFor string core after)
    (found : grammar.rules[core.rule]? = some rule) (next : rule.body[core.marker]? = some symbol) :
    grammar.ValidFor (string ++ [symbol]) core.advanced after := by
  obtain ⟨other, before, foundOther, _, frame, rfl⟩ := valid
  obtain rfl : rule = other := by simpa [found] using foundOther
  refine ⟨rule, before, found, ?_, frame, ?_⟩
  · exact (List.getElem?_eq_some_iff.mp next).1
  · simp [Core.advanced, List.take_add_one, next]

/-- The rules of the nonterminal after the marker of a valid core are valid in the same place. -/
theorem ValidFor.within {string after : List Symbol} {core : Core} {rule inner : Rule}
    {id : Nat} (valid : grammar.ValidFor string core after)
    (found : grammar.rules[core.rule]? = some rule)
    (next : rule.body[core.marker]? = some (.nonterminal inner.head))
    (foundInner : grammar.rules[id]? = some inner) :
    grammar.ValidFor string ⟨id, 0⟩ (rule.body.drop (core.marker + 1) ++ after) := by
  obtain ⟨other, before, foundOther, _, frame, rfl⟩ := valid
  obtain rfl : rule = other := by simpa [found] using foundOther
  refine Frame.validFor (.within frame ?_) foundInner rfl
  obtain ⟨short, here⟩ := List.getElem?_eq_some_iff.mp next
  rw [← here, ← List.drop_eq_getElem_cons short, List.take_append_drop]
  exact List.mem_of_getElem? found

end Grammar

end DeterministicParsing
