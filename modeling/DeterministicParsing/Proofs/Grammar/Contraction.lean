/-
# Contractions

As long as the next terminal of an input has not been read, all that can happen to what has been
read is that the body of a rule at its end is replaced by the head. Such contractions can go on for
ever, but not if the next terminal is one that is awaited: then each of them belongs to a derivation
that leads up to the terminal. This module tells what is awaited after a string, and that a
contraction leaves nothing awaited that was not awaited before.
-/
import Mathlib.Logic.Relation
import DeterministicParsing.Proofs.Automaton.ViablePrefix

namespace DeterministicParsing.Grammar

open Relation (TransGen)

variable {grammar : Grammar} {first second string next before after : List Symbol}
  {terminal nonterminal : Nat}

/-! ## Strings that become empty or begin with a terminal -/

/-- Every symbol of the string is a nonterminal with a rule whose body vanishes in turn. -/
inductive Vanishes (grammar : Grammar) : List Symbol → Prop where
  | nil : Vanishes grammar []
  | cons {rule : Rule} {rest : List Symbol} (member : rule ∈ grammar.rules)
      (body : Vanishes grammar rule.body) (others : Vanishes grammar rest) :
      Vanishes grammar (.nonterminal rule.head :: rest)

theorem Vanishes.derives (vanishes : grammar.Vanishes string) : grammar.Derives string [] := by
  induction vanishes with
  | nil => exact .refl []
  | cons member _ _ body others => exact ((Derives.of_rule member).trans body).append others

theorem vanishes_append :
    grammar.Vanishes (first ++ second) ↔ grammar.Vanishes first ∧ grammar.Vanishes second := by
  induction first with
  | nil => exact ⟨fun vanishes => ⟨.nil, vanishes⟩, fun vanishes => vanishes.2⟩
  | cons symbol first ih =>
      constructor
      · rintro (_ | ⟨member, body, others⟩)
        exact ⟨.cons member body (ih.mp others).1, (ih.mp others).2⟩
      · rintro ⟨_ | ⟨member, body, others⟩, vanishes⟩
        exact .cons member body (ih.mpr ⟨others, vanishes⟩)

theorem Derives.vanishes (derives : grammar.Derives string []) : grammar.Vanishes string := by
  generalize isEmpty : ([] : List Symbol) = last at derives
  induction derives with
  | refl => exact isEmpty ▸ .nil
  | head expands _ ih =>
      obtain ⟨member, left, right⟩ := expands
      obtain ⟨inLeft, others⟩ := vanishes_append.mp (ih isEmpty)
      obtain ⟨inBody, inRight⟩ := vanishes_append.mp others
      exact vanishes_append.mpr ⟨inLeft, .cons member inBody inRight⟩

/-- How a string comes to begin with a terminal. -/
inductive Begins (grammar : Grammar) (terminal : Nat) : List Symbol → Prop where
  /-- The terminal is there. -/
  | read (rest : List Symbol) : Begins grammar terminal (.terminal terminal :: rest)
  /-- The first symbol vanishes. -/
  | skip {symbol : Symbol} {rest : List Symbol} (vanishes : grammar.Vanishes [symbol])
      (begins : Begins grammar terminal rest) : Begins grammar terminal (symbol :: rest)
  /-- The body of a rule for the first symbol begins with the terminal. -/
  | enter {rule : Rule} (member : rule ∈ grammar.rules)
      (begins : Begins grammar terminal rule.body) (rest : List Symbol) :
      Begins grammar terminal (.nonterminal rule.head :: rest)

theorem Begins.derivesBeginning (begins : grammar.Begins terminal string) :
    grammar.DerivesBeginning string terminal := by
  induction begins with
  | read rest => exact ⟨rest, .refl _⟩
  | skip vanishes _ ih =>
      rw [← List.singleton_append]
      exact derivesBeginning_append.mpr (.inr ⟨vanishes.derives, ih⟩)
  | enter member _ rest ih =>
      rw [← List.singleton_append]
      exact derivesBeginning_append.mpr (.inl ((Derives.of_rule member).beginning ih))

theorem begins_append : grammar.Begins terminal (first ++ second) ↔
    grammar.Begins terminal first ∨
    (grammar.Vanishes first ∧ grammar.Begins terminal second) := by
  induction first with
  | nil =>
      constructor
      · exact fun begins => .inr ⟨.nil, begins⟩
      · rintro (⟨⟨⟩⟩ | ⟨_, begins⟩)
        exact begins
  | cons symbol first ih =>
      constructor
      · rintro (_ | ⟨vanishes, begins⟩ | ⟨member, begins⟩)
        · exact .inl (.read first)
        · rcases ih.mp begins with inFirst | ⟨firstVanishes, inSecond⟩
          · exact .inl (.skip vanishes inFirst)
          · exact .inr ⟨vanishes_append.mpr ⟨vanishes, firstVanishes⟩, inSecond⟩
        · exact .inl (.enter member begins first)
      · rintro ((_ | ⟨vanishes, begins⟩ | ⟨member, begins⟩) | ⟨vanishes, begins⟩)
        · exact .read _
        · exact .skip vanishes (ih.mpr (.inl begins))
        · exact .enter member begins _
        · rw [← List.singleton_append, vanishes_append] at vanishes
          exact .skip vanishes.1 (ih.mpr (.inr ⟨vanishes.2, begins⟩))

theorem DerivesBeginning.begins (beginning : grammar.DerivesBeginning string terminal) :
    grammar.Begins terminal string := by
  obtain ⟨rest, derives⟩ := beginning
  generalize isLast : Symbol.terminal terminal :: rest = last at derives
  induction derives with
  | refl => exact isLast ▸ .read rest
  | head expands _ ih =>
      obtain ⟨member, left, right⟩ := expands
      rcases begins_append.mp (ih isLast) with inLeft | ⟨vanishes, begins⟩
      · exact begins_append.mpr (.inl inLeft)
      · refine begins_append.mpr (.inr ⟨vanishes, ?_⟩)
        rcases begins_append.mp begins with inBody | ⟨bodyVanishes, inRight⟩
        · exact .enter member inBody right
        · exact .skip (.cons member bodyVanishes .nil) inRight

/-! ## What is awaited -/

/-- The terminal can come next when the string has been read: it begins what is left of a rule and
of what comes after the rule. -/
def Awaits (grammar : Grammar) (string : List Symbol) (terminal : Nat) : Prop :=
  ∃ before after left right head, grammar.Frame before head after ∧
    ⟨head, left ++ right⟩ ∈ grammar.rules ∧ string = before ++ left ∧
    grammar.DerivesBeginning (right ++ after) terminal

/-- Where a terminal can come after a nonterminal that is looked for, it is awaited behind it. -/
theorem Frame.awaits_snoc (frame : grammar.Frame before nonterminal after)
    (other : grammar.start ≠ .ok nonterminal) (begins : grammar.DerivesBeginning after terminal) :
    grammar.Awaits (before ++ [.nonterminal nonterminal]) terminal := by
  cases frame with
  | start starts => exact absurd starts other
  | @within outerBefore outerAfter left right head _ outer member =>
      refine ⟨outerBefore, outerAfter, left ++ [.nonterminal nonterminal], right, head, outer, ?_,
        ?_, begins⟩
      · rwa [← List.append_cons]
      · rw [List.append_assoc]

/-- Behind a nonterminal, nothing is awaited but what can come after it where it is looked for. -/
theorem Awaits.exists_frame
    (awaits : grammar.Awaits (before ++ [.nonterminal nonterminal]) terminal) :
    ∃ after, grammar.Frame before nonterminal after ∧
      grammar.DerivesBeginning after terminal := by
  obtain ⟨outerBefore, outerAfter, left, right, head, outer, member, same, begins⟩ := awaits
  -- If nothing of the rule has been read, the terminal is awaited by the rule around it as well.
  induction outer generalizing left right with
  | start starts =>
      rw [List.nil_append] at same
      subst same
      rw [← List.append_cons] at member
      exact ⟨_, .within (.start starts) member, begins⟩
  | @within farBefore farAfter farLeft farRight farHead head far farMember ih =>
      rcases List.eq_nil_or_concat' left with rfl | ⟨left, symbol, rfl⟩
      · rw [List.nil_append] at member
        rw [List.append_nil] at same
        refine ih farLeft (.nonterminal head :: farRight) farMember same ?_
        have entered := (Derives.of_rule member).append (.refl (farRight ++ farAfter))
        exact entered.beginning begins
      · rw [← List.append_assoc] at same
        obtain ⟨rfl, isSymbol⟩ := List.append_inj' same rfl
        cases isSymbol
        rw [← List.append_cons] at member
        exact ⟨_, .within (.within far farMember) member, begins⟩

/-- Nothing is awaited but the end of the input and the terminals in the bodies. -/
theorem Awaits.mem (awaits : grammar.Awaits string terminal) :
    terminal ∈ endOfInput :: grammar.bodyTerminals := by
  obtain ⟨before, after, left, right, head, frame, member, _, tail, derives⟩ := awaits
  rw [List.mem_cons, mem_bodyTerminals]
  rcases derives.mem List.mem_cons_self with inRest | inBody
  · rcases List.mem_append.mp inRest with inRight | inAfter
    · exact .inr ⟨_, member, List.mem_append_right left inRight⟩
    · rcases frame.mem_after inAfter with same | inBody
      · exact .inl (Symbol.terminal.inj same)
      · exact .inr inBody
  · exact .inr inBody

/-- What can come after a rule is awaited. -/
theorem ValidLookahead.awaits {core : Core} {rule : Rule}
    (valid : grammar.ValidLookahead string core terminal)
    (found : grammar.rules[core.rule]? = some rule) (complete : core.marker = rule.body.length) :
    grammar.Awaits string terminal := by
  obtain ⟨after, ⟨other, before, alsoFound, _, frame, same⟩, begins⟩ := valid
  obtain rfl := Option.some.inj (found.symm.trans alsoFound)
  rw [complete, List.take_length] at same
  refine ⟨before, after, rule.body, [], rule.head, frame, ?_, same, begins⟩
  rw [List.append_nil]
  exact List.mem_of_getElem? found

/-! ## Contractions -/

/-- The body of a rule at the end of a string is replaced by the head. -/
inductive Contracts (grammar : Grammar) : List Symbol → List Symbol → Prop where
  | replace {rule : Rule} (member : rule ∈ grammar.rules)
      (other : grammar.start ≠ .ok rule.head) (before : List Symbol) :
      Contracts grammar (before ++ rule.body) (before ++ [.nonterminal rule.head])

/-- A contraction stays one with any string in front. -/
theorem Contracts.context (contracts : grammar.Contracts string next) (before : List Symbol) :
    grammar.Contracts (before ++ string) (before ++ next) := by
  obtain ⟨member, other, left⟩ := contracts
  rw [← List.append_assoc, ← List.append_assoc]
  exact .replace member other (before ++ left)

/-- What a contraction leaves standing has no part in it. -/
theorem Contracts.exists_of_append (contracts : grammar.Contracts (first ++ second) next)
    (longer : first.length < next.length) :
    ∃ shorter, next = first ++ shorter ∧ grammar.Contracts second shorter := by
  generalize source : first ++ second = whole at contracts
  obtain ⟨member, other, before⟩ := contracts
  rename_i rule
  rw [List.length_append, List.length_singleton] at longer
  obtain ⟨between, rfl⟩ : first <+: before := by
    refine List.prefix_of_prefix_length_le ⟨second, source⟩ ⟨rule.body, rfl⟩ (by omega)
  rw [List.append_assoc] at source ⊢
  obtain rfl := List.append_cancel_left source
  exact ⟨between ++ [.nonterminal rule.head], rfl, .replace member other between⟩

/-- A contraction leaves nothing awaited that was not awaited before it. -/
theorem Contracts.awaits (contracts : grammar.Contracts string next)
    (awaits : grammar.Awaits next terminal) : grammar.Awaits string terminal := by
  obtain ⟨member, other, before⟩ := contracts
  rename_i rule
  obtain ⟨after, frame, begins⟩ := awaits.exists_frame
  refine ⟨before, after, rule.body, [], rule.head, frame, ?_, rfl, begins⟩
  rwa [List.append_nil]

/-- A contraction after which the terminal is awaited. -/
def Approaches (grammar : Grammar) (terminal : Nat) (string next : List Symbol) : Prop :=
  grammar.Contracts string next ∧ grammar.Awaits next terminal

/-- Contractions that lead to where a terminal is awaited lead through strings where it is. -/
theorem approaches_of_contracts (contracts : TransGen grammar.Contracts string next)
    (awaits : grammar.Awaits next terminal) :
    TransGen (grammar.Approaches terminal) string next := by
  induction contracts with
  | single step => exact .single ⟨step, awaits⟩
  | tail _ step ih => exact (ih (step.awaits awaits)).tail ⟨step, awaits⟩

/-- Contractions lead from the second symbol to the first one, and the terminal can come after
that. -/
def Supersedes (grammar : Grammar) (terminal : Nat) (later earlier : Symbol) : Prop :=
  TransGen grammar.Contracts [earlier] [later] ∧
    ∃ before, grammar.Awaits (before ++ [later]) terminal

/-! ## Grammars in which something is always awaited -/

/-- A nonterminal derives the empty string, or one that begins with a terminal. -/
def Opens (grammar : Grammar) (nonterminal : Nat) : Prop :=
  grammar.Derives [.nonterminal nonterminal] [] ∨
    ∃ terminal, grammar.DerivesBeginning [.nonterminal nonterminal] terminal

/-- A string of such nonterminals and of terminals is of the same kind. -/
theorem derives_nil_or_exists_beginning
    (opens : ∀ nonterminal, .nonterminal nonterminal ∈ string → grammar.Opens nonterminal) :
    grammar.Derives string [] ∨ ∃ terminal, grammar.DerivesBeginning string terminal := by
  induction string with
  | nil => exact .inl (.refl [])
  | cons symbol rest ih =>
      cases symbol with
      | terminal terminal => exact .inr ⟨terminal, rest, .refl _⟩
      | nonterminal nonterminal =>
          rw [← List.singleton_append]
          rcases opens nonterminal List.mem_cons_self with vanishes | ⟨terminal, begins⟩
          · rcases ih fun other inRest => opens other (List.mem_cons_of_mem _ inRest) with
              others | ⟨terminal, begins⟩
            · exact .inl (derives_append_nil.mpr ⟨vanishes, others⟩)
            · exact .inr ⟨terminal, derivesBeginning_append.mpr (.inr ⟨vanishes, begins⟩)⟩
          · exact .inr ⟨terminal, derivesBeginning_append.mpr (.inl begins)⟩

/-- If the rest of every rule that is looked for derives the empty string or begins with a terminal,
something can come after every frame. -/
theorem Frame.exists_beginning (frame : grammar.Frame before nonterminal after)
    (opens : ∀ before after head left right, grammar.Frame before head after →
      ⟨head, left ++ right⟩ ∈ grammar.rules →
      grammar.Derives right [] ∨ ∃ terminal, grammar.DerivesBeginning right terminal) :
    ∃ terminal, grammar.DerivesBeginning after terminal := by
  induction frame with
  | start starts => exact ⟨endOfInput, [], .refl _⟩
  | @within before after left right head nonterminal outer member ih =>
      rw [List.append_cons] at member
      rcases opens _ _ _ _ _ outer member with vanishes | ⟨terminal, begins⟩
      · obtain ⟨terminal, begins⟩ := ih
        exact ⟨terminal, derivesBeginning_append.mpr (.inr ⟨vanishes, begins⟩)⟩
      · exact ⟨terminal, derivesBeginning_append.mpr (.inl begins)⟩

theorem ViablePrefix.exists_awaits (viable : grammar.ViablePrefix string)
    (opens : ∀ before after head left right, grammar.Frame before head after →
      ⟨head, left ++ right⟩ ∈ grammar.rules →
      grammar.Derives right [] ∨ ∃ terminal, grammar.DerivesBeginning right terminal) :
    ∃ terminal, grammar.Awaits string terminal := by
  obtain ⟨core, after, rule, before, found, _, frame, same⟩ := viable
  have member : ⟨rule.head, rule.body.take core.marker ++ rule.body.drop core.marker⟩ ∈
      grammar.rules := by
    rw [List.take_append_drop]
    exact List.mem_of_getElem? found
  obtain ⟨terminal, begins⟩ : ∃ terminal,
      grammar.DerivesBeginning (rule.body.drop core.marker ++ after) terminal := by
    rcases opens _ _ _ _ _ frame member with vanishes | ⟨terminal, begins⟩
    · obtain ⟨terminal, begins⟩ := frame.exists_beginning opens
      exact ⟨terminal, derivesBeginning_append.mpr (.inr ⟨vanishes, begins⟩)⟩
    · exact ⟨terminal, derivesBeginning_append.mpr (.inl begins)⟩
  exact ⟨terminal, before, after, _, _, rule.head, frame, member, same, begins⟩

end DeterministicParsing.Grammar
