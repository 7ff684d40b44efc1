/-
# Derivations part by part

What a string derives is put together from what its parts derive. For derivations in any order this
gives the two facts on which First sets rest: when a string can become empty, and with which
terminal it can begin. For rightmost derivations it gives the order of the rules: those of the last
part come first. Every derivation of a word can therefore be rearranged into a rightmost one. For
leftmost derivations it gives the symbol in front: a terminal stays, and a nonterminal is replaced
by the first rule.
-/
import DeterministicParsing.Grammar.Derivation

namespace DeterministicParsing

/-- An element of a list that is put together from two parts stands in one of them. -/
theorem append_eq_append_cons {α : Type} {first second left right : List α} {middle : α}
    (same : first ++ second = left ++ middle :: right) :
    (∃ rest, first = left ++ middle :: rest ∧ right = rest ++ second) ∨
      ∃ rest, left = first ++ rest ∧ second = rest ++ middle :: right := by
  rcases List.append_eq_append_iff.mp same with ⟨rest, leftEq, secondEq⟩ |
    ⟨rest, firstEq, restEq⟩
  · exact .inr ⟨rest, leftEq, secondEq⟩
  · cases rest with
    | nil => exact .inr ⟨[], by simpa using firstEq.symm, by simpa using restEq.symm⟩
    | cons symbol rest =>
        rw [List.cons_append, List.cons.injEq] at restEq
        obtain ⟨rfl, rfl⟩ := restEq
        exact .inl ⟨rest, firstEq, rfl⟩

/-- A string of terminals that ends a string of symbols is a part of every such string around it. -/
theorem exists_word_of_append_eq_word {first second : List Symbol} {terminals : List Nat}
    (same : first ++ second = word terminals) :
    ∃ left right, terminals = left ++ right ∧ first = word left ∧ second = word right := by
  obtain ⟨left, right, rfl, firstEq, secondEq⟩ := List.map_eq_append_iff.mp same.symm
  exact ⟨left, right, rfl, firstEq.symm, secondEq.symm⟩

/-- Words are told apart by their terminals. -/
theorem word_inj {first second : List Nat} : word first = word second ↔ first = second :=
  List.map_inj_right fun _ _ same => Symbol.terminal.inj same

/-- A word holds no nonterminal. -/
@[simp]
theorem nonterminal_not_mem_word (nonterminal : Nat) (terminals : List Nat) :
    Symbol.nonterminal nonterminal ∉ word terminals := by
  simp [word]

@[simp]
theorem terminal_mem_word {terminal : Nat} {terminals : List Nat} :
    Symbol.terminal terminal ∈ word terminals ↔ terminal ∈ terminals := by
  simp [word]

namespace Grammar

variable {grammar : Grammar}

/-! ## Derivations in any order -/

/-- A replacement in a string takes place in one of its two parts. -/
theorem Expands.of_append {first second string : List Symbol}
    (expands : grammar.Expands (first ++ second) string) :
    (∃ next, grammar.Expands first next ∧ string = next ++ second) ∨
      ∃ next, grammar.Expands second next ∧ string = first ++ next := by
  generalize source : first ++ second = whole at expands
  obtain ⟨member, left, right⟩ := expands
  rename_i rule
  rcases append_eq_append_cons source with ⟨rest, rfl, rfl⟩ | ⟨rest, rfl, rfl⟩
  · exact .inl ⟨left ++ (rule.body ++ rest), .replace member left rest, by simp⟩
  · exact .inr ⟨rest ++ (rule.body ++ right), .replace member rest right, by simp⟩

/-- What a string derives consists of what its two parts derive. -/
theorem Derives.of_append {first second string : List Symbol}
    (derives : grammar.Derives (first ++ second) string) :
    ∃ left right, string = left ++ right ∧ grammar.Derives first left ∧
      grammar.Derives second right := by
  generalize source : first ++ second = whole at derives
  induction derives generalizing first second with
  | refl => exact ⟨first, second, source.symm, .refl _, .refl _⟩
  | head expands _ ih =>
      subst source
      rcases expands.of_append with ⟨next, inFirst, rfl⟩ | ⟨next, inSecond, rfl⟩
      · obtain ⟨left, right, rfl, fromFirst, fromSecond⟩ := ih rfl
        exact ⟨left, right, rfl, .head inFirst fromFirst, fromSecond⟩
      · obtain ⟨left, right, rfl, fromFirst, fromSecond⟩ := ih rfl
        exact ⟨left, right, rfl, fromFirst, .head inSecond fromSecond⟩

/-- A string can become empty exactly if both of its parts can. -/
theorem derives_append_nil {first second : List Symbol} :
    grammar.Derives (first ++ second) [] ↔
      grammar.Derives first [] ∧ grammar.Derives second [] := by
  constructor
  · intro derives
    obtain ⟨left, right, same, fromFirst, fromSecond⟩ := derives.of_append
    obtain ⟨rfl, rfl⟩ := List.append_eq_nil_iff.mp same.symm
    exact ⟨fromFirst, fromSecond⟩
  · rintro ⟨fromFirst, fromSecond⟩
    exact fromFirst.append fromSecond

/-- A string begins with what its first part begins with, and, if that part can become empty, with
what its second part begins with. -/
theorem derivesBeginning_append {first second : List Symbol} {terminal : Nat} :
    grammar.DerivesBeginning (first ++ second) terminal ↔
      grammar.DerivesBeginning first terminal ∨
        (grammar.Derives first [] ∧ grammar.DerivesBeginning second terminal) := by
  constructor
  · rintro ⟨rest, derives⟩
    obtain ⟨left, right, same, fromFirst, fromSecond⟩ := derives.of_append
    cases left with
    | nil =>
        simp only [List.nil_append] at same
        exact .inr ⟨fromFirst, rest, same ▸ fromSecond⟩
    | cons symbol left =>
        obtain ⟨rfl, rfl⟩ := List.cons.inj same
        exact .inl ⟨left, fromFirst⟩
  · rintro (⟨rest, derives⟩ | ⟨vanishes, rest, derives⟩)
    · refine ⟨rest ++ second, ?_⟩
      simpa using derives.append (.refl second)
    · exact ⟨rest, by simpa using vanishes.append derives⟩

/-- A word derives a string that begins with its first terminal and no other. -/
theorem derivesBeginning_word_cons {first terminal : Nat} {rest : List Nat} :
    grammar.DerivesBeginning (word (first :: rest)) terminal ↔ terminal = first := by
  constructor
  · rintro ⟨string, derives⟩
    have same := eq_of_derives_word derives
    simp only [word_cons, List.cons.injEq, Symbol.terminal.injEq] at same
    exact same.1
  · rintro rfl
    exact ⟨word rest, .refl _⟩

/-- A string with a terminal after it begins with what the string begins with, and, if that can
become empty, with the terminal. -/
theorem derivesBeginning_concat {symbols : List Symbol} {next terminal : Nat} :
    grammar.DerivesBeginning (symbols ++ [.terminal next]) terminal ↔
      grammar.DerivesBeginning symbols terminal ∨
        (grammar.Derives symbols [] ∧ terminal = next) := by
  rw [derivesBeginning_append, ← @derivesBeginning_word_cons grammar next terminal []]
  rfl

/-- What derives a string with a beginning has that beginning itself. -/
theorem Derives.beginning {first second : List Symbol} {terminal : Nat}
    (derives : grammar.Derives first second) (begins : grammar.DerivesBeginning second terminal) :
    grammar.DerivesBeginning first terminal := by
  obtain ⟨rest, later⟩ := begins
  exact ⟨rest, derives.trans later⟩

/-- The terminals that occur in the bodies of the rules. -/
def bodyTerminals (grammar : Grammar) : List Nat :=
  (grammar.rules.flatMap Rule.body).filterMap fun
    | .terminal id => some id
    | .nonterminal _ => none

theorem mem_bodyTerminals {terminal : Nat} :
    terminal ∈ grammar.bodyTerminals ↔ ∃ rule ∈ grammar.rules,
      .terminal terminal ∈ rule.body := by
  simp only [bodyTerminals, List.mem_filterMap, List.mem_flatMap]
  constructor
  · rintro ⟨symbol, ⟨rule, member, inBody⟩, isTerminal⟩
    cases symbol with
    | terminal id =>
        cases isTerminal
        exact ⟨rule, member, inBody⟩
    | nonterminal id => cases isTerminal
  · rintro ⟨rule, member, inBody⟩
    exact ⟨.terminal terminal, ⟨rule, member, inBody⟩, rfl⟩

/-- The end of the input is declared, and so are the terminals in the bodies if the bodies are. -/
theorem declares_of_mem_bodyTerminals {terminal : Nat} (bodies : grammar.BodiesDeclared)
    (member : terminal ∈ endOfInput :: grammar.bodyTerminals) :
    grammar.Declares (.terminal terminal) := by
  rcases List.mem_cons.mp member with rfl | inBodies
  · exact (List.getElem?_eq_some_iff.mp grammar.end_first).1
  · obtain ⟨rule, isRule, inBody⟩ := mem_bodyTerminals.mp inBodies
    exact bodies rule isRule _ inBody

/-- There are no more terminals in the bodies than symbols. -/
theorem length_bodyTerminals_le : grammar.bodyTerminals.length ≤ grammar.size :=
  List.length_filterMap_le _ _

/-- A symbol of a derived string is a symbol of the string it was derived from, or of some body. -/
theorem Derives.mem {first second : List Symbol} (derives : grammar.Derives first second)
    {symbol : Symbol} (member : symbol ∈ second) :
    symbol ∈ first ∨ ∃ rule ∈ grammar.rules, symbol ∈ rule.body := by
  induction derives with
  | refl => exact .inl member
  | head expands _ ih =>
      rcases ih member with inNext | inBody
      · obtain ⟨isRule, left, right⟩ := expands
        simp only [List.mem_append, List.mem_cons] at inNext ⊢
        rcases inNext with inLeft | inBody | inRight
        · exact .inl (.inl inLeft)
        · exact .inr ⟨_, isRule, inBody⟩
        · exact .inl (.inr (.inr inRight))
      · exact .inr inBody

/-- A nonterminal that derives anything but itself is declared, since it has a rule. -/
theorem Derives.declares_of_ne {nonterminal : Nat} {string : List Symbol}
    (derives : grammar.Derives [.nonterminal nonterminal] string)
    (other : string ≠ [.nonterminal nonterminal]) : nonterminal < grammar.nonterminalCount := by
  generalize source : [Symbol.nonterminal nonterminal] = symbols at derives
  cases derives with
  | refl => exact absurd source.symm other
  | head expands _ =>
      obtain @⟨rule, member, left, right⟩ := expands
      have isHead : Symbol.nonterminal rule.head ∈ [Symbol.nonterminal nonterminal] := by
        simp [source]
      cases List.mem_singleton.mp isHead
      exact grammar.head_lt rule member

/-- Where no body holds the end of the input, none is derived from a nonterminal. -/
theorem BodiesEndFree.not_mem (endFree : grammar.BodiesEndFree) {nonterminal : Nat}
    {string : List Symbol} (derives : grammar.Derives [.nonterminal nonterminal] string) :
    .terminal endOfInput ∉ string := by
  intro member
  rcases derives.mem member with inFirst | ⟨rule, isRule, inBody⟩
  · cases List.mem_singleton.mp inFirst
  · exact endFree rule isRule inBody

/-- What is derived from declared symbols is declared if the bodies are. -/
theorem BodiesDeclared.declares (bodies : grammar.BodiesDeclared) {first second : List Symbol}
    (declared : ∀ symbol ∈ first, grammar.Declares symbol)
    (derives : grammar.Derives first second) {symbol : Symbol} (member : symbol ∈ second) :
    grammar.Declares symbol := by
  rcases derives.mem member with inFirst | ⟨rule, isRule, inBody⟩
  · exact declared symbol inFirst
  · exact bodies rule isRule symbol inBody

/-! ## Leftmost derivations -/

namespace DerivesLeftmost

/-- A leftmost derivation stays one with a word in front and with any string behind. -/
theorem context {first second : List Symbol} {rules : List Nat}
    (leftmost : grammar.DerivesLeftmost first rules second) (before : List Nat)
    (after : List Symbol) :
    grammar.DerivesLeftmost (word before ++ (first ++ after)) rules
      (word before ++ (second ++ after)) := by
  induction leftmost with
  | refl => exact .refl _
  | head found left right _ ih =>
      have step := DerivesLeftmost.head found (before ++ left) (right ++ after)
        (by simpa using ih)
      simpa using step

/-- Leftmost derivations of two words give one of the two words together. The rules for the first
part come first. -/
theorem append {first second : List Symbol} {firstRules secondRules : List Nat}
    {firstTerminals secondTerminals : List Nat}
    (left : grammar.DerivesLeftmost first firstRules (word firstTerminals))
    (right : grammar.DerivesLeftmost second secondRules (word secondTerminals)) :
    grammar.DerivesLeftmost (first ++ second) (firstRules ++ secondRules)
      (word (firstTerminals ++ secondTerminals)) := by
  have leftInPlace := left.context [] second
  have rightInPlace := right.context firstTerminals []
  simp only [word_nil, List.append_nil, List.nil_append] at leftInPlace rightInPlace
  simpa using leftInPlace.trans rightInPlace

/-- A single rule makes a leftmost derivation. -/
theorem of_rule {id : Nat} {rule : Rule} (found : grammar.rules[id]? = some rule) :
    grammar.DerivesLeftmost [.nonterminal rule.head] [id] rule.body := by
  simpa using DerivesLeftmost.head found [] [] (.refl _)

/-- A word in front stays as it is, and what is derived is derived behind it. -/
theorem of_word_append (before : List Nat) {string last : List Symbol} {rules : List Nat}
    (leftmost : grammar.DerivesLeftmost (word before ++ string) rules last) :
    ∃ rest, last = word before ++ rest ∧ grammar.DerivesLeftmost string rules rest := by
  generalize source : word before ++ string = whole at leftmost
  induction leftmost generalizing string with
  | refl => exact ⟨string, source.symm, .refl string⟩
  | @head id rule found left right rules last _ ih =>
      rcases append_eq_append_cons source with ⟨rest, inWord, _⟩ | ⟨rest, isLeft, rfl⟩
      · have occurs : Symbol.nonterminal rule.head ∈ word before := by simp [inWord]
        exact absurd occurs (nonterminal_not_mem_word rule.head before)
      · obtain ⟨_, inner, rfl, isBefore, rfl⟩ := exists_word_of_append_eq_word isLeft.symm
        obtain rfl := word_inj.mp isBefore
        obtain ⟨rest, rfl, derives⟩ := @ih (word inner ++ (rule.body ++ right)) (by simp)
        exact ⟨rest, rfl, .head found inner right derives⟩

/-- A word derives nothing but itself, and takes no rule for it. -/
theorem eq_nil_of_word (terminals : List Nat) {rules : List Nat} {last : List Symbol}
    (leftmost : grammar.DerivesLeftmost (word terminals) rules last) :
    rules = [] ∧ last = word terminals := by
  rw [← List.append_nil (word terminals)] at leftmost
  obtain ⟨rest, rfl, derives⟩ := leftmost.of_word_append terminals
  generalize source : ([] : List Symbol) = string at derives
  cases derives with
  | refl => exact ⟨rfl, by rw [← source, List.append_nil]⟩
  | head found before after _ => simp at source

/-- The first rule of a derivation of a word is one for the nonterminal in front. -/
theorem exists_first {nonterminal : Nat} {after : List Symbol} {rules terminals : List Nat}
    (leftmost : grammar.DerivesLeftmost (.nonterminal nonterminal :: after)
      rules (word terminals)) :
    ∃ id rule later, rules = id :: later ∧ grammar.rules[id]? = some rule ∧
      nonterminal = rule.head ∧
      grammar.DerivesLeftmost (rule.body ++ after) later (word terminals) := by
  generalize source : Symbol.nonterminal nonterminal :: after = string at leftmost
  generalize target : word terminals = last at leftmost
  cases leftmost with
  | refl =>
      have occurs : Symbol.nonterminal nonterminal ∈ word terminals := by
        simp [target, ← source]
      exact absurd occurs (nonterminal_not_mem_word nonterminal terminals)
  | @head id rule found before rest later _ derives =>
      cases before with
      | nil =>
          obtain ⟨isHead, rfl⟩ := List.cons.inj source
          exact ⟨id, rule, later, rfl, found, Symbol.nonterminal.inj isHead, derives⟩
      | cons terminal before => cases (List.cons.inj source).1

end DerivesLeftmost

/-! ## Rightmost derivations -/

namespace DerivesRightmost

/-- A rightmost derivation stays one with any string in front and with a word behind. -/
theorem context {first second : List Symbol} {rules : List Nat}
    (rightmost : grammar.DerivesRightmost first rules second) (before : List Symbol)
    (after : List Nat) :
    grammar.DerivesRightmost (before ++ (first ++ word after)) rules
      (before ++ (second ++ word after)) := by
  induction rightmost with
  | refl => exact .refl _
  | head found left right _ ih =>
      have step := DerivesRightmost.head found (before ++ left) (right ++ after)
        (by simpa using ih)
      simpa using step

/-- Rightmost derivations of two words give one of the two words together. The rules for the second
part come first. -/
theorem append {first second : List Symbol} {firstRules secondRules : List Nat}
    {firstTerminals secondTerminals : List Nat}
    (left : grammar.DerivesRightmost first firstRules (word firstTerminals))
    (right : grammar.DerivesRightmost second secondRules (word secondTerminals)) :
    grammar.DerivesRightmost (first ++ second) (secondRules ++ firstRules)
      (word (firstTerminals ++ secondTerminals)) := by
  have rightInPlace := right.context first []
  have leftInPlace := left.context [] secondTerminals
  simp only [word_nil, List.append_nil, List.nil_append] at rightInPlace leftInPlace
  simpa using rightInPlace.trans leftInPlace

/-- A single rule makes a rightmost derivation. -/
theorem of_rule {id : Nat} {rule : Rule} (found : grammar.rules[id]? = some rule) :
    grammar.DerivesRightmost [.nonterminal rule.head] [id] rule.body := by
  simpa using DerivesRightmost.head found [] [] (.refl _)

/-- No rule applies to a word. -/
theorem eq_nil_of_word {terminals : List Nat} {rules : List Nat} {string : List Symbol}
    (rightmost : grammar.DerivesRightmost (word terminals) rules string) :
    rules = [] ∧ string = word terminals := by
  generalize source : word terminals = whole at rightmost
  cases rightmost with
  | refl => exact ⟨rfl, rfl⟩
  | head found before after _ =>
      rename_i rule _ _
      have occurs : Symbol.nonterminal rule.head ∈ word terminals := by simp [source]
      simp at occurs

/-- A rightmost derivation of a word from two parts consists of one from the second part, followed
by one from the first. -/
theorem of_append {first second : List Symbol} {rules terminals : List Nat}
    (rightmost : grammar.DerivesRightmost (first ++ second) rules (word terminals)) :
    ∃ firstRules secondRules firstTerminals secondTerminals,
      rules = secondRules ++ firstRules ∧ terminals = firstTerminals ++ secondTerminals ∧
      grammar.DerivesRightmost first firstRules (word firstTerminals) ∧
      grammar.DerivesRightmost second secondRules (word secondTerminals) := by
  generalize source : first ++ second = whole at rightmost
  generalize target : word terminals = goal at rightmost
  induction rightmost generalizing first second with
  | refl =>
      subst target
      obtain ⟨left, right, rfl, rfl, rfl⟩ := exists_word_of_append_eq_word source
      exact ⟨[], [], left, right, rfl, rfl, .refl _, .refl _⟩
  | @head id rule found before after rules string _ ih =>
      rcases append_eq_append_cons source with ⟨rest, rfl, restEq⟩ | ⟨rest, rfl, rfl⟩
      · obtain ⟨early, late, rfl, rfl, rfl⟩ := exists_word_of_append_eq_word restEq.symm
        obtain ⟨firstRules, secondRules, left, right, rfl, same, fromFirst, fromSecond⟩ :=
          @ih (before ++ (rule.body ++ word early)) (word late) (by simp) target
        obtain ⟨rfl, _⟩ := fromSecond.eq_nil_of_word
        exact ⟨id :: firstRules, [], left, right, rfl, same,
          .head found before early fromFirst, fromSecond⟩
      · obtain ⟨firstRules, secondRules, left, right, rfl, same, fromFirst, fromSecond⟩ :=
          @ih first (rest ++ (rule.body ++ word after)) (by simp) target
        exact ⟨firstRules, id :: secondRules, left, right, rfl, same, fromFirst,
          .head found rest after fromSecond⟩

/-- Without rules, nothing is derived but the string itself. -/
theorem eq_of_no_rules {first last : List Symbol}
    (rightmost : grammar.DerivesRightmost first [] last) : last = first := by
  cases rightmost
  rfl

/-- All rules of a derivation are rules of the grammar. -/
theorem lt_length {first last : List Symbol} {rules : List Nat}
    (rightmost : grammar.DerivesRightmost first rules last) {id : Nat} (member : id ∈ rules) :
    id < grammar.rules.length := by
  induction rightmost with
  | refl => cases member
  | head found _ _ _ ih =>
      rcases List.mem_cons.mp member with rfl | later
      · exact (List.getElem?_eq_some_iff.mp found).1
      · exact ih later

/-- The last rule of a rightmost derivation, taken off. -/
theorem exists_last {first last : List Symbol} {rules : List Nat} {id : Nat}
    (rightmost : grammar.DerivesRightmost first (rules ++ [id]) last) :
    ∃ rule before after, grammar.rules[id]? = some rule ∧
      grammar.DerivesRightmost first rules (before ++ .nonterminal rule.head :: word after) ∧
      last = before ++ (rule.body ++ word after) := by
  generalize split : rules ++ [id] = all at rightmost
  induction rightmost generalizing rules with
  | refl => simp at split
  | @head other rule found before after others string derives ih =>
      cases rules with
      | nil =>
          obtain ⟨rfl, rfl⟩ := List.cons.inj split
          exact ⟨rule, before, after, found, .refl _, derives.eq_of_no_rules⟩
      | cons earlier rules =>
          obtain ⟨rfl, rest⟩ := List.cons.inj split
          obtain ⟨inner, left, right, innerFound, earlierDerives, same⟩ := ih rest
          exact ⟨inner, left, right, innerFound, .head found before after earlierDerives, same⟩

end DerivesRightmost

/-- Every derivation of a word can be rearranged into a rightmost one. -/
theorem Generates.exists_rightmost {symbols : List Symbol} {terminals : List Nat}
    (generates : grammar.Generates symbols terminals) :
    ∃ rules, grammar.DerivesRightmost symbols rules (word terminals) := by
  unfold Generates at generates
  generalize target : word terminals = goal at generates
  induction generates with
  | refl => exact ⟨[], .refl _⟩
  | head expands _ ih =>
      obtain ⟨rules, rightmost⟩ := ih target
      subst target
      obtain ⟨member, left, right⟩ := expands
      rename_i rule
      obtain ⟨id, found⟩ := List.getElem?_of_mem member
      obtain ⟨leftRules, restRules, leftWord, restWord, _, rfl, fromLeft, fromRest⟩ :=
        rightmost.of_append
      obtain ⟨bodyRules, rightRules, bodyWord, rightWord, _, rfl, fromBody, fromRight⟩ :=
        fromRest.of_append
      have fromHead := (DerivesRightmost.of_rule found).trans fromBody
      exact ⟨_, by simpa using fromLeft.append (fromHead.append fromRight)⟩

end Grammar

end DeterministicParsing
