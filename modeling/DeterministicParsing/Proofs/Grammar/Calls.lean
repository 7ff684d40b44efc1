/-
# Grammars that grow call by call

The containers of a grammar are filled by calls: names are declared, rules are added, the start is
moved, and the grammar is replaced by its augmentation. A call that asks for something that is not
there faults and leaves the containers as they were. Each call keeps them in agreement, so whatever
the calls are, what is found by name or by head is found under the number that was handed out for
it. Names and rules are only ever put at the end of their lists, so what a number means it means for
good. Only the mark of being augmented can get lost, and as long as it is there, the start is the
head of the accept rule.
-/
import DeterministicParsing.Proofs.Grammar.Augmentation

namespace DeterministicParsing

namespace Arena

/-- Something that can be done to the containers. -/
inductive Call where
  | addTerminal (name : String)
  | addNonterminal (name : String)
  | addRule (rule : Rule)
  | setStart (id : Nat)
  | augment

/-- The answer to a call: the number that it hands out, if it hands out one, and what comes of
it. -/
def Call.answer (arena : Arena) : Call → Except Fault (Option Nat × Arena)
  | addTerminal name => .ok (some (arena.addTerminal name).1, (arena.addTerminal name).2)
  | addNonterminal name => .ok (some (arena.addNonterminal name).1, (arena.addNonterminal name).2)
  | addRule rule => do
      let (id, next) ← arena.addRule rule
      return (some id, next)
  | setStart id => .ok (none, arena.setStart id)
  | augment => do return (none, ← arena.augmented)

/-- What comes of a call. A call that faults has no effect. -/
def after (arena : Arena) (call : Call) : Arena :=
  match call.answer arena with
  | .ok (_, next) => next
  | .error _ => arena

/-- What comes of all calls of a list, in their order. -/
def afterAll (arena : Arena) (calls : List Call) : Arena := calls.foldl after arena

/-- The number that a call hands out means what it was handed out for. -/
def Call.Describes (arena : Arena) (id : Nat) : Call → Prop
  | addTerminal name => arena.terminalName id = .ok name
  | addNonterminal name => arena.nonterminalName id = .ok name
  | addRule rule => arena.rule id = .ok rule
  | setStart _ => False
  | augment => False

variable {arena earlier later next : Arena} {call : Call}

/-! ## Calls keep the containers in agreement -/

theorem Valid.of_answer_eq_ok (valid : arena.Valid) {handed : Option Nat}
    (answered : call.answer arena = .ok (handed, next)) : next.Valid := by
  cases call with
  | addTerminal name =>
      cases answered
      exact valid.addTerminal name
  | addNonterminal name =>
      cases answered
      exact valid.addNonterminal name
  | addRule rule =>
      obtain ⟨⟨id, added⟩, isAdded, same⟩ := exists_of_bind_eq_ok answered
      cases same
      exact valid.addRule isAdded
  | setStart id =>
      cases answered
      exact valid.setStart id
  | augment =>
      obtain ⟨augmented, made, same⟩ := exists_of_bind_eq_ok answered
      cases same
      exact valid.augmented made

/-- Whether a call faults or not, the containers still agree after it. -/
theorem Valid.after (valid : arena.Valid) (call : Call) : (arena.after call).Valid := by
  unfold Arena.after
  split
  · rename_i answered
    exact valid.of_answer_eq_ok answered
  · exact valid

/-- So they do after any number of calls. -/
theorem Valid.afterAll (valid : arena.Valid) (calls : List Call) :
    (arena.afterAll calls).Valid := by
  induction calls generalizing arena with
  | nil => exact valid
  | cons call calls ih => exact ih (valid.after call)

/-! ## Finding names and rules -/

namespace Valid

variable (valid : arena.Valid)
include valid

/-- The name of a number that is in use leads back to it. -/
theorem exists_terminalName_eq_ok {id : Nat} (declared : id < arena.terminalCount) :
    ∃ name, arena.terminalName id = .ok name ∧ arena.terminal? name = some id := by
  have stands := List.getElem?_eq_getElem declared
  exact ⟨_, terminalName_eq_ok.mpr stands, valid.terminal?_eq_some.mpr stands⟩

/-- The name of a number that is in use leads back to it. -/
theorem exists_nonterminalName_eq_ok {id : Nat} (declared : id < arena.nonterminalCount) :
    ∃ name, arena.nonterminalName id = .ok name ∧ arena.nonterminal? name = some id := by
  have stands := List.getElem?_eq_getElem declared
  exact ⟨_, nonterminalName_eq_ok.mpr stands, valid.nonterminal?_eq_some.mpr stands⟩

/-- A name that no number has is not found. -/
theorem terminal?_eq_none_of_unused {name : String}
    (unused : ∀ id < arena.terminalCount, arena.terminalName id ≠ .ok name) :
    arena.terminal? name = none := by
  refine Option.eq_none_iff_forall_ne_some.mpr fun id found => ?_
  have stands := valid.terminal?_eq_some.mp found
  exact unused id (List.getElem?_eq_some_iff.mp stands).1 (terminalName_eq_ok.mpr stands)

/-- A name that no number has is not found. -/
theorem nonterminal?_eq_none_of_unused {name : String}
    (unused : ∀ id < arena.nonterminalCount, arena.nonterminalName id ≠ .ok name) :
    arena.nonterminal? name = none := by
  refine Option.eq_none_iff_forall_ne_some.mpr fun id found => ?_
  have stands := valid.nonterminal?_eq_some.mp found
  exact unused id (List.getElem?_eq_some_iff.mp stands).1 (nonterminalName_eq_ok.mpr stands)

/-- Every rule is listed once, under its head and under no other nonterminal. -/
theorem exists_rulesFor_head_eq_ok {id : Nat} {rule : Rule} (found : arena.rule id = .ok rule) :
    ∃ ids, arena.rulesFor rule.head = .ok ids ∧ ids.count id = 1 ∧
      ∀ head others, arena.rulesFor head = .ok others → id ∈ others → head = rule.head := by
  have isRule := rule_eq_ok.mp found
  have declared := valid.head_lt rule (List.mem_of_getElem? isRule)
  obtain ⟨ids, listed, ascending, members⟩ := valid.exists_rulesFor_eq_ok declared
  refine ⟨ids, listed, ?_, fun head others otherListed member => ?_⟩
  · have distinct : ids.Nodup := ascending.imp Nat.ne_of_lt
    exact List.count_eq_one_of_mem distinct ((members id).mpr ⟨rule, isRule, rfl⟩)
  · have otherDeclared : head < arena.nonterminalCount := by
      by_contra beyond
      rw [valid.rulesFor_eq, if_neg beyond] at otherListed
      cases otherListed
    obtain ⟨_, same, _, otherMembers⟩ := valid.exists_rulesFor_eq_ok otherDeclared
    cases otherListed.symm.trans same
    obtain ⟨other, isOther, rfl⟩ := (otherMembers id).mp member
    rw [Option.some.inj (isOther.symm.trans isRule)]

/-- The accept rule of an augmented grammar leads from the start to a single nonterminal. -/
theorem exists_acceptRule_eq_some (augmented : arena.isAugmented = true) :
    ∃ id head target, arena.acceptRule = some id ∧
      arena.rule id = .ok ⟨head, [.nonterminal target]⟩ ∧ arena.start = .ok head := by
  obtain ⟨id, accepts⟩ := Option.isSome_iff_exists.mp augmented
  obtain ⟨head, target, found, starts⟩ := valid.accept_eq id accepts
  exact ⟨id, head, target, accepts, rule_eq_ok.mpr found, by rw [start, starts]⟩

end Valid

/-! ## What a call keeps -/

/-- Every number that is in use in the earlier grammar means the same in the later one. -/
structure KeepsNumbers (earlier later : Arena) : Prop where
  /-- Terminals keep their names. -/
  terminalName : ∀ id name, earlier.terminalName id = .ok name →
    later.terminalName id = .ok name
  /-- Nonterminals keep their names. -/
  nonterminalName : ∀ id name,
    earlier.nonterminalName id = .ok name → later.nonterminalName id = .ok name
  /-- Rules stay as they are. -/
  rule : ∀ id rule, earlier.rule id = .ok rule → later.rule id = .ok rule

namespace KeepsNumbers

theorem refl (arena : Arena) : arena.KeepsNumbers arena :=
  ⟨fun _ _ => id, fun _ _ => id, fun _ _ => id⟩

theorem trans (first : earlier.KeepsNumbers arena) (second : arena.KeepsNumbers later) :
    earlier.KeepsNumbers later where
  terminalName id name named := second.terminalName id name (first.terminalName id name named)
  nonterminalName id name named :=
    second.nonterminalName id name (first.nonterminalName id name named)
  rule id rule found := second.rule id rule (first.rule id rule found)

/-- What stands in a list stands in every list that begins with it. -/
theorem getElem?_eq_some_of_begins {α : Type} {first second : List α} (begins : first <+: second)
    {index : Nat} {value : α} (found : first[index]? = some value) :
    second[index]? = some value := by
  obtain ⟨rest, rfl⟩ := begins
  rw [List.getElem?_append_left (List.getElem?_eq_some_iff.mp found).1]
  exact found

/-- Lists that have grown at their end only have kept what their numbers mean. -/
theorem of_begins (terminals : earlier.terminalNames <+: later.terminalNames)
    (nonterminals : earlier.nonterminalNames <+: later.nonterminalNames)
    (rules : earlier.rules <+: later.rules) : earlier.KeepsNumbers later where
  terminalName id name := by
    rw [terminalName_eq_ok, terminalName_eq_ok]
    exact getElem?_eq_some_of_begins terminals
  nonterminalName id name := by
    rw [nonterminalName_eq_ok, nonterminalName_eq_ok]
    exact getElem?_eq_some_of_begins nonterminals
  rule id rule := by
    rw [rule_eq_ok, rule_eq_ok]
    exact getElem?_eq_some_of_begins rules

/-- What a number was handed out for, it keeps. -/
theorem describes (keeps : earlier.KeepsNumbers later) {id : Nat}
    (describes : call.Describes earlier id) :
    call.Describes later id := by
  cases call with
  | addTerminal name => exact keeps.terminalName id name describes
  | addNonterminal name => exact keeps.nonterminalName id name describes
  | addRule rule => exact keeps.rule id rule describes
  | setStart start => exact describes
  | augment => exact describes

end KeepsNumbers

theorem keepsNumbers_addTerminal (arena : Arena) (name : String) :
    arena.KeepsNumbers (arena.addTerminal name).2 := by
  rw [addTerminal_eq]
  split
  · exact .refl arena
  · refine .of_begins ?_ (List.prefix_refl _) (List.prefix_refl _)
    exact List.prefix_append (endName :: arena.ownTerminalNames) _

theorem keepsNumbers_addNonterminal (arena : Arena) (name : String) :
    arena.KeepsNumbers (arena.addNonterminal name).2 := by
  unfold addNonterminal
  split
  · exact .refl arena
  · exact .of_begins (List.prefix_refl _) (List.prefix_append _ _) (List.prefix_refl _)

theorem keepsNumbers_withRule (arena : Arena) (rule : Rule) :
    arena.KeepsNumbers (arena.withRule rule) :=
  .of_begins (List.prefix_refl _) (List.prefix_refl _) (List.prefix_append _ _)

/-- Augmentation declares a nonterminal and adds a rule. -/
theorem keepsNumbers_of_augmented_eq_ok (made : arena.augmented = .ok later) :
    arena.KeepsNumbers later := by
  obtain ⟨start, name, _, _, _, rfl⟩ := exists_of_augmented_eq_ok made
  refine (arena.keepsNumbers_addNonterminal (arena.primed name)).trans ?_
  exact .of_begins (List.prefix_refl _) (List.prefix_refl _) (List.prefix_append _ _)

/-- A call keeps what all numbers mean. -/
theorem keepsNumbers_of_answer_eq_ok {handed : Option Nat}
    (answered : call.answer arena = .ok (handed, next)) : arena.KeepsNumbers next := by
  cases call with
  | addTerminal name =>
      cases answered
      exact arena.keepsNumbers_addTerminal name
  | addNonterminal name =>
      cases answered
      exact arena.keepsNumbers_addNonterminal name
  | addRule rule =>
      obtain ⟨⟨id, added⟩, isAdded, same⟩ := exists_of_bind_eq_ok answered
      cases same
      obtain ⟨_, _, rfl⟩ := addRule_eq_ok.mp isAdded
      exact arena.keepsNumbers_withRule rule
  | setStart id =>
      cases answered
      exact .of_begins (List.prefix_refl _) (List.prefix_refl _) (List.prefix_refl _)
  | augment =>
      obtain ⟨augmented, made, same⟩ := exists_of_bind_eq_ok answered
      cases same
      exact keepsNumbers_of_augmented_eq_ok made

/-- Whether a call faults or not, it keeps what all numbers mean. -/
theorem keepsNumbers_after (arena : Arena) (call : Call) :
    arena.KeepsNumbers (arena.after call) := by
  unfold after
  split
  · rename_i answered
    exact keepsNumbers_of_answer_eq_ok answered
  · exact .refl arena

/-- So do any number of calls. -/
theorem keepsNumbers_afterAll (arena : Arena) (calls : List Call) :
    arena.KeepsNumbers (arena.afterAll calls) := by
  induction calls generalizing arena with
  | nil => exact .refl arena
  | cons call calls ih => exact (arena.keepsNumbers_after call).trans (ih _)

/-! ## What a call hands out -/

/-- The number that a call hands out is that of what was asked for. -/
theorem describes_of_answer_eq_ok (valid : arena.Valid) {id : Nat}
    (answered : call.answer arena = .ok (some id, next)) : call.Describes next id := by
  cases call with
  | addTerminal name =>
      cases answered
      rw [addTerminal_eq]
      split
      · rename_i found
        exact terminalName_eq_ok.mpr (valid.terminal?_eq_some.mp found)
      · exact terminalName_eq_ok.mpr (by simp [terminalCount, terminalNames])
  | addNonterminal name =>
      cases answered
      exact nonterminalName_eq_ok.mpr (valid.addNonterminal_getElem? name)
  | addRule rule =>
      obtain ⟨⟨other, added⟩, isAdded, same⟩ := exists_of_bind_eq_ok answered
      cases same
      obtain ⟨_, rfl, rfl⟩ := addRule_eq_ok.mp isAdded
      exact rule_eq_ok.mpr List.getElem?_concat_length
  | setStart start => cases answered
  | augment =>
      obtain ⟨augmented, _, same⟩ := exists_of_bind_eq_ok answered
      cases same

/-! ## Consistent grammars -/

/-- Names, rules and the mark of being augmented fit together. -/
structure IsConsistent (arena : Arena) : Prop where
  /-- The name of a declared terminal leads back to it. -/
  terminals : ∀ id < arena.terminalCount, ∃ name,
    arena.terminalName id = .ok name ∧ arena.terminal? name = some id
  /-- No other name is that of a terminal. -/
  noTerminal : ∀ name, (∀ id < arena.terminalCount, arena.terminalName id ≠ .ok name) →
    arena.terminal? name = none
  /-- The end of the input is always there. -/
  endOfInput : arena.terminalName endOfInput = .ok endName ∧
    arena.terminal? endName = some endOfInput
  /-- The name of a declared nonterminal leads back to it. -/
  nonterminals : ∀ id < arena.nonterminalCount, ∃ name,
    arena.nonterminalName id = .ok name ∧ arena.nonterminal? name = some id
  /-- No other name is that of a nonterminal. -/
  noNonterminal : ∀ name,
    (∀ id < arena.nonterminalCount, arena.nonterminalName id ≠ .ok name) →
      arena.nonterminal? name = none
  /-- The rules of a declared nonterminal are listed in ascending order. -/
  rulesFor : ∀ head < arena.nonterminalCount, ∃ ids, arena.rulesFor head = .ok ids ∧
    ids.Pairwise (· < ·) ∧ ∀ id, id ∈ ids ↔
      ∃ rule, arena.rule id = .ok rule ∧ rule.head = head
  /-- Every rule is listed once, and only for its head. -/
  rulesOnce : ∀ id rule, arena.rule id = .ok rule →
    ∃ ids, arena.rulesFor rule.head = .ok ids ∧ ids.count id = 1 ∧
      ∀ head others, arena.rulesFor head = .ok others → id ∈ others → head = rule.head
  /-- The accept rule of an augmented grammar leads from the start to a single nonterminal. -/
  accept : arena.isAugmented = true → ∃ id head target, arena.acceptRule = some id ∧
    arena.rule id = .ok ⟨head, [.nonterminal target]⟩ ∧ arena.start = .ok head

/-- Containers that agree are consistent to those who look things up in them. -/
theorem Valid.isConsistent (valid : arena.Valid) : arena.IsConsistent where
  terminals _ := valid.exists_terminalName_eq_ok
  noTerminal _ := valid.terminal?_eq_none_of_unused
  endOfInput := ⟨rfl, rfl⟩
  nonterminals _ := valid.exists_nonterminalName_eq_ok
  noNonterminal _ := valid.nonterminal?_eq_none_of_unused
  rulesFor _ declared := by simpa only [rule_eq_ok] using valid.exists_rulesFor_eq_ok declared
  rulesOnce _ _ := valid.exists_rulesFor_head_eq_ok
  accept := valid.exists_acceptRule_eq_some

/-- Whatever is grown from nothing by any calls, with any names and numbers, is consistent. The
numbers in use mean the same after all further calls, and so does a number that is handed out next:
it is that of the name or the rule that was asked for, and stays so. A call that faults changes
nothing. -/
theorem grammars_grow_consistently (calls : List Call) :
    (empty.afterAll calls).IsConsistent ∧
      (∀ further, (empty.afterAll calls).KeepsNumbers (empty.afterAll (calls ++ further))) ∧
      (∀ call id next, call.answer (empty.afterAll calls) = .ok (some id, next) →
        empty.afterAll (calls ++ [call]) = next ∧
          ∀ further, call.Describes (empty.afterAll (calls ++ call :: further)) id) ∧
      ∀ call fault, call.answer (empty.afterAll calls) = .error fault →
        empty.afterAll (calls ++ [call]) = empty.afterAll calls := by
  have continued (further : List Call) :
      empty.afterAll (calls ++ further) = (empty.afterAll calls).afterAll further :=
    List.foldl_append
  have valid := Valid.empty.afterAll calls
  refine ⟨valid.isConsistent, fun further => ?_, fun call id next answered => ?_,
    fun call fault faulted => ?_⟩
  · rw [continued]
    exact keepsNumbers_afterAll _ further
  · have isNext : (empty.afterAll calls).after call = next := by rw [after, answered]
    refine ⟨(continued [call]).trans isNext, fun further => ?_⟩
    rw [continued, afterAll, List.foldl_cons, isNext]
    exact (keepsNumbers_afterAll next further).describes (describes_of_answer_eq_ok valid answered)
  · have unchanged : (empty.afterAll calls).after call = empty.afterAll calls := by
      rw [after, faulted]
    exact (continued [call]).trans unchanged

/-- A grammar for any number of `a` is declared, with a name that is declared twice, a rule that is
refused because its head is unknown, and an augmentation. -/
def growth : List Call :=
  [.addNonterminal "S", .addTerminal "a", .addTerminal "$end", .addNonterminal "S",
    .addRule ⟨0, [.terminal 1, .nonterminal 0]⟩, .addRule ⟨7, []⟩,
    .addRule ⟨0, []⟩, .augment]

/-- After these calls `S'` is the start, and it keeps its number and its rule when the start moves
away and the grammar is augmented again. The next terminal gets the number 2 for good. -/
theorem growth_is_consistent :
    (empty.afterAll growth).isAugmented = true ∧ (empty.afterAll growth).start = .ok 1 ∧
      (empty.afterAll growth).rule 2 = .ok ⟨1, [.nonterminal 0]⟩ ∧
      (empty.afterAll growth).nonterminal? "S" = some 0 ∧
      (empty.afterAll growth).rulesFor 0 = .ok [0, 1] ∧
      (empty.afterAll (growth ++ [.setStart 0, .augment])).nonterminalName 1 = .ok "S'" ∧
      (empty.afterAll (growth ++ [.addTerminal "b", .setStart 0, .augment])).terminalName 2 =
        .ok "b" := by
  obtain ⟨consistent, keeps, describes, _⟩ := grammars_grow_consistently growth
  have augmented : (empty.afterAll growth).isAugmented = true := by decide +kernel
  obtain ⟨id, head, target, accepts, found, starts⟩ := consistent.accept augmented
  have isAccept : (empty.afterAll growth).acceptRule = some 2 := by decide +kernel
  have isRule : (empty.afterAll growth).rule 2 = .ok ⟨1, [.nonterminal 0]⟩ := by decide +kernel
  obtain rfl : 2 = id := Option.some.inj (isAccept.symm.trans accepts)
  obtain ⟨rfl, _⟩ := Rule.mk.inj (Except.ok.inj (isRule.symm.trans found))
  have named : (empty.afterAll growth).nonterminalName 1 = .ok "S'" := by decide +kernel
  obtain ⟨name, isName, leadsBack⟩ := consistent.nonterminals 0 (by decide +kernel)
  have isS : (empty.afterAll growth).nonterminalName 0 = .ok "S" := by decide +kernel
  obtain rfl : "S" = name := Except.ok.inj (isS.symm.trans isName)
  obtain ⟨_, further⟩ := describes (.addTerminal "b") 2 _ rfl
  exact ⟨augmented, starts, isRule, leadsBack, by decide +kernel,
    (keeps [.setStart 0, .augment]).nonterminalName 1 "S'" named, further [.setStart 0, .augment]⟩

end Arena

end DeterministicParsing
