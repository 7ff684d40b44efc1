/-
# The containers of a grammar

A grammar is kept in several containers at once. Names lead to numbers through two maps, numbers
lead back to names through two lists, and the rules stand in one list and their numbers, head by
head, in another. All of them only ever grow at their end, so a number keeps its meaning for good.
Terminal 0 is the end of the input, `$end`. It is never stored, so every operation on terminals
treats it apart.

The containers repeat each other. `Valid` says what it takes for them to agree, and every operation
keeps it. A map is a list of pairs with the latest in front, of which nothing but look-ups is used.
-/
import DeterministicParsing.Fault
import DeterministicParsing.AscendingMap
import DeterministicParsing.TerminalSet

namespace DeterministicParsing

def endOfInput : Nat := 0

def endName : String := "$end"

inductive Symbol where
  | terminal (id : Nat)
  | nonterminal (id : Nat)
  deriving DecidableEq

namespace Symbol

def isNonterminal : Symbol → Bool
  | terminal _ => false
  | nonterminal _ => true

/-- Terminals stand before nonterminals, and each sort stands by number. -/
def before : Symbol → Symbol → Bool
  | terminal first, terminal second => first < second
  | terminal _, nonterminal _ => true
  | nonterminal _, terminal _ => false
  | nonterminal first, nonterminal second => first < second

instance : LT Symbol := ⟨fun first second => first.before second = true⟩

instance : DecidableLT Symbol := fun first second =>
  inferInstanceAs (Decidable (first.before second = true))

theorem lt_def {first second : Symbol} : first < second ↔ first.before second = true := Iff.rfl

instance : KeyOrder Symbol where
  irrefl symbol := by cases symbol <;> simp [lt_def, before]
  trans := by
    intro first second third
    cases first <;> cases second <;> cases third <;>
      simp_all [lt_def, before] <;> exact Nat.lt_trans
  total := by
    intro first second
    cases first <;> cases second <;> simp_all [lt_def, before] <;> grind

end Symbol

/-- A rule lets its head, a nonterminal, be replaced by its body. -/
structure Rule where
  head : Nat
  body : List Symbol
  deriving DecidableEq

/-- The containers of a grammar. -/
structure Arena where
  rules : List Rule
  nonterminalIds : List (String × Nat)
  terminalIds : List (String × Nat)
  nonterminalNames : List String
  /-- For each nonterminal the numbers of its rules. -/
  ruleLists : List (List Nat)
  /-- The names of the terminals after the end of the input. -/
  ownTerminalNames : List String
  chosenStart : Option Nat
  /-- The rule that augmentation added, as long as its head is the start. -/
  acceptRule : Option Nat

namespace Arena

/-- Nothing is declared but the end of the input. -/
def empty : Arena := ⟨[], [], [], [], [], [], none, none⟩

variable (arena : Arena)

/-! ## Names and numbers -/

/-- The names of all terminals by number. -/
def terminalNames : List String := endName :: arena.ownTerminalNames

def terminalCount : Nat := arena.terminalNames.length

def nonterminalCount : Nat := arena.nonterminalNames.length

def terminal? (name : String) : Option Nat :=
  if name = endName then some endOfInput else arena.terminalIds.lookup name

def nonterminal? (name : String) : Option Nat := arena.nonterminalIds.lookup name

def terminalName (id : Nat) : Except Fault String :=
  if id = endOfInput then
    .ok endName
  else
    match arena.ownTerminalNames[id - 1]? with
    | some name => .ok name
    | none => .error (.terminal id)

def nonterminalName (id : Nat) : Except Fault String :=
  match arena.nonterminalNames[id]? with
  | some name => .ok name
  | none => .error (.nonterminal id)

def symbolName : Symbol → Except Fault String
  | .terminal id => arena.terminalName id
  | .nonterminal id => arena.nonterminalName id

def rule (id : Nat) : Except Fault Rule :=
  match arena.rules[id]? with
  | some rule => .ok rule
  | none => .error (.rule id)

def rulesFor (head : Nat) : Except Fault (List Nat) :=
  match arena.ruleLists[head]? with
  | some ids => .ok ids
  | none => .error (.nonterminal head)

def terminals : List Nat := List.range arena.terminalCount

def nonterminals : List Nat := List.range arena.nonterminalCount

/-- The declared symbols, terminals first. -/
def symbols : List Symbol :=
  arena.terminals.map .terminal ++ arena.nonterminals.map .nonterminal

def ruleIds : List Nat := List.range arena.rules.length

/-- The number of symbols in all bodies together. No more terminals than that can occur in them. -/
def size : Nat := (arena.rules.flatMap Rule.body).length

/-- Whether a number is that of a rule with the given head. -/
def isRuleOf (id : Nat) (head : Nat) : Bool :=
  match arena.rules[id]? with
  | some rule => rule.head == head
  | none => false

/-! ## Growing -/

/-- Declare a terminal. A name that is declared already keeps its number, and `$end` always is. -/
def addTerminal (name : String) : Nat × Arena :=
  if name = endName then
    (endOfInput, arena)
  else
    match arena.terminalIds.lookup name with
    | some id => (id, arena)
    | none =>
        (arena.terminalCount,
          { arena with
            terminalIds := (name, arena.terminalCount) :: arena.terminalIds
            ownTerminalNames := arena.ownTerminalNames ++ [name] })

/-- Declare a nonterminal. A name that is declared already keeps its number. -/
def addNonterminal (name : String) : Nat × Arena :=
  match arena.nonterminalIds.lookup name with
  | some id => (id, arena)
  | none =>
      (arena.nonterminalCount,
        { arena with
          nonterminalIds := (name, arena.nonterminalCount) :: arena.nonterminalIds
          nonterminalNames := arena.nonterminalNames ++ [name]
          ruleLists := arena.ruleLists ++ [[]] })

/-- One more rule, with its number under its head. -/
def withRule (added : Rule) : Arena :=
  { arena with
    ruleLists := arena.ruleLists.modify added.head (· ++ [arena.rules.length])
    rules := arena.rules ++ [added] }

/-- Add a rule under the next number. A head that is not declared is a fault. -/
def addRule (added : Rule) : Except Fault (Nat × Arena) :=
  if added.head < arena.ruleLists.length then .ok (arena.rules.length, arena.withRule added)
  else .error (.nonterminal added.head)

/-! ## The start -/

/-- The start: the one that was chosen, or else the first nonterminal. -/
def start : Except Fault Nat :=
  match arena.chosenStart with
  | some id => .ok id
  | none => if arena.nonterminalNames.isEmpty then .error .start else .ok 0

/-- Choose the start. The number is not checked. An accept rule with another head is forgotten. -/
def setStart (id : Nat) : Arena :=
  { arena with
    chosenStart := some id
    acceptRule := arena.acceptRule.filter (arena.isRuleOf · id) }

/-- Whether the start is the one that augmentation added. -/
def isAugmented : Bool := arena.acceptRule.isSome

/-- Append primes to a name until no nonterminal has it, at most `bound` of them. -/
def primeUntilFresh (bound : Nat) (name : String) : String :=
  match bound with
  | 0 => name
  | bound + 1 =>
      if (arena.nonterminal? name).isSome then primeUntilFresh bound (name ++ "'") else name

/-- A name with as many primes, at least one, as it takes to differ from every nonterminal. The
names with one, two, … primes are all different, so one of the first `n + 1` is free when `n`
nonterminals are declared. -/
def primed (name : String) : String :=
  arena.primeUntilFresh arena.nonterminalCount (name ++ "'")

/-- Add a new start with a single rule, the accept rule, which leads to the old start. -/
def augmented : Except Fault Arena := do
  let start ← arena.start
  let name ← arena.nonterminalName start
  let (head, declaring) := arena.addNonterminal (arena.primed name)
  let (rule, extended) ← declaring.addRule ⟨head, [.nonterminal start]⟩
  return { extended.setStart head with acceptRule := some rule }

/-- The containers that hold the given names and rules, in the order of their numbers. -/
def ofLists (terminals nonterminals : List String) (rules : List Rule) : Arena where
  rules := rules
  nonterminalIds := nonterminals.zipIdx
  terminalIds := terminals.zipIdx 1
  nonterminalNames := nonterminals
  ruleLists := (List.range nonterminals.length).map fun head =>
    (List.range rules.length).filter fun id => rules[id]?.any (·.head == head)
  ownTerminalNames := terminals
  chosenStart := none
  acceptRule := none

variable {arena}

/-- The name of a terminal stands in the list of all names, also that of the end of the input. -/
theorem terminalName_eq (arena : Arena) (id : Nat) : arena.terminalName id =
    match arena.terminalNames[id]? with
    | some name => .ok name
    | none => .error (.terminal id) := by
  cases id <;> rfl

theorem terminalName_eq_ok {id : Nat} {name : String} :
    arena.terminalName id = .ok name ↔ arena.terminalNames[id]? = some name := by
  rw [terminalName_eq]
  cases arena.terminalNames[id]? <;> simp

theorem nonterminalName_eq_ok {id : Nat} {name : String} :
    arena.nonterminalName id = .ok name ↔ arena.nonterminalNames[id]? = some name := by
  rw [nonterminalName]
  cases arena.nonterminalNames[id]? <;> simp

theorem rule_eq_ok {id : Nat} {rule : Rule} :
    arena.rule id = .ok rule ↔ arena.rules[id]? = some rule := by
  rw [Arena.rule]
  cases arena.rules[id]? <;> simp

/-- Whether a terminal is new depends on the look-up only, also for the end of the input. -/
theorem addTerminal_eq (name : String) : arena.addTerminal name =
    match arena.terminal? name with
    | some id => (id, arena)
    | none =>
        (arena.terminalCount,
          { arena with
            terminalIds := (name, arena.terminalCount) :: arena.terminalIds
            ownTerminalNames := arena.ownTerminalNames ++ [name] }) := by
  unfold addTerminal terminal?
  split <;> rfl

theorem addRule_eq_ok {added : Rule} {id : Nat} {later : Arena} :
    arena.addRule added = .ok (id, later) ↔ added.head < arena.ruleLists.length ∧
      id = arena.rules.length ∧ later = arena.withRule added := by
  unfold addRule
  split <;> rename_i declared <;> simp [declared, eq_comm]

/-- Augmentation declares the new start, adds its rule, moves the start and marks the rule. -/
theorem exists_of_augmented_eq_ok {made : Arena} (isMade : arena.augmented = .ok made) :
    ∃ start name, arena.start = .ok start ∧ arena.nonterminalName start = .ok name ∧
      let declaring := arena.addNonterminal (arena.primed name)
      declaring.1 < declaring.2.ruleLists.length ∧
        made = {
          (declaring.2.withRule ⟨declaring.1, [.nonterminal start]⟩).setStart declaring.1 with
          acceptRule := some declaring.2.rules.length } := by
  obtain ⟨start, starts, isMade⟩ := exists_of_bind_eq_ok isMade
  obtain ⟨name, named, isMade⟩ := exists_of_bind_eq_ok isMade
  obtain ⟨⟨rule, extended⟩, added, isMade⟩ := exists_of_bind_eq_ok isMade
  obtain ⟨declared, rfl, rfl⟩ := addRule_eq_ok.mp added
  cases isMade
  exact ⟨start, name, starts, named, declared, rfl⟩

/-! ## Agreement of the containers -/

/-- The map leads from the names of the list, and from no others, to their places, the first of
which has the number `first`. -/
def Indexes (ids : List (String × Nat)) (names : List String) (first : Nat) : Prop :=
  ∀ name id, ids.lookup name = some id ↔ first ≤ id ∧ names[id - first]? = some name

namespace Indexes

variable {ids : List (String × Nat)} {names : List String} {first : Nat} {name : String}

theorem nodup (indexes : Indexes ids names first) : names.Nodup := by
  rw [List.Nodup, List.pairwise_iff_getElem]
  intro index other inNames otherInNames before same
  have atIndex := (indexes names[index] (first + index)).mpr ⟨by omega, by simp⟩
  have atOther := (indexes names[index] (first + other)).mpr ⟨by omega, by simp [same]⟩
  have := Option.some.inj (atIndex.symm.trans atOther)
  omega

theorem lookup_eq_none (indexes : Indexes ids names first) :
    ids.lookup name = none ↔ name ∉ names := by
  rw [Option.eq_none_iff_forall_ne_some, List.mem_iff_getElem?, not_exists]
  refine ⟨fun absent index found => ?_, fun absent id found => ?_⟩
  · exact absent _ ((indexes name (first + index)).mpr ⟨by omega, by simpa using found⟩)
  · exact absent _ ((indexes name id).mp found).2

/-- A new name is put in front of the map and at the end of the list. -/
theorem cons (indexes : Indexes ids names first) (absent : ids.lookup name = none) :
    Indexes ((name, first + names.length) :: ids) (names ++ [name]) first := by
  have new := indexes.lookup_eq_none.mp absent
  intro other id
  rw [List.lookup_cons]
  by_cases same : other = name
  · subst same
    simp only [beq_self_eq_true, Option.some.injEq, List.getElem?_append]
    split
    · refine ⟨fun isNext => by omega, fun ⟨_, found⟩ => ?_⟩
      exact absurd (List.mem_of_getElem? found) new
    · simp only [List.getElem?_singleton]
      grind
  · rw [beq_eq_false_iff_ne.mpr same, indexes other id, List.getElem?_append]
    split
    · exact Iff.rfl
    · grind

end Indexes

theorem Indexes.zipIdx {names : List String} (distinct : names.Nodup) (first : Nat) :
    Indexes (names.zipIdx first) names first := by
  induction names generalizing first with
  | nil => simp [Indexes]
  | cons name others ih =>
      obtain ⟨absent, distinct⟩ := List.nodup_cons.mp distinct
      intro other id
      rw [List.zipIdx_cons, List.lookup_cons]
      by_cases same : other = name
      · subst same
        simp only [beq_self_eq_true, Option.some.injEq]
        refine ⟨by rintro rfl; simp, fun ⟨atLeast, found⟩ => ?_⟩
        cases offset : id - first with
        | zero => omega
        | succ place =>
            rw [offset, List.getElem?_cons_succ] at found
            exact absurd (List.mem_of_getElem? found) absent
      · rw [beq_eq_false_iff_ne.mpr same, ih distinct (first + 1) other id]
        cases offset : id - first with
        | zero =>
            simp only [List.getElem?_cons_zero, Option.some.injEq, Ne.symm same, and_false,
              iff_false, not_and]
            exact fun atLeast => by omega
        | succ place =>
            have next : id - (first + 1) = place := by omega
            simp only [next, List.getElem?_cons_succ]
            exact and_congr_left fun _ => by omega

/-- The containers agree with each other. -/
structure Valid (arena : Arena) : Prop where
  nonterminals : Indexes arena.nonterminalIds arena.nonterminalNames 0
  terminals : Indexes arena.terminalIds arena.ownTerminalNames 1
  /-- The end of the input is not stored. -/
  end_not_mem : endName ∉ arena.ownTerminalNames
  ruleLists_eq : arena.ruleLists =
    arena.nonterminals.map fun head => arena.ruleIds.filter (arena.isRuleOf · head)
  head_lt : ∀ rule ∈ arena.rules, rule.head < arena.nonterminalCount
  /-- The accept rule leads from the start to a single nonterminal. -/
  accept_eq : ∀ id, arena.acceptRule = some id → ∃ head target,
    arena.rules[id]? = some ⟨head, [.nonterminal target]⟩ ∧ arena.chosenStart = some head

theorem isRuleOf_eq_true {id head : Nat} :
    arena.isRuleOf id head = true ↔
      ∃ rule, arena.rules[id]? = some rule ∧ rule.head = head := by
  unfold isRuleOf
  split <;> simp_all

/-- The rules up to now keep their heads, and a new one comes last. -/
theorem filter_ruleIds_withRule (arena : Arena) (added : Rule) (head : Nat) :
    (arena.withRule added).ruleIds.filter ((arena.withRule added).isRuleOf · head) =
      arena.ruleIds.filter (arena.isRuleOf · head) ++
        if added.head = head then [arena.rules.length] else [] := by
  have ids : (arena.withRule added).ruleIds = arena.ruleIds ++ [arena.rules.length] := by
    simp [ruleIds, Arena.withRule, List.range_succ]
  have old : arena.ruleIds.filter ((arena.withRule added).isRuleOf · head) =
      arena.ruleIds.filter (arena.isRuleOf · head) := by
    refine List.filter_congr fun id member => ?_
    simp only [isRuleOf, Arena.withRule, List.getElem?_append_left (List.mem_range.mp member)]
  have new : (arena.withRule added).isRuleOf arena.rules.length head = (added.head == head) := by
    simp [isRuleOf, Arena.withRule]
  rw [ids, List.filter_append, old, List.filter_cons, new, List.filter_nil]
  simp only [beq_iff_eq]

namespace Valid

theorem empty : Arena.empty.Valid :=
  ⟨by simp [Indexes, Arena.empty], by simp [Indexes, Arena.empty], by simp [Arena.empty], rfl,
    by simp [Arena.empty], by simp [Arena.empty]⟩

theorem ruleLists_length (valid : arena.Valid) :
    arena.ruleLists.length = arena.nonterminalCount := by
  simp [valid.ruleLists_eq, Arena.nonterminals]

theorem addTerminal (valid : arena.Valid) (name : String) : (arena.addTerminal name).2.Valid := by
  unfold Arena.addTerminal
  split
  · exact valid
  · rename_i notEnd
    split
    · exact valid
    · rename_i absent
      refine ⟨valid.nonterminals, ?_, ?_, valid.ruleLists_eq, valid.head_lt, valid.accept_eq⟩
      · have indexes := valid.terminals.cons absent
        rwa [Nat.add_comm 1] at indexes
      · simpa [valid.end_not_mem] using Ne.symm notEnd

theorem addNonterminal (valid : arena.Valid) (name : String) :
    (arena.addNonterminal name).2.Valid := by
  unfold Arena.addNonterminal
  split
  · exact valid
  · rename_i absent
    have later (rule : Rule) (member : rule ∈ arena.rules) :
        rule.head < (arena.nonterminalNames ++ [name]).length := by
      rw [List.length_append]
      exact Nat.lt_succ_of_lt (valid.head_lt rule member)
    refine ⟨?_, valid.terminals, valid.end_not_mem, ?_, later, valid.accept_eq⟩
    · have indexes := valid.nonterminals.cons absent
      rwa [Nat.zero_add] at indexes
    · -- no rule has the new nonterminal as its head
      have none : arena.ruleIds.filter (arena.isRuleOf · arena.nonterminalCount) = [] := by
        rw [List.filter_eq_nil_iff]
        intro id _ isRule
        obtain ⟨rule, found, head⟩ := isRuleOf_eq_true.mp isRule
        exact absurd (valid.head_lt rule (List.mem_of_getElem? found)) (by omega)
      simp only [Arena.nonterminals, Arena.nonterminalCount, List.length_append,
        List.length_singleton, List.range_succ, List.map_append, List.map_singleton]
      rw [valid.ruleLists_eq]
      exact congrArg (_ ++ [·]) none.symm

theorem withRule (valid : arena.Valid) {added : Rule}
    (declared : added.head < arena.nonterminalCount) : (arena.withRule added).Valid where
  nonterminals := valid.nonterminals
  terminals := valid.terminals
  end_not_mem := valid.end_not_mem
  ruleLists_eq := by
    refine List.ext_getElem? fun head => ?_
    simp only [filter_ruleIds_withRule]
    simp only [Arena.withRule, List.getElem?_modify, valid.ruleLists_eq, List.getElem?_map]
    by_cases here : head < arena.nonterminalCount
    · have isHead : arena.nonterminals[head]? = some head := by simp [Arena.nonterminals, here]
      change _ = Option.map _ arena.nonterminals[head]?
      rw [isHead]
      by_cases same : added.head = head <;> simp [same]
    · have beyond : arena.nonterminals[head]? = none := by simpa [Arena.nonterminals] using here
      change _ = Option.map _ arena.nonterminals[head]?
      rw [beyond]
      rfl
  head_lt rule member := by
    rcases List.mem_append.mp member with old | isNew
    · exact valid.head_lt rule old
    · rw [List.mem_singleton.mp isNew]
      exact declared
  accept_eq id accepts := by
    obtain ⟨head, target, found, start⟩ := valid.accept_eq id accepts
    refine ⟨head, target, ?_, start⟩
    rw [Arena.withRule, List.getElem?_append_left (List.getElem?_eq_some_iff.mp found).1]
    exact found

theorem addRule (valid : arena.Valid) {added : Rule} {id : Nat} {later : Arena}
    (isAdded : arena.addRule added = .ok (id, later)) : later.Valid := by
  obtain ⟨declared, _, rfl⟩ := addRule_eq_ok.mp isAdded
  rw [valid.ruleLists_length] at declared
  exact valid.withRule declared

theorem setStart (valid : arena.Valid) (id : Nat) : (arena.setStart id).Valid where
  nonterminals := valid.nonterminals
  terminals := valid.terminals
  end_not_mem := valid.end_not_mem
  ruleLists_eq := valid.ruleLists_eq
  head_lt := valid.head_lt
  accept_eq rule accepts := by
    obtain ⟨accepts, isRule⟩ := Option.filter_eq_some_iff.mp accepts
    obtain ⟨head, target, found, _⟩ := valid.accept_eq rule accepts
    obtain ⟨_, isFound, rfl⟩ := isRuleOf_eq_true.mp isRule
    obtain rfl := Option.some.inj (found.symm.trans isFound)
    exact ⟨_, target, found, rfl⟩

theorem withAccept (valid : arena.Valid) {id head target : Nat}
    (found : arena.rules[id]? = some ⟨head, [.nonterminal target]⟩)
    (starts : arena.chosenStart = some head) : { arena with acceptRule := some id }.Valid where
  nonterminals := valid.nonterminals
  terminals := valid.terminals
  end_not_mem := valid.end_not_mem
  ruleLists_eq := valid.ruleLists_eq
  head_lt := valid.head_lt
  accept_eq _ accepts := by
    obtain rfl := Option.some.inj accepts
    exact ⟨head, target, found, starts⟩

theorem ofLists {terminals nonterminals : List String} {rules : List Rule}
    (distinctTerminals : (endName :: terminals).Nodup) (distinctNonterminals : nonterminals.Nodup)
    (declared : ∀ rule ∈ rules, rule.head < nonterminals.length) :
    (Arena.ofLists terminals nonterminals rules).Valid where
  nonterminals := .zipIdx distinctNonterminals 0
  terminals := .zipIdx (List.nodup_cons.mp distinctTerminals).2 1
  end_not_mem := (List.nodup_cons.mp distinctTerminals).1
  ruleLists_eq := by
    refine List.map_congr_left fun head _ => List.filter_congr fun id _ => ?_
    simp only [isRuleOf, Arena.ofLists]
    cases rules[id]? <;> rfl
  head_lt := declared
  accept_eq := by simp [Arena.ofLists]

theorem terminalNames_nodup (valid : arena.Valid) : arena.terminalNames.Nodup :=
  List.nodup_cons.mpr ⟨valid.end_not_mem, valid.terminals.nodup⟩

/-- A terminal is found by a name exactly where it has this name. -/
theorem terminal?_eq_some (valid : arena.Valid) {name : String} {id : Nat} :
    arena.terminal? name = some id ↔ arena.terminalNames[id]? = some name := by
  unfold terminal? terminalNames
  split
  · rename_i isEnd
    subst isEnd
    cases id with
    | zero => simp [endOfInput]
    | succ id =>
        rw [List.getElem?_cons_succ]
        refine ⟨fun same => by simp [endOfInput] at same, fun found => ?_⟩
        exact absurd (List.mem_of_getElem? found) valid.end_not_mem
  · rename_i notEnd
    rw [valid.terminals name id]
    cases id with
    | zero => simpa using Ne.symm notEnd
    | succ id => simp

theorem nonterminal?_eq_some (valid : arena.Valid) {name : String} {id : Nat} :
    arena.nonterminal? name = some id ↔ arena.nonterminalNames[id]? = some name := by
  simpa [nonterminal?] using valid.nonterminals name id

theorem nonterminal?_eq_none (valid : arena.Valid) {name : String} :
    arena.nonterminal? name = none ↔ name ∉ arena.nonterminalNames :=
  valid.nonterminals.lookup_eq_none

theorem terminal?_eq_none (valid : arena.Valid) {name : String} :
    arena.terminal? name = none ↔ name ∉ arena.terminalNames := by
  simp [Option.eq_none_iff_forall_ne_some, valid.terminal?_eq_some, List.mem_iff_getElem?]

theorem rulesFor_eq (valid : arena.Valid) (head : Nat) : arena.rulesFor head =
    if head < arena.nonterminalCount then .ok (arena.ruleIds.filter (arena.isRuleOf · head))
    else .error (.nonterminal head) := by
  unfold rulesFor
  rw [valid.ruleLists_eq, List.getElem?_map, Arena.nonterminals]
  split <;> rename_i found
  all_goals grind

theorem exists_rulesFor_eq_ok (valid : arena.Valid) {head : Nat}
    (declared : head < arena.nonterminalCount) :
    ∃ ids, arena.rulesFor head = .ok ids ∧ ids.Pairwise (· < ·) ∧
      ∀ id, id ∈ ids ↔ ∃ rule, arena.rules[id]? = some rule ∧ rule.head = head := by
  refine ⟨arena.ruleIds.filter
    (arena.isRuleOf · head), by rw [valid.rulesFor_eq, if_pos declared],
    List.pairwise_lt_range.filter _, fun id => ?_⟩
  rw [List.mem_filter, isRuleOf_eq_true, ruleIds, List.mem_range]
  exact and_iff_right_of_imp fun ⟨_, found, _⟩ => (List.getElem?_eq_some_iff.mp found).1

/-- The number of a name that has just been declared is that of the name. -/
theorem addNonterminal_getElem? (valid : arena.Valid) (name : String) :
    (arena.addNonterminal name).2.nonterminalNames[(arena.addNonterminal name).1]? = some name := by
  unfold Arena.addNonterminal
  split
  · rename_i found
    exact valid.nonterminal?_eq_some.mp found
  · simp [nonterminalCount]

theorem augmented (valid : arena.Valid) {made : Arena} (isMade : arena.augmented = .ok made) :
    made.Valid := by
  obtain ⟨start, name, _, _, declared, rfl⟩ := exists_of_augmented_eq_ok isMade
  have grown := valid.addNonterminal (arena.primed name)
  rw [grown.ruleLists_length] at declared
  exact ((grown.withRule declared).setStart _).withAccept (List.getElem?_concat_length) rfl

end Valid

end Arena

end DeterministicParsing
