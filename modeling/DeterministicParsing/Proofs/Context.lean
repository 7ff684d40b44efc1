/-
# Contexts are found wherever there are any

A chain of rules leads from the start down to a nonterminal exactly if the start derives a string in
which the nonterminal occurs. What the chain leaves after the nonterminal is all that decides
whether a terminal can come next, so going up from the nonterminal it is enough to know of each
chain where it begins and whether the terminal is still owed. The search visits every such pair that
some chain gives rise to, each once, and stops at the start. So it finds a context with the terminal
after the hole if there is one, and if it finds none, the chains that it has passed on the way tell
why.
-/
import Mathlib.Logic.Relation
import DeterministicParsing.Context
import DeterministicParsing.Proofs.FollowSets
import DeterministicParsing.Proofs.WitnessError

namespace DeterministicParsing

/-! ## Chains -/

namespace Grammar

variable {grammar : Grammar}

/-- A chain of rules and places leads from a nonterminal, the third argument, down to another one,
the second argument, with symbols before and after it. -/
inductive Leads (grammar : Grammar) (nonterminal : Nat) :
    Nat → List (Nat × Nat) → List Symbol → List Symbol → Prop where
  /-- The nonterminal is there. -/
  | here : Leads grammar nonterminal nonterminal [] [] []
  /-- A rule leads to the top of the chain. -/
  | through {id place below : Nat} {rule : Rule} {chain : List (Nat × Nat)}
      {before after : List Symbol} (found : grammar.rules[id]? = some rule)
      (occurs : rule.body[place]? = some (.nonterminal below))
      (rest : Leads grammar nonterminal below chain before after) :
      Leads grammar nonterminal rule.head ((id, place) :: chain) (rule.body.take place ++ before)
        (after ++ rule.body.drop (place + 1))

namespace Leads

variable {top middle nonterminal : Nat} {chain lower : List (Nat × Nat)}
  {before after inner outer : List Symbol}

/-- A body divided at one of its nonterminals. -/
theorem take_append_drop_of_occurs {body : List Symbol} {place below : Nat}
    (occurs : body[place]? = some (.nonterminal below)) :
    body = body.take place ++ .nonterminal below :: body.drop (place + 1) := by
  obtain ⟨inRange, here⟩ := List.getElem?_eq_some_iff.mp occurs
  rw [← here, ← List.drop_eq_getElem_cons inRange, List.take_append_drop]

/-- Expanding along a chain is a derivation. -/
theorem derives (leads : grammar.Leads nonterminal top chain before after) :
    grammar.Derives [.nonterminal top] (before ++ .nonterminal nonterminal :: after) := by
  induction leads with
  | here => exact .refl _
  | @through id place below rule chain before after found occurs _ ih =>
      have ruled := Derives.of_rule (List.mem_of_getElem? found)
      have inPlace := ih.context (rule.body.take place) (rule.body.drop (place + 1))
      rw [List.singleton_append, ← take_append_drop_of_occurs occurs] at inPlace
      simpa using ruled.trans inPlace

/-- What comes after the nonterminal comes from bodies. -/
theorem mem_after (leads : grammar.Leads nonterminal top chain before after) {symbol : Symbol}
    (member : symbol ∈ after) : ∃ rule ∈ grammar.rules, symbol ∈ rule.body := by
  induction leads with
  | here => cases member
  | through found _ _ ih =>
      rcases List.mem_append.mp member with inner | outer
      · exact ih inner
      · exact ⟨_, List.mem_of_getElem? found, List.mem_of_mem_drop outer⟩

/-- Chains can be put one after another. -/
theorem trans (upper : grammar.Leads middle top chain before after)
    (below : grammar.Leads nonterminal middle lower inner outer) :
    grammar.Leads nonterminal top (chain ++ lower) (before ++ inner) (outer ++ after) := by
  induction upper with
  | here => simpa using below
  | through found occurs _ ih => simpa using Leads.through found occurs ih

/-- One rule makes a chain. -/
theorem of_rule {id : Nat} {rule : Rule} {left right : List Symbol}
    (found : grammar.rules[id]? = some rule)
    (body : rule.body = left ++ .nonterminal nonterminal :: right) :
    grammar.Leads nonterminal rule.head [(id, left.length)] left right := by
  have occurs : rule.body[left.length]? = some (.nonterminal nonterminal) := by simp [body]
  have single := Leads.through found occurs .here
  rwa [body, List.take_left, List.append_nil, List.nil_append,
    List.drop_length_add_append] at single

end Leads

/-- A nonterminal that occurs in a derived string is led to by a chain, and what stands before and
after it is derived from what the chain leaves there. -/
theorem Derives.exists_leads {top : Nat} {string : List Symbol}
    (derives : grammar.Derives [.nonterminal top] string) :
    ∀ left nonterminal right, string = left ++ .nonterminal nonterminal :: right →
      ∃ chain before after, grammar.Leads nonterminal top chain before after ∧
        grammar.Derives before left ∧ grammar.Derives after right := by
  apply derives.induction_tail
  · intro left nonterminal right same
    obtain ⟨rfl, same⟩ | ⟨_, _, impossible⟩ := List.cons_eq_append_iff.mp same
    · obtain ⟨isTop, rfl⟩ := List.cons.inj same
      cases isTop
      exact ⟨[], [], [], .here, .refl _, .refl _⟩
    · simp at impossible
  · rintro _ _ ih ⟨member, first, last⟩ left nonterminal right same
    rename_i rule
    rcases append_eq_append_cons same with ⟨rest, rfl, rfl⟩ | ⟨rest, rfl, restEq⟩
    · obtain ⟨chain, before, after, leads, toLeft, toRight⟩ :=
        ih left nonterminal (rest ++ .nonterminal rule.head :: last) (by simp)
      exact ⟨chain, before, after, leads, toLeft,
        toRight.trans (.head (.replace member rest last) (.refl _))⟩
    · rcases append_eq_append_cons restEq with ⟨others, body, rfl⟩ | ⟨others, rfl, rfl⟩
      · -- The nonterminal comes from the body, so the chain to the head gets longer.
        obtain ⟨chain, before, after, leads, toLeft, toRight⟩ := ih first rule.head last rfl
        obtain ⟨id, found⟩ := List.getElem?_of_mem member
        exact ⟨_, _, _, leads.trans (.of_rule found body), toLeft.append (.refl _),
          Derives.append (.refl _) toRight⟩
      · obtain ⟨chain, before, after, leads, toLeft, toRight⟩ :=
          ih (first ++ .nonterminal rule.head :: others) nonterminal right (by simp)
        refine ⟨chain, before, after, leads, toLeft.trans ?_, toRight⟩
        exact .head (.replace member first others) (.refl _)

theorem reaches_iff_exists_leads {start nonterminal : Nat} (starts : grammar.start = .ok start) :
    grammar.Reaches nonterminal ↔
      ∃ chain before after, grammar.Leads nonterminal start chain before after := by
  constructor
  · rintro ⟨other, left, right, isStart, derives⟩
    obtain rfl : start = other := Except.ok.inj (starts.symm.trans isStart)
    obtain ⟨chain, before, after, leads, _⟩ := derives.exists_leads left nonterminal right rfl
    exact ⟨chain, before, after, leads⟩
  · rintro ⟨chain, before, after, leads⟩
    exact ⟨start, before, after, starts, leads.derives⟩

/-! ## What a string can begin with -/

/-- A string can begin with a terminal when symbols in front are left empty: some symbol derives a
terminal string that begins so. The symbols after it need not derive anything. -/
def CanBegin (grammar : Grammar) (symbols : List Symbol) (terminal : Nat) : Prop :=
  ∃ left symbol right rest, symbols = left ++ symbol :: right ∧ grammar.Derives left [] ∧
    grammar.Generates [symbol] (terminal :: rest)

variable {symbols first second : List Symbol} {terminal : Nat}

theorem not_canBegin_nil : ¬ grammar.CanBegin [] terminal := by
  rintro ⟨left, symbol, right, rest, same, -⟩
  simp at same

theorem canBegin_append : grammar.CanBegin (first ++ second) terminal ↔
    grammar.CanBegin first terminal ∨
      (grammar.Derives first [] ∧ grammar.CanBegin second terminal) := by
  constructor
  · rintro ⟨left, symbol, right, rest, same, vanishes, generates⟩
    rcases append_eq_append_cons same with ⟨others, rfl, rfl⟩ | ⟨others, rfl, rfl⟩
    · exact .inl ⟨left, symbol, others, rest, rfl, vanishes, generates⟩
    · obtain ⟨firstVanishes, othersVanish⟩ := derives_append_nil.mp vanishes
      exact .inr ⟨firstVanishes, others, symbol, right, rest, rfl, othersVanish, generates⟩
  · rintro (⟨left, symbol, right, rest, rfl, vanishes, generates⟩ |
      ⟨firstVanishes, left, symbol, right, rest, rfl, vanishes, generates⟩)
    · exact ⟨left, symbol, right ++ second, rest, by simp, vanishes, generates⟩
    · exact ⟨first ++ left, symbol, right, rest, by simp,
        derives_append_nil.mpr ⟨firstVanishes, vanishes⟩, generates⟩

theorem canBegin_singleton {symbol : Symbol} : grammar.CanBegin [symbol] terminal ↔
    ∃ rest, grammar.Generates [symbol] (terminal :: rest) := by
  constructor
  · rintro ⟨left, other, right, rest, same, -, generates⟩
    obtain ⟨rfl, same⟩ | ⟨_, _, impossible⟩ := List.cons_eq_append_iff.mp same
    · cases same
      exact ⟨rest, generates⟩
    · simp at impossible
  · rintro ⟨rest, generates⟩
    exact ⟨[], symbol, [], rest, rfl, .refl _, generates⟩

theorem canBegin_cons {symbol : Symbol} {others : List Symbol} :
    grammar.CanBegin (symbol :: others) terminal ↔
      (∃ rest, grammar.Generates [symbol] (terminal :: rest)) ∨
        (grammar.Derives [symbol] [] ∧ grammar.CanBegin others terminal) := by
  rw [← List.singleton_append, canBegin_append, canBegin_singleton]

/-- Where every symbol derives a terminal string, whatever a derived string begins with begins a
terminal string. -/
theorem DerivesBeginning.canBegin (begins : grammar.DerivesBeginning symbols terminal)
    (productive : ∀ id, .nonterminal id ∈ symbols → grammar.Productive id)
    (bodies : ∀ rule ∈ grammar.rules, ∀ id, .nonterminal id ∈ rule.body →
      grammar.Productive id) :
    grammar.CanBegin symbols terminal := by
  have generates (string : List Symbol)
      (each : ∀ id, .nonterminal id ∈ string → grammar.Productive id) :
      ∃ terminals, grammar.Generates string terminals := by
    induction string with
    | nil => exact ⟨[], .refl _⟩
    | cons symbol string ih =>
        obtain ⟨tail, rest⟩ := ih fun id member => each id (.tail _ member)
        cases symbol with
        | terminal id => exact ⟨id :: tail, Derives.append (.refl [.terminal id]) rest⟩
        | nonterminal id =>
            obtain ⟨terminals, here⟩ := each id (.head _)
            refine ⟨terminals ++ tail, ?_⟩
            rw [Generates, word_append]
            exact Derives.append here rest
  induction symbols with
  | nil =>
      obtain ⟨rest, derives⟩ := begins
      cases @eq_of_derives_word _ [] _ derives
  | cons symbol others ih =>
      rw [← List.singleton_append, derivesBeginning_append] at begins
      rw [canBegin_cons]
      rcases begins with ⟨rest, derives⟩ | ⟨vanishes, later⟩
      · left
        have restProductive : ∀ id, .nonterminal id ∈ rest → grammar.Productive id := by
          intro id member
          rcases derives.mem (.tail _ member) with isSymbol | ⟨rule, isRule, inBody⟩
          · exact productive id (by simpa using .inl (List.mem_singleton.mp isSymbol))
          · exact bodies rule isRule id inBody
        obtain ⟨terminals, tail⟩ := generates rest restProductive
        exact ⟨terminals, derives.trans (Derives.append (.refl [.terminal terminal]) tail)⟩
      · exact .inr ⟨vanishes, ih later fun id member => productive id (.tail _ member)⟩

end Grammar

namespace Context

variable {grammar : Grammar} {sentences : Sentences} {symbols : List Symbol}
  {nonterminal terminal : Nat} {wanted : Option Nat} {owed : Bool} {climb : Climb}

/-- The three answers, and what each of them means. -/
theorem beginning_eq_ok (exact : Sentences.Exact grammar sentences)
    (declared : ∀ symbol ∈ symbols, grammar.Declares symbol) (terminal : Nat) :
    (beginning sentences terminal symbols = .ok .found ∧ grammar.CanBegin symbols terminal) ∨
      (beginning sentences terminal symbols = .ok .nullable ∧
        ¬ grammar.CanBegin symbols terminal ∧ grammar.Derives symbols []) ∨
      (beginning sentences terminal symbols = .ok .blocked ∧
        ¬ grammar.CanBegin symbols terminal ∧ ¬ grammar.Derives symbols []) := by
  induction symbols with
  | nil => exact .inr (.inl ⟨rfl, Grammar.not_canBegin_nil, .refl _⟩)
  | cons symbol rest ih =>
      have isDeclared := declared symbol (by simp)
      have emptied : grammar.Derives (symbol :: rest) [] ↔
          grammar.Derives [symbol] [] ∧ grammar.Derives rest [] := by
        rw [← List.singleton_append, Grammar.derives_append_nil]
      rw [beginning, exact.startingWith_eq_ok isDeclared, ok_bind,
        exact.isNullable_eq_ok isDeclared, ok_bind, emptied, Grammar.canBegin_cons,
        ← exact.exists_knownStart_iff, ← exact.known_eq_nil_iff]
      cases starts : sentences.knownStart symbol terminal with
      | some sentence => exact .inl ⟨rfl, .inl ⟨sentence, rfl⟩⟩
      | none =>
          by_cases empty : sentences.known symbol = some []
          · simpa [empty] using ih fun other member => declared other (by simp [member])
          · simp [empty]

/-! ## Climbs -/

/-- Whether a terminal that is wanted after the hole is still owed by what is above, given the
symbols after the hole so far. -/
def Owes (grammar : Grammar) (wanted : Option Nat) (after : List Symbol) : Bool → Prop
  | false => ∀ terminal ∈ wanted, grammar.CanBegin after terminal
  | true => ∃ terminal ∈ wanted, ¬ grammar.CanBegin after terminal ∧ grammar.Derives after []

/-- Whether the terminal is still owed after one more part, given whether it was before. -/
def Passes (grammar : Grammar) (wanted : Option Nat) (after : List Symbol) : Bool → Bool → Prop
  | false, next => next = false
  | true, next => Owes grammar wanted after next

theorem owes_nil : Owes grammar wanted [] owed ↔ owed = wanted.isSome := by
  cases wanted <;> cases owed <;> simp [Owes, Grammar.not_canBegin_nil, Grammar.Derives.refl]

theorem owes_append {inner outer : List Symbol} :
    Owes grammar wanted (inner ++ outer) owed ↔
      ∃ before, Owes grammar wanted inner before ∧ Passes grammar wanted outer before owed := by
  cases wanted with
  | none => cases owed <;> simp [Owes, Passes]
  | some terminal =>
      cases owed <;>
        simp only [Owes, Passes, Bool.exists_bool, Option.mem_some_iff, forall_eq', exists_eq_left',
          Grammar.canBegin_append, Grammar.derives_append_nil, reduceCtorEq] <;>
        tauto

/-- The climb goes up along a chain from the nonterminal, and it owes the terminal if the chain
does. -/
def Climb.IsFrom (grammar : Grammar) (nonterminal : Nat) (wanted : Option Nat)
    (climb : Climb) : Prop :=
  ∃ before after, grammar.Leads nonterminal climb.nonterminal climb.chain before after ∧
    Owes grammar wanted after climb.owed

/-- One rule leads from a nonterminal up to another, and changes what is owed. -/
def Ascends (grammar : Grammar) (wanted : Option Nat) (lower upper : Nat × Bool) : Prop :=
  ∃ (id : Nat) (rule : Rule) (place : Nat), grammar.rules[id]? = some rule ∧
    rule.body[place]? = some (.nonterminal lower.1) ∧ upper.1 = rule.head ∧
    Passes grammar wanted (rule.body.drop (place + 1)) lower.2 upper.2

open Relation (ReflTransGen)

/-- Every chain is an ascent. -/
theorem ascends_of_leads {top : Nat} {chain : List (Nat × Nat)} {before after : List Symbol}
    (leads : grammar.Leads nonterminal top chain before after)
    (owes : Owes grammar wanted after owed) :
    ReflTransGen (Ascends grammar wanted) (nonterminal, wanted.isSome) (top, owed) := by
  induction leads generalizing owed with
  | here =>
      rw [owes_nil.mp owes]
  | @through id place below rule chain before after found occurs rest ih =>
      obtain ⟨earlier, owesEarlier, passes⟩ := owes_append.mp owes
      exact .tail (ih owesEarlier) ⟨id, rule, place, found, occurs, rfl, passes⟩

theorem exists_owedAbove_eq_ok (exact : Sentences.Exact grammar sentences)
    (declared : ∀ symbol ∈ symbols, grammar.Declares symbol)
    (wants : climb.owed = true → wanted.isSome) :
    ∃ found, climb.owedAbove sentences wanted symbols = .ok found ∧
      ∀ next, found = some next ↔ Passes grammar wanted symbols climb.owed next := by
  cases isOwed : climb.owed with
  | false =>
      refine ⟨some false, by cases wanted <;> simp [Climb.owedAbove, isOwed], fun next => ?_⟩
      simp [Passes, eq_comm]
  | true =>
      obtain ⟨terminal, rfl⟩ := Option.isSome_iff_exists.mp (wants isOwed)
      rcases beginning_eq_ok exact declared terminal with
        ⟨answer, begins⟩ | ⟨answer, blocked, empty⟩ | ⟨answer, blocked, full⟩
      · refine ⟨some false, by simp [Climb.owedAbove, isOwed, answer], fun next => ?_⟩
        cases next <;> simp [Passes, Owes, begins]
      · refine ⟨some true, by simp [Climb.owedAbove, isOwed, answer], fun next => ?_⟩
        cases next <;> simp [Passes, Owes, blocked, empty]
      · refine ⟨none, by simp [Climb.owedAbove, isOwed, answer], fun next => ?_⟩
        cases next <;> simp [Passes, Owes, blocked, full]

theorem Climb.IsFrom.wants (isFrom : climb.IsFrom grammar nonterminal wanted)
    (isOwed : climb.owed = true) :
    wanted.isSome := by
  obtain ⟨before, after, _, owes⟩ := isFrom
  rw [isOwed] at owes
  obtain ⟨terminal, isWanted, _⟩ := owes
  exact Option.isSome_iff_exists.mpr ⟨terminal, isWanted⟩

/-- Where a nonterminal occurs. -/
def Occurrence.IsOf (grammar : Grammar) (occurrence : Occurrence) : Prop :=
  ∃ rule, grammar.rules[occurrence.rule]? = some rule ∧
    rule.body[occurrence.place]? = some (.nonterminal occurrence.nonterminal)

/-- Climbing through a rule follows the ascents through it, and leads to climbs from the same
nonterminal. -/
theorem Climb.IsFrom.exists_via_eq_ok (isFrom : climb.IsFrom grammar nonterminal wanted)
    (exact : Sentences.Exact grammar sentences) (bodies : grammar.BodiesDeclared)
    {occurrence : Occurrence} (occurs : occurrence.IsOf grammar)
    (here : occurrence.nonterminal = climb.nonterminal) :
    ∃ found, climb.via grammar sentences wanted occurrence = .ok found ∧
      (∀ next, found = some next → next.IsFrom grammar nonterminal wanted ∧
        next.nonterminal < grammar.nonterminalCount) ∧
      ∀ rule owed, grammar.rules[occurrence.rule]? = some rule →
        Passes grammar wanted (rule.body.drop (occurrence.place + 1)) climb.owed owed →
        ∃ next, found = some next ∧ next.key = (rule.head, owed) := by
  obtain ⟨rule, found, stands⟩ := occurs
  rw [here] at stands
  have member := List.mem_of_getElem? found
  have declared : ∀ symbol ∈ rule.body.drop (occurrence.place + 1), grammar.Declares symbol :=
    fun symbol inRest => bodies rule member symbol (List.mem_of_mem_drop inRest)
  obtain ⟨owed, answer, passes_iff⟩ := exists_owedAbove_eq_ok exact declared isFrom.wants
  refine ⟨_, by simp only [Climb.via, Arena.rule_eq_ok.mpr found, ok_bind, answer]; rfl, ?_, ?_⟩
  · intro next isNext
    obtain ⟨isOwed, isSome, rfl⟩ := Option.map_eq_some_iff.mp isNext
    obtain ⟨before, after, leads, owes⟩ := isFrom
    refine ⟨⟨_, _, .through found stands leads, ?_⟩, grammar.head_lt rule member⟩
    exact owes_append.mpr ⟨climb.owed, owes, (passes_iff isOwed).mp isSome⟩
  · intro other isOwed isOther passes
    obtain rfl := Option.some.inj (found.symm.trans isOther)
    rw [(passes_iff isOwed).mpr passes]
    exact ⟨_, rfl, rfl⟩

/-! ## The search -/

/-- The occurrence at a place of a body that is declared. -/
def occurrenceIn (rule : Nat) : Symbol × Nat → Option Occurrence
  | (.terminal _, _) => none
  | (.nonterminal id, place) => some ⟨id, rule, place⟩

theorem exists_occurrences_eq_ok (bodies : grammar.BodiesDeclared) :
    ∃ uses, occurrences grammar = .ok uses ∧
      ∀ occurrence, occurrence ∈ uses ↔ occurrence.IsOf grammar := by
  have inBody : ∀ entry ∈ grammar.rules.zipIdx,
      entry.1.body.zipIdx.mapM (occurrenceAt grammar entry.2) =
        .ok (entry.1.body.zipIdx.map (occurrenceIn entry.2)) := by
    rintro ⟨rule, id⟩ member
    refine mapM_eq_ok_map ?_
    rintro ⟨symbol, place⟩ inBody
    cases symbol with
    | terminal => rfl
    | nonterminal other =>
        have isRule := List.mem_of_getElem? (List.mem_zipIdx_iff_getElem?.mp member)
        have stands := List.mem_of_getElem? (List.mem_zipIdx_iff_getElem?.mp inBody)
        exact if_pos (bodies rule isRule _ stands)
  refine ⟨_, by simp only [occurrences, mapM_eq_ok_map inBody, ok_bind]; rfl,
    fun occurrence => ?_⟩
  simp only [List.mem_filterMap, List.mem_flatten, List.mem_map, id_eq, Prod.exists,
    List.mem_zipIdx_iff_getElem?, Occurrence.IsOf]
  constructor
  · rintro ⟨_, ⟨_, ⟨rule, id, found, rfl⟩, inBody⟩, rfl⟩
    obtain ⟨⟨symbol, place⟩, stands, isOccurrence⟩ := List.mem_map.mp inBody
    cases symbol with
    | terminal => cases isOccurrence
    | nonterminal other =>
        cases isOccurrence
        exact ⟨rule, found, List.mem_zipIdx_iff_getElem?.mp stands⟩
  · rintro ⟨rule, found, stands⟩
    refine ⟨some occurrence, ⟨_, ⟨rule, occurrence.rule, found, rfl⟩, ?_⟩, rfl⟩
    exact List.mem_map.mpr ⟨(_, occurrence.place), List.mem_zipIdx_iff_getElem?.mpr stands, rfl⟩

namespace Climb

variable {seen : List (Nat × Bool)} {climbs : List Climb}

theorem mem_of_mem_fresh (member : climb ∈ fresh seen climbs) :
    climb ∈ climbs ∧ climb.key ∉ seen := by
  induction climbs generalizing seen with
  | nil => cases member
  | cons first rest ih =>
      rw [fresh] at member
      split at member
      · obtain ⟨inRest, isNew⟩ := ih member
        exact ⟨.tail _ inRest, isNew⟩
      · rename_i isNew
        rcases List.mem_cons.mp member with rfl | later
        · exact ⟨.head _, isNew⟩
        · obtain ⟨inRest, isNewer⟩ := ih later
          exact ⟨.tail _ inRest, fun old => isNewer (.tail _ old)⟩

theorem nodup_map_key_fresh : ((fresh seen climbs).map key).Nodup := by
  induction climbs generalizing seen with
  | nil => exact List.nodup_nil
  | cons first rest ih =>
      rw [fresh]
      split
      · exact ih
      · refine List.nodup_cons.mpr ⟨fun again => ?_, ih⟩
        obtain ⟨other, member, same⟩ := List.mem_map.mp again
        exact (mem_of_mem_fresh member).2 (by simp [same])

theorem key_mem_fresh (member : climb ∈ climbs) :
    climb.key ∈ (fresh seen climbs).map key ++ seen := by
  induction climbs generalizing seen with
  | nil => cases member
  | cons first rest ih =>
      rw [fresh]
      split
      · rename_i old
        rcases List.mem_cons.mp member with rfl | later
        · exact List.mem_append_right _ old
        · exact ih later
      · rcases List.mem_cons.mp member with rfl | later
        · simp
        · have inRest := @ih (first.key :: seen) later
          rw [List.mem_append, List.mem_cons] at inRest
          rw [List.map_cons, List.cons_append, List.mem_cons, List.mem_append]
          tauto

end Climb

/-- The climbs with this key have arrived. -/
def Arrives (start : Nat) (wanted : Option Nat) (key : Nat × Bool) : Prop :=
  key.1 = start ∧ (key.2 = false ∨ wanted = some endOfInput)

theorem hasArrived_iff {start : Nat} :
    climb.hasArrived start wanted = true ↔ Arrives start wanted climb.key := by
  simp [Climb.hasArrived, Arrives, Climb.key]

/-- What the search knows: the climbs in the queue are climbs from the nonterminal, and whatever has
been seen and is not in the queue any more has been followed. -/
structure IsSearch (grammar : Grammar) (nonterminal start : Nat) (wanted : Option Nat)
    (seen : List (Nat × Bool)) (queue : List Climb) : Prop where
  nodup : seen.Nodup
  declared : ∀ key ∈ seen, key.1 < grammar.nonterminalCount
  queued : ∀ climb ∈ queue, climb.key ∈ seen
  isFrom : ∀ climb ∈ queue, climb.IsFrom grammar nonterminal wanted
  followed : ∀ key ∈ seen, (∃ climb ∈ queue, climb.key = key) ∨
    (¬ Arrives start wanted key ∧ ∀ upper, Ascends grammar wanted key upper → upper ∈ seen)

variable {seen : List (Nat × Bool)} {queue : List Climb} {start : Nat} {uses : List Occurrence}

/-- A search begins with the climb that has not left the nonterminal. -/
theorem isSearch_singleton (declared : nonterminal < grammar.nonterminalCount) (start : Nat)
    (wanted : Option Nat) :
    IsSearch grammar nonterminal start wanted [(nonterminal, wanted.isSome)]
      [⟨nonterminal, wanted.isSome, []⟩] where
  nodup := List.nodup_singleton _
  declared := by simpa using declared
  queued := by simp [Climb.key]
  isFrom := by
    intro climb member
    rw [List.mem_singleton.mp member]
    exact ⟨[], [], .here, owes_nil.mpr rfl⟩
  followed := by simp [Climb.key]

/-- There are two keys at most for each nonterminal. -/
theorem IsSearch.length_seen_le (search : IsSearch grammar nonterminal start wanted seen queue) :
    seen.length ≤ 2 * grammar.nonterminalCount := by
  have within : seen ⊆ List.range grammar.nonterminalCount ×ˢ [false, true] := by
    rintro ⟨id, owed⟩ member
    refine List.pair_mem_product.mpr ⟨List.mem_range.mpr (search.declared _ member), ?_⟩
    cases owed <;> simp
  have few := (search.nodup.subperm within).length_le
  rw [List.length_product, List.length_range] at few
  simp only [List.length_cons, List.length_nil] at few
  omega

/-- Climbing through all rules in which the nonterminal occurs follows every ascent from it. -/
theorem Climb.IsFrom.exists_mapM_via_eq_ok (isFrom : climb.IsFrom grammar nonterminal wanted)
    (exact : Sentences.Exact grammar sentences) (bodies : grammar.BodiesDeclared)
    (isUse : ∀ occurrence, occurrence ∈ uses ↔ occurrence.IsOf grammar) :
    ∃ found, (uses.filter (·.nonterminal == climb.nonterminal)).mapM
        (climb.via grammar sentences wanted) = .ok found ∧
      (∀ next ∈ found.filterMap id, next.IsFrom grammar nonterminal wanted ∧
        next.nonterminal < grammar.nonterminalCount) ∧
      ∀ upper, Ascends grammar wanted climb.key upper →
        ∃ next ∈ found.filterMap id, next.key = upper := by
  have total : ∀ occurrence ∈ uses.filter (·.nonterminal == climb.nonterminal), ∃ found,
      climb.via grammar sentences wanted occurrence = .ok found ∧
      ((∀ next, found = some next → next.IsFrom grammar nonterminal wanted ∧
        next.nonterminal < grammar.nonterminalCount) ∧
      ∀ rule owed, grammar.rules[occurrence.rule]? = some rule →
        Passes grammar wanted (rule.body.drop (occurrence.place + 1)) climb.owed owed →
        ∃ next, found = some next ∧ next.key = (rule.head, owed)) := by
    intro occurrence member
    obtain ⟨inUses, here⟩ := List.mem_filter.mp member
    exact isFrom.exists_via_eq_ok exact bodies ((isUse occurrence).mp inUses) (by simpa using here)
  obtain ⟨found, mapped, each⟩ := exists_mapM_eq_ok total
  refine ⟨found, mapped, fun next member => ?_, ?_⟩
  · obtain ⟨_, inFound, rfl⟩ := List.mem_filterMap.mp member
    obtain ⟨_, _, valid, _⟩ := exists_of_mem_right each inFound
    exact valid next rfl
  · rintro ⟨top, owed⟩ ⟨id, rule, place, isRule, stands, rfl, passes⟩
    have here : (⟨climb.nonterminal, id, place⟩ : Occurrence) ∈
        uses.filter (·.nonterminal == climb.nonterminal) := by
      rw [List.mem_filter, isUse]
      exact ⟨⟨rule, isRule, stands⟩, by simp⟩
    obtain ⟨result, inFound, _, complete⟩ := exists_of_mem_left each here
    obtain ⟨next, rfl, sameKey⟩ := complete rule owed isRule passes
    exact ⟨next, List.mem_filterMap.mpr ⟨some next, inFound, rfl⟩, sameKey⟩

/-- Following the first climb of the queue. -/
theorem IsSearch.exists_step
    (search : IsSearch grammar nonterminal start wanted seen (climb :: queue))
    (exact : Sentences.Exact grammar sentences) (bodies : grammar.BodiesDeclared)
    (isUse : ∀ occurrence, occurrence ∈ uses ↔ occurrence.IsOf grammar)
    (underway : ¬ Arrives start wanted climb.key) :
    ∃ found, (uses.filter (·.nonterminal == climb.nonterminal)).mapM
        (climb.via grammar sentences wanted) = .ok found ∧
      IsSearch grammar nonterminal start wanted
        ((Climb.fresh seen (found.filterMap id)).map Climb.key ++ seen)
        (queue ++ Climb.fresh seen (found.filterMap id)) := by
  obtain ⟨found, mapped, valid, complete⟩ :=
    (search.isFrom climb (by simp)).exists_mapM_via_eq_ok exact bodies isUse
  refine ⟨found, mapped, ?_, ?_, ?_, ?_, ?_⟩
  · rw [List.nodup_append]
    refine ⟨Climb.nodup_map_key_fresh, search.nodup, ?_⟩
    rintro key inFresh _ inSeen rfl
    obtain ⟨next, isFresh, rfl⟩ := List.mem_map.mp inFresh
    exact (Climb.mem_of_mem_fresh isFresh).2 inSeen
  · intro key member
    rcases List.mem_append.mp member with inFresh | inSeen
    · obtain ⟨next, isFresh, rfl⟩ := List.mem_map.mp inFresh
      exact (valid next (Climb.mem_of_mem_fresh isFresh).1).2
    · exact search.declared key inSeen
  · intro next member
    rcases List.mem_append.mp member with inQueue | isFresh
    · exact List.mem_append_right _ (search.queued next (.tail _ inQueue))
    · exact List.mem_append_left _ (List.mem_map_of_mem isFresh)
  · intro next member
    rcases List.mem_append.mp member with inQueue | isFresh
    · exact search.isFrom next (.tail _ inQueue)
    · exact (valid next (Climb.mem_of_mem_fresh isFresh).1).1
  · intro key member
    rcases List.mem_append.mp member with inFresh | inSeen
    · obtain ⟨next, isFresh, rfl⟩ := List.mem_map.mp inFresh
      exact .inl ⟨next, List.mem_append_right _ isFresh, rfl⟩
    · rcases search.followed key inSeen with ⟨other, waiting, rfl⟩ | ⟨notArrived, above⟩
      · rcases List.mem_cons.mp waiting with rfl | inQueue
        · -- This is the climb that has just been followed.
          refine .inr ⟨underway, fun upper ascends => ?_⟩
          obtain ⟨next, isFound, rfl⟩ := complete upper ascends
          exact Climb.key_mem_fresh isFound
        · exact .inl ⟨other, List.mem_append_left _ inQueue, rfl⟩
      · exact .inr ⟨notArrived,
          fun upper ascends => List.mem_append_right _ (above upper ascends)⟩

/-- The search ends with a climb that has arrived, or has followed every ascent without arriving. -/
theorem IsSearch.exists_climbUp_eq_ok
    (search : IsSearch grammar nonterminal start wanted seen queue)
    (exact : Sentences.Exact grammar sentences) (bodies : grammar.BodiesDeclared)
    (isUse : ∀ occurrence, occurrence ∈ uses ↔ occurrence.IsOf grammar) {bound : Nat}
    (enough : 2 * grammar.nonterminalCount + 1 + queue.length ≤ bound + seen.length) :
    ∃ found, climbUp grammar sentences uses start wanted bound seen queue = .ok found ∧
      (∀ climb, found = some climb →
        climb.IsFrom grammar nonterminal wanted ∧ Arrives start wanted climb.key) ∧
      (found = none → ∀ key ∈ seen, ∀ upper,
        ReflTransGen (Ascends grammar wanted) key upper → ¬ Arrives start wanted upper) := by
  induction bound generalizing seen queue with
  | zero =>
      have few := search.length_seen_le
      omega
  | succ bound ih =>
      cases queue with
      | nil =>
          refine ⟨none, rfl, by simp, fun _ key member upper ascent => ?_⟩
          have closed : ∀ key ∈ seen, ¬ Arrives start wanted key ∧
              ∀ upper, Ascends grammar wanted key upper → upper ∈ seen :=
            fun key member => (search.followed key member).resolve_left (by simp)
          have seenUpper : upper ∈ seen := by
            induction ascent with
            | refl => exact member
            | tail _ ascends seenLower => exact (closed _ seenLower).2 _ ascends
          exact (closed upper seenUpper).1
      | cons climb queue =>
          rw [climbUp]
          by_cases arrived : climb.hasArrived start wanted = true
          · rw [if_pos arrived]
            refine ⟨some climb, rfl, ?_, by simp⟩
            rintro _ ⟨⟩
            exact ⟨search.isFrom climb (by simp), hasArrived_iff.mp arrived⟩
          · rw [if_neg arrived]
            have underway : ¬ Arrives start wanted climb.key := fun arrives =>
              arrived (hasArrived_iff.mpr arrives)
            obtain ⟨found, mapped, next⟩ := search.exists_step exact bodies isUse underway
            obtain ⟨result, climbed, isClimb, isNone⟩ := ih next (by
              simp only [List.length_append, List.length_map, List.length_cons] at enough ⊢
              omega)
            refine ⟨result, by simp only [mapped, ok_bind, climbed], isClimb, ?_⟩
            intro none key member
            exact isNone none key (List.mem_append_right _ member)

/-! ## Contexts -/

/-- What comes after the hole suits a terminal that is wanted there: it can begin with the terminal,
or the end of the input is wanted and it can be empty. -/
def Suits (grammar : Grammar) (wanted : Option Nat) (after : List Symbol) : Prop :=
  ∀ terminal ∈ wanted, grammar.CanBegin after terminal ∨
    (terminal = endOfInput ∧ grammar.Derives after [])

variable {after : List Symbol}

theorem suits_of_owes (key : Nat × Bool) (owes : Owes grammar wanted after key.2)
    (arrives : Arrives start wanted key) : Suits grammar wanted after := by
  intro terminal isWanted
  cases isOwed : key.2 with
  | false =>
      rw [isOwed] at owes
      exact .inl (owes terminal isWanted)
  | true =>
      rw [isOwed] at owes
      obtain ⟨other, isOther, _, empty⟩ := owes
      obtain rfl : terminal = other := Option.some.inj (isWanted.symm.trans isOther)
      have isEnd : wanted = some endOfInput := arrives.2.resolve_left (by simp [isOwed])
      exact .inr ⟨Option.some.inj (isWanted.symm.trans isEnd), empty⟩

theorem Suits.exists_owes (suits : Suits grammar wanted after) (start : Nat) :
    ∃ owed, Owes grammar wanted after owed ∧ Arrives start wanted (start, owed) := by
  by_cases begins : ∀ terminal ∈ wanted, grammar.CanBegin after terminal
  · exact ⟨false, begins, rfl, .inl rfl⟩
  · push Not at begins
    obtain ⟨terminal, isWanted, blocked⟩ := begins
    obtain ⟨isEnd, empty⟩ := (suits terminal isWanted).resolve_left blocked
    exact ⟨true, ⟨terminal, isWanted, blocked, empty⟩, rfl, .inr (by rw [isWanted, isEnd])⟩

/-- A chain from the start is found if there is one that suits. -/
theorem exists_chainTo_eq_ok (exact : Sentences.Exact grammar sentences)
    (bodies : grammar.BodiesDeclared) (starts : grammar.start = .ok start)
    (declared : nonterminal < grammar.nonterminalCount) (wanted : Option Nat) :
    ∃ found, chainTo grammar sentences nonterminal wanted = .ok found ∧
      (∀ chain, found = some chain → ∃ before after,
        grammar.Leads nonterminal start chain before after ∧ Suits grammar wanted after) ∧
      (found = none → ∀ chain before after,
        grammar.Leads nonterminal start chain before after → ¬ Suits grammar wanted after) := by
  obtain ⟨uses, listed, isUse⟩ := exists_occurrences_eq_ok bodies
  obtain ⟨found, climbed, isClimb, isNone⟩ := (isSearch_singleton declared start
    wanted).exists_climbUp_eq_ok exact bodies isUse le_rfl
  refine ⟨found.map Climb.chain, ?_, ?_, ?_⟩
  · simp only [chainTo, starts, listed, ok_bind, if_pos declared, Climb.key, climbed, pure_eq_ok]
  · intro chain isChain
    obtain ⟨arrived, isFound, rfl⟩ := Option.map_eq_some_iff.mp isChain
    obtain ⟨⟨before, after, leads, owes⟩, arrives⟩ := isClimb arrived isFound
    have atStart : arrived.nonterminal = start := arrives.1
    rw [atStart] at leads
    exact ⟨before, after, leads, suits_of_owes arrived.key owes arrives⟩
  · intro none chain before after leads suits
    obtain ⟨owed, owes, arrives⟩ := suits.exists_owes start
    exact isNone (Option.map_eq_none_iff.mp none) _ (List.mem_singleton_self _) _
      (ascends_of_leads leads owes) arrives

/-- Expanding along a chain from within a string. -/
theorem foldlM_descend_eq_ok {top : Nat} {chain : List (Nat × Nat)} {before after : List Symbol}
    (leads : grammar.Leads nonterminal top chain before after) (left right : List Symbol) :
    chain.foldlM (descend grammar) ⟨left ++ .nonterminal top :: right, left.length⟩ =
      .ok ⟨left ++ before ++ .nonterminal nonterminal :: (after ++ right),
        left.length + before.length⟩ := by
  induction leads generalizing left right with
  | here => simp
  | @through id place below rule chain before after found occurs _ ih =>
      have inRange : place ≤ rule.body.length := (List.getElem?_eq_some_iff.mp occurs).1.le
      have filled : descend grammar ⟨left ++ .nonterminal rule.head :: right,
        left.length⟩ (id, place) =
          .ok ⟨(left ++ rule.body.take place) ++
            .nonterminal below :: (rule.body.drop (place + 1) ++ right),
            (left ++ rule.body.take place).length⟩ := by
        have divided := Grammar.Leads.take_append_drop_of_occurs occurs
        rw [descend, Arena.rule_eq_ok.mpr found, ok_bind, pure_eq_ok]
        congr 2
        · rw [fill, List.take_left, List.drop_length_add_append]
          simp only [List.drop_succ_cons, List.drop_zero]
          nth_rewrite 1 [divided]
          simp
        · simp [inRange]
      rw [List.foldlM_cons, filled, ok_bind, ih]
      simp [inRange, Nat.add_assoc]

theorem ofChain_eq_ok (starts : grammar.start = .ok start) {chain : List (Nat × Nat)}
    {before after : List Symbol} (leads : grammar.Leads nonterminal start chain before after) :
    ofChain grammar chain =
      .ok ⟨before ++ .nonterminal nonterminal :: after, before.length⟩ := by
  rw [ofChain, starts, ok_bind]
  simpa using foldlM_descend_eq_ok leads [] []

/-- Where no chain suits, the answer is that none leads to the nonterminal, or that none allows for
the terminal, which has to be declared to be named. -/
theorem find_of_forall_not_suits (exact : Sentences.Exact grammar sentences)
    (bodies : grammar.BodiesDeclared) (starts : grammar.start = .ok start)
    (declared : nonterminal < grammar.nonterminalCount) {name : String}
    (named : grammar.nonterminalName nonterminal = .ok name)
    (unsuited : ∀ chain before after, grammar.Leads nonterminal start chain before after →
      ¬ Suits grammar wanted after) :
    (¬ grammar.Reaches nonterminal ∧
        find grammar sentences nonterminal wanted = .error (.error (.unreachable name))) ∨
      ∃ terminal, wanted = some terminal ∧ grammar.Reaches nonterminal ∧
        ((∃ terminalName, grammar.terminalName terminal = .ok terminalName ∧
            find grammar sentences nonterminal wanted =
              .error (.error (.noContext name terminalName))) ∨
          (¬ grammar.Declares (.terminal terminal) ∧
            find grammar sentences nonterminal wanted = .error (.fault (.terminal terminal)))) := by
  obtain ⟨found, searched, isChain, _⟩ :=
    exists_chainTo_eq_ok exact bodies starts declared wanted
  cases found with
  | some chain =>
      obtain ⟨before, after, leads, suits⟩ := isChain chain rfl
      exact absurd suits (unsuited chain before after leads)
  | none =>
      rw [Grammar.reaches_iff_exists_leads starts]
      cases wanted with
      | none =>
          refine .inl ⟨?_, by simp [find, searched, named, Failure.raise]⟩
          rintro ⟨chain, before, after, leads⟩
          exact unsuited chain before after leads (by simp [Suits])
      | some terminal =>
          obtain ⟨anyFound, anySearched, anyChain, anyNone⟩ :=
            exists_chainTo_eq_ok exact bodies starts declared none
          cases anyFound with
          | none =>
              refine .inl ⟨?_, by simp [find, searched, named, anySearched, Failure.raise]⟩
              rintro ⟨chain, before, after, leads⟩
              exact anyNone rfl chain before after leads (by simp [Suits])
          | some chain =>
              obtain ⟨before, after, leads, _⟩ := anyChain chain rfl
              refine .inr ⟨terminal, rfl, ⟨chain, before, after, leads⟩, ?_⟩
              by_cases terminalDeclared : grammar.Declares (.terminal terminal)
              · obtain ⟨terminalName, terminalNamed⟩ :=
                  Grammar.exists_symbolName_eq_ok terminalDeclared
                change grammar.terminalName terminal = .ok terminalName at terminalNamed
                refine .inl ⟨terminalName, terminalNamed, ?_⟩
                simp [find, searched, named, anySearched, terminalNamed, Failure.raise]
              · have unnamed : grammar.terminalName terminal = .error (.terminal terminal) := by
                  rw [grammar.toArena.terminalName_eq,
                    List.getElem?_eq_none (Nat.le_of_not_lt terminalDeclared)]
                refine .inr ⟨terminalDeclared, ?_⟩
                simp only [find, searched, named, anySearched, unnamed, liftM_ok, ok_bind,
                  Option.isSome_some, if_true]
                rfl

/-- A context is found if there is one that suits. If there is none, either the nonterminal cannot
be reached, or the terminal that is wanted never comes after it. -/
theorem find_eq (exact : Sentences.Exact grammar sentences) (bodies : grammar.BodiesDeclared)
    (starts : grammar.start = .ok start) (declared : grammar.Declares (.nonterminal nonterminal))
    (wantedDeclared : ∀ terminal ∈ wanted, grammar.Declares (.terminal terminal)) :
    (∃ chain before after, grammar.Leads nonterminal start chain before after ∧
        Suits grammar wanted after ∧ find grammar sentences nonterminal wanted =
          .ok ⟨before ++ .nonterminal nonterminal :: after, before.length⟩) ∨
      ∃ name, grammar.nonterminalName nonterminal = .ok name ∧
        ((¬ grammar.Reaches nonterminal ∧
          find grammar sentences nonterminal wanted = .error (.error (.unreachable name))) ∨
        ∃ terminal terminalName, wanted = some terminal ∧
          grammar.terminalName terminal = .ok terminalName ∧ grammar.Reaches nonterminal ∧
          (∀ chain before after, grammar.Leads nonterminal start chain before after →
            ¬ Suits grammar wanted after) ∧
          find grammar sentences nonterminal wanted =
            .error (.error (.noContext name terminalName))) := by
  obtain ⟨found, searched, isChain, isNone⟩ :=
    exists_chainTo_eq_ok exact bodies starts declared wanted
  cases found with
  | some chain =>
      obtain ⟨before, after, leads, suits⟩ := isChain chain rfl
      refine .inl ⟨chain, before, after, leads, suits, ?_⟩
      simp [find, searched, ofChain_eq_ok starts leads]
  | none =>
      obtain ⟨name, named⟩ := Grammar.exists_symbolName_eq_ok declared
      refine .inr ⟨name, named, ?_⟩
      have unsuited := isNone rfl
      rcases find_of_forall_not_suits exact bodies starts declared named unsuited with
        unreachable |
          ⟨terminal, rfl, reaches, ⟨terminalName, terminalNamed, answer⟩ | ⟨foreign, _⟩⟩
      · exact .inl unreachable
      · exact .inr ⟨terminal, terminalName, rfl, terminalNamed, reaches, unsuited, answer⟩
      · exact absurd (wantedDeclared terminal rfl) foreign

end Context

end DeterministicParsing
