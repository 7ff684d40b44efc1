/-
# Short sentences are exact

What the tables of short sentences hold when no rule has anything shorter to offer is exact. Every
sentence is derived, because it is put together from derived ones. None is longer than need be: by
induction on the forest of any other derivation, the tables have a sentence that is at most as long.
A terminal string that is derived but not held would have a forest, too, so none is missing.

The sentences by first terminal are found in the same way, once the shortest sentences are there.
The first terminal comes from some symbol of a body; the symbols before it are left empty and those
after it get their shortest sentences.
-/
import DeterministicParsing.Proofs.AscendingMap
import DeterministicParsing.Proofs.FixedPoint
import DeterministicParsing.Proofs.Forest.Derivation
import DeterministicParsing.Proofs.Sentences.Table

namespace DeterministicParsing.Sentences

variable {grammar : Grammar} {sentences : Sentences} {symbol : Symbol} {symbols : List Symbol}
  {terminal : Nat} {candidate : List Nat}

/-! ## What is known of symbols and strings -/

/-- The shortest sentence that is known of a nonterminal. -/
def shortestAt (sentences : Sentences) (id : Nat) : Option (List Nat) :=
  sentences.shortest[id]?.join

/-- The shortest sentence that is known of a nonterminal among those that begin with a terminal. -/
def startingAt (sentences : Sentences) (slot : Nat × Nat) : Option (List Nat) :=
  sentences.starting[slot.1]?.bind (·.find? slot.2)

/-- The sentence that is known of a symbol. -/
def known (sentences : Sentences) : Symbol → Option (List Nat)
  | .terminal id => some [id]
  | .nonterminal id => sentences.shortestAt id

/-- The sentence that is known of a string, if one is known of every symbol. -/
def knownAll (sentences : Sentences) : List Symbol → Option (List Nat)
  | [] => some []
  | symbol :: rest =>
      (sentences.known symbol).bind fun sentence => (sentences.knownAll rest).map (sentence ++ ·)

/-- The sentence that is known of a symbol among those that begin with a terminal. -/
def knownStart (sentences : Sentences) : Symbol → Nat → Option (List Nat)
  | .terminal id, terminal => if terminal = id then some [id] else none
  | .nonterminal id, terminal => sentences.startingAt (id, terminal)

/-- A string has a sentence that begins with a terminal: some symbol does, those before it are left
empty and those after it have sentences. -/
def Offers (sentences : Sentences) : List Symbol → Nat → List Nat → Prop
  | [], _, _ => False
  | symbol :: rest, terminal, candidate =>
      (∃ sentence tail, sentences.knownStart symbol terminal = some sentence ∧
        sentences.knownAll rest = some tail ∧ candidate = sentence ++ tail) ∨
      (sentences.known symbol = some [] ∧ (sentences.knownAll rest).isSome ∧
        sentences.Offers rest terminal candidate)

/-- There is an entry for every nonterminal. -/
structure Covers (grammar : Grammar) (sentences : Sentences) : Prop where
  shortest_length : sentences.shortest.length = grammar.nonterminalCount
  starting_length : sentences.starting.length = grammar.nonterminalCount

theorem knownAll_cons_eq_some {rest : List Symbol} :
    sentences.knownAll (symbol :: rest) = some candidate ↔ ∃ sentence tail,
      sentences.known symbol = some sentence ∧ sentences.knownAll rest = some tail ∧
        candidate = sentence ++ tail := by
  simp only [knownAll, Option.bind_eq_some_iff, Option.map_eq_some_iff]
  constructor
  · rintro ⟨sentence, here, tail, there, rfl⟩
    exact ⟨sentence, tail, here, there, rfl⟩
  · rintro ⟨sentence, tail, here, there, rfl⟩
    exact ⟨sentence, here, tail, there, rfl⟩

namespace Covers

theorem shortestOf_eq_ok (covers : Covers grammar sentences) (declared : grammar.Declares symbol) :
    sentences.shortestOf symbol = .ok (sentences.known symbol) := by
  cases symbol with
  | terminal id => rfl
  | nonterminal id =>
      have inRange : id < sentences.shortest.length := by
        rw [covers.shortest_length]
        exact declared
      simp [shortestOf, known, shortestAt, inRange]

theorem exists_startsOf_eq_ok (covers : Covers grammar sentences)
    (declared : grammar.Declares symbol) :
    ∃ starts, sentences.startsOf symbol = .ok starts ∧
      ∀ terminal, starts.find? terminal = sentences.knownStart symbol terminal := by
  cases symbol with
  | terminal id =>
      refine ⟨_, rfl, fun terminal => ?_⟩
      rw [AscendingMap.find?_insert, AscendingMap.find?_empty, knownStart]
  | nonterminal id =>
      have inRange : id < sentences.starting.length := by
        rw [covers.starting_length]
        exact declared
      refine ⟨sentences.starting[id], ?_, fun terminal => ?_⟩
      · simp [startsOf, inRange]
      · simp [knownStart, startingAt, inRange]

theorem startingWith_eq_ok (covers : Covers grammar sentences) (declared : grammar.Declares symbol)
    (terminal : Nat) :
    sentences.startingWith symbol terminal = .ok (sentences.knownStart symbol terminal) := by
  obtain ⟨starts, found, finds⟩ := covers.exists_startsOf_eq_ok declared
  rw [startingWith, found, ok_bind, pure_eq_ok, finds]

theorem isNullable_eq_ok (covers : Covers grammar sentences) (declared : grammar.Declares symbol) :
    sentences.isNullable symbol = .ok (sentences.known symbol == some []) := by
  rw [isNullable, covers.shortestOf_eq_ok declared, ok_bind, pure_eq_ok]

theorem sequence_eq_ok (covers : Covers grammar sentences)
    (declared : ∀ symbol ∈ symbols, grammar.Declares symbol) :
    sentences.sequence symbols = .ok (sentences.knownAll symbols) := by
  induction symbols with
  | nil => rfl
  | cons symbol rest ih =>
      rw [sequence, covers.shortestOf_eq_ok (declared symbol (by simp)), ok_bind, knownAll,
        ih fun other member => declared other (by simp [member])]
      cases sentences.known symbol <;> rfl

theorem exists_bodyStarts_eq_ok (covers : Covers grammar sentences)
    (declared : ∀ symbol ∈ symbols, grammar.Declares symbol) :
    ∃ candidates, sentences.bodyStarts symbols = .ok candidates ∧
      ∀ terminal candidate, (terminal, candidate) ∈ candidates ↔
        sentences.Offers symbols terminal candidate := by
  induction symbols with
  | nil => exact ⟨[], rfl, by simp [Offers]⟩
  | cons symbol rest ih =>
      have restDeclared : ∀ other ∈ rest, grammar.Declares other :=
        fun other member => declared other (by simp [member])
      have isDeclared := declared symbol (by simp)
      obtain ⟨others, othersFound, mem_others⟩ := ih restDeclared
      obtain ⟨starts, startsFound, finds⟩ := covers.exists_startsOf_eq_ok isDeclared
      rw [bodyStarts, covers.sequence_eq_ok restDeclared, ok_bind]
      cases isTail : sentences.knownAll rest with
      | none => exact ⟨[], rfl, by simp [Offers, isTail]⟩
      | some tail =>
          simp only [startsFound, ok_bind, covers.isNullable_eq_ok isDeclared, othersFound]
          have mem_here : ∀ terminal candidate, (terminal, candidate) ∈
              starts.entries.map (fun entry => (entry.1, entry.2 ++ tail)) ↔
              ∃ sentence, sentences.knownStart symbol terminal = some sentence ∧
                candidate = sentence ++ tail := by
            intro terminal candidate
            simp only [← finds, ← AscendingMap.mem_entries, List.mem_map,
              Prod.mk.injEq, Prod.exists]
            constructor
            · rintro ⟨_, sentence, member, rfl, rfl⟩
              exact ⟨sentence, member, rfl⟩
            · rintro ⟨sentence, member, rfl⟩
              exact ⟨terminal, sentence, member, rfl, rfl⟩
          by_cases empty : sentences.known symbol = some []
          · refine ⟨_ ++ others, by rw [if_pos (by simp [empty])]; rfl,
              fun terminal candidate => ?_⟩
            rw [List.mem_append, mem_here, mem_others]
            simp [Offers, isTail, empty]
          · refine ⟨_, by rw [if_neg (by simp [empty])]; rfl, fun terminal candidate => ?_⟩
            rw [mem_here]
            simp [Offers, isTail, empty]

end Covers

/-! ## Sound tables -/

/-- Whatever the tables hold is derived, and begins as it should. -/
structure Sound (grammar : Grammar) (sentences : Sentences) : Prop where
  shortest : ∀ id sentence, sentences.shortestAt id = some sentence →
    grammar.Generates [.nonterminal id] sentence
  starting : ∀ id terminal sentence, sentences.startingAt (id, terminal) = some sentence →
    grammar.Generates [.nonterminal id] sentence ∧ sentence.head? = some terminal

namespace Sound

theorem generates_known (sound : Sound grammar sentences)
    (isKnown : sentences.known symbol = some candidate) : grammar.Generates [symbol] candidate := by
  cases symbol with
  | terminal id =>
      cases isKnown
      exact .refl _
  | nonterminal id => exact sound.shortest id candidate isKnown

theorem generates_knownAll (sound : Sound grammar sentences)
    (isKnown : sentences.knownAll symbols = some candidate) :
    grammar.Generates symbols candidate := by
  induction symbols generalizing candidate with
  | nil =>
      cases isKnown
      exact .refl _
  | cons symbol rest ih =>
      obtain ⟨sentence, tail, here, there, rfl⟩ := knownAll_cons_eq_some.mp isKnown
      rw [Grammar.Generates, word_append]
      exact (sound.generates_known here).append (ih there)

theorem generates_knownStart (sound : Sound grammar sentences)
    (isKnown : sentences.knownStart symbol terminal = some candidate) :
    grammar.Generates [symbol] candidate ∧ candidate.head? = some terminal := by
  cases symbol with
  | terminal id =>
      rw [knownStart] at isKnown
      split at isKnown
      · rename_i same
        cases isKnown
        subst same
        exact ⟨.refl _, rfl⟩
      · cases isKnown
  | nonterminal id => exact sound.starting id terminal candidate isKnown

theorem generates_of_offers (sound : Sound grammar sentences)
    (offers : sentences.Offers symbols terminal candidate) :
    grammar.Generates symbols candidate ∧ candidate.head? = some terminal := by
  induction symbols with
  | nil => cases offers
  | cons symbol rest ih =>
      rcases offers with ⟨sentence, tail, begins, isTail, rfl⟩ | ⟨empty, -, later⟩
      · obtain ⟨generates, first⟩ := sound.generates_knownStart begins
        refine ⟨?_, by rw [List.head?_append, first, Option.some_or]⟩
        rw [Grammar.Generates, word_append]
        exact Grammar.Derives.append generates (sound.generates_knownAll isTail)
      · obtain ⟨generates, first⟩ := ih later
        exact ⟨(sound.generates_known empty).append generates, first⟩

end Sound

/-! ## Lengths -/

/-- No sentence of a nonterminal that is known is longer than a limit. -/
def AtMost (sentences : Sentences) (limit : Nat) : Prop :=
  ∀ id sentence, sentences.shortestAt id = some sentence → sentence.length ≤ limit

theorem length_known_le {limit : Nat} (positive : 0 < limit) (atMost : sentences.AtMost limit)
    (isKnown : sentences.known symbol = some candidate) : candidate.length ≤ limit := by
  cases symbol with
  | terminal id =>
      cases isKnown
      exact positive
  | nonterminal id => exact atMost id candidate isKnown

theorem length_knownAll_le {limit : Nat} (positive : 0 < limit) (atMost : sentences.AtMost limit)
    (isKnown : sentences.knownAll symbols = some candidate) :
    candidate.length ≤ symbols.length * limit := by
  induction symbols generalizing candidate with
  | nil =>
      cases isKnown
      exact Nat.zero_le _
  | cons symbol rest ih =>
      obtain ⟨sentence, tail, here, there, rfl⟩ := knownAll_cons_eq_some.mp isKnown
      have short := length_known_le positive atMost here
      have shortTail := ih there
      rw [List.length_append, List.length_cons, Nat.succ_mul]
      omega

theorem length_le_of_offers {limit startLimit : Nat} (positive : 0 < limit)
    (startPositive : 0 < startLimit) (atMost : sentences.AtMost limit)
    (startsAtMost : ∀ slot sentence, sentences.startingAt slot = some sentence →
      sentence.length ≤ startLimit)
    (offers : sentences.Offers symbols terminal candidate) :
    candidate.length ≤ startLimit + symbols.length * limit := by
  induction symbols with
  | nil => cases offers
  | cons symbol rest ih =>
      rw [List.length_cons, Nat.succ_mul]
      rcases offers with ⟨sentence, tail, begins, isTail, rfl⟩ | ⟨-, -, later⟩
      · have shortTail := length_knownAll_le positive atMost isTail
        have short : sentence.length ≤ startLimit := by
          cases symbol with
          | terminal id =>
              rw [knownStart] at begins
              split at begins
              · cases begins
                exact startPositive
              · cases begins
          | nonterminal id => exact startsAtMost _ _ begins
        rw [List.length_append]
        omega
      · have shorter := ih later
        omega

theorem length_body_le {rule : Rule} (member : rule ∈ grammar.rules) :
    rule.body.length ≤ grammar.size := by
  rw [Arena.size, List.length_flatMap]
  exact List.single_le_sum (by simp) _ (List.mem_map_of_mem member)

/-! ## Closed tables -/

/-- The head of a rule has a sentence that is at most as long as that of the body. -/
def ClosedShortest (grammar : Grammar) (sentences : Sentences) : Prop :=
  ∀ rule ∈ grammar.rules, ∀ candidate, sentences.knownAll rule.body = some candidate →
    ∃ sentence, sentences.shortestAt rule.head = some sentence ∧
      sentence.length ≤ candidate.length

/-- The head of a rule has sentences that begin as those of the body do and are at most as long. -/
def ClosedStarting (grammar : Grammar) (sentences : Sentences) : Prop :=
  ∀ rule ∈ grammar.rules, ∀ terminal candidate,
    sentences.Offers rule.body terminal candidate →
      ∃ sentence, sentences.startingAt (rule.head, terminal) = some sentence ∧
        sentence.length ≤ candidate.length

/-- A string has a sentence that is at most as long as the frontier of any forest for it. -/
theorem ClosedShortest.exists_knownAll_le (closed : ClosedShortest grammar sentences)
    {forest : Forest} (isOf : forest.IsOf grammar) :
    ∃ sentence, sentences.knownAll forest.roots = some sentence ∧
      sentence.length ≤ forest.frontier.length := by
  induction isOf with
  | nil => exact ⟨[], rfl, le_rfl⟩
  | leaf terminal _ rest =>
      obtain ⟨tail, isKnown, short⟩ := rest
      refine ⟨[terminal] ++ tail, knownAll_cons_eq_some.mpr ⟨_, _, rfl, isKnown, rfl⟩, ?_⟩
      simpa [Forest.frontier] using short
  | branch found _ _ inside rest =>
      obtain ⟨candidate, bodyKnown, shortBody⟩ := inside
      obtain ⟨tail, isKnown, short⟩ := rest
      obtain ⟨sentence, headKnown, shortHead⟩ :=
        closed _ (List.mem_of_getElem? found) candidate bodyKnown
      refine ⟨sentence ++ tail,
        knownAll_cons_eq_some.mpr ⟨_, _, headKnown, isKnown, rfl⟩, ?_⟩
      rw [List.length_append, Forest.frontier, List.length_append]
      exact Nat.add_le_add (shortHead.trans shortBody) short

/-- A string has a sentence that begins with a terminal and is at most as long as the frontier of
any forest for it that begins so. -/
theorem ClosedStarting.exists_offers_le (starting : ClosedStarting grammar sentences)
    (shortest : ClosedShortest grammar sentences) {forest : Forest} (isOf : forest.IsOf grammar)
    (begins : forest.frontier.head? = some terminal) :
    ∃ candidate, sentences.Offers forest.roots terminal candidate ∧
      candidate.length ≤ forest.frontier.length := by
  induction isOf with
  | nil => cases begins
  | leaf first rest _ =>
      obtain rfl : first = terminal := Option.some.inj begins
      obtain ⟨tail, isKnown, short⟩ := shortest.exists_knownAll_le rest
      refine ⟨[first] ++ tail, .inl ⟨[first], tail, if_pos rfl, isKnown, rfl⟩, ?_⟩
      simpa [Forest.frontier] using short
  | @branch rule nonterminal below others found inside rest insideOffers restOffers =>
      obtain ⟨tail, isKnown, short⟩ := shortest.exists_knownAll_le rest
      have member := List.mem_of_getElem? found
      rw [Forest.frontier] at begins ⊢
      rw [List.length_append]
      cases isFrontier : below.frontier with
      | nil =>
          -- The tree is left empty, and the shortest sentence of its root is no longer than that.
          rw [isFrontier, List.nil_append] at begins
          obtain ⟨candidate, offers, shortCandidate⟩ := restOffers begins
          obtain ⟨body, bodyKnown, shortBody⟩ := shortest.exists_knownAll_le inside
          obtain ⟨sentence, headKnown, shortHead⟩ := shortest _ member body bodyKnown
          rw [isFrontier] at shortBody
          obtain rfl : sentence = [] := List.length_eq_zero_iff.mp (by simp_all)
          exact ⟨candidate,
            .inr ⟨headKnown, by rw [isKnown, Option.isSome_some], offers⟩, by simpa⟩
      | cons first others =>
          rw [isFrontier] at insideOffers begins
          obtain ⟨body, offers, shortBody⟩ := insideOffers begins
          obtain ⟨sentence, starts, shortHead⟩ := starting _ member terminal body offers
          refine ⟨sentence ++ tail, .inl ⟨sentence, tail, starts, isKnown, rfl⟩, ?_⟩
          rw [List.length_append]
          exact Nat.add_le_add (shortHead.trans shortBody) short

/-! ## Passes over the rules -/

/-- No shortest sentence is longer than this as long as no more nonterminals than given have one. -/
def shortestLimit (grammar : Grammar) (count : Nat) : Nat := (grammar.size + 1) ^ count

/-- No sentence by first terminal is longer than this as long as there are no more than given. -/
def startingLimit (grammar : Grammar) (count : Nat) : Nat :=
  count * (grammar.size * lengthBound grammar) + 1

/-- The nonterminals and terminals for which there can be a sentence. -/
def startingSlots (grammar : Grammar) : Finset (Nat × Nat) :=
  Finset.range grammar.nonterminalCount ×ˢ grammar.bodyTerminals.toFinset

theorem monotone_shortestLimit (grammar : Grammar) : Monotone (shortestLimit grammar) :=
  fun _ _ fewer => Nat.pow_le_pow_right (Nat.succ_pos _) fewer

theorem shortestLimit_pos (grammar : Grammar) (count : Nat) : 0 < shortestLimit grammar count :=
  Nat.pow_pos (Nat.succ_pos _)

theorem lengthBound_pos (grammar : Grammar) : 0 < lengthBound grammar :=
  shortestLimit_pos grammar grammar.nonterminalCount

theorem monotone_startingLimit (grammar : Grammar) : Monotone (startingLimit grammar) :=
  fun _ _ fewer => Nat.succ_le_succ (Nat.mul_le_mul_right _ fewer)

/-- Offering sentences that are short enough to a table lowers the room in it. -/
theorem lowers_of_offers {κ : Type} [DecidableEq κ] {slots : Finset κ} {limit : Nat → Nat}
    {view : Sentences → κ → Option (List Nat)} {good : Sentences → Prop}
    {step : Sentences → Except Fault Sentences} (monotone : Monotone limit)
    (visits : ∀ value, good value → Bounded slots limit (view value) →
      ∃ (next : Sentences) (entries : List (κ × List Nat)),
        step value = .ok next ∧ good next ∧ view next = entries.foldl offer (view value) ∧
        (view next = view value → next = value) ∧ ∀ entry ∈ entries, entry.1 ∈ slots ∧
          entry.2.length ≤ limit (filled slots (view value) + 1)) :
    Lowers (fun value => good value ∧ Bounded slots limit (view value))
      (fun value => room slots (limit slots.card) (view value)) step := by
  rintro value ⟨isGood, bounded⟩
  obtain ⟨next, entries, made, nextGood, offered, same, short⟩ := visits value isGood bounded
  obtain ⟨nextBounded, lower⟩ := bounded.foldl_offer monotone le_rfl short
  rw [← offered] at nextBounded lower
  refine ⟨next, made, ⟨nextGood, nextBounded⟩, ?_⟩
  rcases lower with unchanged | lower
  · exact .inl (same unchanged)
  · exact .inr lower

/-! ### Shortest sentences -/

theorem shortestAt_modify {shortest : List (Option (List Nat))}
    {starting : List (AscendingMap Nat (List Nat))} {head : Nat} (declared : head < shortest.length)
    (candidate : List Nat) :
    (⟨shortest.modify head fun known => some (shorter known candidate), starting⟩ :
      Sentences).shortestAt = offer (⟨shortest, starting⟩ : Sentences).shortestAt (head,
      candidate) := by
  funext id
  by_cases same : id = head
  · subst same
    rw [offer_self]
    simp [shortestAt, declared]
  · rw [offer_of_ne same]
    simp [shortestAt, Ne.symm same]

/-- A visit of a rule offers the sentence of its body, if it has one, to its head. -/
theorem Covers.exists_visitShortest_eq_ok (covers : Covers grammar sentences) {rule : Rule}
    (member : rule ∈ grammar.rules)
    (declared : ∀ symbol ∈ rule.body, grammar.Declares symbol) :
    ∃ next, sentences.visitShortest rule = .ok next ∧ next.starting = sentences.starting ∧
      Covers grammar next ∧ next.shortestAt =
        ((sentences.knownAll rule.body).toList.map fun candidate => (rule.head, candidate)).foldl
          offer sentences.shortestAt := by
  rw [visitShortest, covers.sequence_eq_ok declared, ok_bind]
  cases sentences.knownAll rule.body with
  | none => exact ⟨sentences, rfl, rfl, covers, rfl⟩
  | some candidate =>
      have inRange : rule.head < sentences.shortest.length := by
        rw [covers.shortest_length]
        exact grammar.head_lt rule member
      refine ⟨_, rfl, rfl, ⟨?_, covers.starting_length⟩,
        shortestAt_modify inRange candidate⟩
      rw [List.length_modify, covers.shortest_length]

/-- What the tables satisfy while the shortest sentences are being found. -/
structure IsGrowing (grammar : Grammar) (sentences : Sentences) : Prop
    extends Covers grammar sentences, Sound grammar sentences where
  starting_eq : sentences.starting = List.replicate grammar.nonterminalCount .empty

theorem ext_shortestAt {first second : Sentences} (firstCovers : Covers grammar first)
    (secondCovers : Covers grammar second) (starting : first.starting = second.starting)
    (same : first.shortestAt = second.shortestAt) : first = second := by
  obtain ⟨shortest, _⟩ := first
  obtain ⟨others, _⟩ := second
  obtain rfl := starting
  congr 1
  apply List.ext_getElem
  · rw [firstCovers.shortest_length, secondCovers.shortest_length]
  · intro id inFirst inSecond
    simpa [shortestAt, inFirst, inSecond] using congrFun same id

theorem startingAt_eq_none
    (empty : sentences.starting = List.replicate grammar.nonterminalCount .empty)
    (slot : Nat × Nat) : sentences.startingAt slot = none := by
  rw [startingAt, empty, Option.bind_eq_none_iff]
  intro map found
  rw [(List.mem_replicate.mp (List.mem_of_getElem? found)).2, AscendingMap.find?_empty]

theorem lowers_visitShortest {rule : Rule} (member : rule ∈ grammar.rules)
    (declared : ∀ symbol ∈ rule.body, grammar.Declares symbol) :
    Lowers (fun sentences => IsGrowing grammar sentences ∧
        Bounded (Finset.range grammar.nonterminalCount)
          (shortestLimit grammar) sentences.shortestAt)
      (fun sentences => room (Finset.range grammar.nonterminalCount)
        (shortestLimit grammar (Finset.range grammar.nonterminalCount).card) sentences.shortestAt)
      (visitShortest · rule) := by
  refine lowers_of_offers (monotone_shortestLimit grammar) fun sentences growing bounded => ?_
  obtain ⟨next, made, starting, covers, offered⟩ :=
    growing.toCovers.exists_visitShortest_eq_ok member declared
  have empty := starting.trans growing.starting_eq
  refine ⟨next, _, made,
    ⟨covers, ⟨fun id sentence held => ?_, fun id terminal sentence held => ?_⟩, empty⟩,
    offered, ext_shortestAt covers growing.toCovers starting, ?_⟩
  · rw [offered] at held
    rcases of_foldl_offer_eq_some held with before | new
    · exact growing.shortest id sentence before
    · obtain ⟨candidate, isKnown, isEntry⟩ := List.mem_map.mp new
      cases isEntry
      exact (Grammar.Derives.of_rule member).trans
        (growing.generates_knownAll (Option.mem_toList.mp isKnown))
  · rw [startingAt_eq_none empty] at held
    cases held
  · intro entry new
    obtain ⟨candidate, isKnown, rfl⟩ := List.mem_map.mp new
    refine ⟨Finset.mem_range.mpr (grammar.head_lt rule member), ?_⟩
    have short := length_knownAll_le (shortestLimit_pos grammar _) bounded.length_le
      (Option.mem_toList.mp isKnown)
    refine short.trans ?_
    rw [shortestLimit, shortestLimit, Nat.pow_succ', Nat.succ_mul]
    exact Nat.le_add_right_of_le (Nat.mul_le_mul_right _ (length_body_le member))

/-- The shortest sentences are found, with nothing in the other table yet. -/
theorem exists_comesToRest_visitShortest (bodies : grammar.BodiesDeclared) :
    ∃ sentences passes, ComesToRest (grammar.rules.foldlM visitShortest)
        ⟨List.replicate grammar.nonterminalCount none,
          List.replicate grammar.nonterminalCount .empty⟩ sentences passes ∧
      passes ≤ shortestPassBound grammar ∧ IsGrowing grammar sentences ∧
      sentences.AtMost (lengthBound grammar) ∧ ClosedShortest grammar sentences := by
  have each : ∀ rule ∈ grammar.rules, Lowers _ _ (visitShortest · rule) :=
    fun rule member => lowers_visitShortest member (bodies rule member)
  let none : Sentences :=
    ⟨List.replicate grammar.nonterminalCount none,
      List.replicate grammar.nonterminalCount .empty⟩
  have nothing (id : Nat) : none.shortestAt id = .none := by
    simp only [shortestAt, none, List.getElem?_replicate]
    split <;> rfl
  have growing : IsGrowing grammar none := by
    refine ⟨⟨List.length_replicate, List.length_replicate⟩,
      ⟨fun id sentence held => ?_, ?_⟩, rfl⟩
    · rw [nothing] at held
      cases held
    · intro id terminal sentence held
      rw [@startingAt_eq_none grammar none rfl] at held
      cases held
  have bounded : Bounded (Finset.range grammar.nonterminalCount) (shortestLimit grammar)
      none.shortestAt := by
    constructor <;>
    · intro id sentence held
      rw [nothing] at held
      cases held
  have enough : room (Finset.range grammar.nonterminalCount)
      (shortestLimit grammar (Finset.range grammar.nonterminalCount).card) none.shortestAt <
      shortestPassBound grammar := by
    rw [room, Finset.sum_const_nat fun id _ => congrArg _ (nothing id), Finset.card_range]
    exact Nat.lt_succ_self _
  obtain ⟨sentences, passes, rests, ⟨finalGrowing, finalBounded⟩, few⟩ :=
    (Lowers.foldlM each).exists_comesToRest ⟨growing, bounded⟩
  refine ⟨sentences, passes, rests, few.trans enough, finalGrowing,
    fun id sentence held => ?_, ?_⟩
  · refine (finalBounded.length_le id sentence held).trans ?_
    refine monotone_shortestLimit grammar ((filled_le_card _ _).trans ?_)
    rw [Finset.card_range]
  · intro rule member candidate isKnown
    have unchanged :=
      Lowers.eq_of_foldlM_eq each ⟨finalGrowing, finalBounded⟩ rests.fixed rule member
    obtain ⟨next, made, -, -, offered⟩ :=
      finalGrowing.toCovers.exists_visitShortest_eq_ok member (bodies rule member)
    obtain rfl : sentences = next := Except.ok.inj (unchanged.symm.trans made)
    rw [offered]
    exact exists_foldl_offer_le (List.mem_map.mpr ⟨candidate, by simp [isKnown], rfl⟩)

/-! ### Sentences by first terminal -/

theorem startingAt_modify_alter {shortest : List (Option (List Nat))}
    {starting : List (AscendingMap Nat (List Nat))} {head : Nat} (declared : head < starting.length)
    (terminal : Nat) (candidate : List Nat) :
    (⟨shortest, starting.modify head fun starts =>
        starts.alter terminal fun sentence => shorter sentence candidate⟩ :
          Sentences).startingAt =
      offer (⟨shortest, starting⟩ : Sentences).startingAt ((head, terminal), candidate) := by
  funext slot
  obtain ⟨id, first⟩ := slot
  by_cases same : (id, first) = (head, terminal)
  · obtain ⟨rfl, rfl⟩ := Prod.mk.inj same
    rw [offer_self]
    simp [startingAt, declared, AscendingMap.find?_alter]
  · rw [offer_of_ne same]
    by_cases sameHead : head = id
    · subst sameHead
      have other : first ≠ terminal := fun sameTerminal => same (by rw [sameTerminal])
      simp [startingAt, declared, AscendingMap.find?_alter, other]
    · simp [startingAt, sameHead]

theorem startingAt_modify {shortest : List (Option (List Nat))}
    {starting : List (AscendingMap Nat (List Nat))} {head : Nat} (declared : head < starting.length)
    (candidates : List (Nat × List Nat)) :
    (⟨shortest, starting.modify head fun known => candidates.foldl (fun starts entry =>
        starts.alter entry.1 fun sentence => shorter sentence entry.2) known⟩ :
      Sentences).startingAt =
      (candidates.map fun entry => ((head, entry.1), entry.2)).foldl offer
        (⟨shortest, starting⟩ : Sentences).startingAt := by
  induction candidates generalizing starting with
  | nil => exact congrArg (fun same => startingAt ⟨shortest, same⟩) (List.modify_id ..)
  | cons entry candidates ih =>
      rw [List.map_cons, List.foldl_cons, ← startingAt_modify_alter declared, ← ih (by simpa),
        List.modify_modify_eq]
      rfl

/-- A visit of a rule offers the sentences of its body to its head. -/
theorem Covers.exists_visitStarting_eq_ok (covers : Covers grammar sentences) {rule : Rule}
    (member : rule ∈ grammar.rules)
    (declared : ∀ symbol ∈ rule.body, grammar.Declares symbol) :
    ∃ next entries, sentences.visitStarting rule = .ok next ∧
      next.shortest = sentences.shortest ∧ Covers grammar next ∧
      next.startingAt = List.foldl offer sentences.startingAt entries ∧
      ∀ entry, entry ∈ entries ↔
        entry.1.1 = rule.head ∧ sentences.Offers rule.body entry.1.2 entry.2 := by
  obtain ⟨candidates, found, mem_candidates⟩ := covers.exists_bodyStarts_eq_ok declared
  have inRange : rule.head < sentences.starting.length := by
    rw [covers.starting_length]
    exact grammar.head_lt rule member
  rw [visitStarting, found, ok_bind]
  refine ⟨_, _, rfl, rfl, ⟨covers.shortest_length, ?_⟩,
    startingAt_modify inRange candidates, ?_⟩
  · rw [List.length_modify, covers.starting_length]
  · rintro ⟨⟨head, terminal⟩, candidate⟩
    rw [List.mem_map, ← mem_candidates]
    constructor
    · rintro ⟨entry, isCandidate, same⟩
      cases same
      exact ⟨rfl, isCandidate⟩
    · rintro ⟨rfl, isCandidate⟩
      exact ⟨_, isCandidate, rfl⟩

/-- What the tables satisfy while the sentences by first terminal are being found. -/
structure HasShortest (grammar : Grammar) (sentences : Sentences) : Prop
    extends Covers grammar sentences, Sound grammar sentences where
  atMost : sentences.AtMost (lengthBound grammar)
  closed : ClosedShortest grammar sentences

theorem ext_startingAt {first second : Sentences} (firstCovers : Covers grammar first)
    (secondCovers : Covers grammar second) (shortest : first.shortest = second.shortest)
    (same : first.startingAt = second.startingAt) : first = second := by
  obtain ⟨_, starting⟩ := first
  obtain ⟨_, others⟩ := second
  obtain rfl := shortest
  congr 1
  apply List.ext_getElem
  · rw [firstCovers.starting_length, secondCovers.starting_length]
  · intro id inFirst inSecond
    refine AscendingMap.ext_find? fun terminal => ?_
    simpa [startingAt, inFirst, inSecond] using congrFun same (id, terminal)

theorem shortestAt_congr {first second : Sentences} (same : first.shortest = second.shortest) :
    first.shortestAt = second.shortestAt := by
  funext id
  rw [shortestAt, shortestAt, same]

theorem known_congr {first second : Sentences} (same : first.shortest = second.shortest) :
    first.known = second.known := by
  funext symbol
  cases symbol with
  | terminal id => rfl
  | nonterminal id => exact congrFun (shortestAt_congr same) id

theorem knownAll_congr {first second : Sentences} (same : first.shortest = second.shortest) :
    first.knownAll = second.knownAll := by
  funext symbols
  induction symbols with
  | nil => rfl
  | cons symbol rest ih => rw [knownAll, knownAll, known_congr same, ih]

/-- A derived string begins with a terminal of some body. -/
theorem mem_bodyTerminals_of_generates {id : Nat}
    (generates : grammar.Generates [.nonterminal id] candidate)
    (begins : candidate.head? = some terminal) : terminal ∈ grammar.bodyTerminals := by
  have member : Symbol.terminal terminal ∈ word candidate :=
    terminal_mem_word.mpr (List.mem_of_mem_head? begins)
  rcases generates.mem member with impossible | inBody
  · simp at impossible
  · exact Grammar.mem_bodyTerminals.mpr inBody

theorem lowers_visitStarting {rule : Rule} (member : rule ∈ grammar.rules)
    (declared : ∀ symbol ∈ rule.body, grammar.Declares symbol) :
    Lowers (fun sentences => HasShortest grammar sentences ∧
        Bounded (startingSlots grammar) (startingLimit grammar) sentences.startingAt)
      (fun sentences => room (startingSlots grammar)
        (startingLimit grammar (startingSlots grammar).card) sentences.startingAt)
      (visitStarting · rule) := by
  refine lowers_of_offers (monotone_startingLimit grammar) fun sentences complete bounded => ?_
  obtain ⟨next, entries, made, shortest, covers, offered, mem_entries⟩ :=
    complete.toCovers.exists_visitStarting_eq_ok member declared
  have justified {candidate : List Nat} {terminal : Nat}
      (offers : sentences.Offers rule.body terminal candidate) :
      grammar.Generates [.nonterminal rule.head] candidate ∧ candidate.head? = some terminal := by
    obtain ⟨generates, begins⟩ := complete.generates_of_offers offers
    exact ⟨(Grammar.Derives.of_rule member).trans generates, begins⟩
  refine ⟨next, entries, made,
    ⟨covers, ⟨?_, fun id terminal sentence held => ?_⟩, ?_, ?_⟩, offered,
    ext_startingAt covers complete.toCovers shortest, ?_⟩
  · rw [shortestAt_congr shortest]
    exact complete.shortest
  · rw [offered] at held
    rcases of_foldl_offer_eq_some held with before | new
    · exact complete.starting id terminal sentence before
    · obtain ⟨isHead, offers⟩ := (mem_entries _).mp new
      rw [show id = rule.head from isHead]
      exact justified offers
  · rw [AtMost, shortestAt_congr shortest]
    exact complete.atMost
  · rw [ClosedShortest, shortestAt_congr shortest, knownAll_congr shortest]
    exact complete.closed
  · rintro ⟨⟨id, terminal⟩, candidate⟩ new
    obtain ⟨isHead, offers⟩ := (mem_entries _).mp new
    obtain ⟨generates, begins⟩ := justified offers
    constructor
    · rw [startingSlots, Finset.mem_product, Finset.mem_range, List.mem_toFinset]
      refine ⟨?_, mem_bodyTerminals_of_generates generates begins⟩
      rw [isHead]
      exact grammar.head_lt rule member
    · have short := length_le_of_offers (lengthBound_pos grammar) (Nat.succ_pos _)
        complete.atMost bounded.length_le offers
      have shortBody := Nat.mul_le_mul_right (lengthBound grammar) (length_body_le member)
      refine short.trans ?_
      rw [startingLimit, Nat.succ_mul]
      omega

/-! ## The tables as a whole -/

/-- The tables hold what is derived and nothing else, and everything in them is as short as can
be. -/
structure Exact (grammar : Grammar) (sentences : Sentences) : Prop
    extends Covers grammar sentences, Sound grammar sentences where
  exists_knownAll : ∀ symbols terminals, grammar.Generates symbols terminals →
    ∃ sentence, sentences.knownAll symbols = some sentence ∧
      sentence.length ≤ terminals.length
  exists_knownStart : ∀ symbol terminal rest, grammar.Generates [symbol] (terminal :: rest) →
    ∃ sentence, sentences.knownStart symbol terminal = some sentence ∧
      sentence.length ≤ (terminal :: rest).length

theorem HasShortest.exact (complete : HasShortest grammar sentences)
    (starting : ClosedStarting grammar sentences) : Exact grammar sentences where
  toCovers := complete.toCovers
  toSound := complete.toSound
  exists_knownAll symbols terminals generates := by
    obtain ⟨forest, isOf, rfl, rfl⟩ := Forest.exists_of_generates generates
    exact complete.closed.exists_knownAll_le isOf
  exists_knownStart symbol terminal rest generates := by
    obtain ⟨forest, isOf, isRoot, isFrontier⟩ := Forest.exists_of_generates generates
    obtain ⟨candidate, offers, short⟩ := starting.exists_offers_le complete.closed isOf
      (by rw [isFrontier, List.head?_cons])
    rw [isRoot] at offers
    rw [isFrontier] at short
    rcases offers with ⟨sentence, tail, begins, isTail, rfl⟩ | ⟨-, -, impossible⟩
    · exact ⟨sentence, begins, (by simp : sentence.length ≤ _).trans short⟩
    · cases impossible

/-- First the shortest sentences come to rest and then those by first terminal, and what they end
with is exact. -/
theorem exists_comesToRest (bodies : grammar.BodiesDeclared) :
    ∃ shortest sentences shortestPasses startingPasses,
      ComesToRest (grammar.rules.foldlM visitShortest)
        ⟨List.replicate grammar.nonterminalCount none,
          List.replicate grammar.nonterminalCount .empty⟩ shortest shortestPasses ∧
      shortestPasses ≤ shortestPassBound grammar ∧
      ComesToRest (grammar.rules.foldlM visitStarting) shortest sentences startingPasses ∧
      startingPasses ≤ startingPassBound grammar ∧ Exact grammar sentences := by
  obtain ⟨shortest, shortestPasses, shortestRests, shortestFew, growing, atMost, closed⟩ :=
    exists_comesToRest_visitShortest bodies
  have each : ∀ rule ∈ grammar.rules, Lowers _ _ (visitStarting · rule) :=
    fun rule member => lowers_visitStarting member (bodies rule member)
  have nothing := startingAt_eq_none growing.starting_eq
  have complete : HasShortest grammar shortest :=
    ⟨growing.toCovers, growing.toSound, atMost, closed⟩
  have bounded : Bounded (startingSlots grammar) (startingLimit grammar) shortest.startingAt := by
    constructor <;>
    · intro slot sentence held
      rw [nothing] at held
      cases held
  have few : (startingSlots grammar).card ≤ grammar.nonterminalCount * grammar.size := by
    rw [startingSlots, Finset.card_product, Finset.card_range]
    exact Nat.mul_le_mul_left _ ((List.toFinset_card_le _).trans grammar.length_bodyTerminals_le)
  have enough : room (startingSlots grammar) (startingLimit grammar (startingSlots grammar).card)
      shortest.startingAt < startingPassBound grammar := by
    rw [room, Finset.sum_const_nat fun slot _ => congrArg _ (nothing slot), startingPassBound,
      Nat.lt_succ_iff, Nat.mul_assoc _ _ (lengthBound grammar)]
    exact Nat.mul_le_mul few (Nat.succ_le_succ (monotone_startingLimit grammar few))
  obtain ⟨sentences, startingPasses, rests, ⟨finalComplete, finalBounded⟩, few⟩ :=
    (Lowers.foldlM each).exists_comesToRest ⟨complete, bounded⟩
  refine ⟨shortest, sentences, shortestPasses, startingPasses, shortestRests, shortestFew, rests,
    few.trans enough, finalComplete.exact fun rule member terminal candidate offers => ?_⟩
  have unchanged :=
    Lowers.eq_of_foldlM_eq each ⟨finalComplete, finalBounded⟩ rests.fixed rule member
  obtain ⟨next, entries, made, -, -, offered, mem_entries⟩ :=
    finalComplete.toCovers.exists_visitStarting_eq_ok member (bodies rule member)
  obtain rfl : sentences = next := Except.ok.inj (unchanged.symm.trans made)
  have isEntry : ((rule.head, terminal), candidate) ∈ entries :=
    (mem_entries _).mpr ⟨rfl, offers⟩
  rw [offered]
  exact exists_foldl_offer_le isEntry

/-- What the passes come to rest with is what is computed. -/
theorem compute_eq_ok {shortest : Sentences} {shortestPasses startingPasses : Nat}
    (shortestRests : ComesToRest (grammar.rules.foldlM visitShortest)
      ⟨List.replicate grammar.nonterminalCount none,
        List.replicate grammar.nonterminalCount .empty⟩
      shortest shortestPasses)
    (shortestFew : shortestPasses ≤ shortestPassBound grammar)
    (startingRests : ComesToRest (grammar.rules.foldlM visitStarting) shortest
      sentences startingPasses)
    (startingFew : startingPasses ≤ startingPassBound grammar) :
    compute grammar = .ok sentences := by
  simp only [compute, shortestRests.stabilize_eq_ok shortestFew, ok_bind,
    startingRests.stabilize_eq_ok startingFew, pure_eq_ok]

/-- The short sentences of a grammar with declared bodies are found, and they are exact. -/
theorem exists_compute_eq_ok (bodies : grammar.BodiesDeclared) :
    ∃ sentences, compute grammar = .ok sentences ∧ Exact grammar sentences := by
  obtain ⟨shortest, sentences, _, _, shortestRests, shortestFew, startingRests,
    startingFew, exact⟩ :=
    exists_comesToRest bodies
  exact ⟨sentences, compute_eq_ok shortestRests shortestFew startingRests startingFew, exact⟩

namespace Exact

theorem exists_known_iff (exact : Exact grammar sentences) {id : Nat} :
    (∃ sentence, sentences.known (.nonterminal id) = some sentence) ↔
      grammar.Productive id := by
  constructor
  · rintro ⟨sentence, isKnown⟩
    exact ⟨sentence, exact.generates_known isKnown⟩
  · rintro ⟨terminals, generates⟩
    obtain ⟨_, isKnown, _⟩ := exact.exists_knownAll _ _ generates
    obtain ⟨sentence, _, symbolKnown, -, -⟩ := knownAll_cons_eq_some.mp isKnown
    exact ⟨sentence, symbolKnown⟩

theorem known_eq_nil_iff (exact : Exact grammar sentences) :
    sentences.known symbol = some [] ↔ grammar.Derives [symbol] [] := by
  constructor
  · exact exact.generates_known
  · intro vanishes
    obtain ⟨whole, isKnown, short⟩ := exact.exists_knownAll [symbol] [] vanishes
    obtain ⟨sentence, tail, symbolKnown, -, rfl⟩ := knownAll_cons_eq_some.mp isKnown
    obtain rfl : sentence = [] := by simp_all
    exact symbolKnown

theorem exists_knownStart_iff (exact : Exact grammar sentences) :
    (∃ sentence, sentences.knownStart symbol terminal = some sentence) ↔
      ∃ rest, grammar.Generates [symbol] (terminal :: rest) := by
  constructor
  · rintro ⟨sentence, isKnown⟩
    obtain ⟨generates, begins⟩ := exact.generates_knownStart isKnown
    obtain ⟨rest, rfl⟩ := List.head?_eq_some_iff.mp begins
    exact ⟨rest, generates⟩
  · rintro ⟨rest, generates⟩
    obtain ⟨sentence, isKnown, _⟩ := exact.exists_knownStart _ _ _ generates
    exact ⟨sentence, isKnown⟩

end Exact

end DeterministicParsing.Sentences
