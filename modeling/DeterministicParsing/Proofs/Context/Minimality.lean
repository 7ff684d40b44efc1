/-
# Contexts are found along shortest chains

The search for a context goes up breadth first. So the climbs that wait are ordered by the lengths
of their chains, and no two of these lengths differ by more than one. Each climb that waits has a
shortest chain among those that lead to where it is and owe what it owes. This carries the search: a
chain that has not been followed to its top has to pass one of the climbs that wait, and is no
shorter than it, so that what is found above the first of them is found along a shortest chain
again. And the first climb to arrive has a chain with no more rules than any chain that suits.
-/
import DeterministicParsing.Proofs.Context
import DeterministicParsing.Proofs.Sentences.Exactness

namespace DeterministicParsing

namespace Context

variable {grammar : Grammar} {sentences : Sentences} {nonterminal start top : Nat}
  {wanted : Option Nat} {owed : Bool} {climb next : Climb} {seen : List (Nat × Bool)}
  {queue : List Climb} {uses : List Occurrence} {chain : List (Nat × Nat)}
  {before after : List Symbol}

/-! ## The lengths of chains -/

namespace Climb

/-- No chain is shorter that leads to where the climb is and owes what it owes. -/
def IsShortest (grammar : Grammar) (nonterminal : Nat) (wanted : Option Nat)
    (climb : Climb) : Prop :=
  ∀ chain before after, grammar.Leads nonterminal climb.nonterminal chain before after →
    Owes grammar wanted after climb.owed → climb.chain.length ≤ chain.length

theorem IsShortest.length_le (shortest : climb.IsShortest grammar nonterminal wanted)
    (leads : grammar.Leads nonterminal top chain before after)
    (owes : Owes grammar wanted after owed) (sameKey : climb.key = (top, owed)) :
    climb.chain.length ≤ chain.length := by
  obtain ⟨rfl, rfl⟩ := Prod.mk.inj sameKey
  exact shortest chain before after leads owes

theorem length_chain_of_via_eq_ok {occurrence : Occurrence}
    (reached : climb.via grammar sentences wanted occurrence = .ok (some next)) :
    next.chain.length = climb.chain.length + 1 := by
  obtain ⟨rule, _, reached⟩ := exists_of_bind_eq_ok reached
  obtain ⟨found, _, reached⟩ := exists_of_bind_eq_ok reached
  obtain ⟨owed, _, rfl⟩ := Option.map_eq_some_iff.mp (Except.ok.inj reached)
  exact List.length_cons

theorem length_chain_of_mem {found : List (Option Climb)}
    (mapped : uses.mapM (climb.via grammar sentences wanted) = .ok found)
    (member : next ∈ found.filterMap id) : next.chain.length = climb.chain.length + 1 := by
  obtain ⟨_, inFound, rfl⟩ := List.mem_filterMap.mp member
  obtain ⟨_, _, reached⟩ := exists_of_mem_right (forall₂_of_mapM_eq_ok mapped) inFound
  exact length_chain_of_via_eq_ok reached

end Climb

/-! ## Breadth first -/

/-- The climbs with this key have been followed: they have not arrived, and what is right above them
has been seen. -/
structure IsFollowed (grammar : Grammar) (start : Nat) (wanted : Option Nat)
    (seen : List (Nat × Bool)) (key : Nat × Bool) : Prop where
  underway : ¬ Arrives start wanted key
  above : ∀ upper, Ascends grammar wanted key upper → upper ∈ seen

/-- What a search knows of lengths when it goes breadth first from a nonterminal. -/
structure IsBreadthFirst (grammar : Grammar) (nonterminal start : Nat) (wanted : Option Nat)
    (seen : List (Nat × Bool)) (queue : List Climb) : Prop
    extends IsSearch grammar nonterminal start wanted seen queue where
  /-- The nonterminal itself has been seen. -/
  begun : (nonterminal, wanted.isSome) ∈ seen
  /-- Chains do not get shorter from one climb in the queue to the next. -/
  ordered : queue.Pairwise fun first second => first.chain.length ≤ second.chain.length
  /-- The lengths of two chains in the queue differ by one rule at most. -/
  level : ∀ first ∈ queue, ∀ second ∈ queue, second.chain.length ≤ first.chain.length + 1
  /-- Every climb in the queue has a shortest chain. -/
  shortest : ∀ climb ∈ queue, climb.IsShortest grammar nonterminal wanted

/-- A search begins with the climb that has not left the nonterminal. -/
theorem isBreadthFirst_singleton (declared : nonterminal < grammar.nonterminalCount)
    (start : Nat) (wanted : Option Nat) :
    IsBreadthFirst grammar nonterminal start wanted [(nonterminal, wanted.isSome)]
      [⟨nonterminal, wanted.isSome, []⟩] where
  toIsSearch := isSearch_singleton declared start wanted
  begun := List.mem_singleton_self _
  ordered := List.pairwise_singleton _ _
  level := by simp
  shortest := by simp [Climb.IsShortest]

namespace IsBreadthFirst

theorem length_le (search : IsBreadthFirst grammar nonterminal start wanted seen (climb :: queue))
    {waiting : Climb} (member : waiting ∈ climb :: queue) :
    climb.chain.length ≤ waiting.chain.length := by
  rcases List.mem_cons.mp member with rfl | later
  · exact le_rfl
  · exact List.rel_of_pairwise_cons search.ordered later

theorem exists_le_or_isFollowed_of_mem
    (search : IsBreadthFirst grammar nonterminal start wanted seen queue)
    (leads : grammar.Leads nonterminal top chain before after)
    (owes : Owes grammar wanted after owed) (reached : (top, owed) ∈ seen) :
    (∃ waiting ∈ queue, waiting.chain.length ≤ chain.length) ∨
      IsFollowed grammar start wanted seen (top, owed) := by
  rcases search.followed _ reached with ⟨waiting, member, isTop⟩ | ⟨underway, above⟩
  · exact .inl ⟨waiting, member, (search.shortest waiting member).length_le leads owes isTop⟩
  · exact .inr ⟨underway, above⟩

/-- A chain passes a climb that waits, unless it has been followed to its top and beyond. -/
theorem exists_le_or_isFollowed
    (search : IsBreadthFirst grammar nonterminal start wanted seen queue)
    (leads : grammar.Leads nonterminal top chain before after)
    (owes : Owes grammar wanted after owed) :
    (∃ waiting ∈ queue, waiting.chain.length ≤ chain.length) ∨
      IsFollowed grammar start wanted seen (top, owed) := by
  induction leads generalizing owed with
  | here =>
      exact search.exists_le_or_isFollowed_of_mem .here owes (owes_nil.mp owes ▸ search.begun)
  | @through id place below rule chain before after found occurs rest ih =>
      obtain ⟨earlier, owesEarlier, passes⟩ := owes_append.mp owes
      rcases ih owesEarlier with ⟨waiting, member, short⟩ | isFollowed
      · exact .inl ⟨waiting, member, short.trans (Nat.le_succ _)⟩
      · have ascends : Ascends grammar wanted (below, earlier) (rule.head, owed) :=
          ⟨id, rule, place, found, occurs, rfl, passes⟩
        exact search.exists_le_or_isFollowed_of_mem (.through found occurs rest) owes
          (isFollowed.above _ ascends)

/-- A chain that leads to what has not been seen is longer than that of the first climb that
waits. -/
theorem length_lt_of_not_mem
    (search : IsBreadthFirst grammar nonterminal start wanted seen (climb :: queue))
    (leads : grammar.Leads nonterminal top chain before after)
    (owes : Owes grammar wanted after owed) (unseen : (top, owed) ∉ seen) :
    climb.chain.length < chain.length := by
  cases leads with
  | here => exact absurd (owes_nil.mp owes ▸ search.begun) unseen
  | through found occurs rest =>
      obtain ⟨earlier, owesEarlier, passes⟩ := owes_append.mp owes
      rcases search.exists_le_or_isFollowed rest owesEarlier with
        ⟨waiting, member, short⟩ | isFollowed
      · exact Nat.lt_succ_of_le ((search.length_le member).trans short)
      · exact absurd (isFollowed.above _ ⟨_, _, _, found, occurs, rfl, passes⟩) unseen

/-- Following the first climb of the queue. -/
theorem exists_step
    (search : IsBreadthFirst grammar nonterminal start wanted seen (climb :: queue))
    (exact : Sentences.Exact grammar sentences) (bodies : grammar.BodiesDeclared)
    (isUse : ∀ occurrence, occurrence ∈ uses ↔ occurrence.IsOf grammar)
    (underway : ¬ Arrives start wanted climb.key) :
    ∃ found, (uses.filter (·.nonterminal == climb.nonterminal)).mapM
        (climb.via grammar sentences wanted) = .ok found ∧
      IsBreadthFirst grammar nonterminal start wanted
        ((Climb.fresh seen (found.filterMap id)).map Climb.key ++ seen)
        (queue ++ Climb.fresh seen (found.filterMap id)) := by
  obtain ⟨found, mapped, next⟩ := search.toIsSearch.exists_step exact bodies isUse underway
  have longer : ∀ next ∈ Climb.fresh seen (found.filterMap id),
      next.chain.length = climb.chain.length + 1 :=
    fun next isFresh => Climb.length_chain_of_mem mapped (Climb.mem_of_mem_fresh isFresh).1
  have atLeast : ∀ waiting ∈ queue, climb.chain.length ≤ waiting.chain.length :=
    fun waiting member => search.length_le (.tail _ member)
  have atMost : ∀ waiting ∈ queue, waiting.chain.length ≤ climb.chain.length + 1 :=
    fun waiting member => search.level climb (.head _) waiting (.tail _ member)
  refine ⟨found, mapped, next, List.mem_append_right _ search.begun, ?_, ?_, ?_⟩
  · refine List.pairwise_append.mpr ⟨search.ordered.of_cons, ?_, ?_⟩
    · exact List.pairwise_of_forall_mem_list fun first isFirst second isSecond =>
        (longer first isFirst).trans_le (longer second isSecond).ge
    · exact fun first isFirst second isSecond =>
        (atMost first isFirst).trans_eq (longer second isSecond).symm
  · have bounded : ∀ waiting ∈ queue ++ Climb.fresh seen (found.filterMap id),
        climb.chain.length ≤ waiting.chain.length ∧
          waiting.chain.length ≤ climb.chain.length + 1 := by
      intro waiting member
      rcases List.mem_append.mp member with inQueue | isFresh
      · exact ⟨atLeast waiting inQueue, atMost waiting inQueue⟩
      · rw [longer waiting isFresh]
        exact ⟨Nat.le_succ _, le_rfl⟩
    intro first isFirst second isSecond
    exact (bounded second isSecond).2.trans (Nat.succ_le_succ (bounded first isFirst).1)
  · intro waiting member
    rcases List.mem_append.mp member with inQueue | isFresh
    · exact search.shortest waiting (.tail _ inQueue)
    · -- What is found only now was unseen, so that no chain to it was shorter than this one is.
      intro chain before after leads owes
      rw [longer waiting isFresh]
      exact search.length_lt_of_not_mem leads owes (Climb.mem_of_mem_fresh isFresh).2

/-- The first climb to arrive has a shortest chain among all that arrive. -/
theorem length_le_of_climbUp_eq_ok
    (search : IsBreadthFirst grammar nonterminal start wanted seen queue)
    (exact : Sentences.Exact grammar sentences) (bodies : grammar.BodiesDeclared)
    (isUse : ∀ occurrence, occurrence ∈ uses ↔ occurrence.IsOf grammar) {bound : Nat}
    (climbed : climbUp grammar sentences uses start wanted bound seen queue = .ok (some climb))
    (leads : grammar.Leads nonterminal top chain before after)
    (owes : Owes grammar wanted after owed) (arrives : Arrives start wanted (top, owed)) :
    climb.chain.length ≤ chain.length := by
  induction bound generalizing seen queue with
  | zero => cases climbed
  | succ bound ih =>
      cases queue with
      | nil => cases climbed
      | cons first queue =>
          rw [climbUp] at climbed
          by_cases arrived : first.hasArrived start wanted = true
          · rw [if_pos arrived] at climbed
            cases climbed
            rcases search.exists_le_or_isFollowed leads owes with
              ⟨waiting, member, short⟩ | isFollowed
            · exact (search.length_le member).trans short
            · exact absurd arrives isFollowed.underway
          · rw [if_neg arrived] at climbed
            obtain ⟨found, mapped, next⟩ := search.exists_step exact bodies isUse
              fun arrives => arrived (hasArrived_iff.mpr arrives)
            simp only [mapped, ok_bind] at climbed
            exact ih next climbed

end IsBreadthFirst

/-- The chain that is found has no more rules than any that suits. -/
theorem length_le_of_chainTo_eq_ok (exact : Sentences.Exact grammar sentences)
    (bodies : grammar.BodiesDeclared) (starts : grammar.start = .ok start)
    (declared : nonterminal < grammar.nonterminalCount) {shortest : List (Nat × Nat)}
    (found : chainTo grammar sentences nonterminal wanted = .ok (some shortest))
    (leads : grammar.Leads nonterminal start chain before after)
    (suits : Suits grammar wanted after) :
    shortest.length ≤ chain.length := by
  obtain ⟨uses, listed, isUse⟩ := exists_occurrences_eq_ok bodies
  simp only [chainTo, starts, listed, ok_bind, if_pos declared] at found
  obtain ⟨result, climbed, isResult⟩ := exists_of_bind_eq_ok found
  obtain ⟨climb, rfl, rfl⟩ := Option.map_eq_some_iff.mp (Except.ok.inj isResult)
  obtain ⟨owed, owes, arrives⟩ := suits.exists_owes start
  exact (isBreadthFirst_singleton declared start wanted).length_le_of_climbUp_eq_ok exact bodies
    isUse climbed leads owes arrives

/-! ## What is answered -/

/-- A context lies along a chain from the start down to a nonterminal: it is what becomes of the
start when it is expanded along the chain, the hole is where the nonterminal is left, and what comes
after the hole suits the terminal that is wanted there. -/
def LiesAlong (grammar : Grammar) (start nonterminal : Nat) (wanted : Option Nat)
    (chain : List (Nat × Nat)) (context : Context) : Prop :=
  ∃ before after, grammar.Leads nonterminal start chain before after ∧
    Suits grammar wanted after ∧
    context = ⟨before ++ .nonterminal nonterminal :: after, before.length⟩

/-- A context lies along no longer a chain than any other for the same nonterminal and terminal. -/
def LiesAlongShortest (grammar : Grammar) (start nonterminal : Nat) (wanted : Option Nat)
    (context : Context) : Prop :=
  ∃ chain, context.LiesAlong grammar start nonterminal wanted chain ∧
    ∀ otherChain other, LiesAlong grammar start nonterminal wanted otherChain other →
      chain.length ≤ otherChain.length

theorem LiesAlong.reaches {context : Context}
    (lies : context.LiesAlong grammar start nonterminal wanted chain)
    (starts : grammar.start = .ok start) :
    grammar.Reaches nonterminal := by
  obtain ⟨before, after, leads, -⟩ := lies
  exact (Grammar.reaches_iff_exists_leads starts).mpr ⟨chain, before, after, leads⟩

/-- A search for a context answers with a context along a shortest chain, or with the reason why no
context lies along any chain. -/
theorem find_cases (exact : Sentences.Exact grammar sentences) (bodies : grammar.BodiesDeclared)
    (starts : grammar.start = .ok start) (declared : nonterminal < grammar.nonterminalCount)
    {name : String} (named : grammar.nonterminalName nonterminal = .ok name) (wanted : Option Nat) :
    (∃ context, find grammar sentences nonterminal wanted = .ok context ∧
        context.LiesAlongShortest grammar start nonterminal wanted) ∨
      ((∀ chain context, ¬ LiesAlong grammar start nonterminal wanted chain context) ∧
        ((¬ grammar.Reaches nonterminal ∧
            find grammar sentences nonterminal wanted = .error (.error (.unreachable name))) ∨
          ∃ terminal, wanted = some terminal ∧ grammar.Reaches nonterminal ∧
            ((∃ terminalName, grammar.terminalName terminal = .ok terminalName ∧
                find grammar sentences nonterminal wanted =
                  .error (.error (.noContext name terminalName))) ∨
              (¬ grammar.Declares (.terminal terminal) ∧
                find grammar sentences nonterminal wanted =
                  .error (.fault (.terminal terminal)))))) := by
  obtain ⟨found, searched, isChain, isNone⟩ :=
    exists_chainTo_eq_ok exact bodies starts declared wanted
  cases found with
  | some shortest =>
      obtain ⟨before, after, leads, suits⟩ := isChain shortest rfl
      refine .inl ⟨⟨before ++ .nonterminal nonterminal :: after, before.length⟩,
        by simp [find, searched, ofChain_eq_ok starts leads], shortest,
        ⟨before, after, leads, suits, rfl⟩, ?_⟩
      rintro otherChain other ⟨_, _, otherLeads, otherSuits, -⟩
      exact length_le_of_chainTo_eq_ok exact bodies starts declared searched otherLeads otherSuits
  | none =>
      refine .inr ⟨?_, find_of_forall_not_suits exact bodies starts declared named (isNone rfl)⟩
      rintro chain _ ⟨before, after, leads, suits, -⟩
      exact isNone rfl chain before after leads suits

/-- In a well-formed grammar a context of a nonterminal, with a terminal after the hole if one is
wanted, is found exactly if one lies along some chain, and then along a chain with as few rules as
possible. The nonterminal is reported to be unreachable exactly if no chain leads to it, and the
terminal never to come after it exactly if chains do and no context with the terminal lies along any
of them. -/
theorem contexts_lie_along_shortest_chains (grammar : Grammar) (wellFormed : grammar.WellFormed) :
    ∃ sentences start, Sentences.compute grammar = .ok sentences ∧ grammar.start = .ok start ∧
      ∀ nonterminal < grammar.nonterminalCount, ∀ wanted,
        (∀ context, find grammar sentences nonterminal wanted = .ok context →
          context.LiesAlongShortest grammar start nonterminal wanted) ∧
        ((∃ context, find grammar sentences nonterminal wanted = .ok context) ↔
          ∃ chain context, LiesAlong grammar start nonterminal wanted chain context) ∧
        ((∃ name, grammar.nonterminalName nonterminal = .ok name ∧
            find grammar sentences nonterminal wanted = .error (.error (.unreachable name))) ↔
          ¬ ∃ chain before after, grammar.Leads nonterminal start chain before after) ∧
        ((∃ name, ∃ terminal ∈ wanted, ∃ terminalName,
            grammar.nonterminalName nonterminal = .ok name ∧
            grammar.terminalName terminal = .ok terminalName ∧
            find grammar sentences nonterminal wanted =
              .error (.error (.noContext name terminalName))) ↔
          (∃ terminal ∈ wanted, grammar.Declares (.terminal terminal)) ∧
            (∃ chain before after, grammar.Leads nonterminal start chain before after) ∧
            ¬ ∃ chain context, LiesAlong grammar start nonterminal wanted chain context) := by
  obtain ⟨sentences, computed, exact⟩ := Sentences.exists_compute_eq_ok wellFormed.bodies
  obtain ⟨start, starts, -⟩ := wellFormed.start
  refine ⟨sentences, start, computed, starts, fun nonterminal declared wanted => ?_⟩
  have isDeclared : grammar.Declares (.nonterminal nonterminal) := declared
  obtain ⟨name, named⟩ := Grammar.exists_symbolName_eq_ok isDeclared
  change grammar.nonterminalName nonterminal = .ok name at named
  rw [← Grammar.reaches_iff_exists_leads starts]
  rcases find_cases exact wellFormed.bodies starts declared named wanted with
    ⟨context, answer, shortest⟩ | ⟨none, ⟨unreached, answer⟩ | ⟨terminal, rfl, reaches,
      ⟨terminalName, terminalNamed, answer⟩ | ⟨foreign, answer⟩⟩⟩
  · have ⟨chain, lies, _⟩ := shortest
    have some : ∃ chain context, LiesAlong grammar start nonterminal wanted chain context :=
      ⟨chain, context, lies⟩
    simp [answer, lies.reaches starts, shortest, some]
  · simp [answer, unreached, named, none]
  · have terminalDeclared : grammar.Declares (.terminal terminal) :=
      (List.getElem?_eq_some_iff.mp (Arena.terminalName_eq_ok.mp terminalNamed)).1
    simp [answer, reaches, none, named, terminalNamed, terminalDeclared]
  · simp [answer, reaches, none, foreign]

end Context

/-- Any number of `c` after `a`, with the rules `S → S c`, `S → A B`, `A → a` and `B → ε`,
and `D → a`, to which nothing leads. -/
def Grammar.trailing : Grammar :=
  .ofLists ["a", "c"] ["S", "A", "B", "D"]
    [⟨0, [.nonterminal 0, .terminal 2]⟩, ⟨0, [.nonterminal 1, .nonterminal 2]⟩,
      ⟨1, [.terminal 1]⟩, ⟨2, []⟩, ⟨3, [.terminal 1]⟩]
    (by decide) (by decide) (by decide)

theorem Grammar.wellFormed_trailing : trailing.WellFormed := ⟨by decide, 0, rfl, by decide⟩

namespace Context

/-- For `c` to come after `A`, the start has to be expanded twice and `B` has to be empty. There is
no context in which `a` comes after `A`, and none of `D`. -/
theorem contexts_of_trailing_lie_along_shortest_chains :
    Grammar.trailing.WellFormed ∧
    ∃ sentences, Sentences.compute Grammar.trailing = .ok sentences ∧
      find Grammar.trailing sentences 1 (some 2) =
        .ok ⟨[.nonterminal 1, .nonterminal 2, .terminal 2], 0⟩ ∧
      LiesAlongShortest Grammar.trailing 0 1 (some 2)
        ⟨[.nonterminal 1, .nonterminal 2, .terminal 2], 0⟩ ∧
      (¬ ∃ chain context, LiesAlong Grammar.trailing 0 1 (some 1) chain context) ∧
      ¬ ∃ chain before after, Grammar.trailing.Leads 3 0 chain before after := by
  obtain ⟨sentences, start, computed, starts, specified⟩ :=
    contexts_lie_along_shortest_chains Grammar.trailing Grammar.wellFormed_trailing
  cases starts
  have evaluates : (Sentences.compute Grammar.trailing).map (fun sentences =>
      (find Grammar.trailing sentences 1 (some 2), find Grammar.trailing sentences 1 (some 1),
        find Grammar.trailing sentences 3 none)) =
      .ok (.ok ⟨[.nonterminal 1, .nonterminal 2, .terminal 2], 0⟩,
        .error (.error (.noContext "A" "a")), .error (.error (.unreachable "D"))) := by
    decide +kernel
  rw [computed] at evaluates
  obtain ⟨found, rest⟩ := Prod.mk.inj (Except.ok.inj evaluates)
  obtain ⟨noContext, unreachable⟩ := Prod.mk.inj rest
  refine ⟨Grammar.wellFormed_trailing, sentences, computed, found,
    (specified 1 (by decide) (some 2)).1 _ found, ?_, ?_⟩
  · exact ((specified 1 (by decide) (some 1)).2.2.2.mp
      ⟨"A", 1, rfl, "a", rfl, rfl, noContext⟩).2.2
  · exact (specified 3 (by decide) none).2.2.1.mp ⟨"D", rfl, unreachable⟩

end Context

end DeterministicParsing
