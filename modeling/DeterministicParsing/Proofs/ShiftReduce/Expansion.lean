/-
# Paths turned into sentences

The path to a conflict is turned into terminals from right to left, and at any time what is still to
be done, followed by the terminals so far, derives from the path. What is still to be done stays on
a route from the initial state, because a nonterminal is replaced by the transitions along the body
of a rule from the state in which the nonterminal is read. A rule is used in a state at most once,
so the symbols that can still be added grow fewer with every use, which is why the bound is never
reached. The bodies that are put in derive terminal strings, so a nonterminal that derives none can
only come from the path itself.
-/
import DeterministicParsing.ShiftReduce.Witness
import DeterministicParsing.Proofs.FollowSets
import DeterministicParsing.Proofs.Automaton.Route
import DeterministicParsing.Proofs.WitnessError
import Mathlib.Algebra.BigOperators.Group.Finset.Basic

namespace DeterministicParsing.ShiftReduce.Witness

variable {setting : Setting} {kind : AutomatonKind} {start accept target : Nat}

/-- All parts of the setting are what they are meant to be. -/
structure Setting.IsExact (kind : AutomatonKind) (start accept target : Nat) (setting : Setting) :
    Prop where
  fresh : setting.grammar.HasFreshStart start accept target
  built : setting.automaton.IsBuilt kind setting.grammar accept
  follow : FollowSets.Exact setting.grammar setting.follow
  sentences : Sentences.Exact setting.grammar setting.sentences

/-- What is read along a route is declared. -/
theorem Setting.IsExact.declares (exact : setting.IsExact kind start accept target)
    {first last : Nat} {path : List (Nat × Symbol)}
    (route : setting.automaton.IsRoute first path last) :
    ∀ symbol ∈ path.map Prod.snd, setting.grammar.Declares symbol := by
  intro symbol member
  obtain ⟨rule, isRule, inBody⟩ := route.exists_mem_body exact.built member
  exact exact.fresh.bodies rule isRule symbol inBody

/-! ## Ways to expand a nonterminal -/

/-- The items have the core, and with the terminal after it if they have lookaheads. -/
def Admits (kind : AutomatonKind) (items : ItemSet) (core : Core) (terminal : Nat) : Prop :=
  items.Holds core ∧ (kind.marked = true → items.Allows core terminal)

/-- A complete rule is reduced on the terminal, by the lookaheads of the items, or by what follows
the head if these have none. -/
def Triggers (kind : AutomatonKind) (grammar : Grammar) (items : ItemSet) (ruleId : Nat)
    (rule : Rule) (terminal : Nat) : Prop :=
  Admits kind items ⟨ruleId, rule.body.length⟩ terminal ∧
    (kind.marked = false → grammar.Follows rule.head terminal)

section Ways

variable {used : List (Nat × Nat)} {state nonterminal terminal ruleId : Nat} {rule : Rule}

/-- The way leads along the body of a rule that has not been used in the state, whose body derives a
terminal string, and which is reduced on the terminal at the end of the way. -/
structure Route.Follows (setting : Setting) (kind : AutomatonKind) (used : List (Nat × Nat))
    (state terminal : Nat) (rule : Rule) (route : Route) : Prop where
  found : setting.grammar.rules[route.rule]? = some rule
  unused : (state, route.rule) ∉ used
  isRoute : ∃ last known, setting.automaton.IsRoute state route.transitions last ∧
    setting.automaton.states[last]? = some known ∧
    Triggers kind setting.grammar known.items route.rule rule terminal
  symbols : route.transitions.map Prod.snd = rule.body
  generates : ∃ terminals, setting.grammar.Generates rule.body terminals

theorem exists_isReducedIn_eq_ok (exact : setting.IsExact kind start accept target) {known : State}
    (isState : setting.automaton.states[state]? = some known)
    (found : setting.grammar.rules[ruleId]? = some rule)
    (declared : rule.head < setting.grammar.nonterminalCount) (terminal : Nat) :
    ∃ result, isReducedIn setting rule.head ruleId terminal state = .ok result ∧
      (result = true ↔ Triggers kind setting.grammar known.items ruleId rule terminal) := by
  obtain ⟨follow, isFollow, mem_follow⟩ := exact.follow.exists_get_eq_ok declared
  have marked := (exact.built.isSound.states state known isState).closes.marked
  simp only [isReducedIn, Automaton.state, isState, State.completeItem,
    Arena.rule_eq_ok.mpr found, ok_bind, pure_eq_ok, ItemSet.item?]
  cases isFound : known.items.find? ⟨ruleId, rule.body.length⟩ with
  | none => exact ⟨false, rfl, by simp [Triggers, Admits, ItemSet.Holds, isFound]⟩
  | some lookahead =>
      have isMarked := marked _ _ isFound
      cases lookahead with
      | none =>
          refine ⟨follow.contains terminal, by simp [isFollow], ?_⟩
          simp_all [Triggers, Admits, ItemSet.Holds]
      | some lookahead =>
          refine ⟨lookahead.contains terminal, rfl, ?_⟩
          simp_all [Triggers, Admits, ItemSet.Holds, ItemSet.Allows]

/-- A rule is tried without a fault in every state that can be reached. -/
theorem exists_routeBy_eq_ok (exact : setting.IsExact kind start accept target)
    {string : List Symbol} (reaches : setting.automaton.Reaches string state)
    (found : setting.grammar.rules[ruleId]? = some rule)
    (declared : rule.head < setting.grammar.nonterminalCount) :
    ∃ result, routeBy setting used state rule.head terminal ruleId = .ok result ∧
      ∀ route, result = some route → route.Follows setting kind used state terminal rule := by
  have bodyDeclared := exact.fresh.bodies rule (List.mem_of_getElem? found)
  simp only [routeBy, Arena.rule_eq_ok.mpr found, exact.sentences.sequence_eq_ok bodyDeclared,
    ok_bind]
  cases isKnown : setting.sentences.knownAll rule.body with
  | none => exact ⟨none, rfl, by simp⟩
  | some sentence =>
      by_cases isUsed : (state, ruleId) ∈ used
      · exact ⟨none, by simp [isUsed], by simp⟩
      · obtain ⟨result, walks, _, _⟩ :=
          exact.built.exists_walk_eq_ok exact.fresh reaches rule.body
        simp only [List.contains_eq_mem, isUsed, decide_false, Bool.false_eq_true, if_false, walks,
          ok_bind]
        cases result with
        | none => exact ⟨none, rfl, by simp⟩
        | some visited =>
            obtain ⟨last, isRoute, isLast, symbols⟩ := Automaton.isRoute_of_walk_eq walks
            obtain ⟨known, isState⟩ := exact.built.exists_state (isRoute.reaches reaches)
            obtain ⟨reduced, isReduced, triggers⟩ :=
              exists_isReducedIn_eq_ok exact isState found declared terminal
            simp only [isLast, Option.getD_some, isReduced, ok_bind]
            cases reduced with
            | false => exact ⟨none, rfl, by simp⟩
            | true =>
                refine ⟨_, rfl, ?_⟩
                rintro _ ⟨⟩
                exact ⟨found, isUsed, ⟨last, known, isRoute, isState, triggers.mp rfl⟩,
                  symbols, sentence, exact.sentences.generates_knownAll isKnown⟩

theorem cheapest_mem {routes : List Route} {route : Route} (picked : cheapest routes = some route) :
    route ∈ routes :=
  (Automaton.eq_or_mem_of_foldl_pick picked (fun _ => rfl)
    fun _ _ => (ite_eq_or_eq _ _ _).symm).resolve_left (by simp)

/-- All rules of a nonterminal are tried without a fault, and the cheapest way follows one of
them. -/
theorem exists_routes_eq_ok (exact : setting.IsExact kind start accept target)
    {string : List Symbol} (reaches : setting.automaton.Reaches string state)
    (declared : nonterminal < setting.grammar.nonterminalCount) (used : List (Nat × Nat))
    (terminal : Nat) :
    ∃ rules routes, setting.grammar.rulesFor nonterminal = .ok rules ∧
      rules.mapM (routeBy setting used state nonterminal terminal) = .ok routes ∧
      ∀ route, cheapest (routes.filterMap id) = some route →
        ∃ rule, rule.head = nonterminal ∧
          route.Follows setting kind used state terminal rule := by
  obtain ⟨rules, isRules, _, mem_rules⟩ :=
    setting.grammar.valid.exists_rulesFor_eq_ok declared
  have total : ∀ ruleId ∈ rules, ∃ result,
      routeBy setting used state nonterminal terminal ruleId = .ok result ∧
      ∀ route, result = some route →
        ∃ rule, rule.head = nonterminal ∧
          route.Follows setting kind used state terminal rule := by
    intro ruleId member
    obtain ⟨rule, found, rfl⟩ := (mem_rules ruleId).mp member
    obtain ⟨result, computed, follows⟩ := exists_routeBy_eq_ok exact reaches found declared
    exact ⟨result, computed, fun route isResult => ⟨rule, rfl, follows route isResult⟩⟩
  obtain ⟨routes, tried, each⟩ := exists_mapM_eq_ok total
  refine ⟨rules, routes, isRules, tried, fun route picked => ?_⟩
  obtain ⟨_, member, rfl⟩ := List.mem_filterMap.mp (cheapest_mem picked)
  obtain ⟨_, _, follows⟩ := exists_of_mem_right each member
  exact follows route rfl

end Ways

/-! ## What is left to be done -/

/-- How many symbols the rules that have not been used in some state can still add. -/
def remaining (setting : Setting) (used : List (Nat × Nat)) : Nat :=
  ∑ pair ∈ Finset.range setting.automaton.states.length ×ˢ Finset.range
    setting.grammar.rules.length
    with pair ∉ used, ((setting.grammar.rules[pair.2]?).elim 0 (·.body.length))

theorem sum_length_body (rules : List Rule) :
    ∑ id ∈ Finset.range rules.length, (rules[id]?).elim 0 (·.body.length) =
      (rules.flatMap Rule.body).length := by
  induction rules with
  | nil => rfl
  | cons rule rules ih =>
      rw [List.length_cons, Finset.sum_range_succ']
      simp only [List.getElem?_cons_succ, ih, List.getElem?_cons_zero, Option.elim_some,
        List.flatMap_cons, List.length_append]
      exact Nat.add_comm _ _

/-- At first, every rule can add its body in every state. -/
theorem remaining_nil (setting : Setting) :
    remaining setting [] = setting.automaton.states.length * setting.grammar.size := by
  simp only [remaining, List.not_mem_nil, not_false_eq_true, Finset.filter_true,
    Finset.sum_product, sum_length_body, Finset.sum_const, Finset.card_range,
    smul_eq_mul, Arena.size]

/-- A rule that is used takes its body away from what can still be added. -/
theorem remaining_append {used : List (Nat × Nat)} {state id : Nat} {rule : Rule}
    (isState : state < setting.automaton.states.length)
    (found : setting.grammar.rules[id]? = some rule) (unused : (state, id) ∉ used) :
    rule.body.length + remaining setting (used ++ [(state, id)]) = remaining setting used := by
  have isRule : id < setting.grammar.rules.length := (List.getElem?_eq_some_iff.mp found).1
  have member : (state, id) ∈ {pair ∈ Finset.range setting.automaton.states.length ×ˢ
      Finset.range setting.grammar.rules.length | pair ∉ used} := by
    simp [isState, isRule, unused]
  rw [remaining, remaining, ← Finset.add_sum_erase _ _ member, found, Option.elim_some]
  congr 2
  ext pair
  simp only [List.mem_append, List.mem_singleton, not_or, Finset.mem_filter, Finset.mem_erase]
  tauto

/-! ## The run -/

namespace Expansion

variable {expansion next : Expansion} {todo : List (Nat × Symbol)} {symbols : List Symbol}
  {state nonterminal following terminal : Nat}

/-- What a nonterminal that is read in a state is turned into: the symbols of a rule that is reduced
on the terminal after it, or a sentence. -/
inductive Expands (setting : Setting) (kind : AutomatonKind) (expansion : Expansion)
    (todo : List (Nat × Symbol)) (state following : Nat) : Nat → Expansion → Prop where
  | replace {route : Route} {rule : Rule}
      (follows : route.Follows setting kind expansion.used state following rule) :
      Expands setting kind expansion todo state following rule.head { expansion with
        todo := route.transitions.reverse ++ todo
        used := expansion.used ++ [(state, route.rule)] }
  | splice {nonterminal : Nat} {sentence : List Nat}
      (generates : setting.grammar.Generates [.nonterminal nonterminal] sentence) :
      Expands setting kind expansion todo state following nonterminal
        { expansion with todo, sentence := sentence ++ expansion.sentence }

/-- A nonterminal is turned into something, unless it derives no terminal string. -/
theorem expand_eq (exact : setting.IsExact kind start accept target) {string : List Symbol}
    (reaches : setting.automaton.Reaches string state)
    (declared : setting.grammar.Declares (.nonterminal nonterminal)) (following : Nat) :
    (∃ next, expansion.expand setting todo state nonterminal following = .ok next ∧
        Expands setting kind expansion todo state following nonterminal next) ∨
      ∃ reason, expansion.expand setting todo state nonterminal following = .error reason ∧
        setting.grammar.Blames [.nonterminal nonterminal] reason := by
  obtain ⟨rules, routes, isRules, tried, eachFollows⟩ :=
    exists_routes_eq_ok exact reaches declared expansion.used following
  simp only [Expansion.expand, isRules, tried, Failure.lift_ok, liftM_ok, ok_bind]
  cases picked : cheapest (routes.filterMap id) with
  | some route =>
      obtain ⟨rule, rfl, follows⟩ := eachFollows route picked
      exact .inl ⟨_, rfl, .replace follows⟩
  | none =>
      rcases exact.sentences.require declared with
        ⟨sentence, given, generates⟩ | ⟨reason, failed, blames⟩
      · exact .inl ⟨_, by rw [given]; rfl, .splice generates⟩
      · exact .inr ⟨reason, by rw [failed]; rfl, blames⟩

/-- The expansion is one of the given symbols, with the terminal at the end. -/
structure IsOf (setting : Setting) (symbols : List Symbol) (terminal : Nat)
    (expansion : Expansion) :
    Prop where
  isRoute : ∃ last, setting.automaton.IsRoute Automaton.initial expansion.todo.reverse last
  derives : ∃ terminals, expansion.sentence = terminals ++ [terminal] ∧
    setting.grammar.Derives symbols (expansion.todo.reverse.map Prod.snd ++ word terminals)
  unproductive : ∀ id, .nonterminal id ∈ expansion.todo.reverse.map Prod.snd →
    ¬ setting.grammar.Productive id → .nonterminal id ∈ symbols

/-- How many steps an expansion can still take. -/
def size (setting : Setting) (expansion : Expansion) : Nat :=
  expansion.todo.length + remaining setting expansion.used

namespace IsOf

/-- A terminal is put in front of the sentence. -/
theorem read (isOf : expansion.IsOf setting symbols terminal) {id : Nat}
    (isNext : expansion.todo = (state, .terminal id) :: todo) :
    IsOf setting symbols terminal
      { expansion with todo, sentence := id :: expansion.sentence } := by
  obtain ⟨⟨last, isRoute⟩, ⟨terminals, isSentence, derives⟩, unproductive⟩ := isOf
  simp only [isNext, List.reverse_cons, List.map_append, List.map_cons, List.map_nil,
    List.append_assoc, List.singleton_append, List.mem_append] at isRoute derives unproductive
  obtain ⟨middle, isRouteTo, _⟩ := isRoute.exists_of_append
  exact ⟨⟨middle, isRouteTo⟩, ⟨id :: terminals, by rw [isSentence]; rfl, derives⟩,
    fun other member => unproductive other (.inl member)⟩

/-- A sentence of a nonterminal is put in front of the sentence. -/
theorem splice (isOf : expansion.IsOf setting symbols terminal)
    (isNext : expansion.todo = (state, .nonterminal nonterminal) :: todo) {sentence : List Nat}
    (generates : setting.grammar.Generates [.nonterminal nonterminal] sentence) :
    IsOf setting symbols terminal
      { expansion with todo, sentence := sentence ++ expansion.sentence } := by
  obtain ⟨⟨last, isRoute⟩, ⟨terminals, isSentence, derives⟩, unproductive⟩ := isOf
  simp only [isNext, List.reverse_cons, List.map_append, List.map_cons, List.map_nil,
    List.append_assoc, List.mem_append] at isRoute derives unproductive
  obtain ⟨middle, isRouteTo, _⟩ := isRoute.exists_of_append
  refine ⟨⟨middle, isRouteTo⟩, ⟨sentence ++ terminals, by simp [isSentence], ?_⟩,
    fun other member => unproductive other (.inl member)⟩
  rw [word_append]
  exact derives.trans (generates.context _ _)

/-- A nonterminal is replaced by a body along a route from the state in which it is read. -/
theorem replace (isOf : expansion.IsOf setting symbols terminal) {rule : Rule}
    (isNext : expansion.todo = (state, .nonterminal rule.head) :: todo) {route : Route}
    (follows : route.Follows setting kind expansion.used state following rule) :
    IsOf setting symbols terminal { expansion with
      todo := route.transitions.reverse ++ todo
      used := expansion.used ++ [(state, route.rule)] } := by
  obtain ⟨⟨last, isRoute⟩, ⟨terminals, isSentence, derives⟩, unproductive⟩ := isOf
  obtain ⟨other, _, alongBody, _⟩ := follows.isRoute
  have ⟨sentence, generates⟩ := follows.generates
  simp only [isNext, List.reverse_cons, List.map_append, List.map_cons, List.map_nil,
    List.append_assoc, List.mem_append] at isRoute derives unproductive
  refine ⟨⟨other, ?_⟩, ⟨terminals, isSentence, ?_⟩, fun id member notProductive => ?_⟩
  · simpa using isRoute.of_snoc.append alongBody
  · have replaced := (Grammar.Derives.of_rule (List.mem_of_getElem? follows.found)).context
      (todo.reverse.map Prod.snd) (word terminals)
    simpa [follows.symbols] using derives.trans replaced
  · simp only [List.reverse_append, List.reverse_reverse, List.map_append, follows.symbols,
      List.mem_append] at member
    rcases member with earlier | inBody
    · exact unproductive id (.inl earlier) notProductive
    · exact absurd (generates.productive inBody) notProductive

/-- What is read next is declared, and read in a state that can be reached. -/
theorem exists_reaches (isOf : expansion.IsOf setting symbols terminal)
    (exact : setting.IsExact kind start accept target) {symbol : Symbol}
    (isNext : expansion.todo = (state, symbol) :: todo) :
    setting.automaton.Reaches (todo.reverse.map Prod.snd) state ∧
    setting.grammar.Declares symbol := by
  obtain ⟨last, isRoute⟩ := isOf.isRoute
  rw [isNext, List.reverse_cons] at isRoute
  exact ⟨isRoute.of_snoc.reaches .start, exact.declares isRoute _ (by simp)⟩

/-- A step on a nonterminal keeps an expansion one of the symbols and leaves less to be done. -/
theorem expand (isOf : expansion.IsOf setting symbols terminal)
    (exact : setting.IsExact kind start accept target)
    (isNext : expansion.todo = (state, .nonterminal nonterminal) :: todo)
    (expands : Expands setting kind expansion todo state following nonterminal next) :
    next.IsOf setting symbols terminal ∧ next.size setting < expansion.size setting := by
  have sameSize : expansion.size setting =
      todo.length + 1 + remaining setting expansion.used := by rw [size, isNext, List.length_cons]
  cases expands with
  | @replace route rule follows =>
      obtain ⟨known, isState⟩ := exact.built.exists_state (isOf.exists_reaches exact isNext).1
      have inRange : state < setting.automaton.states.length :=
        (List.getElem?_eq_some_iff.mp isState).1
      have taken := remaining_append inRange follows.found follows.unused
      have sameLength : route.transitions.length = rule.body.length := by
        rw [← follows.symbols, List.length_map]
      refine ⟨isOf.replace isNext follows, ?_⟩
      simp only [size, List.length_append, List.length_reverse] at sameSize ⊢
      omega
  | splice generates =>
      refine ⟨isOf.splice isNext generates, ?_⟩
      simp only [size] at sameSize ⊢
      omega

/-- An expansion with nothing left to be done is a sentence. -/
theorem exists_generates (isOf : expansion.IsOf setting symbols terminal)
    (isDone : expansion.todo = []) : ∃ terminals,
      expansion.sentence = terminals ++ [terminal] ∧
      setting.grammar.Generates symbols terminals := by
  obtain ⟨terminals, isSentence, derives⟩ := isOf.derives
  rw [isDone] at derives
  exact ⟨terminals, isSentence, derives⟩

end IsOf

/-- At first, the whole path is to be done. -/
theorem isOf_start {path : List (Nat × Symbol)} {last : Nat}
    (route : setting.automaton.IsRoute Automaton.initial path last) (terminal : Nat) :
    IsOf setting (path.map Prod.snd) terminal ⟨path.reverse, [], [terminal]⟩ := by
  refine ⟨⟨last, by simpa using route⟩, ⟨[], rfl, ?_⟩,
    fun id member _ => by simpa using member⟩
  simpa using Grammar.Derives.refl (path.map Prod.snd)

theorem size_start_le (setting : Setting) (path : List (Nat × Symbol)) (terminal : Nat) :
    size setting ⟨path.reverse, [], [terminal]⟩ ≤
      path.length + setting.automaton.states.length * setting.grammar.size + 1 := by
  rw [size, remaining_nil, List.length_reverse]
  exact Nat.le_succ _

/-- With a bound that its size does not exceed, a run turns its symbols into a sentence with the
terminal at the end, unless one of them derives none. -/
theorem run_spec (exact : setting.IsExact kind start accept target) {bound : Nat}
    (isOf : expansion.IsOf setting symbols terminal) (enough : expansion.size setting ≤ bound) :
    (∃ terminals, (run setting terminal bound expansion).1 = .ok (terminals ++ [terminal]) ∧
        setting.grammar.Generates symbols terminals) ∨
      ∃ reason, (run setting terminal bound expansion).1 = .error reason ∧
        setting.grammar.Blames symbols reason := by
  induction bound generalizing expansion with
  | zero =>
      have isDone : expansion.todo = [] := by
        rw [size] at enough
        exact List.length_eq_zero_iff.mp (by omega)
      obtain ⟨terminals, isSentence, generates⟩ := isOf.exists_generates isDone
      exact .inl ⟨terminals, by rw [run, isSentence], generates⟩
  | succ bound ih =>
      rw [run]
      cases isNext : expansion.todo with
      | nil =>
          obtain ⟨terminals, isSentence, generates⟩ := isOf.exists_generates isNext
          exact .inl ⟨terminals, by rw [isSentence], generates⟩
      | cons transition todo =>
          obtain ⟨state, symbol⟩ := transition
          cases symbol with
          | terminal id =>
              refine ih (isOf.read isNext) ?_
              simp only [size, isNext, List.length_cons] at enough ⊢
              omega
          | nonterminal id =>
              obtain ⟨reaches, declared⟩ := isOf.exists_reaches exact isNext
              rcases expand_eq exact reaches declared (expansion.sentence.head?.getD terminal) with
                ⟨next, expanded, expands⟩ | ⟨reason, failed, blames⟩
              · obtain ⟨isOfNext, smaller⟩ := isOf.expand exact isNext expands
                simp only [expanded]
                exact ih isOfNext (by omega)
              · refine .inr
                  ⟨reason, by simp only [failed], blames.mono fun other member absent => ?_⟩
                refine isOf.unproductive other ?_ absent
                rw [List.mem_singleton.mp member, isNext]
                simp

end Expansion

/-- The symbols of a path are turned into a sentence with the terminal at its end, unless one of
them is a nonterminal that derives none. -/
theorem expandPath_spec (exact : setting.IsExact kind start accept target) {last : Nat}
    {path : List (Nat × Symbol)}
    (route : setting.automaton.IsRoute Automaton.initial path last) (terminal : Nat) :
    (∃ terminals, (expandPath setting path terminal).1 = .ok (terminals ++ [terminal]) ∧
        setting.grammar.Generates (path.map Prod.snd) terminals) ∨
      ∃ reason, (expandPath setting path terminal).1 = .error reason ∧
        setting.grammar.Blames (path.map Prod.snd) reason :=
  Expansion.run_spec exact (Expansion.isOf_start route terminal)
    (Expansion.size_start_le setting path terminal)

end DeterministicParsing.ShiftReduce.Witness
