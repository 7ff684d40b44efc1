/-
# Predictive grammars are canonical

A grammar whose predictive table has no conflicts has a canonical table without conflicts, too, as
long as all its nonterminals derive words. All actions of a state in front of a terminal are
proposed by items that are valid for one string, and without conflicts between predictions there is
one such item at most that the terminal can go on from. The two parsers then take the same inputs.
On each of them one works through a forest from the top and the other from the bottom, and it is the
same forest, so that the trees grown from what they hand out look the same.
-/
import DeterministicParsing.Proofs.Automaton.Reachability
import DeterministicParsing.Proofs.Automaton.Recognition
import DeterministicParsing.Proofs.Forest.Growth
import DeterministicParsing.Proofs.Predictive.Decision
import DeterministicParsing.Proofs.Predictive.Spine
import DeterministicParsing.Proofs.ShiftReduce.Hierarchy
import DeterministicParsing.Proofs.ShiftReduce.Soundness

namespace DeterministicParsing

variable {grammar augmented : Grammar} {target : Nat}

/-! ## Predictions after augmentation -/

/-- What follows a nonterminal of the grammar after augmentation follows it before. -/
theorem Grammar.IsAugmentationOf.follows_of_ne
    (augments : augmented.IsAugmentationOf grammar target)
    (fresh : augmented.HasFreshStart grammar.nonterminalCount grammar.rules.length target)
    (starts : grammar.start = .ok target) {nonterminal terminal : Nat}
    (follows : augmented.Follows nonterminal terminal)
    (other : nonterminal ≠ grammar.nonterminalCount) : grammar.Follows nonterminal terminal := by
  rcases follows with ⟨head, left, right, derives⟩ | ⟨rfl, start, left, isStart, derives⟩
  · by_cases fromStart : head = grammar.nonterminalCount
    · subst fromStart
      rcases augments.eq_or_derives_of_start fresh derives with same | derives
      · simp [List.append_eq_singleton_iff] at same
      · exact .inl ⟨target, left, right, derives⟩
    · exact .inl ⟨head, left, right, augments.derives_of_not_mem fresh derives
        (by simpa using Ne.symm fromStart)⟩
  · obtain rfl := Except.ok.inj (isStart.symm.trans augments.start_eq)
    rcases augments.eq_or_derives_of_start fresh derives with same | derives
    · simp [List.append_eq_singleton_iff, other] at same
    · exact .inr ⟨rfl, target, left, starts, derives⟩

namespace Predictive

/-- Augmentation brings about no conflicts between predictions. -/
theorem hasUniquePredictions_augmented (unique : HasUniquePredictions grammar)
    (augments : augmented.IsAugmentationOf grammar target)
    (fresh : augmented.HasFreshStart grammar.nonterminalCount grammar.rules.length target)
    (starts : grammar.start = .ok target) : HasUniquePredictions augmented := by
  intro nonterminal terminal first second predicted alsoPredicted
  by_cases isStart : nonterminal = grammar.nonterminalCount
  · obtain ⟨rule, found, head, _⟩ := predicted
    obtain ⟨otherRule, otherFound, otherHead, _⟩ := alsoPredicted
    rw [fresh.unique first rule found (head.trans isStart),
      fresh.unique second otherRule otherFound (otherHead.trans isStart)]
  · have stays {id : Nat} (predicted : Predicts augmented nonterminal terminal id) :
        Predicts grammar nonterminal terminal id := by
      obtain ⟨rule, found, rfl, reason⟩ := predicted
      have absent := fresh.fresh rule (List.mem_of_getElem? found)
      refine ⟨rule, augments.getElem?_rules_of_ne found isStart, rfl, ?_⟩
      rcases reason with ⟨rest, begins⟩ | ⟨vanishes, follows⟩
      · exact .inl ⟨rest, augments.derives_of_not_mem fresh begins absent⟩
      · exact .inr ⟨augments.derives_of_not_mem fresh vanishes absent,
          augments.follows_of_ne fresh starts follows isStart⟩
    exact unique _ _ _ _ (stays predicted) (stays alsoPredicted)

theorem bodiesOpen_of_productive (augments : augmented.IsAugmentationOf grammar target)
    (fresh : augmented.HasFreshStart grammar.nonterminalCount grammar.rules.length target)
    (productive : ∀ nonterminal < grammar.nonterminalCount, grammar.Productive nonterminal) :
    BodiesOpen augmented := by
  intro rule member nonterminal inBody
  have declared : nonterminal < augmented.nonterminalCount := fresh.bodies rule member _ inBody
  rw [augments.nonterminalCount_eq] at declared
  have other : nonterminal ≠ grammar.nonterminalCount := by
    rintro rfl
    exact fresh.fresh rule member inBody
  obtain ⟨terminals, generates⟩ := productive nonterminal (by omega)
  have derives := augments.derives generates
  cases terminals with
  | nil => exact .inl derives
  | cons first rest => exact .inr ⟨first, word rest, derives⟩

end Predictive

namespace ShiftReduce

open Predictive (HasUniquePredictions BodiesOpen)

/-! ## Canonical tables without conflicts -/

section

variable {method : Method} {follow : FollowSets} {start terminal : Nat} {state : State}
  {item : Item} {first second action : Action}

/-- An item proposes a shift in front of a terminal, or it is complete, and its rule tells what it
proposes. -/
theorem Proposes.shift_or_isComplete
    (proposes : Proposes grammar method follow start state item terminal action) :
    (∃ next, action = .shift next ∧ grammar.next? item.core = some (.terminal terminal) ∧
      state.transitions.find? (.terminal terminal) = some next) ∨
    ∃ rule, IsComplete grammar item rule ∧
      action = if rule.head = start then .accept else .reduce item.core.rule := by
  cases action with
  | shift next => exact .inl ⟨next, rfl, proposes⟩
  | reduce id =>
      obtain ⟨rfl, rule, _, complete, other, _⟩ := proposes
      exact .inr ⟨rule, complete, by rw [if_neg other]⟩
  | accept =>
      obtain ⟨_, rule, complete, isStart⟩ := proposes
      exact .inr ⟨rule, complete, by rw [if_pos isStart]⟩

/-- An item proposes one action at most in front of a terminal. -/
theorem Proposes.unique
    (proposes : Proposes grammar method follow start state item terminal first)
    (alsoProposes : Proposes grammar method follow start state item terminal second) :
    first = second := by
  rcases proposes.shift_or_isComplete with ⟨next, rfl, expects, leads⟩ |
    ⟨rule, complete, rfl⟩
  · rcases alsoProposes.shift_or_isComplete with ⟨other, rfl, _, alsoLeads⟩ |
      ⟨rule, complete, _⟩
    · rw [Option.some.inj (leads.symm.trans alsoLeads)]
    · cases expects.symm.trans complete.next?_eq_none
  · rcases alsoProposes.shift_or_isComplete with ⟨_, _, expects, _⟩ |
      ⟨other, alsoComplete, rfl⟩
    · cases expects.symm.trans complete.next?_eq_none
    · rw [Option.some.inj (complete.1.symm.trans alsoComplete.1)]

end

section

variable {analysis : Analysis} {string : List Symbol} {id terminal : Nat} {state : State}

/-- The items of a canonical state that propose something in front of a terminal are valid before
the terminal, for every string that leads to the state, and expect no nonterminal. -/
theorem Analysis.IsAnalysisOf.validBefore_of_proposes
    (isAnalysis : analysis.IsAnalysisOf grammar .lr1 target)
    (reaches : analysis.automaton.Reaches string id)
    (isState : analysis.automaton.states[id]? = some state) {item : Item}
    (member : item ∈ state.items.items) {action : Action}
    (proposes : Proposes analysis.grammar .lr1 analysis.follow grammar.nonterminalCount state item
      terminal action) :
    analysis.grammar.ValidBefore string item.core terminal ∧
      ∀ inner, analysis.grammar.next? item.core ≠ some (.nonterminal inner) := by
  obtain ⟨after, valid⟩ := (isAnalysis.built.holds_iff isAnalysis.fresh reaches isState).mp
    ⟨_, ItemSet.mem_items.mp member⟩
  cases action with
  | shift next =>
      obtain ⟨rest, expects⟩ := Grammar.next?_eq_some.mp proposes.1
      refine ⟨valid.validBefore expects, fun inner isInner => ?_⟩
      cases proposes.1.symm.trans isInner
  | reduce ruleId =>
      obtain ⟨_, rule, lookaheads, complete, _, looked, inside⟩ := proposes
      have marked := (isAnalysis.built.isSound.states id state isState).closes.marked
      have allows := (Method.mem_lookaheads_iff isAnalysis.follow marked member complete.1).mp
        ⟨lookaheads, looked, inside⟩
      have validLookahead :=
        isAnalysis.built.validLookahead_of_allows isAnalysis.fresh
          (by decide) rfl reaches isState allows
      refine ⟨validLookahead.validBefore ⟨rule, complete⟩, fun inner isInner => ?_⟩
      cases complete.next?_eq_none.symm.trans isInner
  | accept =>
      obtain ⟨rfl, rule, complete, isStart⟩ := proposes
      obtain ⟨⟨ruleId, marker⟩, lookahead⟩ := item
      obtain rfl : ruleId = grammar.rules.length := isAnalysis.fresh.unique _ _ complete.1 isStart
      obtain ⟨_, rfl⟩ := isAnalysis.fresh.eq_of_validFor_accept valid
      have validLookahead :
        analysis.grammar.ValidLookahead string ⟨grammar.rules.length, marker⟩
          endOfInput := ⟨_, valid, [], .refl _⟩
      refine ⟨validLookahead.validBefore ⟨rule, complete⟩, fun inner isInner => ?_⟩
      cases complete.next?_eq_none.symm.trans isInner

end

/-- The canonical table has no conflicts if the predictive table has none. -/
theorem Analysis.IsFamilyOf.isConflictFree_lr1 {analyses : Method → Analysis} {first : FirstSets}
    (family : Analysis.IsFamilyOf grammar target analyses augmented first)
    (unique : HasUniquePredictions augmented) (opens : BodiesOpen augmented) :
    (analyses .lr1).table.isConflictFree = true := by
  refine Table.isConflictFree_of_alike fun id terminal action inCell other alsoInCell => ?_
  obtain ⟨state, isState⟩ := (family.isAnalysis .lr1).isTable.exists_state_of_mem_cell inCell
  obtain ⟨string, reaches⟩ :=
    Automaton.exists_reaches_of_build_eq_ok family.fresh family.exact (family.builds .lr1) isState
  have isAnalysis := family.isAnalysis .lr1
  obtain ⟨item, member, proposes⟩ := (isAnalysis.isTable.mem_cell isState).mp inCell
  obtain ⟨otherItem, otherMember, alsoProposes⟩ :=
    (isAnalysis.isTable.mem_cell isState).mp alsoInCell
  obtain ⟨valid, stops⟩ := isAnalysis.validBefore_of_proposes reaches isState member proposes
  obtain ⟨otherValid, otherStops⟩ :=
    isAnalysis.validBefore_of_proposes reaches isState otherMember alsoProposes
  rw [family.grammar_eq] at valid stops otherValid otherStops
  have sameCore :=
    Predictive.core_eq_of_validBefore unique opens family.fresh.start_eq valid
      otherValid stops otherStops
  obtain rfl := ItemSet.eq_of_core_eq member otherMember sameCore
  exact proposes.unique alsoProposes

end ShiftReduce

/-! ## The same trees -/

/-- The trees grown from the left parse and the right parse of one forest have the same text, with
the rules of every grammar that has those of the forest and the same names for its symbols. -/
theorem Forest.IsOf.exists_trees {forest : Forest} {start : Nat} (isOf : forest.IsOf grammar)
    (isTree : forest.roots = [.nonterminal start]) (wellFormed : grammar.WellFormed)
    (starts : grammar.start = .ok start) :
    ∃ left right text, ∀ used : Grammar, forest.IsOf used →
      (∀ symbol, grammar.Declares symbol →
        used.symbolName symbol = grammar.symbolName symbol) →
      DerivationTree.ofLeftParse used forest.leftParse = .ok left ∧
      DerivationTree.ofRightParse used forest.rightParse = .ok right ∧
      left.text used = .ok text ∧ right.text used = .ok text := by
  obtain ⟨bodies, other, alsoStarts, declared⟩ := wellFormed
  obtain rfl := Except.ok.inj (starts.symm.trans alsoStarts)
  obtain ⟨left, leftStands, leftSize, leftGrows⟩ :=
    DerivationTree.exists_derive_eq_ok_of_roots .leftmost isTree
  obtain ⟨right, rightStands, rightSize, rightGrows⟩ :=
    DerivationTree.exists_derive_eq_ok_of_roots .rightmost isTree
  obtain ⟨text, sameText⟩ :=
    DerivationTree.exists_text_eq_ok isOf bodies (isTree ▸ List.forall_mem_singleton.mpr declared)
  exact ⟨left, right, text, fun used isOfUsed sameNames => ⟨leftGrows used isOfUsed,
    rightGrows used isOfUsed, sameText used left sameNames leftStands leftSize,
    sameText used right sameNames rightStands rightSize⟩⟩

/-! ## The same inputs -/

/-- The tokens are those of a sentence, with the end of the input after them. -/
def Grammar.IsSpelledBy (grammar : Grammar) (start : Nat) (tokens : List Token) : Prop :=
  ∃ read last, tokens = read ++ [last] ∧ last.terminal = endOfInput ∧
    endOfInput ∉ read.map Token.terminal ∧
    grammar.Generates [.nonterminal start] (read.map Token.terminal)

/-- Without conflicts, the shift-reduce parser takes the sentences. -/
theorem ShiftReduce.Analysis.IsAnalysisOf.exists_parse_eq_ok {method : ShiftReduce.Method}
    {analysis : ShiftReduce.Analysis} (isAnalysis : analysis.IsAnalysisOf grammar method target)
    (conflictFree : analysis.table.isConflictFree = true) {tokens : List Token} :
    (∃ bound parse, analysis.parser.parse bound tokens = some (.ok parse)) ↔
      grammar.IsSpelledBy target tokens := by
  constructor
  · rintro ⟨bound, parse, parsed⟩
    obtain ⟨read, last, rfl, ends, absent, rightmost⟩ :=
      isAnalysis.derivesRightmost_of_parseWith_eq parsed
    exact ⟨read, last, rfl, ends, absent, rightmost.derives⟩
  · rintro ⟨read, last, rfl, ends, absent, generates⟩
    obtain ⟨rules, rightmost⟩ := Grammar.Generates.exists_rightmost generates
    obtain ⟨enough, value, parses⟩ := isAnalysis.parses conflictFree ends absent rightmost
    exact ⟨enough, _, parses enough (Nat.le_refl enough)⟩

section

variable {table : Predictive.Table} {tokens : List Token} (isTable : table.IsTableOf grammar)
  (conflictFree : table.isConflictFree = true) (wellFormed : grammar.WellFormed)
  (endFree : grammar.BodiesEndFree) (starts : grammar.start = .ok target)
include isTable conflictFree wellFormed endFree starts

/-- A sentence has one leftmost derivation, and the predictive parser ends well with its rules. -/
theorem Predictive.Table.IsTableOf.exists_ends_ok {read : List Token} {last : Token}
    (ends : last.terminal = endOfInput) (absent : endOfInput ∉ read.map Token.terminal)
    (generates : grammar.Generates [.nonterminal target] (read.map Token.terminal)) :
    ∃ rules, Predictive.Parser.Ends ⟨grammar, table⟩ (read ++ [last]) (.ok rules) ∧
      ∀ others, grammar.DerivesLeftmost [.nonterminal target] others
        (word (read.map Token.terminal)) ↔ others = rules := by
  obtain ⟨_, start, alsoStarts, declared⟩ := wellFormed
  obtain rfl := Except.ok.inj (starts.symm.trans alsoStarts)
  have ownTable : (⟨grammar, table⟩ : Predictive.Parser).table.IsTableOf grammar := isTable
  exact Predictive.Parser.exists_ends_ok ownTable conflictFree endFree starts ends declared absent
    generates

/-- Without conflicts, the predictive parser takes the sentences. -/
theorem Predictive.Table.IsTableOf.exists_parse_eq_ok :
    (∃ bound rules,
      Predictive.Parser.parse ⟨grammar, table⟩ bound tokens = some (.ok rules)) ↔
        grammar.IsSpelledBy target tokens := by
  constructor
  · rintro ⟨bound, rules, parsed⟩
    obtain ⟨read, last, rfl, ends, absent, leftmost⟩ :=
      Predictive.Parser.derivesLeftmost_of_parse_eq isTable starts parsed
    exact ⟨read, last, rfl, ends, absent, leftmost.derives⟩
  · rintro ⟨read, last, rfl, ends, absent, generates⟩
    obtain ⟨rules, ⟨enough, parses⟩, _⟩ :=
      isTable.exists_ends_ok conflictFree wellFormed endFree starts ends absent generates
    exact ⟨enough, rules, parses enough (Nat.le_refl enough)⟩

/-- What the two parsers hand out for an input are the left parse and the right parse of one
forest. -/
theorem Predictive.Table.IsTableOf.exists_forest {method : ShiftReduce.Method}
    {analysis : ShiftReduce.Analysis} (isAnalysis : analysis.IsAnalysisOf grammar method target)
    {bound otherBound : Nat} {rules : List Nat} {parse : ShiftReduce.Parse Unit}
    (parsed : Predictive.Parser.parse ⟨grammar, table⟩ bound tokens = some (.ok rules))
    (alsoParsed : analysis.parser.parse otherBound tokens = some (.ok parse)) :
    ∃ forest : Forest, forest.IsOf grammar ∧ forest.roots = [.nonterminal target] ∧
      forest.leftParse = rules ∧ forest.rightParse = parse.reductions := by
  obtain ⟨read, last, rfl, ends, absent, leftmost⟩ :=
    Predictive.Parser.derivesLeftmost_of_parse_eq isTable starts parsed
  obtain ⟨alsoRead, alsoLast, same, _, _, rightmost⟩ :=
    isAnalysis.derivesRightmost_of_parseWith_eq alsoParsed
  obtain ⟨rfl, _⟩ := List.append_inj' same rfl
  obtain ⟨forest, isOf, isTree, isFrontier, backwards⟩ :=
    Forest.exists_of_derivesRightmost rightmost
  obtain ⟨only, _, isOnly⟩ :=
    isTable.exists_ends_ok conflictFree wellFormed endFree starts ends absent leftmost.derives
  have fromForest := isOf.derivesLeftmost
  rw [isTree, isFrontier] at fromForest
  refine ⟨forest, isOf, isTree, ?_, by rw [backwards, List.reverse_reverse]⟩
  rw [(isOnly rules).mp leftmost, (isOnly forest.leftParse).mp fromForest]

end

/-- For every well-formed grammar that is not augmented yet, whose bodies do not hold the end of the
input and whose nonterminals all derive words: if its predictive table has no conflicts, then its
canonical table has none either. The two parsers then take the same inputs, and the trees grown from
the left parse and from the right parse of an input have the same text, both with the grammar and
with its augmentation. -/
theorem predictive_and_canonical_parsers_agree (grammar : Grammar) (wellFormed : grammar.WellFormed)
    (notAugmented : grammar.isAugmented = false) (endFree : grammar.BodiesEndFree)
    (productive : ∀ nonterminal < grammar.nonterminalCount, grammar.Productive nonterminal) :
    ∃ table analysis, Predictive.Table.build grammar = .ok table ∧
      ShiftReduce.Analysis.compute grammar .lr1 = .ok analysis ∧
      (table.isConflictFree = true →
        analysis.table.isConflictFree = true ∧
        ∀ tokens,
          ((∃ bound rules,
              Predictive.Parser.parse ⟨grammar, table⟩ bound tokens = some (.ok rules)) ↔
            ∃ bound parse, analysis.parser.parse bound tokens = some (.ok parse)) ∧
          ∀ bound otherBound rules parse,
            Predictive.Parser.parse ⟨grammar, table⟩ bound tokens = some (.ok rules) →
            analysis.parser.parse otherBound tokens = some (.ok parse) →
            ∃ left right text, ∀ used ∈ [grammar, analysis.grammar],
              DerivationTree.ofLeftParse used rules = .ok left ∧
              DerivationTree.ofRightParse used parse.reductions = .ok right ∧
              left.text used = .ok text ∧ right.text used = .ok text) := by
  obtain ⟨table, built, isTable⟩ := Predictive.Table.exists_build_eq_ok wellFormed
  obtain ⟨target, analyses, augmented, first, starts, family⟩ :=
    ShiftReduce.Analysis.exists_isFamilyOf wellFormed notAugmented
  have isAnalysis := family.isAnalysis .lr1
  refine ⟨table, analyses .lr1, built, family.computed .lr1, fun conflictFree => ?_⟩
  have augments : augmented.IsAugmentationOf grammar target :=
    family.grammar_eq .lr1 ▸ isAnalysis.augments
  have canonical : (analyses .lr1).table.isConflictFree = true :=
    family.isConflictFree_lr1
      (Predictive.hasUniquePredictions_augmented (isTable.hasUniquePredictions conflictFree)
        augments family.fresh starts)
      (Predictive.bodiesOpen_of_productive augments family.fresh productive)
  refine ⟨canonical,
    fun tokens => ⟨?_, fun bound otherBound rules parse parsed alsoParsed => ?_⟩⟩
  · rw [isTable.exists_parse_eq_ok conflictFree wellFormed endFree starts,
      isAnalysis.exists_parse_eq_ok canonical]
  · obtain ⟨forest, isOf, isTree, rfl, backwards⟩ :=
      isTable.exists_forest conflictFree wellFormed endFree starts isAnalysis parsed alsoParsed
    obtain ⟨left, right, text, grow⟩ := isOf.exists_trees isTree wellFormed starts
    refine ⟨left, right, text, fun used isUsed => ?_⟩
    rw [← backwards]
    rcases List.mem_cons.mp isUsed with rfl | isAugmented
    · exact grow used isOf fun _ _ => rfl
    · obtain rfl := List.mem_singleton.mp isAugmented
      have made :=
        ShiftReduce.Analysis.augmented_eq_of_compute_eq_ok notAugmented (family.computed .lr1)
      exact grow _ (isOf.augmented isAnalysis.augments) fun _ declared =>
        Grammar.symbolName_of_augmented_eq_ok made declared

/-- The predictive table for brackets has no conflicts. Both parsers take `( )`, and the trees grown
from what they hand out have the same text. -/
theorem predictive_and_canonical_parsers_agree_on_brackets :
    ∃ table analysis, Predictive.Table.build Grammar.brackets = .ok table ∧
      ShiftReduce.Analysis.compute Grammar.brackets .lr1 = .ok analysis ∧
      table.isConflictFree = true ∧ analysis.table.isConflictFree = true ∧
      ∃ bound parse left right text,
        analysis.parser.parse bound [⟨"(", 1⟩, ⟨")", 2⟩, Token.endToken] =
          some (.ok parse) ∧
        DerivationTree.ofLeftParse Grammar.brackets [0, 1, 1] = .ok left ∧
        DerivationTree.ofRightParse analysis.grammar parse.reductions = .ok right ∧
        left.text Grammar.brackets = .ok text ∧ right.text analysis.grammar = .ok text := by
  have nothing : Grammar.brackets.Productive 0 :=
    ⟨[], @Grammar.Derives.of_rule Grammar.brackets ⟨0, []⟩ (by decide)⟩
  obtain ⟨table, analysis, built, computed, agree⟩ :=
    predictive_and_canonical_parsers_agree Grammar.brackets Grammar.wellFormed_brackets rfl
      (by decide) fun nonterminal declared => (Nat.lt_one_iff.mp declared) ▸ nothing
  have evaluates :
    (Predictive.Table.build Grammar.brackets).map (fun table => (table.isConflictFree,
      Predictive.Parser.parse ⟨Grammar.brackets, table⟩ 7
        [⟨"(", 1⟩, ⟨")", 2⟩, Token.endToken])) =
      .ok (true, some (.ok [0, 1, 1])) := by
    decide +kernel
  rw [built] at evaluates
  obtain ⟨conflictFree, parsed⟩ := Prod.mk.inj (Except.ok.inj evaluates)
  obtain ⟨canonical, sameInputs⟩ := agree conflictFree
  obtain ⟨sameTaken, sameText⟩ := sameInputs [⟨"(", 1⟩, ⟨")", 2⟩, Token.endToken]
  obtain ⟨bound, parse, alsoParsed⟩ := sameTaken.mp ⟨7, _, parsed⟩
  obtain ⟨left, right, text, grown⟩ := sameText 7 bound _ parse parsed alsoParsed
  obtain ⟨leftGrown, _, leftText, _⟩ := grown Grammar.brackets (by simp)
  obtain ⟨_, rightGrown, _, rightText⟩ := grown analysis.grammar (by simp)
  exact ⟨table, analysis, built, computed, conflictFree, canonical, bound, parse, left, right,
    text, alsoParsed, leftGrown, rightGrown, leftText, rightText⟩

end DeterministicParsing
