/-
# Reductions that come to an end

A parser that hangs reduces for ever, in front of one and the same token. Without conflicts it
cannot do so in front of a token that is awaited: every reduction is then a step towards shifting
the token. The canonical method reduces in front of no other tokens. With merged lookaheads a token
may be awaited not here but after another string that leads to the same state. Then the machine
makes the same reductions as it would make there until they reach below that state; and the symbols
that take its place are each followed by the token somewhere, so that none of them can come back.

The other two methods reduce in front of tokens that are awaited nowhere. Their reductions come to
an end if some terminal is awaited after every viable prefix: they are then the ones that are made
in front of such a terminal.
-/
import Mathlib.Order.WellFoundedSet
import DeterministicParsing.Proofs.Automaton.Merging
import DeterministicParsing.Proofs.Grammar.Contraction
import DeterministicParsing.Proofs.ShiftReduce.Invariant

namespace DeterministicParsing

namespace Automaton

variable {automaton : Automaton} {first second rest : List Symbol} {id last : Nat}

/-- What leads on from a state leads on from every string that leads to the state. -/
theorem Reaches.exchange (reaches : automaton.Reaches first id)
    (alsoReaches : automaton.Reaches second id) (goesOn : automaton.Reaches (first ++ rest) last) :
    automaton.Reaches (second ++ rest) last := by
  induction rest using List.reverseRecOn generalizing last with
  | nil =>
      rw [List.append_nil] at goesOn ⊢
      exact reaches.unique goesOn ▸ alsoReaches
  | append_singleton rest symbol ih =>
      rw [← List.append_assoc] at goesOn ⊢
      obtain ⟨before, state, earlier, found, transition⟩ := reaches_snoc.mp goesOn
      exact reaches_snoc.mpr ⟨before, state, ih earlier, found, transition⟩

/-- What a state allows can come after one of the strings that lead to it. -/
theorem IsBuilt.exists_reaches_of_allows {grammar : Grammar} {kind : AutomatonKind}
    {start accept target : Nat} (fresh : grammar.HasFreshStart start accept target)
    (built : automaton.IsBuilt kind grammar accept) {string : List Symbol} {state : State}
    (reaches : automaton.Reaches string id) (found : automaton.states[id]? = some state)
    {core : Core} {terminal : Nat} (allows : state.items.Allows core terminal) :
    ∃ other, automaton.Reaches other id ∧ grammar.ValidLookahead other core terminal := by
  have sound := built.isSound.states id state found
  have marked : kind.marked = true := by
    obtain ⟨allowed, isFound, _⟩ := allows
    exact (sound.closes.marked core _ isFound).symm
  by_cases exact : kind = .lalr1
  · obtain ⟨other, isKernel, valid⟩ := built.exists_validLookahead fresh found allows
    obtain ⟨otherId, otherState, alsoReaches, alsoFound, same⟩ :=
      built.exists_counterpart fresh sound.kernel.nonempty isKernel
    -- States with the same cores are one state.
    obtain rfl := built.isSound.distinct otherId id otherState state alsoFound found
      ⟨same, fun unmerged => absurd exact unmerged⟩
    exact ⟨other, alsoReaches, valid⟩
  · exact ⟨string, reaches,
      built.validLookahead_of_allows fresh exact marked reaches found allows⟩

end Automaton

namespace ShiftReduce

variable {grammar : Grammar} {method : Method} {target terminal : Nat} {analysis : Analysis}
  {string next before after left right : List Symbol}

open Relation (ReflTransGen TransGen)

/-! ## Reductions in front of a terminal -/

/-- In front of the terminal, a rule is reduced at the end of the string. -/
def Analysis.Reduces (analysis : Analysis) (terminal : Nat) (string next : List Symbol) : Prop :=
  ∃ id ruleId rule before, analysis.automaton.Reaches string id ∧
    analysis.table.action? id terminal = some (.reduce ruleId) ∧
    analysis.grammar.rules[ruleId]? = some rule ∧ string = before ++ rule.body ∧
    next = before ++ [.nonterminal rule.head]

/-- In front of the terminal, the reductions from the string on come to an end. -/
def Analysis.Settles (analysis : Analysis) (terminal : Nat) (string : List Symbol) : Prop :=
  Acc (fun next string => analysis.Reduces terminal string next) string

/-- In front of the terminal, the reductions from the string on come to an end or leave no more than
the given number of symbols. -/
def Analysis.SettlesAbove (analysis : Analysis) (depth terminal : Nat)
    (string : List Symbol) : Prop :=
  Acc (fun next string => analysis.Reduces terminal string next ∧ depth < next.length) string

namespace Analysis

theorem Reduces.unique {other : List Symbol} (reduces : analysis.Reduces terminal string next)
    (alsoReduces : analysis.Reduces terminal string other) : next = other := by
  obtain ⟨id, ruleId, rule, before, reaches, action, found, same, rfl⟩ := reduces
  obtain ⟨_, _, _, otherBefore, alsoReaches, alsoAction, alsoFound, alsoSame, rfl⟩ :=
    alsoReduces
  obtain rfl := reaches.unique alsoReaches
  cases action.symm.trans alsoAction
  cases found.symm.trans alsoFound
  rw [List.append_cancel_right (same.symm.trans alsoSame)]

/-- What settles after the first reduction settles before it. -/
theorem Reduces.settles (reduces : analysis.Reduces terminal string next)
    (settles : analysis.Settles terminal next) : analysis.Settles terminal string := by
  refine Acc.intro string fun other alsoReduces => ?_
  rw [← reduces.unique alsoReduces]
  exact settles

theorem Settles.of_reduces (settles : analysis.Settles terminal next)
    (reduces : ReflTransGen (analysis.Reduces terminal) string next) :
    analysis.Settles terminal string := by
  induction reduces using ReflTransGen.head_induction_on with
  | refl => exact settles
  | head first _ ih => exact first.settles ih

theorem settles_of_action {id : Nat} {action : Action}
    (reaches : analysis.automaton.Reaches string id)
    (acts : analysis.table.action? id terminal = some action)
    (other : ∀ rule, action ≠ .reduce rule) :
    analysis.Settles terminal string := by
  refine Acc.intro string fun next reduces => ?_
  obtain ⟨alsoId, ruleId, _, _, alsoReaches, alsoActs, _⟩ := reduces
  obtain rfl := reaches.unique alsoReaches
  exact absurd (Option.some.inj (acts.symm.trans alsoActs)) (other ruleId)

/-- What a reduction leaves standing has no part in it but for the state it leads to. -/
theorem Reduces.exists_of_append {first rest : List Symbol}
    (reduces : analysis.Reduces terminal (first ++ rest) next)
    (longer : first.length < next.length) :
    ∃ shorter, next = first ++ shorter ∧ ∀ {id : Nat} {second : List Symbol},
      analysis.automaton.Reaches first id → analysis.automaton.Reaches second id →
      analysis.Reduces terminal (second ++ rest) (second ++ shorter) := by
  obtain ⟨last, ruleId, rule, before, goesOn, action, found, same, rfl⟩ := reduces
  rw [List.length_append, List.length_singleton] at longer
  obtain ⟨between, rfl⟩ : first <+: before :=
    List.prefix_of_prefix_length_le ⟨rest, same⟩ ⟨rule.body, rfl⟩ (by omega)
  rw [List.append_assoc] at same ⊢
  obtain rfl := List.append_cancel_left same
  refine ⟨between ++ [.nonterminal rule.head], rfl, fun reaches alsoReaches => ?_⟩
  exact ⟨last, ruleId, rule, _ ++ between, reaches.exchange alsoReaches goesOn, action, found,
    (List.append_assoc _ _ _).symm, (List.append_assoc _ _ _).symm⟩

namespace IsAnalysisOf

variable (isAnalysis : analysis.IsAnalysisOf grammar method target)
include isAnalysis

/-- A reduction is a contraction, and leads to a string that is a viable prefix again. -/
theorem contracts_of_reduces (reduces : analysis.Reduces terminal string next) :
    analysis.grammar.Contracts string next ∧ ∃ id, analysis.automaton.Reaches next id := by
  obtain ⟨id, ruleId, rule, before, reaches, action, found, same, rfl⟩ := reduces
  obtain ⟨alsoRule, alsoBefore, after, alsoFound, other, frame, alsoSame⟩ :=
    isAnalysis.exists_frame_of_mem_cell reaches (Table.mem_cell_of_action?_eq_some action)
  cases found.symm.trans alsoFound
  cases List.append_cancel_right (same.symm.trans alsoSame)
  have notStart := isAnalysis.start_ne_ok.mpr other
  refine ⟨?_, isAnalysis.built.exists_reaches isAnalysis.fresh
    (frame.viablePrefix_snoc notStart)⟩
  rw [same]
  exact .replace (List.mem_of_getElem? found) notStart before

/-- A symbol that has been read occurs in a rule. -/
theorem occurs_of_reaches {front : List Symbol} {symbol : Symbol} {id : Nat}
    (reaches : analysis.automaton.Reaches (front ++ [symbol]) id) :
    symbol ∈ analysis.grammar.rules.flatMap Rule.body := by
  obtain ⟨core, _, rest, _, rule, found, expects⟩ :=
    Grammar.viablePrefix_snoc.mp (isAnalysis.built.viablePrefix isAnalysis.fresh reaches)
  refine List.mem_flatMap.mpr ⟨rule, List.mem_of_getElem? found, ?_⟩
  exact List.mem_of_mem_drop (expects ▸ List.mem_cons_self)

variable (conflictFree : analysis.table.isConflictFree = true)
include conflictFree

/-! ## In front of a terminal that is awaited -/

/-- Without conflicts, a rule is reduced where it is looked for and the terminal can come after
it. -/
theorem reduces_of_frame {rule : Rule} (member : rule ∈ analysis.grammar.rules)
    (other : analysis.grammar.start ≠ .ok rule.head)
    (frame : analysis.grammar.Frame before rule.head after)
    (begins : analysis.grammar.DerivesBeginning after terminal) :
    analysis.Reduces terminal (before ++ rule.body) (before ++ [.nonterminal rule.head]) := by
  obtain ⟨ruleId, found⟩ := List.getElem?_of_mem member
  have valid :
      analysis.grammar.ValidFor (before ++ rule.body) ⟨ruleId, rule.body.length⟩ after :=
    ⟨rule, before, found, Nat.le_refl _, frame, by rw [List.take_length]⟩
  obtain ⟨id, reaches⟩ := isAnalysis.built.exists_reaches isAnalysis.fresh ⟨_, _, valid⟩
  have proposed := isAnalysis.mem_cell_reduce reaches found (isAnalysis.start_ne_ok.mp other) valid
    begins
  exact ⟨id, ruleId, rule, before, reaches, Table.action?_eq_some conflictFree proposed, found,
    rfl, rfl⟩

/-- A contraction after which the terminal is awaited is the reduction in front of it. -/
theorem reduces_of_contracts (contracts : analysis.grammar.Contracts string next)
    (awaits : analysis.grammar.Awaits next terminal) : analysis.Reduces terminal string next := by
  obtain ⟨member, other, before⟩ := contracts
  obtain ⟨after, frame, begins⟩ := awaits.exists_frame
  exact isAnalysis.reduces_of_frame conflictFree member other frame begins

/-- Symbols that vanish are put in by reductions if the terminal can come after them. -/
theorem reduces_of_vanishes {middle : List Symbol} {head : Nat}
    (vanishes : analysis.grammar.Vanishes middle) (frame : analysis.grammar.Frame before head after)
    (member : ⟨head, left ++ (middle ++ right)⟩ ∈ analysis.grammar.rules)
    (begins : analysis.grammar.DerivesBeginning (right ++ after) terminal) :
    ReflTransGen (analysis.Reduces terminal) (before ++ left) (before ++ (left ++ middle)) := by
  induction vanishes generalizing before after left right head with
  | nil => rw [List.append_nil]
  | @cons rule rest isRule _ others bodyReduces othersReduce =>
      -- First the body of the rule is put in, then its head takes the place of the body.
      rw [List.cons_append] at member
      have inner := frame.within member
      have innerBegins : analysis.grammar.DerivesBeginning ((rest ++ right) ++ after) terminal := by
        rw [List.append_assoc]
        exact Grammar.derivesBeginning_append.mpr (.inr ⟨others.derives, begins⟩)
      have other : analysis.grammar.start ≠ .ok rule.head := by
        refine isAnalysis.start_ne_ok.mpr fun same => ?_
        exact isAnalysis.fresh.fresh _ member (by simp [same])
      have body := @bodyReduces (before ++ left) _ [] [] rule.head inner (by simpa using isRule)
        innerBegins
      have headReduces := isAnalysis.reduces_of_frame conflictFree isRule other inner innerBegins
      rw [List.append_cons] at member
      have rest := othersReduce frame member begins
      rw [List.append_nil, List.nil_append] at body
      rw [← List.append_assoc] at rest
      rw [List.append_cons]
      exact (body.tail headReduces).trans rest

/-- A rule of which the rest vanishes is completed by reductions if the terminal can come after
it. -/
theorem reduces_completing {head : Nat} (vanishes : analysis.grammar.Derives right [])
    (frame : analysis.grammar.Frame before head after)
    (member : ⟨head, left ++ right⟩ ∈ analysis.grammar.rules)
    (begins : analysis.grammar.DerivesBeginning after terminal) :
    ReflTransGen (analysis.Reduces terminal) (before ++ left) (before ++ (left ++ right)) := by
  rw [← List.append_nil right] at member
  exact isAnalysis.reduces_of_vanishes conflictFree vanishes.vanishes frame member begins

/-- Inside a rule, the reductions settle if the rest of the rule begins with the terminal. -/
theorem settles_of_begins {head : Nat} (begins : analysis.grammar.Begins terminal right)
    (frame : analysis.grammar.Frame before head after)
    (member : ⟨head, left ++ right⟩ ∈ analysis.grammar.rules) :
    analysis.Settles terminal (before ++ left) := by
  induction begins generalizing before after left head with
  | read rest =>
      -- The terminal is shifted.
      obtain ⟨ruleId, found⟩ := List.getElem?_of_mem member
      have viable : analysis.grammar.ViablePrefix (before ++ left ++ [.terminal terminal]) := by
        refine ⟨⟨ruleId, left.length + 1⟩, after, _, before, found, by simp, frame, ?_⟩
        simp [List.take_append]
      obtain ⟨id, reaches⟩ := isAnalysis.built.exists_reaches isAnalysis.fresh viable.of_append
      obtain ⟨state, isState⟩ := isAnalysis.built.exists_state reaches
      obtain ⟨shifted, transition⟩ :=
        isAnalysis.built.exists_transition isAnalysis.fresh reaches isState viable
      have proposed := (isAnalysis.isTable.mem_cell_shift isAnalysis.built isState).mpr transition
      exact settles_of_action reaches (Table.action?_eq_some conflictFree proposed) (by simp)
  | @skip symbol rest vanishes begins ih =>
      rw [List.append_cons] at member
      have later := ih frame member
      rw [← List.append_cons] at member
      refine later.of_reduces (isAnalysis.reduces_of_vanishes conflictFree vanishes frame member ?_)
      exact Grammar.derivesBeginning_append.mpr (.inl begins.derivesBeginning)
  | enter isRule _ rest ih =>
      rw [← List.append_nil (before ++ left)]
      exact ih (frame.within member) isRule

/-- Without conflicts, the reductions settle in front of every terminal that is awaited. -/
theorem settles_of_awaits (awaits : analysis.grammar.Awaits string terminal) :
    analysis.Settles terminal string := by
  obtain ⟨before, after, left, right, head, frame, member, rfl, begins⟩ := awaits
  induction frame generalizing left right with
  | @start head starts =>
      rcases Grammar.derivesBeginning_append.mp begins with inRight | ⟨vanishes, inAfter⟩
      · exact isAnalysis.settles_of_begins conflictFree inRight.begins (.start starts) member
      · -- The input is accepted.
        have puts := isAnalysis.reduces_completing conflictFree vanishes (.start starts) member
          inAfter
        obtain ⟨id, found⟩ := List.getElem?_of_mem member
        obtain rfl := Except.ok.inj (starts.symm.trans isAnalysis.fresh.start_eq)
        obtain rfl := isAnalysis.fresh.unique id _ found rfl
        have body : left ++ right = [.nonterminal target] :=
          (Rule.mk.inj (Option.some.inj (found.symm.trans isAnalysis.fresh.found))).2
        rw [body, List.nil_append] at puts
        have viable : analysis.grammar.ViablePrefix [.nonterminal target] :=
          ⟨⟨grammar.rules.length, 1⟩, _, _, [], isAnalysis.fresh.found, Nat.le_refl _,
            .start starts, rfl⟩
        obtain ⟨last, reaches⟩ := isAnalysis.built.exists_reaches isAnalysis.fresh viable
        obtain rfl := Grammar.derivesBeginning_word_cons.mp inAfter
        refine (settles_of_action reaches (Table.action?_eq_some conflictFree
          (isAnalysis.mem_cell_accept reaches)) ?_).of_reduces puts
        simp
  | @within outerBefore outerAfter outerLeft outerRight outerHead head outer outerMember ih =>
      have inner := outer.within outerMember
      rcases Grammar.derivesBeginning_append.mp begins with inRight | ⟨vanishes, inAfter⟩
      · exact isAnalysis.settles_of_begins conflictFree inRight.begins inner member
      · -- The rule is completed and reduced, and the rule around it goes on.
        have puts := isAnalysis.reduces_completing conflictFree vanishes inner member inAfter
        have other : analysis.grammar.start ≠ .ok head := by
          refine isAnalysis.start_ne_ok.mpr fun same => ?_
          exact isAnalysis.fresh.fresh _ outerMember (by simp [same])
        have reduces := isAnalysis.reduces_of_frame conflictFree member other inner inAfter
        rw [List.append_cons] at outerMember
        have later := ih (outerLeft ++ [.nonterminal head]) outerRight outerMember inAfter
        rw [← List.append_assoc] at later
        exact (reduces.settles later).of_reduces puts

/-- Contractions after which the terminal is awaited come to an end. -/
theorem wellFounded_approaches (terminal : Nat) :
    WellFounded (Function.swap (analysis.grammar.Approaches terminal)) := by
  refine ⟨fun string => ?_⟩
  by_cases awaits : analysis.grammar.Awaits string terminal
  · have settles := isAnalysis.settles_of_awaits conflictFree awaits
    clear awaits
    induction settles with
    | intro string _ ih =>
        refine Acc.intro string fun next ⟨contracts, awaits⟩ => ih next ?_
        exact isAnalysis.reduces_of_contracts conflictFree contracts awaits
  · exact Acc.intro string fun next ⟨contracts, later⟩ =>
      absurd (contracts.awaits later) awaits

/-! ## Where something is always awaited -/

/-- If some terminal is awaited after every viable prefix, all reductions settle. -/
theorem settles_of_always_awaits
    (always : ∀ string, analysis.grammar.ViablePrefix string →
      ∃ awaited, analysis.grammar.Awaits string awaited) {id : Nat}
    (reaches : analysis.automaton.Reaches string id) : analysis.Settles terminal string := by
  -- The terminals that are awaited become fewer and fewer; as long as one of them stays, the
  -- reductions are those in front of it.
  suffices bounded : ∀ terminals string, (∃ id, analysis.automaton.Reaches string id) →
      (∀ awaited, analysis.grammar.Awaits string awaited → awaited ∈ terminals) →
      analysis.Settles terminal string by
    exact bounded _ string ⟨id, reaches⟩ fun awaited awaits => awaits.mem
  intro terminals
  induction terminals with
  | nil =>
      rintro string ⟨id, reaches⟩ among
      obtain ⟨awaited, awaits⟩ :=
        always string (isAnalysis.built.viablePrefix isAnalysis.fresh reaches)
      exact absurd (among awaited awaits) List.not_mem_nil
  | cons first others ih =>
      intro string
      induction string using (isAnalysis.wellFounded_approaches conflictFree first).induction with
      | _ string stays =>
          intro reaches among
          refine Acc.intro string fun next reduces => ?_
          obtain ⟨contracts, nextReaches⟩ := isAnalysis.contracts_of_reduces reduces
          have still (awaited : Nat) (awaits : analysis.grammar.Awaits next awaited) :
              awaited ∈ first :: others := among awaited (contracts.awaits awaits)
          by_cases awaits : analysis.grammar.Awaits next first
          · exact stays next ⟨contracts, awaits⟩ nextReaches still
          · refine ih next nextReaches fun awaited alsoAwaits => ?_
            refine (List.mem_cons.mp (still awaited alsoAwaits)).resolve_left fun same => ?_
            exact awaits (same ▸ alsoAwaits)

/-! ## With lookaheads -/

omit conflictFree in
/-- With lookaheads, a reduction is made in front of terminals that are awaited after some string
that leads to the same state, before the reduction and after it. -/
theorem exists_awaits_of_reduces (marked : method.automatonKind.marked = true)
    (reduces : analysis.Reduces terminal string next) :
    ∃ id other before otherBefore symbol, analysis.automaton.Reaches string id ∧
      analysis.automaton.Reaches other id ∧ analysis.grammar.Awaits other terminal ∧
      next = before ++ [symbol] ∧ analysis.grammar.Awaits (otherBefore ++ [symbol]) terminal := by
  obtain ⟨id, ruleId, rule, before, reaches, action, found, _, rfl⟩ := reduces
  obtain ⟨state, isState⟩ := isAnalysis.built.exists_state reaches
  obtain ⟨alsoRule, alsoFound, notStart, _, permits⟩ :=
    (isAnalysis.mem_cell_reduce_iff isState).mp (Table.mem_cell_of_action?_eq_some action)
  cases found.symm.trans alsoFound
  have allows : state.items.Allows ⟨ruleId, rule.body.length⟩ terminal := by
    cases method with
    | lr0 => cases marked
    | slr1 => cases marked
    | lr1 => exact permits
    | lalr1 => exact permits
  obtain ⟨other, alsoReaches, valid⟩ :=
    isAnalysis.built.exists_reaches_of_allows isAnalysis.fresh reaches isState allows
  have awaits := valid.awaits found rfl
  obtain ⟨after, ⟨_, otherBefore, sameRule, _, frame, _⟩, begins⟩ := valid
  cases found.symm.trans sameRule
  exact ⟨id, other, before, otherBefore, _, reaches, alsoReaches, awaits, rfl,
    frame.awaits_snoc (isAnalysis.start_ne_ok.mpr notStart) begins⟩

/-- As long as the reductions leave a string standing, they are the same after every other string
that leads to the same state. -/
theorem settlesAbove_of_reaches (marked : method.automatonKind.marked = true) {id : Nat}
    (reaches : analysis.automaton.Reaches string id) :
    analysis.SettlesAbove string.length terminal string := by
  refine Acc.intro string fun next ⟨reduces, longer⟩ => ?_
  obtain ⟨alsoId, other, _, _, _, sameReaches, otherReaches, awaits, _⟩ :=
    isAnalysis.exists_awaits_of_reduces marked reduces
  obtain rfl := reaches.unique sameReaches
  have settles := isAnalysis.settles_of_awaits conflictFree awaits
  suffices above : ∀ rest, analysis.Settles terminal (other ++ rest) →
      analysis.SettlesAbove string.length terminal (string ++ rest) by
    have here := above [] (by rwa [List.append_nil])
    rw [List.append_nil] at here
    exact here.inv ⟨reduces, longer⟩
  intro rest otherSettles
  generalize isWhole : other ++ rest = whole at otherSettles
  induction otherSettles generalizing rest with
  | intro whole _ ih =>
      refine Acc.intro _ fun next ⟨reduces, longer⟩ => ?_
      obtain ⟨shorter, rfl, exchanged⟩ := reduces.exists_of_append longer
      exact ih _ (isWhole ▸ exchanged reaches otherReaches) shorter rfl

/-- Contractions lead from no symbol back to itself if the terminal is awaited behind it. -/
theorem isStrictOrder_supersedes (terminal : Nat) :
    IsStrictOrder Symbol (analysis.grammar.Supersedes terminal) where
  irrefl := by
    rintro symbol ⟨contracts, before, awaits⟩
    have inPlace := contracts.lift (before ++ ·) fun _ _ step => step.context before
    have comesBack := Relation.transGen_swap.mpr (Grammar.approaches_of_contracts inPlace awaits)
    exact (isAnalysis.wellFounded_approaches conflictFree terminal).transGen.irrefl.irrefl _
      comesBack
  trans := by
    rintro last middle first ⟨later, awaited⟩ ⟨earlier, _⟩
    exact ⟨earlier.trans later, awaited⟩

/-- If all reductions from strings that are no longer than some front settle, so do those from the
front with one more symbol. -/
theorem settles_snoc (marked : method.automatonKind.marked = true) {front : List Symbol}
    (noLonger : ∀ string id, analysis.automaton.Reaches string id →
      string.length ≤ front.length →
        analysis.Settles terminal string) {symbol : Symbol} {id : Nat}
    (reaches : analysis.automaton.Reaches (front ++ [symbol]) id) :
    analysis.Settles terminal (front ++ [symbol]) := by
  have isStrictOrder := isAnalysis.isStrictOrder_supersedes conflictFree terminal
  have finite : {symbol | symbol ∈ analysis.grammar.rules.flatMap Rule.body}.Finite :=
    List.finite_toSet _
  have wellFounded := finite.wellFoundedOn (r := analysis.grammar.Supersedes terminal)
  -- The reductions end or reach below the symbol at last. If they leave the front and a symbol
  -- then, that symbol supersedes this one.
  refine wellFounded.induction (isAnalysis.occurs_of_reaches reaches) (P := fun symbol => ∀ id,
    analysis.automaton.Reaches (front ++ [symbol]) id →
      analysis.Settles terminal (front ++ [symbol]))
    ?_ id reaches
  intro symbol _ superseding id reaches
  suffices settles : ∀ rest, ReflTransGen analysis.grammar.Contracts [symbol] rest →
      analysis.SettlesAbove (front ++ [symbol]).length terminal (front ++ rest) →
      analysis.Settles terminal (front ++ rest) from
    settles [symbol] .refl (isAnalysis.settlesAbove_of_reaches conflictFree marked reaches)
  intro rest contracts above
  generalize isString : front ++ rest = string at above ⊢
  induction above generalizing rest with
  | intro string _ ih =>
      subst isString
      refine Acc.intro _ fun next reduces => ?_
      obtain ⟨contractsNext, nextId, nextReaches⟩ := isAnalysis.contracts_of_reduces reduces
      rcases Nat.lt_or_ge front.length next.length with longer | few
      · obtain ⟨shorter, rfl, step⟩ := contractsNext.exists_of_append longer
        by_cases stillAbove : (front ++ [symbol]).length < (front ++ shorter).length
        · exact ih _ ⟨reduces, stillAbove⟩ shorter (contracts.tail step) rfl
        · simp only [List.length_append, List.length_singleton] at longer stillAbove
          obtain ⟨only, rfl⟩ := List.length_eq_one_iff.mp (by omega : shorter.length = 1)
          obtain ⟨_, _, before, otherBefore, last, _, _, _, same, awaits⟩ :=
            isAnalysis.exists_awaits_of_reduces marked reduces
          cases (List.append_inj' same rfl).2
          exact superseding only (isAnalysis.occurs_of_reaches nextReaches)
            ⟨.tail' contracts step, otherBefore, awaits⟩ nextId nextReaches
      · exact noLonger next nextId nextReaches few

/-- With lookaheads and without conflicts, all reductions settle. -/
theorem settles_of_reaches (marked : method.automatonKind.marked = true) (string : List Symbol)
    (id : Nat) (reaches : analysis.automaton.Reaches string id) :
    analysis.Settles terminal string := by
  induction size : string.length using Nat.strong_induction_on generalizing string id with
  | _ size shorter =>
      rcases List.eq_nil_or_concat' string with rfl | ⟨front, symbol, rfl⟩
      · have above : analysis.SettlesAbove 0 terminal [] :=
          isAnalysis.settlesAbove_of_reaches conflictFree marked reaches
        refine Subrelation.accessible (fun {next string} reduces => ⟨reduces, ?_⟩) above
        obtain ⟨_, _, _, _, _, _, _, _, rfl⟩ := reduces
        simp
      · refine isAnalysis.settles_snoc conflictFree marked
          (fun other otherId otherReaches few => ?_) reaches
        refine shorter other.length ?_ other otherId otherReaches rfl
        rw [← size, List.length_append, List.length_singleton]
        omega

end IsAnalysisOf

end Analysis

end ShiftReduce

end DeterministicParsing
