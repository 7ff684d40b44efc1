/-
# Passes reach a fixed point

A step lowers a measure if it succeeds on good values, keeps them good and makes the measure smaller
whenever it changes something. Such steps can be made one after another, and when all of them
together change nothing, none of them does. Repeating a pass of them until nothing changes comes to
rest after at most one pass more than the measure says, with a value that the pass leaves alone. So
a bound on the number of passes that the measure justifies cuts nothing short.

A step grows a value if it only adds to what the value holds. What is held is given by a view: a set
of facts that tells good values apart. If all facts come from a finite set, the measure is the
number of facts that are missing. First sets, Follow sets and closures are found in this way, and
short sentences by lowering their lengths, so this module says once why their loops end where they
should.
-/
import Mathlib.Data.Set.Card
import Mathlib.Order.Interval.Set.Nat
import DeterministicParsing.FixedPoint

namespace DeterministicParsing

variable {ε σ α β : Type}

/-! ## Computations that succeed -/

/-- Steps that succeed on good values and keep them good succeed one after another. -/
theorem exists_foldlM_eq_ok {step : σ → α → Except ε σ} {good : σ → Prop}
    {list : List α}
    (total : ∀ value, good value → ∀ item ∈ list, ∃ next, step value item = .ok next ∧
      good next) {value : σ} (start : good value) :
    ∃ final, list.foldlM step value = .ok final ∧ good final := by
  induction list generalizing value with
  | nil => exact ⟨value, rfl, start⟩
  | cons item rest ih =>
      obtain ⟨next, made, kept⟩ := total value start item (by simp)
      obtain ⟨final, reached, finalGood⟩ :=
        ih (fun value isGood other member => total value isGood other (by simp [member])) kept
      refine ⟨final, ?_, finalGood⟩
      rw [List.foldlM_cons, made, ok_bind, reached]

/-- If each step in addition gets something done that later steps do not undo, then all of it is
done in the end. -/
theorem exists_foldlM_eq_ok_of_done {step : σ → α → Except ε σ} {good : σ → Prop}
    {done : σ → α → Prop} {list : List α}
    (total : ∀ value, good value → ∀ item ∈ list, ∃ next, step value item = .ok next ∧
      good next ∧ done next item ∧ ∀ other, done value other → done next other)
    {value : σ} (start : good value) :
    ∃ final, list.foldlM step value = .ok final ∧ good final ∧
      (∀ item ∈ list, done final item) ∧ ∀ other,
        done value other → done final other := by
  induction list generalizing value with
  | nil => exact ⟨value, rfl, start, by simp, fun _ isDone => isDone⟩
  | cons item rest ih =>
      obtain ⟨next, made, kept, itemDone, stays⟩ := total value start item (by simp)
      obtain ⟨final, reached, finalGood, restDone, staysOn⟩ :=
        ih (fun value isGood other member => total value isGood other (by simp [member])) kept
      refine ⟨final, ?_, finalGood, fun other member => ?_, fun other isDone => ?_⟩
      · rw [List.foldlM_cons, made, ok_bind, reached]
      · rcases List.mem_cons.mp member with rfl | member
        · exact staysOn other itemDone
        · exact restDone other member
      · exact staysOn other (stays other isDone)

/-- A computation that succeeds on every member of a list succeeds on the list. -/
theorem exists_mapM_eq_ok {compute : α → Except ε β} {holds : α → β → Prop}
    {list : List α}
    (total : ∀ item ∈ list, ∃ result, compute item = .ok result ∧ holds item result) :
    ∃ results, list.mapM compute = .ok results ∧ List.Forall₂ holds list results := by
  induction list with
  | nil => exact ⟨[], rfl, .nil⟩
  | cons item rest ih =>
      obtain ⟨result, computed, here⟩ := total item (by simp)
      obtain ⟨results, computedRest, there⟩ :=
        ih fun other member => total other (by simp [member])
      exact ⟨result :: results, by simp [computed, computedRest], .cons here there⟩

/-- Computations that agree on every member of a list agree on the list. -/
theorem mapM_congr {compute other : α → Except ε β} {list : List α}
    (same : ∀ item ∈ list, compute item = other item) :
    list.mapM compute = list.mapM other := by
  induction list with
  | nil => rfl
  | cons item rest ih =>
      rw [List.mapM_cons, List.mapM_cons, same item (by simp),
        ih fun other member => same other (by simp [member])]

/-- A computation that has a known result on every member of a list has these results on the
list. -/
theorem mapM_eq_ok_map {compute : α → Except ε β} {result : α → β} {list : List α}
    (computed : ∀ item ∈ list, compute item = .ok (result item)) :
    list.mapM compute = .ok (list.map result) := by
  rw [mapM_congr computed]
  exact List.mapM_pure

/-- A computation that succeeds on a list or fails for a reason of some kind does so if it does on
every member. -/
theorem mapM_eq_ok_or_error {compute : α → Except ε β} {holds : α → β → Prop}
    {fails : ε → Prop} {list : List α}
    (each : ∀ item ∈ list, (∃ result, compute item = .ok result ∧ holds item result) ∨
      ∃ reason, compute item = .error reason ∧ fails reason) :
    (∃ results, list.mapM compute = .ok results ∧ List.Forall₂ holds list results) ∨
      ∃ reason, list.mapM compute = .error reason ∧ fails reason := by
  induction list with
  | nil => exact .inl ⟨[], rfl, .nil⟩
  | cons item rest ih =>
      rw [List.mapM_cons]
      rcases each item (by simp) with ⟨result, computed, here⟩ | ⟨reason, failed, isReason⟩
      · rcases ih fun other member => each other (by simp [member]) with
          ⟨results, computedRest, there⟩ | ⟨reason, failed, isReason⟩
        · exact .inl ⟨result :: results, by rw [computed, computedRest]; rfl, .cons here there⟩
        · exact .inr ⟨reason, by rw [computed, failed]; rfl, isReason⟩
      · exact .inr ⟨reason, by rw [failed]; rfl, isReason⟩

/-- A test that succeeds on every member of a list tells whether some member passes it. -/
theorem exists_anyM_eq_ok {test : α → Except ε Bool} {holds : α → Prop} {list : List α}
    (total : ∀ item ∈ list, ∃ result, test item = .ok result ∧
      (result = true ↔ holds item)) :
    ∃ result, list.anyM test = .ok result ∧
      (result = true ↔ ∃ item ∈ list, holds item) := by
  induction list with
  | nil => exact ⟨false, rfl, by simp⟩
  | cons item rest ih =>
      obtain ⟨here, tested, passes⟩ := total item (by simp)
      obtain ⟨there, testedRest, passesRest⟩ :=
        ih fun other member => total other (by simp [member])
      cases here with
      | true => exact ⟨true, by simp [List.anyM, tested], by simp [← passes]⟩
      | false =>
          refine ⟨there, by simp [List.anyM, tested, testedRest], ?_⟩
          rw [passesRest]
          simp [← passes]

/-- A test that has a known result on every member of a list keeps those with a positive one, in
order. -/
theorem filterM_eq_ok_filter {test : α → Except ε Bool} {keeps : α → Bool} {list : List α}
    (tested : ∀ item ∈ list, test item = .ok (keeps item)) :
    list.filterM test = .ok (list.filter keeps) := by
  have aux (earlier : List α) :
      list.filterAuxM test earlier = .ok ((list.filter keeps).reverse ++ earlier) := by
    induction list generalizing earlier with
    | nil => rfl
    | cons item rest ih =>
        rw [List.filterAuxM, tested item (by simp), ok_bind,
          ih fun other member => tested other (by simp [member])]
        cases passes : keeps item <;> simp [passes]
  rw [List.filterM, aux, ok_bind]
  simp

/-- A test that succeeds on every member of a list keeps those that pass it. -/
theorem exists_filterM_eq_ok {test : α → Except ε Bool} {holds : α → Prop} {list : List α}
    (total : ∀ item ∈ list, ∃ result, test item = .ok result ∧
      (result = true ↔ holds item)) :
    ∃ kept, list.filterM test = .ok kept ∧ ∀ item, item ∈ kept ↔
      item ∈ list ∧ holds item := by
  have tested : ∀ item ∈ list, test item = .ok ((test item).toOption.getD false) := by
    intro item member
    obtain ⟨result, found, _⟩ := total item member
    rw [found]
    rfl
  refine ⟨_, filterM_eq_ok_filter tested, fun item => ?_⟩
  rw [List.mem_filter]
  refine and_congr_right fun member => ?_
  obtain ⟨result, found, passes⟩ := total item member
  rw [found]
  exact passes

/-- A computation for each element of a list succeeds only if all of them do. -/
theorem forall₂_of_mapM_eq_ok {compute : α → Except ε β} {list : List α} {results : List β}
    (computed : list.mapM compute = .ok results) :
    List.Forall₂ (fun item result => compute item = .ok result) list results := by
  induction list generalizing results with
  | nil =>
      cases computed
      exact .nil
  | cons item rest ih =>
      rw [List.mapM_cons] at computed
      obtain ⟨result, here, others⟩ := exists_of_bind_eq_ok computed
      obtain ⟨restResults, there, same⟩ := exists_of_bind_eq_ok others
      cases same
      exact .cons here (ih there)

/-- Where two lists correspond member by member, each member of the first has one of the second. -/
theorem exists_of_mem_left {holds : α → β → Prop} {list : List α} {results : List β}
    (each : List.Forall₂ holds list results) {item : α} (member : item ∈ list) :
    ∃ result ∈ results, holds item result := by
  induction each with
  | nil => cases member
  | cons here _ ih =>
      rcases List.mem_cons.mp member with rfl | later
      · exact ⟨_, .head _, here⟩
      · obtain ⟨result, inRest, there⟩ := ih later
        exact ⟨result, .tail _ inRest, there⟩

/-- And each member of the second has one of the first. -/
theorem exists_of_mem_right {holds : α → β → Prop} {list : List α} {results : List β}
    (each : List.Forall₂ holds list results) {result : β} (member : result ∈ results) :
    ∃ item ∈ list, holds item result :=
  exists_of_mem_left (List.Forall₂.flip each) member

/-- What every step keeps holds of what all steps together lead to. -/
theorem holds_of_foldlM_eq_ok {step : σ → α → Except ε σ} {good : σ → Prop}
    {list : List α}
    (keeps : ∀ value item next, good value → step value item = .ok next → good next)
    {value final : σ} (start : good value) (folded : list.foldlM step value = .ok final) :
    good final := by
  induction list generalizing value with
  | nil =>
      cases folded
      exact start
  | cons item rest ih =>
      rw [List.foldlM_cons] at folded
      obtain ⟨next, made, others⟩ := exists_of_bind_eq_ok folded
      exact ih (keeps value item next start made) others

/-- A fold that fails goes well up to some item, and fails there. -/
theorem exists_of_foldlM_eq_error {step : σ → α → Except ε σ} {list : List α} {value : σ}
    {reason : ε} (failed : list.foldlM step value = .error reason) :
    ∃ earlier item later reached, list = earlier ++ item :: later ∧
      earlier.foldlM step value = .ok reached ∧ step reached item = .error reason := by
  induction list generalizing value with
  | nil => cases failed
  | cons item rest ih =>
      rw [List.foldlM_cons] at failed
      cases made : step value item with
      | error other =>
          rw [made] at failed
          cases failed
          exact ⟨[], item, rest, value, rfl, rfl, made⟩
      | ok next =>
          rw [made, ok_bind] at failed
          obtain ⟨earlier, other, later, reached, split, folded, fails⟩ := ih failed
          refine ⟨item :: earlier, other, later, reached, congrArg _ split, ?_, fails⟩
          rw [List.foldlM_cons, made, ok_bind, folded]

/-- Steps that change nothing change nothing together. -/
theorem foldlM_eq_self {step : σ → α → Except ε σ} {value : σ} {list : List α}
    (each : ∀ item ∈ list, step value item = .ok value) :
    list.foldlM step value = .ok value := by
  induction list with
  | nil => rfl
  | cons item rest ih =>
      rw [List.foldlM_cons, each item (by simp), ok_bind]
      exact ih fun other member => each other (by simp [member])

/-! ## Passes without a bound -/

/-- Passes are made until one of them changes nothing, however many it takes. They are counted, the
one without a change included. -/
inductive ComesToRest (pass : σ → Except Fault σ) : σ → σ → Nat → Prop where
  /-- The first pass changes nothing. -/
  | atRest {value : σ} (fixed : pass value = .ok value) : ComesToRest pass value value 1
  /-- The first pass changes something. -/
  | changed {value next final : σ} {passes : Nat} (made : pass value = .ok next)
      (differs : next ≠ value) (later : ComesToRest pass next final passes) :
      ComesToRest pass value final (passes + 1)

namespace ComesToRest

variable {pass : σ → Except Fault σ} {value final : σ} {passes : Nat}

theorem fixed (rests : ComesToRest pass value final passes) : pass final = .ok final := by
  induction rests with
  | atRest fixed => exact fixed
  | changed _ _ _ ih => exact ih

/-- A bound that is large enough makes no difference. -/
theorem stabilize_eq_ok [DecidableEq σ] (rests : ComesToRest pass value final passes) {bound : Nat}
    (enough : passes ≤ bound) : stabilize pass bound value = .ok (final, passes) := by
  induction rests generalizing bound with
  | atRest fixed =>
      obtain ⟨bound, rfl⟩ := Nat.exists_eq_succ_of_ne_zero (Nat.one_le_iff_ne_zero.mp enough)
      exact stabilize_of_fixed bound fixed
  | changed made differs _ ih =>
      obtain ⟨bound, rfl⟩ := Nat.exists_eq_succ_of_ne_zero (by omega : bound ≠ 0)
      rw [stabilize, made, ok_bind, if_neg differs, ih (by omega)]
      rfl

end ComesToRest

/-! ## Steps that lower a measure -/

/-- A step that succeeds on good values, keeps them good and lowers a measure unless it changes
nothing. -/
def Lowers (good : σ → Prop) (measure : σ → Nat) (step : σ → Except ε σ) : Prop :=
  ∀ value, good value → ∃ next, step value = .ok next ∧ good next ∧
    (next = value ∨ measure next < measure value)

namespace Lowers

variable {good : σ → Prop} {measure : σ → Nat}

/-- Steps that lower a measure one after another lower it together. -/
theorem foldlM {step : σ → α → Except ε σ} {list : List α}
    (each : ∀ item ∈ list, Lowers good measure (step · item)) :
    Lowers good measure (list.foldlM step ·) := by
  intro value isGood
  have total : ∀ current, good current ∧
    (current = value ∨ measure current < measure value) →
      ∀ item ∈ list, ∃ next, step current item = .ok next ∧
        good next ∧ (next = value ∨ measure next < measure value) := by
    rintro current ⟨currentGood, lowered⟩ item member
    obtain ⟨next, made, nextGood, more⟩ := each item member current currentGood
    refine ⟨next, made, nextGood, ?_⟩
    rcases more with rfl | lower
    · exact lowered
    · rcases lowered with rfl | low
      · exact .inr lower
      · exact .inr (lower.trans low)
  exact exists_foldlM_eq_ok total ⟨isGood, .inl rfl⟩

/-- If steps that lower a measure leave a value as it was when all of them have been made, then each
of them leaves it as it is. -/
theorem eq_of_foldlM_eq {step : σ → α → Except ε σ} {list : List α}
    (each : ∀ item ∈ list, Lowers good measure (step · item)) {value : σ}
    (isGood : good value) (fixed : list.foldlM step value = .ok value) :
    ∀ item ∈ list, step value item = .ok value := by
  induction list with
  | nil => simp
  | cons item rest ih =>
      have restLowers : ∀ other ∈ rest, Lowers good measure (step · other) :=
        fun other member => each other (by simp [member])
      obtain ⟨next, (made : step value item = .ok next), nextGood, lower⟩ :=
        each item (by simp) value isGood
      rw [List.foldlM_cons, made, ok_bind] at fixed
      obtain ⟨final, reached, _, lowerRest⟩ := Lowers.foldlM restLowers next nextGood
      obtain rfl : final = value := Except.ok.inj (reached.symm.trans fixed)
      have same : next = final := by
        rcases lowerRest with same | lowerRest
        · exact same.symm
        · rcases lower with same | lower
          · exact same
          · exact absurd lower lowerRest.le.not_gt
      subst same
      intro other member
      rcases List.mem_cons.mp member with rfl | member
      · exact made
      · exact ih restLowers fixed other member

/-- Passes that lower a measure come to rest after at most one pass more than the measure says. -/
theorem exists_comesToRest {pass : σ → Except Fault σ} (lowers : Lowers good measure pass)
    {value : σ} (isGood : good value) :
    ∃ final passes, ComesToRest pass value final passes ∧ good final ∧
      passes ≤ measure value + 1 := by
  induction level : measure value using Nat.strong_induction_on generalizing value with
  | _ level ih =>
      obtain ⟨next, made, nextGood, lower⟩ := lowers value isGood
      by_cases same : next = value
      · subst same
        exact ⟨next, 1, .atRest made, isGood, by omega⟩
      · have lower := lower.resolve_left same
        obtain ⟨final, passes, rests, finalGood, few⟩ := ih _ (level ▸ lower) nextGood rfl
        exact ⟨final, passes + 1, .changed made same rests, finalGood, by omega⟩

end Lowers

/-! ## Steps that grow a value -/

/-- A step that succeeds on good values, keeps them good and only adds to what they hold. -/
def Grows (good : σ → Prop) (view : σ → Set β) (step : σ → Except ε σ) : Prop :=
  ∀ value, good value → ∃ next, step value = .ok next ∧ good next ∧
    view value ⊆ view next

/-- No two good values hold the same. -/
def Distinguishes (good : σ → Prop) (view : σ → Set β) : Prop :=
  ∀ first second, good first → good second → view first = view second → first = second

namespace Grows

variable {good : σ → Prop} {view : σ → Set β}

/-- Steps that grow a value one after another grow it together. -/
theorem foldlM {step : σ → α → Except ε σ} {list : List α}
    (each : ∀ item ∈ list, Grows good view (step · item)) :
    Grows good view (list.foldlM step ·) := by
  intro value isGood
  have total : ∀ current, good current ∧ view value ⊆ view current → ∀ item ∈ list,
      ∃ next, step current item = .ok next ∧ good next ∧ view value ⊆ view next := by
    rintro current ⟨currentGood, grown⟩ item member
    obtain ⟨next, made, nextGood, more⟩ := each item member current currentGood
    exact ⟨next, made, nextGood, grown.trans more⟩
  exact exists_foldlM_eq_ok total ⟨isGood, subset_rfl⟩

/-- If steps that grow a value leave it as it was when all of them have been made, then each of them
leaves it as it is. -/
theorem eq_of_foldlM_eq {step : σ → α → Except ε σ} {list : List α}
    (each : ∀ item ∈ list, Grows good view (step · item)) (distinct : Distinguishes good view)
    {value : σ} (isGood : good value) (fixed : list.foldlM step value = .ok value) :
    ∀ item ∈ list, step value item = .ok value := by
  induction list with
  | nil => simp
  | cons item rest ih =>
      have restGrows : ∀ other ∈ rest, Grows good view (step · other) :=
        fun other member => each other (by simp [member])
      obtain ⟨next, (made : step value item = .ok next), nextGood, more⟩ :=
        each item (by simp) value isGood
      rw [List.foldlM_cons, made, ok_bind] at fixed
      obtain ⟨final, reached, _, rest_more⟩ := Grows.foldlM restGrows next nextGood
      obtain rfl : final = value := Except.ok.inj (reached.symm.trans fixed)
      have same : next = final :=
        distinct next final nextGood isGood (Set.Subset.antisymm rest_more more)
      subst same
      intro other member
      rcases List.mem_cons.mp member with rfl | member
      · exact made
      · exact ih restGrows fixed other member

/-- A step that grows a value whose facts all come from a finite set lowers the number of facts that
are still missing. -/
theorem lowers {step : σ → Except ε σ} {facts : Set β} (grows : Grows good view step)
    (distinct : Distinguishes good view) (finite : facts.Finite)
    (within : ∀ value, good value → view value ⊆ facts) {origin : σ} :
    Lowers (fun value => good value ∧ view origin ⊆ view value)
      (fun value => facts.ncard - (view value).ncard) step := by
  rintro value ⟨isGood, grown⟩
  obtain ⟨next, made, nextGood, more⟩ := grows value isGood
  refine ⟨next, made, ⟨nextGood, grown.trans more⟩, ?_⟩
  by_cases same : next = value
  · exact .inl same
  · right
    have strictly : view value ⊂ view next := by
      refine ⟨more, fun less => same ?_⟩
      exact distinct next value nextGood isGood (Set.Subset.antisymm less more)
    have larger : (view value).ncard < (view next).ncard :=
      Set.ncard_lt_ncard strictly (finite.subset (within next nextGood))
    have few : (view next).ncard ≤ facts.ncard := Set.ncard_le_ncard (within next nextGood) finite
    change facts.ncard - (view next).ncard < facts.ncard - (view value).ncard
    omega

/-- Passes that grow a value whose facts all come from a finite set come to rest. Every pass but the
last finds a fact that was missing. -/
theorem exists_comesToRest {pass : σ → Except Fault σ} {facts : Set β}
    (grows : Grows good view pass) (distinct : Distinguishes good view) (finite : facts.Finite)
    (within : ∀ value, good value → view value ⊆ facts) {value : σ} (isGood : good value) :
    ∃ final passes, ComesToRest pass value final passes ∧ good final ∧
      view value ⊆ view final ∧ passes + (view value).ncard ≤ facts.ncard + 1 := by
  have few : (view value).ncard ≤ facts.ncard := Set.ncard_le_ncard (within value isGood) finite
  obtain ⟨final, passes, rests, ⟨finalGood, grown⟩, atMost⟩ :=
    (grows.lowers distinct finite within).exists_comesToRest ⟨isGood, subset_rfl⟩
  exact ⟨final, passes, rests, finalGood, grown, by omega⟩

end Grows

/-! ## Working off what is pending -/

/-- Pending work is done until none is left, however much it takes. The pieces are counted. -/
inductive RunsDry (work : α → σ × List α → Except Fault (σ × List α)) :
    σ × List α → σ → Nat → Prop where
  | dry (value : σ) : RunsDry work (value, []) value 0
  | done {item : α} {value final : σ} {pending : List α} {state : σ × List α} {turns : Nat}
      (made : work item (value, pending) = .ok state) (later : RunsDry work state final turns) :
      RunsDry work (value, item :: pending) final (turns + 1)

/-- From one state to another, pending work stays pending, and each further piece is paid for by
something new that the value holds. -/
structure Pays (view : σ → Set β) (before later : σ × List α) : Prop where
  pending : ∀ item ∈ before.2, item ∈ later.2
  grown : view before.1 ⊆ view later.1
  paid : later.2.length + (view before.1).ncard ≤ before.2.length + (view later.1).ncard

namespace Pays

variable {view : σ → Set β} {before between later : σ × List α}

theorem refl (state : σ × List α) : Pays view state state :=
  ⟨fun _ => id, subset_rfl, le_rfl⟩

theorem trans (first : Pays view before between) (second : Pays view between later) :
    Pays view before later where
  pending item member := second.pending item (first.pending item member)
  grown := first.grown.trans second.grown
  paid := by
    have := first.paid
    have := second.paid
    omega

end Pays

section Work

variable {work : α → σ × List α → Except Fault (σ × List α)} {view : σ → Set β}
  {state : σ × List α} {final : σ} {turns : Nat}

/-- A bound that is large enough makes no difference. -/
theorem RunsDry.drain_eq_ok (runsDry : RunsDry work state final turns) {bound : Nat}
    (enough : turns ≤ bound) : drain work bound state = .ok (final, []) := by
  induction runsDry generalizing bound with
  | dry value => cases bound <;> rfl
  | done made _ ih =>
      obtain ⟨bound, rfl⟩ := Nat.exists_eq_succ_of_ne_zero (by omega : bound ≠ 0)
      rw [drain, made, ok_bind, ih (by omega)]

/-- Work that is paid for by facts from a finite set comes to an end, and no more of it is done than
was pending or has been paid for. -/
theorem exists_runsDry {good : σ × List α → Prop} {facts : Set β} (finite : facts.Finite)
    (within : ∀ state, good state → view state.1 ⊆ facts)
    (each : ∀ item value pending, good (value, item :: pending) → ∃ next,
      work item (value, pending) = .ok next ∧ good next ∧ Pays view (value, pending) next)
    (isGood : good state) : ∃ final turns, RunsDry work state final turns ∧ good (final, []) ∧
      turns + (view state.1).ncard ≤ state.2.length + (view final).ncard := by
  induction left : state.2.length + (facts.ncard - (view state.1).ncard)
    using Nat.strong_induction_on generalizing state with
  | _ left ih =>
      obtain ⟨value, pending⟩ := state
      cases pending with
      | nil => exact ⟨value, 0, .dry value, isGood, by simp⟩
      | cons item pending =>
          obtain ⟨next, made, nextGood, pays⟩ := each item value pending isGood
          have paid := pays.paid
          have few := Set.ncard_le_ncard (within next nextGood) finite
          simp only [List.length_cons] at left paid
          obtain ⟨final, turns, runsDry, finalGood, atMost⟩ := ih _ (by omega) nextGood rfl
          refine ⟨final, turns + 1, .done made runsDry, finalGood, ?_⟩
          simp only [List.length_cons]
          omega

end Work

/-! ## Counting facts -/

theorem ncard_setOf_mem_le (list : List α) : {value | value ∈ list}.ncard ≤ list.length := by
  classical
  have listed : {value | value ∈ list} = ↑list.toFinset := by
    ext value
    simp
  rw [listed, Set.ncard_coe_finset]
  exact list.toFinset_card_le

/-- The values of a list, and the absence of a value. -/
def optionsOf (list : List α) : Set (Option α) := insert none (some '' {value | value ∈ list})

theorem finite_optionsOf (list : List α) : (optionsOf list).Finite :=
  ((List.finite_toSet list).image some).insert none

theorem ncard_optionsOf_le (list : List α) : (optionsOf list).ncard ≤ list.length + 1 := by
  have few : (some '' {value | value ∈ list}).ncard ≤ list.length :=
    (Set.ncard_image_le (List.finite_toSet list)).trans (ncard_setOf_mem_le list)
  exact (Set.ncard_insert_le _ _).trans (Nat.succ_le_succ few)

end DeterministicParsing
