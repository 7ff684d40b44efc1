/-
# How the machine moves

As long as the input has not been accepted, a step that succeeds shifts a token, reduces a rule or
accepts. The first two are the moves of the machine: this module says once under which conditions
they are made and what they lead to, and that a run consists of moves up to a machine that accepts.
Nothing here depends on where the table comes from.
-/
import Mathlib.Logic.Relation
import DeterministicParsing.ShiftReduce.Machine
import DeterministicParsing.Proofs.ShiftReduce.Table
import DeterministicParsing.Proofs.Token

namespace DeterministicParsing.ShiftReduce

variable {V : Type} {machine next final : Machine V} {parser : Parser} {tokens : List Token}

namespace Machine

/-! ## Reductions -/

/-- Entries that are as many as the symbols of a body either spell the body or differ from it
somewhere. -/
theorem find?_zip_eq_none {entries : List (Entry V)} {body : List Symbol}
    (sameLength : entries.length = body.length) :
    ((entries.zip body).find? fun (entry, symbol) => entry.symbol != symbol) = none ↔
      entries.map Entry.symbol = body := by
  induction entries generalizing body with
  | nil => simp [List.length_eq_zero_iff.mp sameLength.symm]
  | cons entry entries ih =>
      cases body with
      | nil => cases sameLength
      | cons symbol body =>
          rw [List.zip_cons_cons, List.map_cons, List.cons.injEq, List.find?_cons]
          by_cases same : entry.symbol = symbol
          · simpa [same] using ih (Nat.succ.inj sameLength)
          · have differs : (entry.symbol != symbol) = true := bne_iff_ne.mpr same
            simp [differs, same]

/-- The handle of a rule is what is on top of the stack, and it spells the body of the rule. -/
theorem eq_of_handle_eq_ok {id : Nat} {rule : Rule} {body : List (Entry V)}
    (found : machine.handle id rule = .ok body) :
    body = (machine.stack.take rule.body.length).reverse ∧ body.map Entry.symbol = rule.body := by
  dsimp only [handle] at found
  split at found
  · exact absurd found bind_raise_ne_ok
  · rename_i long
    split at found
    · rename_i agrees
      cases found
      refine ⟨rfl, (find?_zip_eq_none ?_).mp agrees⟩
      rw [List.length_reverse, List.length_take] at long ⊢
      omega
    · obtain ⟨_, _, named⟩ := exists_of_bind_eq_ok found
      exact absurd named bind_raise_ne_ok

theorem handle_eq_ok {id : Nat} {rule : Rule}
    (spelled : (machine.stack.take rule.body.length).reverse.map Entry.symbol = rule.body) :
    machine.handle id rule = .ok (machine.stack.take rule.body.length).reverse := by
  have sameLength := congrArg List.length spelled
  rw [List.length_map] at sameLength
  unfold handle
  rw [if_neg (by omega)]
  simp only [(find?_zip_eq_none sameLength).mpr spelled, pure_eq_ok]

/-- What the synthesis functions compute for the head of a rule from the entries of its body. -/
def synthesised (machine : Machine V) (id : Nat) (body : List (Entry V)) :
    Except Fault (Option V) :=
  match machine.semantics with
  | none => .ok none
  | some semantics => semantics.apply id (body.map Entry.carried)

/-- The machine after a reduction that led to a state. -/
def reducedTo (machine : Machine V) (id : Nat) (rule : Rule) (value : Option V) (target : Nat) :
    Machine V :=
  { machine.pop rule with
    stack := ⟨.nonterminal rule.head, .value value, target⟩ ::
      machine.stack.drop rule.body.length
    reduced := id :: machine.reduced }

theorem pushHead_eq_bind {id target : Nat} {rule : Rule} {body : List (Entry V)}
    (leads : machine.parser.table.goto? (machine.pop rule).state rule.head = some target) :
    (machine.pop rule).pushHead id rule body =
      liftM (machine.synthesised id body) >>= fun value =>
        .ok (machine.reducedTo id rule value target) := by
  have here : (machine.pop rule).parser.table.goto? (machine.pop rule).state rule.head =
      some target := leads
  rw [pushHead, here]
  obtain ⟨parser, semantics, position, remaining, stack, reduced, result⟩ := machine
  cases semantics <;> rfl

theorem pushHead_eq_ok {id : Nat} {rule : Rule} {body : List (Entry V)} :
    (machine.pop rule).pushHead id rule body = .ok next ↔
      ∃ target value,
        machine.parser.table.goto? (machine.pop rule).state rule.head = some target ∧
        machine.synthesised id body = .ok value ∧
        next = machine.reducedTo id rule value target := by
  constructor
  · intro pushed
    cases leads : machine.parser.table.goto? (machine.pop rule).state rule.head with
    | none =>
        have here : (machine.pop rule).parser.table.goto? (machine.pop rule).state rule.head =
            none := leads
        rw [pushHead, here] at pushed
        exact absurd pushed bind_raise_ne_ok
    | some target =>
        rw [pushHead_eq_bind leads] at pushed
        obtain ⟨value, computed, same⟩ := exists_of_bind_eq_ok pushed
        exact ⟨target, value, rfl, eq_ok_of_liftM_eq_ok computed, (Except.ok.inj same).symm⟩
  · rintro ⟨target, value, leads, computed, rfl⟩
    rw [pushHead_eq_bind leads, computed, liftM_ok, ok_bind]

/-- What a rule has to meet to be reduced, and what the machine becomes then. -/
theorem reduce_eq_ok {id : Nat} {move : Move} :
    machine.reduce id = (.ok move, next) ↔ move = .reduce id ∧ ∃ rule target value,
      machine.parser.grammar.rules[id]? = some rule ∧
      (machine.stack.take rule.body.length).reverse.map Entry.symbol = rule.body ∧
      machine.parser.table.goto? (machine.pop rule).state rule.head = some target ∧
      machine.synthesised id (machine.stack.take rule.body.length).reverse = .ok value ∧
      next = machine.reducedTo id rule value target := by
  constructor
  · intro reduces
    dsimp only [reduce] at reduces
    split at reduces
    · cases reduces
    · rename_i rule ruled
      split at reduces
      · cases reduces
      · rename_i body isHandle
        obtain ⟨rfl, spelled⟩ := eq_of_handle_eq_ok isHandle
        split at reduces
        · cases reduces
        · rename_i pushed
          cases reduces
          obtain ⟨target, value, leads, computed, same⟩ := pushHead_eq_ok.mp pushed
          exact ⟨rfl, rule, target, value, Arena.rule_eq_ok.mp ruled, spelled,
            leads, computed, same⟩
  · rintro ⟨rfl, rule, target, value, found, spelled, leads, computed, rfl⟩
    have pushed := pushHead_eq_ok.mpr ⟨target, value, leads, computed, rfl⟩
    simp only [reduce, Arena.rule_eq_ok.mpr found, handle_eq_ok spelled, pushed]

/-! ## Moves -/

/-- The machine shifts a token or reduces a rule. -/
inductive Moves (machine : Machine V) : Machine V → Prop where
  | shift {token : Token} {rest : List Token} {target : Nat} (unfinished : machine.result = none)
      (ahead : machine.remaining = token :: rest)
      (action : machine.parser.table.action? machine.state token.terminal = some (.shift target)) :
      Moves machine (machine.shift token target)
  | reduce {token : Token} {rest : List Token} {id target : Nat} {rule : Rule} {value : Option V}
      (unfinished : machine.result = none) (ahead : machine.remaining = token :: rest)
      (action : machine.parser.table.action? machine.state token.terminal = some (.reduce id))
      (found : machine.parser.grammar.rules[id]? = some rule)
      (spelled : (machine.stack.take rule.body.length).reverse.map Entry.symbol = rule.body)
      (leads : machine.parser.table.goto? (machine.pop rule).state rule.head = some target)
      (computed : machine.synthesised id (machine.stack.take rule.body.length).reverse =
        .ok value) :
      Moves machine (machine.reducedTo id rule value target)

/-- The machine shifts a token or reduces a rule, as some action that the table proposes says, be it
in force or not. -/
inductive MayMove (machine : Machine V) : Machine V → Prop where
  | shift {token : Token} {rest : List Token} {target : Nat} (unfinished : machine.result = none)
      (ahead : machine.remaining = token :: rest)
      (proposed : .shift target ∈ machine.parser.table.cell machine.state token.terminal) :
      MayMove machine (machine.shift token target)
  | reduce {token : Token} {rest : List Token} {id target : Nat} {rule : Rule} {value : Option V}
      (unfinished : machine.result = none) (ahead : machine.remaining = token :: rest)
      (proposed : .reduce id ∈ machine.parser.table.cell machine.state token.terminal)
      (found : machine.parser.grammar.rules[id]? = some rule)
      (spelled : (machine.stack.take rule.body.length).reverse.map Entry.symbol = rule.body)
      (leads : machine.parser.table.goto? (machine.pop rule).state rule.head = some target)
      (computed : machine.synthesised id (machine.stack.take rule.body.length).reverse =
        .ok value) :
      MayMove machine (machine.reducedTo id rule value target)

/-- An action in force is proposed. -/
theorem Moves.mayMove (moves : machine.Moves next) : machine.MayMove next := by
  cases moves with
  | shift unfinished ahead action =>
      exact .shift unfinished ahead (Table.mem_cell_of_action?_eq_some action)
  | reduce unfinished ahead action found spelled leads computed =>
      exact .reduce unfinished ahead (Table.mem_cell_of_action?_eq_some action)
        found spelled leads computed

/-- The machine is about to accept. -/
structure Accepts (machine : Machine V) (token : Token) (rest : List Token) : Prop where
  unfinished : machine.result = none
  ahead : machine.remaining = token :: rest
  action : machine.parser.table.action? machine.state token.terminal = some .accept

/-- A step that succeeds is a move, or it accepts. -/
theorem moves_or_accepts {move : Move} (unfinished : machine.result = none)
    (steps : machine.step = (.ok move, next)) :
    machine.Moves next ∨ ∃ token rest, machine.Accepts token rest ∧
      next = machine.accept := by
  dsimp only [step] at steps
  rw [isAccepted, unfinished, if_neg (by simp)] at steps
  split at steps
  · cases steps
  · rename_i token isNext
    obtain ⟨rest, ahead⟩ := List.head?_eq_some_iff.mp isNext
    split at steps
    · obtain ⟨refused, _⟩ := Prod.mk.inj steps
      exact absurd refused bind_raise_ne_ok
    · rename_i target action
      cases steps
      exact .inl (.shift unfinished ahead action)
    · rename_i id action
      obtain ⟨_, rule, target, value, found, spelled, leads, computed, rfl⟩ :=
        reduce_eq_ok.mp steps
      exact .inl (.reduce unfinished ahead action found spelled leads computed)
    · rename_i action
      cases steps
      exact .inr ⟨token, rest, ⟨unfinished, ahead, action⟩, rfl⟩

/-- A step that succeeds changes nothing after the input has been accepted. Otherwise it is a move,
or it accepts. -/
theorem rests_or_moves_or_accepts {move : Move} (steps : machine.step = (.ok move, next)) :
    (machine.isAccepted = true ∧ next = machine) ∨ machine.Moves next ∨
      ∃ token rest, machine.Accepts token rest ∧ next = machine.accept := by
  cases result : machine.result with
  | some value =>
      have finished : machine.isAccepted = true := by simp [isAccepted, result]
      rw [step, if_pos finished] at steps
      cases steps
      exact .inl ⟨finished, rfl⟩
  | none => exact .inr (moves_or_accepts result steps)

/-- Every move is a step that succeeds. -/
theorem Moves.exists_step_eq (moves : machine.Moves next) :
    machine.result = none ∧ ∃ move, machine.step = (.ok move, next) := by
  cases moves with
  | @shift token rest target unfinished ahead action =>
      refine ⟨unfinished, .shift target, ?_⟩
      simp [step, isAccepted, unfinished, lookahead?, ahead, action]
  | @reduce token rest id target rule value unfinished ahead action found spelled leads computed =>
      refine ⟨unfinished, .reduce id, ?_⟩
      have reduces := reduce_eq_ok.mpr
        ⟨rfl, rule, target, value, found, spelled, leads, computed, rfl⟩
      simp [step, isAccepted, unfinished, lookahead?, ahead, action, reduces]

theorem Accepts.step_eq {token : Token} {rest : List Token} (accepts : machine.Accepts token rest) :
    machine.step = (.ok .accept, machine.accept) := by
  simp [step, isAccepted, accepts.unfinished, lookahead?, accepts.ahead, accepts.action]

/-- A move does not finish the machine, and changes neither the table nor the synthesis
functions. -/
theorem MayMove.unchanged (may : machine.MayMove next) :
    next.result = none ∧ next.parser = machine.parser ∧ next.semantics = machine.semantics := by
  cases may with
  | shift unfinished _ _ => exact ⟨unfinished, rfl, rfl⟩
  | reduce unfinished _ _ _ _ _ _ => exact ⟨unfinished, rfl, rfl⟩

theorem Moves.unchanged (moves : machine.Moves next) :
    next.result = none ∧ next.parser = machine.parser ∧ next.semantics = machine.semantics :=
  moves.mayMove.unchanged

/-! ## The right parse -/

theorem symbols_shift (token : Token) (target : Nat) :
    (machine.shift token target).symbols = machine.symbols ++ [.terminal token.terminal] := by
  simp [symbols, shift]

theorem symbols_reducedTo (id target : Nat) (rule : Rule) (value : Option V) :
    (machine.reducedTo id rule value target).symbols =
      (machine.pop rule).symbols ++ [.nonterminal rule.head] := by
  simp [symbols, reducedTo, pop]

/-- Under the body of a rule on top of the stack are the symbols that a reduction leaves there. -/
theorem symbols_of_spelled {rule : Rule}
    (spelled : (machine.stack.take rule.body.length).reverse.map Entry.symbol = rule.body) :
    machine.symbols = (machine.pop rule).symbols ++ rule.body := by
  have split := List.take_append_drop rule.body.length machine.stack
  calc machine.symbols
      = ((machine.stack.take rule.body.length ++ machine.stack.drop rule.body.length).map
          Entry.symbol).reverse := by rw [split, symbols]
    _ = (machine.pop rule).symbols ++
          (machine.stack.take rule.body.length).reverse.map Entry.symbol := by
        rw [List.map_append, List.reverse_append, List.map_reverse]
        rfl
    _ = (machine.pop rule).symbols ++ rule.body := by rw [spelled]

/-- Whatever the symbols on the stack end with is spelled by its top. -/
theorem spelled_of_symbols_eq {rule : Rule} {before : List Symbol}
    (ends : machine.symbols = before ++ rule.body) :
    (machine.stack.take rule.body.length).reverse.map Entry.symbol = rule.body ∧
      (machine.pop rule).symbols = before := by
  have onStack : machine.stack.map Entry.symbol = rule.body.reverse ++ before.reverse := by
    rw [← List.reverse_append, ← ends, symbols, List.reverse_reverse]
  have spelled : (machine.stack.take rule.body.length).reverse.map Entry.symbol = rule.body := by
    rw [List.map_reverse, List.map_take, onStack, List.take_left' List.length_reverse,
      List.reverse_reverse]
  exact ⟨spelled, List.append_cancel_right ((symbols_of_spelled spelled).symm.trans ends)⟩

/-- From the symbols on the stack, the rules reduced lead back to what has been read of the
input. -/
def Retraces (tokens : List Token) (machine : Machine V) : Prop :=
  ∃ read, tokens = read ++ machine.remaining ∧ machine.parser.grammar.DerivesRightmost
    machine.symbols machine.reduced (word (read.map Token.terminal))

theorem Moves.retraces (moves : machine.Moves next) (retraces : machine.Retraces tokens) :
    next.Retraces tokens := by
  obtain ⟨read, rfl, rightmost⟩ := retraces
  cases moves with
  | @shift token rest target _ ahead _ =>
      refine ⟨read ++ [token], by simp [Machine.shift, ahead], ?_⟩
      have longer := rightmost.context [] [token.terminal]
      show machine.parser.grammar.DerivesRightmost _ machine.reduced _
      rw [symbols_shift]
      simpa using longer
  | @reduce token rest id target rule value _ _ _ found spelled _ _ =>
      refine ⟨read, rfl, ?_⟩
      rw [symbols_of_spelled spelled] at rightmost
      rw [symbols_reducedTo]
      exact .head found (machine.pop rule).symbols [] (by simpa using rightmost)

/-! ## Runs -/

/-- A run that ends well consists of moves up to a machine that accepts. -/
theorem exists_accepts_of_run_eq {bound : Nat} {parse : Parse V}
    (unfinished : machine.result = none) (ends : machine.run bound = some (.ok parse, next)) :
    ∃ final token rest, Relation.ReflTransGen Moves machine final ∧ final.Accepts token rest ∧
      parse = ⟨final.reductions, final.stack.head?.bind (·.carried.value?)⟩ := by
  induction bound generalizing machine with
  | zero => cases ends
  | succ bound ih =>
      simp only [run, unfinished] at ends
      split at ends
      · rename_i move after steps
        rcases moves_or_accepts unfinished steps with moves | ⟨token, rest, accepts, rfl⟩
        · obtain ⟨final, token, rest, reaches, accepts, same⟩ := ih moves.unchanged.1 ends
          exact ⟨final, token, rest, .head moves reaches, accepts, same⟩
        · cases bound with
          | zero => cases ends
          | succ bound =>
              cases ends
              exact ⟨machine, token, rest, .refl, accepts, rfl⟩
      · cases ends

/-- Moves up to a machine that accepts are a run that ends well, given enough rounds. -/
theorem exists_run_eq {token : Token} {rest : List Token}
    (reaches : Relation.ReflTransGen Moves machine final) (accepts : final.Accepts token rest) :
    ∃ enough value, ∀ bound ≥ enough,
      (machine.run bound).map Prod.fst = some (.ok ⟨final.reductions, value⟩) := by
  induction reaches using Relation.ReflTransGen.head_induction_on with
  | refl =>
      refine ⟨2, final.stack.head?.bind (·.carried.value?), fun bound many => ?_⟩
      obtain ⟨bound, rfl⟩ := Nat.exists_eq_add_of_le' many
      rw [run, accepts.unfinished]
      simp only [accepts.step_eq]
      rfl
  | head moves _ ih =>
      obtain ⟨enough, value, runs⟩ := ih
      refine ⟨enough + 1, value, fun bound many => ?_⟩
      obtain ⟨bound, rfl⟩ := Nat.exists_eq_add_of_le' (Nat.le_of_add_left_le many)
      obtain ⟨unfinished, move, steps⟩ := moves.exists_step_eq
      rw [run, unfinished]
      simp only [steps]
      exact runs bound (Nat.le_of_succ_le_succ many)

/-- The machine in front of an input. -/
def initial (parser : Parser) (semantics : Option (Semantics V))
    (tokens : List Token) : Machine V where
  parser := parser
  semantics := semantics
  position := 0
  remaining := tokens
  stack := []
  reduced := []
  result := none

theorem retraces_initial (parser : Parser)
    (semantics : Option (Semantics V)) (tokens : List Token) :
    (initial parser semantics tokens).Retraces tokens :=
  ⟨[], rfl, .refl _⟩

end Machine

namespace Parser

variable {semantics : Option (Semantics V)}

theorem parseWith_eq_run (taken : Token.checkEnd tokens = .ok ()) (bound : Nat) :
    parser.parseWith semantics bound tokens =
      ((Machine.initial parser semantics tokens).run bound).map Prod.fst := by
  rw [parseWith, Machine.start, taken]
  rfl

/-- Only an input with its end in the right place is parsed, by moves up to a machine that
accepts. -/
theorem exists_accepts_of_parseWith_eq {bound : Nat} {parse : Parse V}
    (parsed : parser.parseWith semantics bound tokens = some (.ok parse)) :
    Token.checkEnd tokens = .ok () ∧ ∃ final token rest,
      Relation.ReflTransGen Machine.Moves (Machine.initial parser semantics tokens) final ∧
      final.Accepts token rest ∧
      parse = ⟨final.reductions, final.stack.head?.bind (·.carried.value?)⟩ := by
  cases checked : Token.checkEnd tokens with
  | error reason =>
      rw [parseWith, Machine.start, checked] at parsed
      cases parsed
  | ok _ =>
      rw [parseWith_eq_run checked, Option.map_eq_some_iff] at parsed
      obtain ⟨⟨_, next⟩, ends, rfl⟩ := parsed
      exact ⟨rfl, Machine.exists_accepts_of_run_eq rfl ends⟩

theorem exists_parseWith_eq {token : Token} {rest : List Token}
    (taken : Token.checkEnd tokens = .ok ())
    (reaches : Relation.ReflTransGen Machine.Moves (Machine.initial parser semantics tokens) final)
    (accepts : final.Accepts token rest) :
    ∃ enough value, ∀ bound ≥ enough,
      parser.parseWith semantics bound tokens = some (.ok ⟨final.reductions, value⟩) := by
  obtain ⟨enough, value, runs⟩ := Machine.exists_run_eq reaches accepts
  refine ⟨enough, value, fun bound many => ?_⟩
  rw [parseWith_eq_run taken, runs bound many]

end Parser

end DeterministicParsing.ShiftReduce
