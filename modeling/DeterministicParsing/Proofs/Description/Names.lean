/-
# What the names of a description stand for

The names of a description can be wrong in five ways, and the first of them that applies is the
error that is reported. If none applies, there is a grammar, and it says what is written: its
terminals and nonterminals are the declared names in the order in which they are declared first, its
rules are the variants in the order in which they are written, and a name in a variant is the
terminal or the nonterminal of that name.
-/
import DeterministicParsing.Proofs.Description.Resolution

namespace DeterministicParsing

/-! ## Numbers and names -/

/-- A name is put at the end of a list of distinct names if it is new. -/
theorem eraseDups_append_singleton (names : List String) (name : String) :
    (names ++ [name]).eraseDups =
    if name ∈ names.eraseDups then names.eraseDups else names.eraseDups ++ [name] := by
  rw [List.eraseDups_append]
  by_cases known : name ∈ names <;> simp [List.removeAll, List.eraseDups_cons, known]

namespace Grammar

variable (grammar : Grammar) (name : String)

theorem terminalNames_addTerminal : (grammar.addTerminal name).2.terminalNames =
    if name ∈ grammar.terminalNames then grammar.terminalNames
        else grammar.terminalNames ++ [name] := by
  change (grammar.toArena.addTerminal name).2.terminalNames = _
  rw [Arena.addTerminal_eq]
  split
  · rename_i id found
    rw [if_pos (List.mem_of_getElem? (grammar.valid.terminal?_eq_some.mp found))]
  · rename_i absent
    rw [if_neg (grammar.valid.terminal?_eq_none.mp absent)]
    rfl

theorem nonterminalNames_addTerminal :
    (grammar.addTerminal name).2.nonterminalNames = grammar.nonterminalNames := by
  change (grammar.toArena.addTerminal name).2.nonterminalNames = _
  rw [Arena.addTerminal_eq]
  split <;> rfl

theorem nonterminalNames_addNonterminal : (grammar.addNonterminal name).2.nonterminalNames =
    if name ∈ grammar.nonterminalNames then grammar.nonterminalNames
    else grammar.nonterminalNames ++ [name] := by
  change (grammar.toArena.addNonterminal name).2.nonterminalNames = _
  unfold Arena.addNonterminal
  split
  · rename_i id found
    rw [if_pos (List.mem_of_getElem? (grammar.valid.nonterminal?_eq_some.mp found))]
  · rename_i absent
    rw [if_neg (grammar.valid.nonterminal?_eq_none.mp absent)]

theorem terminalNames_addNonterminal :
    (grammar.addNonterminal name).2.terminalNames = grammar.terminalNames := by
  change (grammar.toArena.addNonterminal name).2.terminalNames = _
  unfold Arena.addNonterminal
  split <;> rfl

variable {grammar name}

/-- A nonterminal that is declared again keeps its number. -/
theorem exists_addNonterminal_eq (known : name ∈ grammar.nonterminalNames) :
    ∃ id, grammar.addNonterminal name = (id, grammar) ∧
      grammar.nonterminalName id = .ok name := by
  obtain ⟨id, isName⟩ := List.mem_iff_getElem?.mp known
  have found : grammar.nonterminalIds.lookup name = some id :=
    grammar.valid.nonterminal?_eq_some.mpr isName
  have again : grammar.toArena.addNonterminal name = (id, grammar.toArena) := by
    rw [Arena.addNonterminal, found]
  refine ⟨id, ?_, Arena.nonterminalName_eq_ok.mpr isName⟩
  simp only [addNonterminal, again]

/-- Only the end of the input has its name. -/
theorem terminal_eq_endOfInput_iff {id : Nat} (isName : grammar.terminalName id = .ok name) :
    id = endOfInput ↔ name = endName := by
  have found := Arena.terminalName_eq_ok.mp isName
  constructor
  · rintro rfl
    exact Option.some.inj (found.symm.trans grammar.end_first)
  · rintro rfl
    exact (List.getElem?_inj (List.getElem?_eq_some_iff.mp found).1 grammar.terminalNames_nodup).mp
      (found.trans grammar.end_first.symm)

end Grammar

namespace Description

variable (description : Description)

/-! ## What is written -/

/-- Whether a name is declared as a rule. -/
def declaresRule (name : String) : Bool := description.rules.any (·.name.text == name)

/-- The variants that are written, each with the name of its rule, in order. -/
def writtenRules : List (Name × List Name) :=
  description.rules.flatMap fun declaration => declaration.variants.map (declaration.name, ·)

/-- Whether a name stands for nothing. -/
def isUnknown (name : Name) : Bool :=
  !(description.declaresToken name.text || description.declaresRule name.text)

/-- What is wrong with the start of a description. -/
def startRefusal : Option Error :=
  match description.starts with
  | [] => none
  | [name] => if description.declaresRule name.text then none else some (.unknownStart name)
  | _ :: again :: _ => some (.duplicateStart again.offset)

/-- What is wrong with a description. A rule with the name of a terminal comes before a name that
stands for nothing, and both come before what is wrong with the start. -/
def refusal : Option Error :=
  if description.rules = [] then some .noRules
  else match description.rules.find? (description.declaresToken ·.name.text) with
    | some declaration => some (.nameClash declaration.name)
    | none => match (description.writtenRules.flatMap Prod.snd).find? description.isUnknown with
      | some name => some (.unknownSymbol name)
      | none => description.startRefusal

/-- The symbol has the name that is written, and is a terminal if that is declared as one. -/
structure IsSymbolOf (grammar : Grammar) (name : Name) (symbol : Symbol) : Prop where
  /-- The name is the one that is written. -/
  symbolName_eq : grammar.symbolName symbol = .ok name.text
  /-- Declared terminals are terminals, and nothing else is. -/
  isNonterminal_eq : symbol.isNonterminal = !description.declaresToken name.text
  /-- A terminal with the name of the end of the input is the end of the input. -/
  eq_endOfInput : symbol = .terminal endOfInput ↔
    description.declaresToken name.text = true ∧ name.text = endName

/-- The rule is the variant that is written. -/
structure IsRuleOf (grammar : Grammar) (written : Name × List Name) (rule : Rule) : Prop where
  /-- The head has the name of the rule declaration. -/
  head_eq : grammar.nonterminalName rule.head = .ok written.1.text
  /-- The body consists of what is written in the variant. -/
  body : List.Forall₂ (description.IsSymbolOf grammar) written.2 rule.body

/-- The grammar is the one that is written. -/
structure IsMeantBy (grammar : Grammar) : Prop where
  /-- The end of the input is followed by the declared terminals. -/
  terminalNames_eq : grammar.terminalNames = (endName :: description.tokens.map (·.text)).eraseDups
  /-- The nonterminals are the declared rules. -/
  nonterminalNames_eq : grammar.nonterminalNames = (description.rules.map (·.name.text)).eraseDups
  /-- The rules are the written variants. -/
  rules : List.Forall₂ (description.IsRuleOf grammar) description.writtenRules grammar.rules
  /-- The start is the declared one, or else the first rule. -/
  start : ∃ id name, grammar.start = .ok id ∧ grammar.nonterminalName id = .ok name.text ∧
    (description.starts ++ description.rules.map (·.name)).head? = some name

/-! ## What is collected -/

/-- What a grammar has that is being put together: the names that have been declared, repetitions
left out, and the rules. -/
structure HasCollected (grammar : Grammar)
    (terminals nonterminals : List String) (rules : List Rule) :
    Prop where
  /-- The terminals so far. -/
  terminalNames_eq : grammar.terminalNames = (endName :: terminals).eraseDups
  /-- The nonterminals so far. -/
  nonterminalNames_eq : grammar.nonterminalNames = nonterminals.eraseDups
  /-- The rules so far. -/
  rules_eq : grammar.rules = rules
  /-- No start has been chosen. -/
  chosenStart_eq : grammar.chosenStart = none

variable {description} {grammar later : Grammar} {terminals nonterminals : List String}
  {rules : List Rule}

namespace HasCollected

theorem addTerminal (collected : HasCollected grammar terminals nonterminals rules)
    (name : String) :
    HasCollected (grammar.addTerminal name).2 (terminals ++ [name]) nonterminals rules where
  terminalNames_eq := by
    rw [grammar.terminalNames_addTerminal, collected.terminalNames_eq, ← List.cons_append,
      eraseDups_append_singleton]
  nonterminalNames_eq :=
    (grammar.nonterminalNames_addTerminal name).trans collected.nonterminalNames_eq
  rules_eq := (grammar.declaring_addTerminal name).rules_eq.trans collected.rules_eq
  chosenStart_eq :=
    (grammar.declaring_addTerminal name).chosenStart_eq.trans collected.chosenStart_eq

theorem addNonterminal (collected : HasCollected grammar terminals nonterminals rules)
    (name : String) :
    HasCollected (grammar.addNonterminal name).2 terminals (nonterminals ++ [name]) rules where
  terminalNames_eq := (grammar.terminalNames_addNonterminal name).trans collected.terminalNames_eq
  nonterminalNames_eq := by
    rw [grammar.nonterminalNames_addNonterminal, collected.nonterminalNames_eq,
      eraseDups_append_singleton]
  rules_eq := (grammar.declaring_addNonterminal name).rules_eq.trans collected.rules_eq
  chosenStart_eq :=
    (grammar.declaring_addNonterminal name).chosenStart_eq.trans collected.chosenStart_eq

theorem addTerminals (collected : HasCollected grammar terminals nonterminals rules)
    (names : List Name) :
    HasCollected (names.foldl (fun grammar name => (grammar.addTerminal name.text).2) grammar)
      (terminals ++ names.map (·.text)) nonterminals rules := by
  induction names generalizing grammar terminals with
  | nil => simpa using collected
  | cons name others ih => simpa using ih (collected.addTerminal name.text)

theorem withTokens :
    HasCollected description.withTokens (description.tokens.map (·.text)) [] [] := by
  have empty : HasCollected .empty [] [] [] :=
    ⟨by simp [Grammar.empty, Arena.empty, Arena.terminalNames, List.eraseDups_cons],
      rfl, rfl, rfl⟩
  exact empty.addTerminals description.tokens

/-- The heads are collected in the order of their declarations, unless one has the name of a
terminal. -/
theorem addHeads (collected : HasCollected grammar terminals nonterminals rules)
    {declarations : List RuleDeclaration}
    (noClash : ∀ declaration ∈ declarations,
      description.declaresToken declaration.name.text = false) :
    ∃ later, declarations.foldlM description.addHead grammar = .ok later ∧
      HasCollected later terminals (nonterminals ++ declarations.map (·.name.text)) rules := by
  induction declarations generalizing grammar nonterminals with
  | nil => exact ⟨grammar, rfl, by simpa using collected⟩
  | cons declaration others ih =>
      obtain ⟨here, there⟩ := List.forall_mem_cons.mp noClash
      obtain ⟨later, added, hasCollected⟩ :=
        ih (collected.addNonterminal declaration.name.text) there
      exact ⟨later, by simpa [addHead, here] using added, by simpa using hasCollected⟩

end HasCollected

/-- A rule with the name of a terminal is refused. -/
theorem addHeads_eq_error {declarations : List RuleDeclaration} {declaration : RuleDeclaration}
    (collected : HasCollected grammar terminals nonterminals rules)
    (clash : declarations.find? (description.declaresToken ·.name.text) = some declaration) :
    declarations.foldlM description.addHead grammar = .error (.nameClash declaration.name) := by
  obtain ⟨isToken, earlier, others, rfl, noClash⟩ := List.find?_eq_some_iff_append.mp clash
  obtain ⟨later, added, _⟩ :=
    collected.addHeads fun other member => by simpa using noClash other member
  rw [List.foldlM_append, added, ok_bind, List.foldlM_cons, addHead, if_pos isToken]
  rfl

/-! ## What names stand for -/

/-- Only the names of a grammar matter for what a variant stands for. -/
theorem IsRuleOf.of_names {written : Name × List Name} {rule : Rule}
    (isRuleOf : description.IsRuleOf grammar written rule)
    (terminals : later.terminalNames = grammar.terminalNames)
    (nonterminals : later.nonterminalNames = grammar.nonterminalNames) :
    description.IsRuleOf later written rule := by
  have names (symbol : Symbol) : later.symbolName symbol = grammar.symbolName symbol := by
    cases symbol <;> simp [Arena.symbolName, Arena.nonterminalName, nonterminals,
      later.toArena.terminalName_eq, grammar.toArena.terminalName_eq, terminals]
  refine ⟨(names (.nonterminal rule.head)).trans isRuleOf.head_eq,
    isRuleOf.body.imp fun name symbol is => ?_⟩
  exact ⟨(names symbol).trans is.symbolName_eq, is.isNonterminal_eq, is.eq_endOfInput⟩

section Named

variable (collected : HasCollected grammar (description.tokens.map (·.text))
  (description.rules.map (·.name.text)) rules)
include collected

theorem mem_nonterminalNames_iff {name : String} :
    name ∈ grammar.nonterminalNames ↔ description.declaresRule name = true := by
  rw [collected.nonterminalNames_eq]
  simp [declaresRule]

/-- A name that is declared stands for a symbol of that name. -/
theorem exists_symbolOf_eq_ok {name : Name} (known : description.isUnknown name = false) :
    ∃ symbol, description.symbolOf grammar name = .ok symbol ∧
      description.IsSymbolOf grammar name symbol := by
  cases isToken : description.declaresToken name.text with
  | true =>
      have member : name.text ∈ grammar.terminalNames := by
        rw [collected.terminalNames_eq, List.mem_eraseDups]
        simpa [declaresToken] using Or.inr isToken
      obtain ⟨id, isName⟩ := List.mem_iff_getElem?.mp member
      have found := grammar.valid.terminal?_eq_some.mpr isName
      have hasName : grammar.terminalName id = .ok name.text := Arena.terminalName_eq_ok.mpr isName
      refine ⟨.terminal id, by simp [symbolOf, isToken, found], hasName, ?_, ?_⟩
      · simp [Symbol.isNonterminal, isToken]
      · simp [isToken, Grammar.terminal_eq_endOfInput_iff hasName]
  | false =>
      have member : name.text ∈ grammar.nonterminalNames := by
        rw [mem_nonterminalNames_iff collected]
        simpa [isUnknown, isToken] using known
      obtain ⟨id, isName⟩ := List.mem_iff_getElem?.mp member
      have found := grammar.valid.nonterminal?_eq_some.mpr isName
      refine ⟨.nonterminal id, by simp [symbolOf, isToken, found],
        Arena.nonterminalName_eq_ok.mpr isName, ?_, ?_⟩
      · simp [Symbol.isNonterminal, isToken]
      · simp [isToken]

theorem symbolOf_eq_error {name : Name} (unknown : description.isUnknown name = true) :
    description.symbolOf grammar name = .error (.unknownSymbol name) := by
  obtain ⟨noToken, noRule⟩ : description.declaresToken name.text = false ∧
      description.declaresRule name.text = false := by simpa [isUnknown] using unknown
  have absent : grammar.nonterminal? name.text = none := by
    rw [Grammar.nonterminal?_eq_none, mem_nonterminalNames_iff collected, noRule]
    simp
  simp [symbolOf, noToken, absent]

/-- A variant of known names becomes a rule. -/
theorem exists_addVariant_eq_ok {name : Name} {variant : List Name}
    (isHead : description.declaresRule name.text = true)
    (known : ∀ name ∈ variant, description.isUnknown name = false) : ∃ later rule,
      description.addVariant name grammar variant = .ok later ∧
      HasCollected later (description.tokens.map (·.text)) (description.rules.map (·.name.text))
        (rules ++ [rule]) ∧ description.IsRuleOf grammar (name, variant) rule := by
  obtain ⟨id, again, isName⟩ :=
    Grammar.exists_addNonterminal_eq ((mem_nonterminalNames_iff collected).mpr isHead)
  obtain ⟨body, resolved, isBody⟩ := exists_mapM_eq_ok fun name member =>
    exists_symbolOf_eq_ok collected (known name member)
  refine ⟨_, ⟨id, body⟩, by rw [addVariant, resolved]; rfl, ⟨?_, ?_, ?_, ?_⟩,
    isName, isBody⟩
  · simpa [Grammar.withRule, Arena.withRule, Arena.terminalNames, again] using
      collected.terminalNames_eq
  · simp [Grammar.withRule, Arena.withRule, again, collected.nonterminalNames_eq]
  · simp [Grammar.withRule, Arena.withRule, again, collected.rules_eq]
  · simp [Grammar.withRule, Arena.withRule, again, collected.chosenStart_eq]

/-- A variant with an unknown name is refused for the first such name. -/
theorem addVariant_eq_error {name unknown : Name} {variant : List Name}
    (first : variant.find? description.isUnknown = some unknown) :
    description.addVariant name grammar variant = .error (.unknownSymbol unknown) := by
  obtain ⟨isUnknown, earlier, others, rfl, known⟩ := List.find?_eq_some_iff_append.mp first
  obtain ⟨body, resolved, _⟩ := exists_mapM_eq_ok fun name member =>
    exists_symbolOf_eq_ok collected (by simpa using known name member)
  rw [addVariant, List.mapM_append, resolved, ok_bind, List.mapM_cons,
    symbolOf_eq_error collected isUnknown]
  rfl

/-- Variants of known names become rules, one after the other. -/
theorem exists_addWritten_eq_ok {written : List (Name × List Name)}
    (areHeads : ∀ variant ∈ written, description.declaresRule variant.1.text = true)
    (known : ∀ variant ∈ written, ∀ name ∈ variant.2, description.isUnknown name = false) :
    ∃ later added,
      written.foldlM (fun grammar variant => description.addVariant variant.1 grammar variant.2)
        grammar = .ok later ∧
      HasCollected later (description.tokens.map (·.text)) (description.rules.map (·.name.text))
        (rules ++ added) ∧ List.Forall₂ (description.IsRuleOf grammar) written added := by
  induction written generalizing grammar rules with
  | nil => exact ⟨grammar, [], rfl, by simpa using collected, .nil⟩
  | cons variant others ih =>
      obtain ⟨isHead, otherHeads⟩ := List.forall_mem_cons.mp areHeads
      obtain ⟨knownHere, knownThere⟩ := List.forall_mem_cons.mp known
      obtain ⟨next, rule, added, nextCollected, isRule⟩ :=
        exists_addVariant_eq_ok collected isHead knownHere
      obtain ⟨later, addedRules, addedOthers, laterCollected, areRules⟩ :=
        ih nextCollected otherHeads knownThere
      refine ⟨later, rule :: addedRules, ?_, by simpa using laterCollected, .cons isRule ?_⟩
      · rw [List.foldlM_cons, added, ok_bind, addedOthers]
      · have terminals := collected.terminalNames_eq.trans nextCollected.terminalNames_eq.symm
        have nonterminals :=
          collected.nonterminalNames_eq.trans nextCollected.nonterminalNames_eq.symm
        exact areRules.imp fun _ _ isRuleOf => isRuleOf.of_names terminals nonterminals

/-- Variants are refused for the first unknown name in any of them. -/
theorem addWritten_eq_error {written : List (Name × List Name)} {unknown : Name}
    (areHeads : ∀ variant ∈ written, description.declaresRule variant.1.text = true)
    (first : (written.flatMap Prod.snd).find? description.isUnknown = some unknown) :
    written.foldlM (fun grammar variant => description.addVariant variant.1 grammar variant.2)
      grammar = .error (.unknownSymbol unknown) := by
  rw [List.find?_flatMap, List.findSome?_eq_some_iff] at first
  obtain ⟨earlier, variant, others, rfl, here, before⟩ := first
  have headsBefore : ∀ variant ∈ earlier, description.declaresRule variant.1.text = true :=
    fun variant member => areHeads variant (List.mem_append_left _ member)
  have knownBefore : ∀ variant ∈ earlier, ∀ name ∈ variant.2,
      description.isUnknown name = false :=
    fun variant member name inVariant => by
      simpa using List.find?_eq_none.mp (before variant member) name inVariant
  obtain ⟨later, _, added, hasCollected, _⟩ :=
    exists_addWritten_eq_ok collected headsBefore knownBefore
  rw [List.foldlM_append, added, ok_bind, List.foldlM_cons, addVariant_eq_error hasCollected here]
  rfl

/-- A second start, or one that is not a rule, is refused. -/
theorem chooseStart_eq_error {reason : Error} (refused : description.startRefusal = some reason) :
    description.chooseStart grammar = .error reason := by
  match isStart : description.starts with
  | [] => simp [startRefusal, isStart] at refused
  | [name] =>
      obtain ⟨noRule, rfl⟩ : description.declaresRule name.text = false ∧
          .unknownStart name = reason := by
        simpa [startRefusal, isStart] using refused
      have absent : grammar.nonterminal? name.text = none := by
        rw [Grammar.nonterminal?_eq_none, mem_nonterminalNames_iff collected, noRule]
        simp
      simp [chooseStart, isStart, absent]
  | _ :: again :: _ =>
      obtain rfl : .duplicateStart again.offset = reason := by
        simpa [startRefusal, isStart] using refused
      simp [chooseStart, isStart]

/-- Else the grammar has the start that is written. -/
theorem exists_chooseStart_eq_ok (nonempty : description.rules ≠ [])
    (accepted : description.startRefusal = none) :
    ∃ later, description.chooseStart grammar = .ok later ∧
      later.terminalNames = grammar.terminalNames ∧
      later.nonterminalNames = grammar.nonterminalNames ∧ later.rules = grammar.rules ∧
      ∃ id name, later.start = .ok id ∧ later.nonterminalName id = .ok name.text ∧
        (description.starts ++ description.rules.map (·.name)).head? = some name := by
  match isStart : description.starts with
  | [] =>
      obtain ⟨first, others, isFirst⟩ := List.exists_cons_of_ne_nil nonempty
      have names := collected.nonterminalNames_eq
      rw [isFirst, List.map_cons, List.eraseDups_cons] at names
      refine ⟨grammar, by simp [chooseStart, isStart], rfl, rfl, rfl, 0, first.name, ?_, ?_, ?_⟩
      · simp [Arena.start, collected.chosenStart_eq, names]
      · simp [Arena.nonterminalName, names]
      · simp [isFirst]
  | [name] =>
      have isRule : description.declaresRule name.text = true := by
        simpa [startRefusal, isStart] using accepted
      obtain ⟨id, isName⟩ :=
        List.mem_iff_getElem?.mp ((mem_nonterminalNames_iff collected).mpr isRule)
      have found := grammar.valid.nonterminal?_eq_some.mpr isName
      exact ⟨grammar.setStart id, by simp [chooseStart, isStart, found], rfl, rfl, rfl,
        id, name, rfl, Arena.nonterminalName_eq_ok.mpr isName, by simp⟩
  | _ :: _ :: _ => simp [startRefusal, isStart] at accepted

end Named

/-- Adding the variants declaration by declaration is adding all that is written. -/
theorem foldlM_addVariants (declarations : List RuleDeclaration) (grammar : Grammar) :
    declarations.foldlM description.addVariants grammar =
      (declarations.flatMap fun declaration => declaration.variants.map
        (declaration.name, ·)).foldlM (fun grammar variant =>
          description.addVariant variant.1 grammar variant.2) grammar := by
  induction declarations generalizing grammar with
  | nil => rfl
  | cons declaration others ih =>
      rw [List.foldlM_cons, List.flatMap_cons, List.foldlM_append, List.foldlM_map]
      exact bind_congr fun next => ih next

theorem declaresRule_of_mem_writtenRules {written : Name × List Name}
    (member : written ∈ description.writtenRules) :
    description.declaresRule written.1.text = true := by
  obtain ⟨declaration, isDeclared, variant, _, rfl⟩ : ∃ declaration ∈ description.rules,
      ∃ variant ∈ declaration.variants, (declaration.name, variant) = written := by
    simpa [writtenRules] using member
  simpa [declaresRule] using ⟨declaration, isDeclared, rfl⟩

/-! ## Resolving a description -/

/-- If no rule has the name of a terminal, all names are declared before the variants are added. -/
theorem exists_declared (nonempty : description.rules ≠ [])
    (noClash : description.rules.find? (description.declaresToken ·.name.text) = none) :
    ∃ declared,
      HasCollected declared (description.tokens.map (·.text))
        (description.rules.map (·.name.text)) [] ∧
      description.resolve = description.writtenRules.foldlM
        (fun grammar variant => description.addVariant variant.1 grammar variant.2) declared >>=
          description.chooseStart := by
  obtain ⟨declared, heads, collected⟩ := HasCollected.withTokens.addHeads
    fun declaration member => by simpa using List.find?_eq_none.mp noClash declaration member
  refine ⟨declared, by simpa using collected, ?_⟩
  rw [resolve, if_neg (by simpa using nonempty), heads, writtenRules, ← foldlM_addVariants]
  rfl

/-- If every name stands for something, the variants become rules and only the start is left. -/
theorem exists_complete (nonempty : description.rules ≠ [])
    (noClash : description.rules.find? (description.declaresToken ·.name.text) = none)
    (known : (description.writtenRules.flatMap Prod.snd).find? description.isUnknown = none) :
    ∃ complete rules, HasCollected complete (description.tokens.map (·.text))
        (description.rules.map (·.name.text)) rules ∧
      List.Forall₂ (description.IsRuleOf complete) description.writtenRules rules ∧
      description.resolve = description.chooseStart complete := by
  obtain ⟨declared, collected, resolves⟩ := exists_declared nonempty noClash
  obtain ⟨complete, rules, added, hasCollected, areRules⟩ := exists_addWritten_eq_ok collected
    (fun _ member => declaresRule_of_mem_writtenRules member) fun variant
      member name inVariant => by
      simpa using List.find?_eq_none.mp known name
        (List.mem_flatMap.mpr ⟨variant, member, inVariant⟩)
  rw [added, ok_bind] at resolves
  have terminals := hasCollected.terminalNames_eq.trans collected.terminalNames_eq.symm
  have nonterminals := hasCollected.nonterminalNames_eq.trans collected.nonterminalNames_eq.symm
  exact ⟨complete, rules, hasCollected,
    areRules.imp fun _ _ isRuleOf => isRuleOf.of_names terminals nonterminals, resolves⟩

/-- What is wrong with a description is reported. -/
theorem resolve_eq_error {reason : Error} (refused : description.refusal = some reason) :
    description.resolve = .error reason := by
  unfold refusal at refused
  split at refused
  · rename_i noRules
    cases refused
    rw [resolve, if_pos (by simpa using noRules)]
    rfl
  rename_i nonempty
  split at refused
  · rename_i declaration clash
    cases refused
    rw [resolve, if_neg (by simpa using nonempty), addHeads_eq_error .withTokens clash]
    rfl
  rename_i noClash
  split at refused
  · rename_i name unknown
    cases refused
    obtain ⟨declared, collected, resolves⟩ := exists_declared nonempty noClash
    have fails := addWritten_eq_error collected
      (fun _ member => declaresRule_of_mem_writtenRules member) unknown
    rw [resolves, fails]
    rfl
  · rename_i known
    obtain ⟨complete, rules, collected, _, resolves⟩ := exists_complete nonempty noClash known
    rw [resolves, chooseStart_eq_error collected refused]

/-- Where nothing is wrong, there is the grammar that is written. -/
theorem exists_resolve_eq_ok (accepted : description.refusal = none) :
    ∃ grammar, description.resolve = .ok grammar ∧ description.IsMeantBy grammar := by
  unfold refusal at accepted
  split at accepted
  · cases accepted
  rename_i nonempty
  split at accepted
  · cases accepted
  rename_i noClash
  split at accepted
  · cases accepted
  rename_i known
  obtain ⟨complete, rules, collected, areRules, resolves⟩ :=
    exists_complete nonempty noClash known
  obtain ⟨grammar, chosen, terminals, nonterminals, sameRules, start⟩ :=
    exists_chooseStart_eq_ok collected nonempty accepted
  refine ⟨grammar, resolves.trans chosen, terminals.trans collected.terminalNames_eq,
    nonterminals.trans collected.nonterminalNames_eq, ?_, start⟩
  rw [sameRules, collected.rules_eq]
  exact areRules.imp fun _ _ isRuleOf => isRuleOf.of_names terminals nonterminals

/-- A description is refused for the first thing that is wrong with it. If nothing is wrong, there
is a grammar, which is well-formed and not augmented, and it is the one that is written. -/
theorem descriptions_mean_what_is_written (description : Description) :
    (∀ reason, description.resolve = .error reason ↔ description.refusal = some reason) ∧
    (description.refusal = none ↔ ∃ grammar, description.resolve = .ok grammar ∧
      grammar.WellFormed ∧ grammar.isAugmented = false ∧ description.IsMeantBy grammar) := by
  cases refused : description.refusal with
  | some reason =>
      have fails := resolve_eq_error refused
      simp [fails]
  | none =>
      obtain ⟨grammar, resolved, isMeantBy⟩ := exists_resolve_eq_ok refused
      obtain ⟨wellFormed, notAugmented⟩ := wellFormed_of_resolve_eq_ok resolved
      simp [resolved, wellFormed, notAugmented, isMeantBy]

example : (parse "token a; a: b; start c; start d;").map refusal =
    .ok (some (.nameClash ⟨"a", 9⟩)) := by
  decide +kernel

end Description

end DeterministicParsing
