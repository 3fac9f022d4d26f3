import Raksha.AuthLogic.GuardedRules

/-!
# Typed facts

A fact of the least model is typed if every value is a constant that the program uses at the type
of its place. The generated rules keep facts typed, and so does the rule of an assertion whose
head gets constants of its types.
-/

namespace Raksha.AuthLogic

/-! ### The types of relations -/

/-- The typings of a fact behind its first delegatees. -/
def Program.typingsAt (program : Program) (fact : Fact) (k : ℕ) :
    List (String × ArgumentType) :=
  (fact.delegationChain.take k).reverse.map principalTyping ++ program.typingsOf fact.baseFact

/-- The types at which the lowered program uses a relation behind `says_`. -/
inductive Program.Types (program : Program) : String → List ArgumentType → Prop
  | head {said : Principal × Assertion} {k : ℕ} : said ∈ program.said →
      k ≤ said.2.lhs.delegationChain.length →
      program.Types (said.2.lhs.level k).name ((program.typingsAt said.2.lhs k).map Prod.snd)
  | condition {said : Principal × Assertion} {condition : BaseFact} : said ∈ program.said →
      condition ∈ said.2.rhs →
      program.Types (baseFactPredicate condition).name
        ((program.typingsOf condition).map Prod.snd)
  | canActAs : program.Types "canActAs" [.principal, .principal]

/-- Relations of one name and arity have the same types. Only the name of a declared relation that
is also the name of a generated `canSay_` relation can have others. -/
def Program.TypesAgree (program : Program) : Prop :=
  ∀ name types types', program.Types name types → program.Types name types' →
    types.length = types'.length → types = types'

section

variable {V : Type} (value : String → V)

/-- The value is a constant of the program in the universe of the type. -/
def Program.InUniverse (program : Program) (argType : ArgumentType) (v : V) : Prop :=
  ∃ typing ∈ program.typings, isNameConstant typing.1 = true ∧
    typeToUniverseName typing.2 = typeToUniverseName argType ∧ value typing.1 = v

def Program.TypedFact (program : Program) (fact : GroundFact V) : Prop :=
  ∀ name types, fact.relation = "says_" ++ name → program.Types name types →
    fact.args.length = types.length + 1 →
    List.Forall₂ (program.InUniverse value) (.principal :: types) fact.args

end

/-! ### Values of texts -/

section

variable {V : Type} {value : String → V} {assignment : String → V}

theorem isVariable_underscore : IsVariable "_" :=
  ⟨'_', [], rfl, rfl, fun _ h => absurd h List.not_mem_nil⟩

theorem IsQuoted.isNameConstant {text : String} (h : IsQuoted text) :
    isNameConstant text = true := by
  obtain ⟨inner, htext⟩ := h
  have hlast : text.toList.getLast? = some '"' := by
    rw [htext, ← List.cons_append, List.getLast?_concat]
  have hhead : text.toList.head? = some '"' := by rw [htext, List.head?_cons]
  rw [AuthLogic.isNameConstant, if_pos ⟨hhead, hlast⟩]

theorem Denotes.eq_value {text : String} {v : V} (h : Denotes value assignment text v)
    (hconstant : isNameConstant text = true) : v = value text := by
  cases h with
  | anonymous v => rw [isVariable_underscore.not_nameConstant] at hconstant; cases hconstant
  | named hvariable _ => rw [hvariable.not_nameConstant] at hconstant; cases hconstant
  | constant _ => rfl

theorem forall₂_denotes_unique {texts : List String} {vs ws : List V}
    (hvs : List.Forall₂ (Denotes value assignment) texts vs)
    (hws : List.Forall₂ (Denotes value assignment) texts ws) (hnamed : "_" ∉ texts) : vs = ws := by
  induction hvs generalizing ws with
  | nil =>
    cases hws
    rfl
  | cons hv _ ih =>
    cases hws with
    | cons hw hws =>
      rw [List.mem_cons, not_or] at hnamed
      rw [hv.unique hw (Ne.symm hnamed.1), ih hws hnamed.2]

theorem exists_denotes (texts : List String) :
    ∃ vs, List.Forall₂ (Denotes value assignment) texts vs := by
  induction texts with
  | nil => exact ⟨[], .nil⟩
  | cons text texts ih =>
    obtain ⟨vs, hvs⟩ := ih
    by_cases hvariable : IsVariable text
    · by_cases hunderscore : text = "_"
      · subst hunderscore
        exact ⟨assignment "_" :: vs, .cons (.anonymous _) hvs⟩
      · exact ⟨assignment text :: vs, .cons (.named hvariable hunderscore) hvs⟩
    · exact ⟨value text :: vs, .cons (.constant hvariable) hvs⟩

theorem forall₂_inUniverse {program : Program} {typings : List (String × ArgumentType)}
    {vs : List V} (hvs : List.Forall₂ (Denotes value assignment) (typings.map Prod.fst) vs)
    (h : ∀ typing ∈ typings, ∀ v, Denotes value assignment typing.1 v →
      program.InUniverse value typing.2 v) :
    List.Forall₂ (program.InUniverse value) (typings.map Prod.snd) vs := by
  induction typings generalizing vs with
  | nil =>
    cases hvs
    exact .nil
  | cons typing typings ih =>
    cases hvs with
    | cons hv hvs =>
      exact .cons (h typing (List.mem_cons_self ..) _ hv)
        (ih hvs fun other hother => h other (List.mem_cons_of_mem _ hother))

end

/-! ### What keeps facts typed -/

section

variable {V : Type} {value : String → V} {assignment : String → V} {program program' : Program}
  {constants : List (String × ArgumentType)}

theorem typedFact_of (hagree : program.TypesAgree) {fact : GroundFact V} {name : String}
    {types : List ArgumentType} (hrelation : fact.relation = "says_" ++ name)
    (htypes : program.Types name types)
    (h : List.Forall₂ (program.InUniverse value) (.principal :: types) fact.args) :
    program.TypedFact value fact := by
  intro name' types' hrelation' htypes' hlength
  obtain rfl : name = name' := says_inj (hrelation.symm.trans hrelation')
  have hsame := h.length_eq
  rw [List.length_cons] at hsame
  rwa [← hagree name types types' htypes htypes' (by omega)]

theorem inUniverse_constant {text : String} {argType : ArgumentType} {v : V}
    (htyping : (text, argType) ∈ program.typings) (hconstant : isNameConstant text = true)
    (hv : Denotes value assignment text v) : program.InUniverse value argType v :=
  ⟨_, htyping, hconstant, rfl, (hv.eq_value hconstant).symm⟩

variable (haccepted : Accepted program program' constants) (hlexed : program.Lexed)
  (hwell : program.WellTyped) {said : Principal × Assertion} (hsaid : said ∈ program.said)

include haccepted hlexed hsaid in
theorem inUniverse_speaker {v : V} (hv : Denotes value assignment said.1.name v) :
    program.InUniverse value .principal v :=
  inUniverse_constant (haccepted.speakers said hsaid) (hlexed.said said hsaid).1.isNameConstant hv

include haccepted hsaid in
theorem typingsAt_args (k : ℕ) :
    (program.typingsAt said.2.lhs k).map Prod.fst = (said.2.lhs.level k).args := by
  rw [Program.typingsAt, List.map_append, haccepted.headArgs said hsaid, Fact.level,
    chainPredicate_eq, List.map_map, List.map_reverse]
  rfl

include hwell hsaid in
theorem underscore_notMem_base : "_" ∉ said.2.lhs.base.args :=
  fun h => (hwell.bound said hsaid "_" h isVariable_underscore).1 rfl

include hlexed hwell hsaid in
theorem underscore_notMem_level (k : ℕ) : "_" ∉ (said.2.lhs.level k).args := by
  rw [Fact.level, chainPredicate_eq, List.mem_append, List.mem_reverse, List.mem_map]
  rintro (⟨delegatee, hdelegatee, hname⟩ | hmem)
  · have hquoted := (hlexed.said said hsaid).2.lhs.chain delegatee (List.mem_of_mem_take hdelegatee)
    exact isVariable_underscore.not_quoted (hname ▸ hquoted)
  · exact underscore_notMem_base hwell hsaid hmem

theorem typingsOf_acting {baseFact : BaseFact} (h : ∀ predicate, baseFact ≠ .predicate predicate)
    {typing : String × ArgumentType} {typings : List (String × ArgumentType)}
    (htypings : program.typingsOf baseFact = typing :: typings) : typing.2 = .principal := by
  rw [Program.typingsOf] at htypings
  cases henv : declarationEnvironment program with
  | none =>
    rw [henv] at htypings
    cases htypings
  | some declEnv =>
    rw [henv, Option.bind_some] at htypings
    cases baseFact with
    | predicate predicate => exact absurd rfl (h predicate)
    | attr attr =>
      cases hinner : predicateTypings declEnv attr.predicate with
      | none => simp [baseFactTypings, hinner] at htypings
      | some inner =>
        simp only [baseFactTypings, hinner, Option.bind_eq_bind, Option.bind_some,
          Option.getD_some, List.cons.injEq] at htypings
        rw [← htypings.1]
        rfl
    | canActAs canActAs =>
      simp only [baseFactTypings, Option.getD_some, List.cons.injEq] at htypings
      rw [← htypings.1]
      rfl

include haccepted hlexed hwell hsaid in
theorem typedFact_delegation (hagree : program.TypesAgree) {k : ℕ}
    (hk : k < said.2.lhs.delegationChain.length) {fresh : Principal} {head : GroundFact V}
    {premises : List (GroundFact V)}
    (hhead : (delegationRule said.1 fresh (said.2.lhs.level k)).lhs.HasInstance value assignment
      head)
    (hpremises : List.Forall₂ (Predicate.HasInstance value assignment)
      (delegationRule said.1 fresh (said.2.lhs.level k)).rhs premises)
    (ih : ∀ p ∈ premises, program.TypedFact value p) : program.TypedFact value head := by
  have htypes := Program.Types.head hsaid hk.le
  obtain ⟨delegated, _, ⟨hdelegated, hdelegatedArgs⟩, -, rfl⟩ :=
    List.forall₂_cons_left_iff.mp hpremises
  obtain ⟨hname, hargs⟩ := hhead
  change List.Forall₂ _ (said.1.name :: (said.2.lhs.level k).args) _ at hargs
  change List.Forall₂ _ (fresh.name :: (said.2.lhs.level k).args) _ at hdelegatedArgs
  obtain ⟨s, vs, hs, hvs, hheadArgs⟩ := List.forall₂_cons_left_iff.mp hargs
  obtain ⟨f, ws, -, hws, hdelegatedEq⟩ := List.forall₂_cons_left_iff.mp hdelegatedArgs
  obtain rfl := forall₂_denotes_unique hvs hws (underscore_notMem_level hlexed hwell hsaid k)
  have hlength : delegated.args.length =
      ((program.typingsAt said.2.lhs k).map Prod.snd).length + 1 := by
    rw [hdelegatedEq, List.length_cons, ← hvs.length_eq, ← typingsAt_args haccepted hsaid,
      List.length_map, List.length_map]
  have htyped := ih delegated (List.mem_cons_self ..) _ _ hdelegated htypes hlength
  rw [hdelegatedEq] at htyped
  refine typedFact_of hagree hname htypes ?_
  rw [hheadArgs]
  exact .cons (inUniverse_speaker haccepted hlexed hsaid hs) (List.forall₂_cons.mp htyped).2

include haccepted hsaid in
theorem typings_acting {x : String} {args : List String} {sign : Sign}
    (hacting : ∀ predicate, said.2.lhs.baseFact ≠ .predicate predicate)
    (hbase : said.2.lhs.base = ⟨said.2.lhs.base.name, x :: args, sign⟩) :
    ∃ typings : List (String × ArgumentType), typings.map Prod.fst = args ∧
      program.Types said.2.lhs.base.name (.principal :: typings.map Prod.snd) := by
  have htypes : program.Types said.2.lhs.base.name _ := Program.Types.head hsaid (Nat.zero_le _)
  have htexts := typingsAt_args haccepted hsaid 0
  have hlevel : (said.2.lhs.level 0).args = x :: args := by
    rw [Fact.level, List.take_zero, chainPredicate, List.foldl_nil, hbase]
  have hzero : program.typingsAt said.2.lhs 0 = program.typingsOf said.2.lhs.baseFact := by
    rw [Program.typingsAt, List.take_zero, List.reverse_nil, List.map_nil, List.nil_append]
  rw [hlevel] at htexts
  rw [hzero] at htexts htypes
  obtain ⟨typing, typings, htypings⟩ := List.exists_cons_of_ne_nil (l := program.typingsOf
    said.2.lhs.baseFact) (by
      intro hnil
      rw [hnil] at htexts
      cases htexts)
  have hprincipal := typingsOf_acting hacting htypings
  rw [htypings] at htexts htypes
  rw [List.map_cons, hprincipal] at htypes
  exact ⟨typings, (List.cons.inj htexts).2, htypes⟩

include haccepted hwell hsaid in
/-- An acting rule hands on the values of the fact about the other principal. -/
theorem typedFact_acting (hagree : program.TypesAgree) {fresh : Principal} {x : String}
    {args : List String} {sign : Sign}
    (hacting : ∀ predicate, said.2.lhs.baseFact ≠ .predicate predicate)
    (hbase : said.2.lhs.base = ⟨said.2.lhs.base.name, x :: args, sign⟩) {head : GroundFact V}
    {premises : List (GroundFact V)}
    (hhead : (actingRule said.1 fresh x args said.2.lhs.base.name sign).lhs.HasInstance value
      assignment head)
    (hpremises : List.Forall₂ (Predicate.HasInstance value assignment)
      (actingRule said.1 fresh x args said.2.lhs.base.name sign).rhs premises)
    (ih : ∀ p ∈ premises, program.TypedFact value p)
    (hspeaker : ∀ v, Denotes value assignment said.1.name v → program.InUniverse value .principal v)
    (hfresh : fresh.name ≠ "_") : program.TypedFact value head := by
  obtain ⟨typings, hargsEq, htypes⟩ := typings_acting haccepted hsaid hacting hbase
  have hnamed : "_" ∉ args := by
    intro hmem
    refine underscore_notMem_base hwell hsaid ?_
    rw [hbase]
    exact List.mem_cons_of_mem _ hmem
  obtain ⟨acts, _, ⟨hacts, hactsArgs⟩, hlater, rfl⟩ := List.forall₂_cons_left_iff.mp hpremises
  obtain ⟨stated, _, ⟨hstated, hstatedArgs⟩, -, rfl⟩ := List.forall₂_cons_left_iff.mp hlater
  obtain ⟨hname, hargs⟩ := hhead
  obtain ⟨s, _, hs, hrest, hheadArgs⟩ := List.forall₂_cons_left_iff.mp hargs
  obtain ⟨y, vs, hy, hvs, rfl⟩ := List.forall₂_cons_left_iff.mp hrest
  -- The fresh principal is typed by the `canActAs` fact.
  have hactsName : acts.relation = "says_" ++ "canActAs" := hacts.trans rfl
  have hactsTyped := ih acts (List.mem_cons_self ..) _ _ hactsName .canActAs
    hactsArgs.length_eq.symm
  obtain ⟨_, _, -, hactsRest, hactsEq⟩ := List.forall₂_cons_left_iff.mp hactsArgs
  obtain ⟨y', _, hy', -, rfl⟩ := List.forall₂_cons_left_iff.mp hactsRest
  obtain rfl := hy.unique hy' hfresh
  rw [hactsEq] at hactsTyped
  have hyTyped := (List.forall₂_cons.mp (List.forall₂_cons.mp hactsTyped).2).1
  -- The other values are those of the stated fact.
  have hstatedLength : stated.args.length = (ArgumentType.principal :: typings.map Prod.snd).length
      + 1 := by
    rw [← hstatedArgs.length_eq, List.length_cons, List.length_cons, List.length_cons,
      List.length_map, ← hargsEq, List.length_map]
  have hstatedTyped := ih stated (List.mem_cons_of_mem _ (List.mem_cons_self ..)) _ _ hstated htypes
    hstatedLength
  obtain ⟨_, _, -, hstatedRest, hstatedEq⟩ := List.forall₂_cons_left_iff.mp hstatedArgs
  obtain ⟨_, ws, -, hws, rfl⟩ := List.forall₂_cons_left_iff.mp hstatedRest
  obtain rfl := forall₂_denotes_unique hvs hws hnamed
  rw [hstatedEq] at hstatedTyped
  have hvsTyped := (List.forall₂_cons.mp (List.forall₂_cons.mp hstatedTyped).2).2
  refine typedFact_of hagree hname htypes ?_
  rw [hheadArgs]
  exact .cons (hspeaker s hs) (.cons hyTyped hvsTyped)

include haccepted hlexed hwell in
theorem typedFact_generated (hagree : program.TypesAgree) {rule : Rule}
    (hrule : rule ∈ generatedRules 0 program.said) {head : GroundFact V}
    {premises : List (GroundFact V)} (hhead : rule.lhs.HasInstance value assignment head)
    (hpremises : List.Forall₂ (Predicate.HasInstance value assignment) rule.rhs premises)
    (ih : ∀ p ∈ premises, program.TypedFact value p) : program.TypedFact value head := by
  obtain ⟨said, hsaid, m, hmem⟩ := mem_generatedRules hrule
  rcases List.mem_append.mp hmem with hspoken | hdelegation
  · have hacting : ∀ predicate, said.2.lhs.baseFact ≠ .predicate predicate := by
      intro predicate heq
      rw [heq] at hspoken
      cases hspoken
    obtain ⟨x, args, sign, hbase, rfl⟩ := spokenRules_cases hspoken
    exact typedFact_acting haccepted hwell hsaid hagree hacting hbase hhead hpremises ih
      (fun v hv => inUniverse_speaker haccepted hlexed hsaid hv) (freshName_ne_underscore _)
  · rw [delegationRules_eq] at hdelegation
    obtain ⟨k, hk, rfl⟩ := List.mem_map.mp hdelegation
    exact typedFact_delegation haccepted hlexed hwell hsaid hagree (List.mem_range.mp hk) hhead
      hpremises ih

include haccepted hlexed hsaid in
/-- The rule of an assertion, when its base fact gets constants of its types. -/
theorem typedFact_main (hagree : program.TypesAgree) {head : GroundFact V}
    (hhead : (said.2.mainRule said.1).lhs.HasInstance value assignment head)
    (hbase : ∀ typing ∈ program.typingsOf said.2.lhs.baseFact, ∀ v,
      Denotes value assignment typing.1 v → program.InUniverse value typing.2 v) :
    program.TypedFact value head := by
  have htypes := Program.Types.head hsaid le_rfl
  have htexts := typingsAt_args haccepted hsaid said.2.lhs.delegationChain.length
  rw [Fact.level_length] at htypes htexts
  obtain ⟨hname, hargs⟩ := hhead
  change List.Forall₂ _ (said.1.name :: said.2.lhs.toPredicate.args) _ at hargs
  obtain ⟨s, vs, hs, hvs, hheadArgs⟩ := List.forall₂_cons_left_iff.mp hargs
  refine typedFact_of hagree hname htypes ?_
  rw [hheadArgs]
  rw [← htexts] at hvs
  refine .cons (inUniverse_speaker haccepted hlexed hsaid hs) (forall₂_inUniverse hvs ?_)
  intro typing htyping v hv
  rcases List.mem_append.mp htyping with hchain | htyping
  · obtain ⟨delegatee, hdelegatee, rfl⟩ := List.mem_map.mp hchain
    have hmem := List.mem_of_mem_take (List.mem_reverse.mp hdelegatee)
    have hquoted := (hlexed.said said hsaid).2.lhs.chain delegatee hmem
    exact inUniverse_constant (haccepted.delegatees said hsaid delegatee hmem)
      hquoted.isNameConstant hv
  · exact hbase typing htyping v hv

theorem BaseFact.Lexed.args_ne {baseFact : BaseFact} (h : baseFact.Lexed) :
    (baseFactPredicate baseFact).args ≠ [] := by
  cases baseFact with
  | predicate predicate => exact Predicate.Lexed.args_ne h
  | attr attr => exact List.cons_ne_nil _ _
  | canActAs canActAs => exact List.cons_ne_nil _ _

include hsaid in
theorem condition_mem {condition : BaseFact} (hcondition : condition ∈ said.2.rhs) :
    condition ∈ program.baseFacts :=
  List.mem_append_right _ (List.mem_flatMap.mpr ⟨said, hsaid, hcondition⟩)

include hlexed hwell hsaid in
theorem condition_lexed {condition : BaseFact} (hcondition : condition ∈ said.2.rhs) :
    condition.Lexed := by
  rcases (hlexed.said said hsaid).2.rhs condition hcondition with h | hcomparison
  · exact h
  · exact absurd hcomparison (hwell.noComparison condition (condition_mem hsaid hcondition))

include haccepted hlexed hwell in
theorem types_spec {name : String} {types : List ArgumentType} (h : program.Types name types) :
    types ≠ [] ∧ ¬ program.IsUniverse name := by
  cases h with
  | @head said k hsaid hk =>
    refine ⟨?_, ?_⟩
    · have hargs := typingsAt_args haccepted hsaid k
      intro hnil
      rw [List.map_eq_nil_iff.mp hnil, List.map_nil, Fact.level, chainPredicate_eq] at hargs
      have hbase := (List.append_eq_nil_iff.mp hargs.symm).2
      exact (hlexed.said said hsaid).2.lhs.baseFact.args_ne hbase
    · rw [said.2.lhs.level_name hk]
      exact hwell.not_isUniverse (base_mem hsaid) k
  | @condition said condition hsaid hcondition =>
    refine ⟨?_, hwell.not_isUniverse (condition_mem hsaid hcondition) 0⟩
    have hargs := haccepted.conditionArgs said hsaid condition hcondition
    intro hnil
    rw [List.map_eq_nil_iff.mp hnil, List.map_nil] at hargs
    exact (condition_lexed hlexed hwell hsaid hcondition).args_ne hargs.symm
  | canActAs => exact ⟨List.cons_ne_nil _ _, canActAs_not_isUniverse program⟩

include haccepted hlexed hwell in
/-- The facts of queries have one argument, which no typed relation has. -/
theorem typedFact_closing {fact : GroundFact V} (h : fact.args.length = 1) :
    program.TypedFact value fact := by
  intro name types _ htypes hlength
  have hne := (types_spec haccepted hlexed hwell htypes).1
  rw [h] at hlength
  exact absurd (List.eq_nil_of_length_eq_zero (by omega)) hne

include haccepted hlexed hwell in
theorem typedFact_universe {fact : GroundFact V} {universeName : String}
    (huniverse : program.IsUniverse universeName) (h : fact.relation = "says_" ++ universeName) :
    program.TypedFact value fact := by
  intro name types hrelation htypes _
  obtain rfl : universeName = name := says_inj (h.symm.trans hrelation)
  exact absurd huniverse (types_spec haccepted hlexed hwell htypes).2

end

end Raksha.AuthLogic
