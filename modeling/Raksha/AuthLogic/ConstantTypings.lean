import Raksha.AuthLogic.DelegationClosure

/-!
# Typings of constants

The types that a program gives its arguments, the constants among them, and the conditions that
the insertion makes of the others.
-/

namespace Raksha.AuthLogic

/-! ### The typings of a program -/

/-- The arguments of the program with the types that the environment gives them. -/
def Program.typings (program : Program) : List (String × ArgumentType) :=
  ((declarationEnvironment program).bind fun declEnv => programTypings declEnv program).getD []

/-- The arguments of a base fact with the types that the program declares. -/
def Program.typingsOf (program : Program) (baseFact : BaseFact) : List (String × ArgumentType) :=
  ((declarationEnvironment program).bind fun declEnv => baseFactTypings declEnv baseFact).getD []

/-- The membership conditions for the arguments that are no constants. -/
def universeConditions (typings : List (String × ArgumentType)) : List BaseFact :=
  (typings.filter fun typing => isNameConstant typing.1 = false).map fun typing =>
    makeUniverseMembershipFact typing.1 typing.2

theorem foldlM_addDeclaration {declarations : List RelationDeclaration}
    {declMap declMap' : AList fun _ : String => RelationDeclaration}
    (h : declarations.foldlM addDeclaration declMap = some declMap') {name : String}
    {declaration : RelationDeclaration} (hlookup : declMap'.lookup name = some declaration) :
    declMap.lookup name = some declaration ∨
      (declaration ∈ declarations ∧ declaration.relationName = name) := by
  induction declarations generalizing declMap with
  | nil =>
    cases h
    exact .inl hlookup
  | cons first declarations ih =>
    rw [List.foldlM_cons] at h
    obtain ⟨next, hnext, h⟩ := Option.bind_eq_some_iff.mp h
    rcases ih h with hold | ⟨hmem, hname⟩
    · rw [addDeclaration] at hnext
      split at hnext
      · cases hnext
        by_cases heq : name = first.relationName
        · subst heq
          rw [AList.lookup_insert] at hold
          cases hold
          exact .inr ⟨List.mem_cons_self .., rfl⟩
        · rw [AList.lookup_insert_ne heq] at hold
          exact .inl hold
      · cases hnext
    · exact .inr ⟨List.mem_cons_of_mem _ hmem, hname⟩

theorem declared_of_lookup {program : Program}
    {declEnv : AList fun _ : String => RelationDeclaration}
    (h : declarationEnvironment program = some declEnv) {name : String}
    {declaration : RelationDeclaration} (hlookup : declEnv.lookup name = some declaration) :
    declaration ∈ program.relationDeclarations ∧ declaration.relationName = name := by
  rcases foldlM_addDeclaration h hlookup with hnone | hdeclared
  · rw [AList.lookup_empty] at hnone
    cases hnone
  · exact hdeclared

theorem lookup_foldlM_addTyping {typings : List (String × ArgumentType)}
    {literalTypeMap literalTypeMap' : AList fun _ : String => ArgumentType}
    (h : typings.foldlM addTyping literalTypeMap = some literalTypeMap') (id : String)
    (argType : ArgumentType) : literalTypeMap'.lookup id = some argType ↔
      literalTypeMap.lookup id = some argType ∨
      ((id, argType) ∈ typings ∧ isNameConstant id = true) := by
  induction typings generalizing literalTypeMap with
  | nil =>
    cases h
    simp
  | cons typing typings ih =>
    obtain ⟨first, firstType⟩ := typing
    rw [List.foldlM_cons] at h
    obtain ⟨next, hnext, h⟩ := Option.bind_eq_some_iff.mp h
    rw [ih h, List.mem_cons, Prod.mk.injEq]
    simp only [addTyping] at hnext
    split at hnext
    · next hconstant =>
      cases hlookup : literalTypeMap.lookup first with
      | none =>
        simp only [hlookup, Option.some.injEq] at hnext
        subst hnext
        by_cases heq : id = first
        · subst heq
          rw [AList.lookup_insert, hlookup]
          simp only [Option.some.injEq, true_and, hconstant, and_true, reduceCtorEq, false_or,
            eq_comm (a := firstType)]
        · rw [AList.lookup_insert_ne heq]
          simp only [heq, false_and, false_or]
      | some found =>
        simp only [hlookup] at hnext
        split at hnext
        · next hsame =>
          cases hnext
          subst hsame
          constructor
          · rintro (hold | ⟨hmem, hid⟩)
            · exact .inl hold
            · exact .inr ⟨.inr hmem, hid⟩
          · rintro (hold | ⟨⟨rfl, rfl⟩ | hmem, hid⟩)
            · exact .inl hold
            · exact .inl hlookup
            · exact .inr ⟨hmem, hid⟩
        · cases hnext
    · next hconstant =>
      cases hnext
      refine or_congr_right ⟨?_, ?_⟩
      · rintro ⟨hmem, hid⟩
        exact ⟨.inr hmem, hid⟩
      · rintro ⟨⟨rfl, rfl⟩ | hmem, hid⟩
        · exact absurd hid hconstant
        · exact ⟨hmem, hid⟩

/-! ### The typings of a base fact -/

section

variable {declEnv : AList fun _ : String => RelationDeclaration}

/-- Two checked maps over one list, the results of one as a function of those of the other. -/
theorem mapM_eq_map {α β γ : Type} {f : α → Option β} {g : α → Option γ} {result : β → γ}
    {values : List α} {typings : List β} {results : List γ}
    (hf : values.mapM f = some typings) (hg : values.mapM g = some results)
    (h : ∀ value typing other, f value = some typing → g value = some other →
      other = result typing) : results = typings.map result := by
  replace hf := mapM_eq_some_iff.mp hf
  replace hg := mapM_eq_some_iff.mp hg
  induction hf generalizing results with
  | nil =>
    cases hg
    rfl
  | cons hfirst _ ih =>
    cases hg with
    | cons hother hg =>
      rw [List.map_cons, ih hg, h _ _ _ hfirst hother]

theorem predicateTypings_args {predicate : Predicate} {typings : List (String × ArgumentType)}
    (h : predicateTypings declEnv predicate = some typings) :
    typings.map Prod.fst = predicate.args := by
  rw [predicateTypings] at h
  split at h
  · cases h
    rw [List.map_map]
    exact List.map_id _
  · obtain ⟨declaration, -, h⟩ := Option.bind_eq_some_iff.mp h
    have hargs : (predicate.args.zipIdx.mapM fun indexed => some indexed.1) =
        some predicate.args := by
      rw [mapM_eq_some_iff]
      have hself : predicate.args.zipIdx.map Prod.fst = predicate.args := List.zipIdx_map_fst ..
      rw [← hself, List.forall₂_map_right_iff, hself]
      exact List.forall₂_same.mpr fun _ _ => rfl
    refine (mapM_eq_map h hargs ?_).symm
    rintro ⟨arg, i⟩ typing other htyping hother
    obtain ⟨argument, -, htyping⟩ := Option.bind_eq_some_iff.mp htyping
    cases htyping
    cases hother
    rfl

theorem baseFactTypings_args {baseFact : BaseFact} {typings : List (String × ArgumentType)}
    (h : baseFactTypings declEnv baseFact = some typings) :
    typings.map Prod.fst = (baseFactPredicate baseFact).args := by
  cases baseFact with
  | predicate predicate => exact predicateTypings_args h
  | attr attr =>
    obtain ⟨inner, hinner, h⟩ := Option.bind_eq_some_iff.mp h
    cases h
    rw [List.map_cons, predicateTypings_args hinner]
    rfl
  | canActAs canActAs =>
    cases h
    rfl

theorem flatten_memberships (typings : List (String × ArgumentType)) :
    (typings.map fun typing => if isNameConstant typing.1 = true then []
      else [makeUniverseMembershipFact typing.1 typing.2]).flatten =
      universeConditions typings := by
  induction typings with
  | nil => rfl
  | cons typing typings ih =>
    rw [List.map_cons, List.flatten_cons, ih]
    cases hconstant : isNameConstant typing.1 with
    | true => simp [universeConditions, hconstant]
    | false => simp [universeConditions, hconstant]

theorem predicateConditions_eq {predicate : Predicate} {typings : List (String × ArgumentType)}
    {conditions : List BaseFact} (hoperator : predicate.isNumericOperator = false)
    (htypings : predicateTypings declEnv predicate = some typings)
    (hconditions : predicateConditions declEnv predicate = some conditions) :
    conditions = universeConditions typings := by
  rw [predicateTypings, if_neg (by rw [hoperator]; exact Bool.false_ne_true)] at htypings
  obtain ⟨declaration, hdeclaration, htypings⟩ := Option.bind_eq_some_iff.mp htypings
  obtain ⟨declaration', hdeclaration', hconditions⟩ := Option.bind_eq_some_iff.mp hconditions
  obtain rfl : declaration = declaration' :=
    Option.some.inj (hdeclaration.symm.trans hdeclaration')
  obtain ⟨results, hresults, hconditions⟩ := Option.bind_eq_some_iff.mp hconditions
  cases hconditions
  have hmap : results = typings.map fun typing => if isNameConstant typing.1 = true then []
      else [makeUniverseMembershipFact typing.1 typing.2] := by
    refine mapM_eq_map htypings hresults ?_
    rintro ⟨arg, i⟩ typing result htyping hresult
    obtain ⟨argument, hargument, htyping⟩ := Option.bind_eq_some_iff.mp htyping
    cases htyping
    cases hconstant : isNameConstant arg with
    | true =>
      simp only [hconstant, if_true] at hresult ⊢
      cases hresult
      rfl
    | false =>
      simp only [hconstant, Bool.false_eq_true, if_false, hargument, Option.bind_eq_bind,
        Option.bind_some] at hresult ⊢
      cases hresult
      rfl
  rw [hmap, flatten_memberships]

theorem principalConditions_eq (principal : Principal) :
    principalConditions principal = universeConditions [principalTyping principal] := by
  unfold principalConditions universeConditions principalTyping
  cases hconstant : isNameConstant principal.name with
  | true => simp [hconstant]
  | false => simp [hconstant]

theorem universeConditions_append (typings typings' : List (String × ArgumentType)) :
    universeConditions (typings ++ typings') =
      universeConditions typings ++ universeConditions typings' := by
  simp only [universeConditions, List.filter_append, List.map_append]

theorem getUniverseConditions_eq {baseFact : BaseFact} {typings : List (String × ArgumentType)}
    {conditions : List BaseFact}
    (hoperator : ∀ predicate, baseFact = .predicate predicate ∨
      (∃ principal, baseFact = .attr ⟨principal, predicate⟩) →
      predicate.isNumericOperator = false)
    (htypings : baseFactTypings declEnv baseFact = some typings)
    (hconditions : getUniverseConditions declEnv baseFact = some conditions) :
    conditions = universeConditions typings := by
  cases baseFact with
  | predicate predicate =>
    exact predicateConditions_eq (hoperator predicate (.inl rfl)) htypings hconditions
  | attr attr =>
    obtain ⟨inner, hinner, htypings⟩ := Option.bind_eq_some_iff.mp htypings
    obtain ⟨innerConditions, hinnerConditions, hconditions⟩ :=
      Option.bind_eq_some_iff.mp hconditions
    cases htypings
    cases hconditions
    rw [principalConditions_eq, predicateConditions_eq
      (hoperator attr.predicate (.inr ⟨attr.principal, rfl⟩)) hinner hinnerConditions,
      ← universeConditions_append]
    rfl
  | canActAs canActAs =>
    cases htypings
    cases hconditions
    rw [principalConditions_eq, principalConditions_eq, ← universeConditions_append]
    rfl

end

/-! ### Universes and relations -/

def Program.IsUniverse (program : Program) (name : String) : Prop :=
  ∃ declaration ∈ getUniverseDeclarations program, declaration.relationName = name

theorem isUniverse_number (program : Program) :
    program.IsUniverse (typeToUniverseName .number) :=
  ⟨typeToUniverseDeclaration .number,
    List.mem_dedup.mpr (List.mem_append_right _ (List.mem_cons_self ..)), rfl⟩

theorem isUniverse_principal (program : Program) :
    program.IsUniverse (typeToUniverseName .principal) := by
  refine ⟨typeToUniverseDeclaration .principal, ?_, rfl⟩
  exact List.mem_dedup.mpr (List.mem_append_right _ (List.mem_cons_of_mem _
    (List.mem_singleton_self _)))

theorem isUniverse_argument {program : Program} {declaration : RelationDeclaration}
    (h : declaration ∈ program.relationDeclarations) {argument : Argument}
    (hargument : argument ∈ declaration.arguments) :
    program.IsUniverse (typeToUniverseName argument.argumentType) := by
  refine ⟨typeToUniverseDeclaration argument.argumentType, ?_, rfl⟩
  refine List.mem_dedup.mpr (List.mem_append_left _ (List.mem_flatMap.mpr ⟨_, h, ?_⟩))
  exact List.mem_map_of_mem hargument

section

variable {program : Program} {declEnv : AList fun _ : String => RelationDeclaration}
  (henv : declarationEnvironment program = some declEnv)

include henv in
theorem predicateTypings_universe {predicate : Predicate}
    {typings : List (String × ArgumentType)}
    (h : predicateTypings declEnv predicate = some typings) {typing : String × ArgumentType}
    (htyping : typing ∈ typings) : program.IsUniverse (typeToUniverseName typing.2) := by
  rw [predicateTypings] at h
  split at h
  · cases h
    obtain ⟨arg, -, rfl⟩ := List.mem_map.mp htyping
    exact isUniverse_number program
  · obtain ⟨declaration, hlookup, h⟩ := Option.bind_eq_some_iff.mp h
    obtain ⟨⟨arg, i⟩, -, hentry⟩ := exists_of_mapM_mem h htyping
    obtain ⟨argument, hargument, hentry⟩ := Option.bind_eq_some_iff.mp hentry
    cases hentry
    exact isUniverse_argument (declared_of_lookup henv hlookup).1 (List.mem_of_getElem? hargument)

include henv in
theorem baseFactTypings_universe {baseFact : BaseFact} {typings : List (String × ArgumentType)}
    (h : baseFactTypings declEnv baseFact = some typings) {typing : String × ArgumentType}
    (htyping : typing ∈ typings) : program.IsUniverse (typeToUniverseName typing.2) := by
  cases baseFact with
  | predicate predicate => exact predicateTypings_universe henv h htyping
  | attr attr =>
    obtain ⟨inner, hinner, h⟩ := Option.bind_eq_some_iff.mp h
    cases h
    rcases List.mem_cons.mp htyping with rfl | htyping
    · exact isUniverse_principal program
    · exact predicateTypings_universe henv hinner htyping
  | canActAs canActAs =>
    cases h
    rcases List.mem_pair.mp htyping with rfl | rfl
    · exact isUniverse_principal program
    · exact isUniverse_principal program

theorem IsWord.not_isNumericOperator {predicate : Predicate} (h : IsWord predicate.name) :
    predicate.isNumericOperator = false := by
  by_contra hoperator
  rw [Bool.not_eq_false, Predicate.isNumericOperator, List.contains_iff_mem] at hoperator
  exact h.not_fromComparison ⟨_, hoperator, .inl rfl⟩

end

/-! ### Programs with one type for every variable -/

/-- The typings of the arguments of an assertion. -/
def Program.typingsIn (program : Program) (assertion : Assertion) :
    List (String × ArgumentType) :=
  program.typingsOf assertion.lhs.baseFact ++ assertion.rhs.flatMap program.typingsOf

/-- Neither negation nor comparisons, every relation declared once and used with its arity and
form, one type for every variable of an assertion, heads whose variables are in the body, and no
relation with the name of a universe. -/
structure Program.WellTyped (program : Program) : Prop where
  positive : ∀ baseFact ∈ program.baseFacts, (baseFactPredicate baseFact).sign = .positive
  noComparison : ∀ baseFact ∈ program.baseFacts, ¬ baseFact.IsComparison
  once : (program.relationDeclarations.map RelationDeclaration.relationName).Nodup
  used : ∀ baseFact ∈ program.baseFacts, UsedAsDeclared program.relationDeclarations baseFact
  oneType : ∀ said ∈ program.said, ∀ v, IsVariable v → v ≠ "_" → ∀ argType argType',
    (v, argType) ∈ program.typingsIn said.2 → (v, argType') ∈ program.typingsIn said.2 →
    argType = argType'
  -- Every `_` is a variable of its own, which occurs nowhere else.
  bound : ∀ said ∈ program.said, ∀ v ∈ said.2.lhs.base.args, IsVariable v →
    v ≠ "_" ∧ ∃ condition ∈ said.2.rhs, v ∈ (baseFactPredicate condition).args
  universes : ∀ declaration ∈ program.relationDeclarations,
    ¬ program.IsUniverse declaration.relationName

theorem isUniverse_head {program : Program} {name : String} (h : program.IsUniverse name) :
    name.toList.head? = some 'i' := by
  have htype : ∀ argType, (typeToUniverseName argType).toList.head? = some 'i' := by
    intro argType
    cases argType with
    | number => rfl
    | principal => rfl
    | custom name =>
      rw [typeToUniverseName, String.toList_append]
      rfl
  obtain ⟨declaration, hdeclaration, rfl⟩ := h
  rcases List.mem_append.mp (List.mem_dedup.mp hdeclaration) with hmem | hmem
  · obtain ⟨_, -, hmem⟩ := List.mem_flatMap.mp hmem
    obtain ⟨argument, -, rfl⟩ := List.mem_map.mp hmem
    exact htype argument.argumentType
  · rcases List.mem_pair.mp hmem with rfl | rfl
    · exact htype .number
    · exact htype .principal

theorem canActAs_not_isUniverse (program : Program) : ¬ program.IsUniverse "canActAs" :=
  fun h => absurd (isUniverse_head h) (by decide)

theorem canSay_not_isUniverse {program : Program} (name : String) :
    ¬ program.IsUniverse ("canSay_" ++ name) := by
  intro h
  have hhead := isUniverse_head h
  rw [String.toList_append, List.head?_append_of_ne_nil _ (by decide)] at hhead
  exact absurd hhead (by decide)

theorem Program.WellTyped.not_isUniverse {program : Program} (hwell : program.WellTyped)
    {baseFact : BaseFact} (hmem : baseFact ∈ program.baseFacts) (k : ℕ) :
    ¬ program.IsUniverse (canSayName k (baseFactPredicate baseFact).name) := by
  cases k with
  | succ k => exact canSay_not_isUniverse _
  | zero =>
    have hused := hwell.used baseFact hmem
    cases baseFact with
    | predicate predicate =>
      obtain ⟨declaration, hdeclaration, hname, -⟩ := hused
      exact hname ▸ hwell.universes declaration hdeclaration
    | attr attr =>
      obtain ⟨declaration, hdeclaration, hname, -⟩ := hused
      have hattr : (baseFactPredicate (.attr attr)).name = attr.predicate.name :=
        String.empty_append
      rw [canSayName, hattr]
      exact hname ▸ hwell.universes declaration hdeclaration
    | canActAs canActAs => exact canActAs_not_isUniverse program

/-! ### Accepted programs -/

section

variable {program : Program} {declEnv : AList fun _ : String => RelationDeclaration}

theorem typingsOf_eq (henv : declarationEnvironment program = some declEnv) {baseFact : BaseFact}
    {typings : List (String × ArgumentType)}
    (h : baseFactTypings declEnv baseFact = some typings) :
    program.typingsOf baseFact = typings := by
  rw [Program.typingsOf, henv, Option.bind_some, h, Option.getD_some]

/-- The typings of an assertion, for its speaker, its delegatees and its base facts. -/
theorem typings_said {typings : List (String × ArgumentType)}
    (h : programTypings declEnv program = some typings) {said : Principal × Assertion}
    (hsaid : said ∈ program.said) :
    principalTyping said.1 ∈ typings ∧
    (∀ delegatee ∈ said.2.lhs.delegationChain, principalTyping delegatee ∈ typings) ∧
    (∃ lhs, baseFactTypings declEnv said.2.lhs.baseFact = some lhs ∧ lhs ⊆ typings) ∧
    ∀ condition ∈ said.2.rhs, ∃ inner, baseFactTypings declEnv condition = some inner := by
  obtain ⟨spoken, hspoken, h⟩ := Option.bind_eq_some_iff.mp h
  obtain ⟨asked, -, h⟩ := Option.bind_eq_some_iff.mp h
  cases h
  obtain ⟨saysAssertion, hmem, hsaid⟩ := List.mem_flatMap.mp hsaid
  obtain ⟨assertion, hassertion, rfl⟩ := List.mem_map.mp hsaid
  obtain ⟨own, hown, hsays⟩ := exists_of_mapM hspoken hmem
  have hsub : own ⊆ spoken.flatten ++ asked.flatten := fun typing htyping =>
    List.mem_append_left _ (List.mem_flatten.mpr ⟨own, hown, htyping⟩)
  obtain ⟨inner, hinner, hsays⟩ := Option.bind_eq_some_iff.mp hsays
  cases hsays
  obtain ⟨ownTypings, hownTypings, hassertionTypings⟩ := exists_of_mapM hinner hassertion
  have hsub' : ownTypings ⊆ spoken.flatten ++ asked.flatten := fun typing htyping =>
    hsub (List.mem_cons_of_mem _ (List.mem_flatten.mpr ⟨ownTypings, hownTypings, htyping⟩))
  obtain ⟨fact, hfact, hassertionTypings⟩ := Option.bind_eq_some_iff.mp hassertionTypings
  obtain ⟨rhs, hrhs, hassertionTypings⟩ := Option.bind_eq_some_iff.mp hassertionTypings
  cases hassertionTypings
  obtain ⟨lhs, hlhs, hfact⟩ := Option.bind_eq_some_iff.mp hfact
  cases hfact
  refine ⟨hsub (List.mem_cons_self ..), ?_, ⟨lhs, hlhs, ?_⟩, ?_⟩
  · intro delegatee hdelegatee
    exact hsub' (List.mem_append_left _ (List.mem_append_left _ (List.mem_map_of_mem hdelegatee)))
  · intro typing htyping
    exact hsub' (List.mem_append_left _ (List.mem_append_right _ htyping))
  · intro condition hcondition
    obtain ⟨inner, -, htypings⟩ := exists_of_mapM hrhs hcondition
    exact ⟨inner, htypings⟩

theorem factTypings_universe (henv : declarationEnvironment program = some declEnv) {fact : Fact}
    {typings : List (String × ArgumentType)} (h : factTypings declEnv fact = some typings) :
    ∀ typing ∈ typings, program.IsUniverse (typeToUniverseName typing.2) := by
  obtain ⟨inner, hinner, h⟩ := Option.bind_eq_some_iff.mp h
  cases h
  intro typing htyping
  rcases List.mem_append.mp htyping with hchain | htyping
  · obtain ⟨delegatee, -, rfl⟩ := List.mem_map.mp hchain
    exact isUniverse_principal program
  · exact baseFactTypings_universe henv hinner htyping

theorem programTypings_universe (henv : declarationEnvironment program = some declEnv)
    {typings : List (String × ArgumentType)} (h : programTypings declEnv program = some typings) :
    ∀ typing ∈ typings, program.IsUniverse (typeToUniverseName typing.2) := by
  obtain ⟨spoken, hspoken, h⟩ := Option.bind_eq_some_iff.mp h
  obtain ⟨asked, hasked, h⟩ := Option.bind_eq_some_iff.mp h
  cases h
  intro typing htyping
  rcases List.mem_append.mp htyping with htyping | htyping
  · obtain ⟨own, hown, htyping⟩ := List.mem_flatten.mp htyping
    obtain ⟨saysAssertion, -, hsays⟩ := exists_of_mapM_mem hspoken hown
    obtain ⟨inner, hinner, hsays⟩ := Option.bind_eq_some_iff.mp hsays
    cases hsays
    rcases List.mem_cons.mp htyping with rfl | htyping
    · exact isUniverse_principal program
    obtain ⟨ownTypings, hownTypings, htyping⟩ := List.mem_flatten.mp htyping
    obtain ⟨assertion, -, hassertion⟩ := exists_of_mapM_mem hinner hownTypings
    obtain ⟨fact, hfact, hassertion⟩ := Option.bind_eq_some_iff.mp hassertion
    obtain ⟨rhs, hrhs, hassertion⟩ := Option.bind_eq_some_iff.mp hassertion
    cases hassertion
    rcases List.mem_append.mp htyping with htyping | htyping
    · exact factTypings_universe henv hfact typing htyping
    · obtain ⟨conditionTypings, hmem, htyping⟩ := List.mem_flatten.mp htyping
      obtain ⟨condition, -, hcondition⟩ := exists_of_mapM_mem hrhs hmem
      exact baseFactTypings_universe henv hcondition htyping
  · obtain ⟨own, hown, htyping⟩ := List.mem_flatten.mp htyping
    obtain ⟨query, -, hquery⟩ := exists_of_mapM_mem hasked hown
    obtain ⟨fact, hfact, hquery⟩ := Option.bind_eq_some_iff.mp hquery
    cases hquery
    rcases List.mem_cons.mp htyping with rfl | htyping
    · exact isUniverse_principal program
    · exact factTypings_universe henv hfact typing htyping

end

/-- The assertion with the universe conditions of its head. -/
def Guards (program : Program) (said said' : Principal × Assertion) : Prop :=
  said'.1 = said.1 ∧ said'.2.lhs = said.2.lhs ∧
    said'.2.rhs = universeConditions (program.typingsOf said.2.lhs.baseFact) ++ said.2.rhs

/-- What the insertion makes of a program. -/
structure Accepted (program program' : Program) (constants : List (String × ArgumentType)) :
    Prop where
  mem_constants : ∀ typing, typing ∈ constants ↔
    typing ∈ program.typings ∧ isNameConstant typing.1 = true
  said : ∃ said, List.Forall₂ (Guards program) program.said said ∧
    program'.said = (getUniverseDefiningFacts constants).flatMap SaysAssertion.said ++ said
  queries : program'.queries = program.queries
  speakers : ∀ said ∈ program.said, principalTyping said.1 ∈ program.typings
  delegatees : ∀ said ∈ program.said, ∀ delegatee ∈ said.2.lhs.delegationChain,
    principalTyping delegatee ∈ program.typings
  heads : ∀ said ∈ program.said, program.typingsOf said.2.lhs.baseFact ⊆ program.typings
  headArgs : ∀ said ∈ program.said,
    (program.typingsOf said.2.lhs.baseFact).map Prod.fst = said.2.lhs.base.args
  conditionArgs : ∀ said ∈ program.said, ∀ condition ∈ said.2.rhs,
    (program.typingsOf condition).map Prod.fst = (baseFactPredicate condition).args
  universes : ∀ typing ∈ program.typings, program.IsUniverse (typeToUniverseName typing.2)

theorem lexed_not_isNumericOperator {baseFact : BaseFact} (h : baseFact.Lexed)
    (predicate : Predicate) (heq : baseFact = .predicate predicate ∨
      ∃ principal, baseFact = .attr ⟨principal, predicate⟩) :
    predicate.isNumericOperator = false := by
  rcases heq with rfl | ⟨principal, rfl⟩
  · exact h.name.isWord.not_isNumericOperator
  · exact h.2.name.isWord.not_isNumericOperator

theorem insertUniverseRelations_accepted
    {literalOrder : List (String × ArgumentType) → List (String × ArgumentType)}
    {declarationOrder : List RelationDeclaration → List RelationDeclaration}
    (horder : ∀ l, (literalOrder l).Perm l) {program program' : Program}
    (hlexed : program.Lexed)
    (h : insertUniverseRelations literalOrder declarationOrder program = some program') :
    ∃ constants, Accepted program program' constants := by
  obtain ⟨declEnv, henv, h⟩ := Option.bind_eq_some_iff.mp h
  obtain ⟨typeEnv, htypeEnv, h⟩ := Option.bind_eq_some_iff.mp h
  obtain ⟨saysAssertions, hspoken, h⟩ := Option.bind_eq_some_iff.mp h
  cases h
  obtain ⟨typings, htypings, htypeEnv⟩ := Option.bind_eq_some_iff.mp htypeEnv
  have hprogram : program.typings = typings := by
    rw [Program.typings, henv, Option.bind_some, htypings, Option.getD_some]
  have htyped : ∀ said ∈ program.said, ∃ lhs,
      baseFactTypings declEnv said.2.lhs.baseFact = some lhs ∧ lhs ⊆ typings :=
    fun said hsaid => (typings_said htypings hsaid).2.2.1
  obtain ⟨constants, hconstants⟩ : ∃ constants, constants =
      literalOrder (typeEnv.entries.map fun entry => (entry.1, entry.2)) := ⟨_, rfl⟩
  rw [← hconstants]
  refine ⟨constants, ?_, ⟨saysAssertions.flatMap SaysAssertion.said, ?_, List.flatMap_append⟩, rfl,
    ?_, ?_, ?_, ?_, ?_, ?_⟩
  · rw [hconstants]
    rintro ⟨id, argType⟩
    have hlookup := lookup_foldlM_addTyping htypeEnv id argType
    rw [AList.lookup_empty] at hlookup
    simp only [reduceCtorEq, false_or] at hlookup
    rw [(horder _).mem_iff, hprogram, ← hlookup, List.mem_map]
    constructor
    · rintro ⟨entry, hentry, heq⟩
      obtain ⟨rfl, rfl⟩ := Prod.mk.inj heq
      exact (List.mem_dlookup_iff typeEnv.nodupKeys).mpr hentry
    · intro hentry
      exact ⟨⟨id, argType⟩, (List.mem_dlookup_iff typeEnv.nodupKeys).mp hentry, rfl⟩
  · have hmem := (List.forall₂_and_left _ _).mpr
      ⟨fun said (hsaid : said ∈ program.said) => hsaid, saysAssertion_inserts hspoken⟩
    refine hmem.imp ?_
    rintro said said' ⟨hsaid, hspeaker, hadd⟩
    obtain ⟨conditions, hconditions, hlhs, hrhs⟩ := addUniverseConditions_spec hadd
    obtain ⟨lhs, hlhsTypings, -⟩ := htyped said hsaid
    have hoperator := lexed_not_isNumericOperator (hlexed.said said hsaid).2.lhs.baseFact
    refine ⟨hspeaker, hlhs, ?_⟩
    rw [hrhs, typingsOf_eq henv hlhsTypings,
      getUniverseConditions_eq hoperator hlhsTypings hconditions]
  · intro said hsaid
    rw [hprogram]
    exact (typings_said htypings hsaid).1
  · intro said hsaid
    rw [hprogram]
    exact (typings_said htypings hsaid).2.1
  · intro said hsaid
    obtain ⟨lhs, hlhs, hsub⟩ := htyped said hsaid
    rw [hprogram, typingsOf_eq henv hlhs]
    exact hsub
  · intro said hsaid
    obtain ⟨lhs, hlhs, -⟩ := htyped said hsaid
    rw [typingsOf_eq henv hlhs]
    exact baseFactTypings_args hlhs
  · intro said hsaid condition hcondition
    obtain ⟨inner, hinner⟩ := (typings_said htypings hsaid).2.2.2 condition hcondition
    rw [typingsOf_eq henv hinner]
    exact baseFactTypings_args hinner
  · rw [hprogram]
    exact programTypings_universe henv htypings

end Raksha.AuthLogic
