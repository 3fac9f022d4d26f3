import Raksha.AuthLogic.LoweredRules
import Raksha.AuthLogic.UniverseRelationInsertion

/-!
# Inserted universe relations

What the insertion returns: the facts that fill the universes, and every assertion with a
membership condition for each argument of its head that is no constant.
-/

namespace Raksha.AuthLogic

theorem mapM_eq_some_iff {α β : Type} {f : α → Option β} {values : List α} {results : List β} :
    values.mapM f = some results ↔
      List.Forall₂ (fun value result => f value = some result) values results := by
  induction values generalizing results with
  | nil => simp [eq_comm]
  | cons value values ih =>
    rw [List.mapM_cons]
    constructor
    · intro h
      obtain ⟨result, hresult, h⟩ := Option.bind_eq_some_iff.mp h
      obtain ⟨results', hresults, h⟩ := Option.bind_eq_some_iff.mp h
      cases h
      exact .cons hresult (ih.mp hresults)
    · rintro (_ | ⟨hresult, hresults⟩)
      simp only [hresult, ih.mpr hresults, Option.bind_eq_bind, Option.bind_some]
      rfl

theorem exists_of_mapM {α β : Type} {f : α → Option β} {values : List α} {results : List β}
    (h : values.mapM f = some results) {value : α} (hvalue : value ∈ values) :
    ∃ result ∈ results, f value = some result := by
  have hall := mapM_eq_some_iff.mp h
  clear h
  induction hall with
  | nil => cases hvalue
  | cons hfirst _ ih =>
    rcases List.mem_cons.mp hvalue with rfl | hvalue
    · exact ⟨_, List.mem_cons_self .., hfirst⟩
    · obtain ⟨result, hmem, hresult⟩ := ih hvalue
      exact ⟨result, List.mem_cons_of_mem _ hmem, hresult⟩

theorem exists_of_mapM_mem {α β : Type} {f : α → Option β} {values : List α} {results : List β}
    (h : values.mapM f = some results) {result : β} (hresult : result ∈ results) :
    ∃ value ∈ values, f value = some result := by
  have hall := mapM_eq_some_iff.mp h
  clear h
  induction hall with
  | nil => cases hresult
  | cons hfirst _ ih =>
    rcases List.mem_cons.mp hresult with rfl | hresult
    · exact ⟨_, List.mem_cons_self .., hfirst⟩
    · obtain ⟨value, hmem, hvalue⟩ := ih hresult
      exact ⟨value, List.mem_cons_of_mem _ hmem, hvalue⟩

/-! ### Conditions -/

section

variable {declEnv : AList fun _ : String => RelationDeclaration}

theorem predicateConditions_mem {predicate : Predicate} {conditions : List BaseFact}
    (h : predicateConditions declEnv predicate = some conditions) {arg : String}
    (harg : arg ∈ predicate.args) (hconstant : isNameConstant arg = false) :
    ∃ argType, makeUniverseMembershipFact arg argType ∈ conditions := by
  obtain ⟨declaration, -, h⟩ := Option.bind_eq_some_iff.mp h
  obtain ⟨results, hresults, h⟩ := Option.bind_eq_some_iff.mp h
  cases h
  obtain ⟨i, hi⟩ := List.getElem?_of_mem harg
  have hindexed : (arg, i) ∈ predicate.args.zipIdx := List.mem_zipIdx_iff_getElem?.mpr hi
  obtain ⟨result, hmem, hresult⟩ := exists_of_mapM hresults hindexed
  simp only [hconstant, Bool.false_eq_true, if_false] at hresult
  obtain ⟨argument, -, hresult⟩ := Option.bind_eq_some_iff.mp hresult
  cases hresult
  exact ⟨_, List.mem_flatten.mpr ⟨_, hmem, List.mem_singleton_self _⟩⟩

theorem principalConditions_mem {principal : Principal}
    (hconstant : isNameConstant principal.name = false) :
    makeUniverseMembershipFact principal.name .principal ∈ principalConditions principal := by
  simp [principalConditions, hconstant]

theorem getUniverseConditions_mem {baseFact : BaseFact} {conditions : List BaseFact}
    (h : getUniverseConditions declEnv baseFact = some conditions) {arg : String}
    (harg : arg ∈ (baseFactPredicate baseFact).args) (hconstant : isNameConstant arg = false) :
    ∃ argType, makeUniverseMembershipFact arg argType ∈ conditions := by
  cases baseFact with
  | predicate p => exact predicateConditions_mem h harg hconstant
  | attr a =>
    obtain ⟨conditions', hconditions, h⟩ := Option.bind_eq_some_iff.mp h
    cases h
    rcases List.mem_cons.mp harg with rfl | harg
    · exact ⟨_, List.mem_append_left _ (principalConditions_mem hconstant)⟩
    · obtain ⟨argType, hmem⟩ := predicateConditions_mem hconditions harg hconstant
      exact ⟨argType, List.mem_append_right _ hmem⟩
  | canActAs c =>
    cases h
    rcases List.mem_cons.mp harg with rfl | harg
    · exact ⟨_, List.mem_append_left _ (principalConditions_mem hconstant)⟩
    · cases List.mem_singleton.mp harg
      exact ⟨_, List.mem_append_right _ (principalConditions_mem hconstant)⟩

theorem addUniverseConditions_spec {assertion assertion' : Assertion}
    (h : addUniverseConditions declEnv assertion = some assertion') :
    ∃ conditions, getUniverseConditions declEnv assertion.lhs.baseFact = some conditions ∧
      assertion'.lhs = assertion.lhs ∧ assertion'.rhs = conditions ++ assertion.rhs := by
  cases assertion with
  | fact fact =>
    obtain ⟨conditions, hconditions, h⟩ := Option.bind_eq_some_iff.mp h
    cases h
    refine ⟨conditions, hconditions, ?_, ?_⟩
    · split <;> rfl
    · split
      · next hempty =>
        rw [List.isEmpty_iff.mp hempty]
        rfl
      · exact (List.append_nil _).symm
  | conditional conditional =>
    obtain ⟨conditions, hconditions, h⟩ := Option.bind_eq_some_iff.mp h
    cases h
    exact ⟨conditions, hconditions, rfl, rfl⟩

end

/-! ### The program -/

/-- What the inserted program says. -/
structure Inserts (literalTypeMap : List (String × ArgumentType))
    (declEnv : AList fun _ : String => RelationDeclaration) (program program' : Program) :
    Prop where
  constants : ∀ typing ∈ literalTypeMap, isNameConstant typing.1 = true
  said : ∃ said, program'.said =
      (getUniverseDefiningFacts literalTypeMap).flatMap SaysAssertion.said ++ said ∧
    List.Forall₂ (fun said said' => said'.1 = said.1 ∧
      addUniverseConditions declEnv said.2 = some said'.2) program.said said
  queries : program'.queries = program.queries

theorem foldlM_addTyping {typings : List (String × ArgumentType)}
    {literalTypeMap literalTypeMap' : AList fun _ : String => ArgumentType}
    (h : typings.foldlM addTyping literalTypeMap = some literalTypeMap')
    (hconstants : ∀ id ∈ literalTypeMap, isNameConstant id = true) :
    ∀ id ∈ literalTypeMap', isNameConstant id = true := by
  induction typings generalizing literalTypeMap with
  | nil =>
    cases h
    exact hconstants
  | cons typing typings ih =>
    rw [List.foldlM_cons] at h
    obtain ⟨next, hnext, h⟩ := Option.bind_eq_some_iff.mp h
    refine ih h ?_
    rw [addTyping] at hnext
    split at hnext
    · next hconstant =>
      split at hnext
      · cases hnext
        intro id hid
        rcases (AList.mem_insert _).mp hid with rfl | hid
        · exact hconstant
        · exact hconstants id hid
      · split at hnext <;> cases hnext
        exact hconstants
    · cases hnext
      exact hconstants

theorem saysAssertion_inserts {declEnv : AList fun _ : String => RelationDeclaration}
    {saysAssertions saysAssertions' : List SaysAssertion}
    (h : saysAssertions.mapM (addUniverseConditionsSays declEnv) = some saysAssertions') :
    List.Forall₂ (fun said said' => said'.1 = said.1 ∧
      addUniverseConditions declEnv said.2 = some said'.2)
      (saysAssertions.flatMap SaysAssertion.said) (saysAssertions'.flatMap SaysAssertion.said) := by
  have hall := mapM_eq_some_iff.mp h
  clear h
  induction hall with
  | nil => exact .nil
  | cons hfirst _ ih =>
    obtain ⟨assertions, hassertions, hfirst⟩ := Option.bind_eq_some_iff.mp hfirst
    cases hfirst
    rw [List.flatMap_cons, List.flatMap_cons]
    refine List.rel_append ?_ ih
    rw [SaysAssertion.said, SaysAssertion.said, List.forall₂_map_left_iff,
      List.forall₂_map_right_iff]
    exact (mapM_eq_some_iff.mp hassertions).imp fun assertion assertion' h => ⟨rfl, h⟩

theorem insertUniverseRelations_spec
    {literalOrder : List (String × ArgumentType) → List (String × ArgumentType)}
    {declarationOrder : List RelationDeclaration → List RelationDeclaration}
    (horder : ∀ l, (literalOrder l).Perm l) {program program' : Program}
    (h : insertUniverseRelations literalOrder declarationOrder program = some program') :
    ∃ literalTypeMap declEnv, Inserts literalTypeMap declEnv program program' := by
  obtain ⟨declEnv, -, h⟩ := Option.bind_eq_some_iff.mp h
  obtain ⟨typeEnv, htypeEnv, h⟩ := Option.bind_eq_some_iff.mp h
  obtain ⟨saysAssertions, hspoken, h⟩ := Option.bind_eq_some_iff.mp h
  cases h
  obtain ⟨typings, -, htypings⟩ := Option.bind_eq_some_iff.mp htypeEnv
  refine ⟨_, declEnv, ⟨?_, ⟨_, List.flatMap_append, saysAssertion_inserts hspoken⟩, rfl⟩⟩
  intro typing htyping
  obtain ⟨entry, hentry, rfl⟩ := List.mem_map.mp ((horder _).mem_iff.mp htyping)
  exact foldlM_addTyping htypings (fun id hid => absurd hid (AList.notMem_empty id)) entry.1
    (List.mem_keys_of_mem hentry)

end Raksha.AuthLogic
