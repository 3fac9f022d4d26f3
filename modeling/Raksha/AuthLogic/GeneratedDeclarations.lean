import Mathlib.Data.List.Perm.Basic
import Raksha.AuthLogic.CanSayDeclarations

/-!
# Declarations and rules

Every predicate of the lowered rules needs one declaration with its number of arguments.
-/

namespace Raksha.AuthLogic

/-! ### Programs that use what they declare -/

def Program.conditions (program : Program) : List BaseFact :=
  program.said.flatMap fun said => said.2.rhs

/-- Used with the declared arity, as an attribute or as a plain relation. -/
def UsedAsDeclared (declarations : List RelationDeclaration) : BaseFact → Prop
  | .predicate predicate => ∃ declaration ∈ declarations,
      declaration.relationName = predicate.name ∧ declaration.isAttribute = false ∧
      declaration.arguments.length = predicate.args.length
  | .attr attr => ∃ declaration ∈ declarations,
      declaration.relationName = attr.predicate.name ∧ declaration.isAttribute = true ∧
      declaration.arguments.length = attr.predicate.args.length
  | .canActAs _ => True

/-- A name that the lowering generates behind `says_`. -/
def IsGeneratedName (program : Program) (name : String) : Prop :=
  name = "canActAs" ∨ ∃ fact ∈ program.recordedFacts, ∃ k ≥ 1, k ≤ fact.delegationChain.length ∧
    name = canSayName k fact.base.name

structure WellDeclared (program : Program) : Prop where
  once : (program.relationDeclarations.map RelationDeclaration.relationName).Nodup
  facts : ∀ fact ∈ program.recordedFacts, UsedAsDeclared program.relationDeclarations fact.baseFact
  conditions : ∀ condition ∈ program.conditions,
    UsedAsDeclared program.relationDeclarations condition
  relations : ∀ declaration ∈ program.relationDeclarations,
    ¬ IsGeneratedName program declaration.relationName
  queries : ∀ query ∈ program.queries, query.name ≠ "grounded_dummy" ∧
    ∀ name, query.name = "says_" ++ name → ¬ IsGeneratedName program name ∧
      ∀ declaration ∈ program.relationDeclarations, declaration.relationName ≠ name

/-! ### Coverage -/

def DeclaredOnce (lowered : DatalogProgram) (predicate : Predicate) : Prop :=
  ∃ declaration, lowered.relationDeclarations.filter (·.relationName = predicate.name) =
      [declaration] ∧ declaration.arguments.length = predicate.args.length

def Covers (lowered : DatalogProgram) : Prop :=
  ∀ rule ∈ lowered.rules, ∀ predicate ∈ rule.lhs :: rule.rhs, DeclaredOnce lowered predicate

/-- An order in which the entries of a hash map may come. -/
def IsIteration (order : List (String × ℕ) → List (String × ℕ)) : Prop :=
  ∀ entries, (order entries).Perm entries

def CoveredInAnyOrder (program : Program) : Prop :=
  ∀ order, IsIteration order → Covers (lower order program)

/-- `canActAs` is not delegated, a relation behind more than one `canSay` is the only one that is
delegated, and every query has a name of its own. -/
structure DelegatesAlone (program : Program) : Prop where
  canActAs : ∀ fact ∈ program.recordedFacts, ∀ canActAs, fact.baseFact = .canActAs canActAs →
    fact.delegationChain = []
  alone : ∀ fact ∈ program.recordedFacts, ∀ other ∈ program.recordedFacts,
    2 ≤ fact.delegationChain.length → other.delegationChain ≠ [] →
    other.base.name = fact.base.name
  queries : (program.queries.map Query.name).Nodup

/-! ### The predicates that occur -/

/-- The names and numbers of arguments of the predicates in the lowered rules. -/
inductive Occurs (program : Program) : String → ℕ → Prop
  | level {fact : Fact} {k : ℕ} : fact ∈ program.recordedFacts →
      k ≤ fact.delegationChain.length →
      Occurs program ("says_" ++ canSayName k fact.base.name) (k + fact.base.args.length + 1)
  | condition {condition : BaseFact} : condition ∈ program.conditions →
      Occurs program ("says_" ++ (baseFactPredicate condition).name)
        ((baseFactPredicate condition).args.length + 1)
  | canActAs : Occurs program ("says_" ++ "canActAs") 3
  | query {query : Query} : query ∈ program.queries → Occurs program query.name 1
  | dummy : Occurs program "grounded_dummy" 1

variable {program : Program}

theorem chainPredicate_shape (chain : List Principal) (inner : Predicate) :
    (chainPredicate chain inner).name = canSayName chain.length inner.name ∧
      (chainPredicate chain inner).args.length = chain.length + inner.args.length := by
  rw [chainPredicate_eq]
  simp

theorem occurs_said {fact : Fact} (hfact : fact ∈ program.recordedFacts) (speaker : Principal)
    {k : ℕ} (hk : k ≤ fact.delegationChain.length) {predicate : Predicate}
    (hname : predicate.name = canSayName k fact.base.name)
    (hargs : predicate.args.length = k + fact.base.args.length) :
    Occurs program (pushPrincipal "says_" speaker predicate).name
      (pushPrincipal "says_" speaker predicate).args.length := by
  have hlevel := Occurs.level hfact hk
  rw [← hname, ← hargs] at hlevel
  exact hlevel

theorem occurs_spokenRules {fact : Fact} (hfact : fact ∈ program.recordedFacts) {n : ℕ}
    {speaker : Principal} {rule : Rule} (h : rule ∈ spokenRules n speaker fact.baseFact) :
    ∀ predicate ∈ rule.lhs :: rule.rhs, Occurs program predicate.name predicate.args.length := by
  have hbase : ∀ {predicate : Predicate}, predicate.name = fact.base.name →
      predicate.args.length = fact.base.args.length → Occurs program
        (pushPrincipal "says_" speaker predicate).name
        (pushPrincipal "says_" speaker predicate).args.length := fun hname hargs =>
    occurs_said hfact speaker (Nat.zero_le _) hname (hargs.trans (Nat.zero_add _).symm)
  cases hcase : fact.baseFact with
  | predicate predicate =>
    rw [hcase] at h
    cases h
  | attr attr =>
    have hattr : fact.base = attributeToDLIR attr := by rw [Fact.base, hcase, baseFactPredicate]
    rw [hcase, spokenRules, List.mem_singleton] at h
    subst h
    intro predicate hmem
    rcases List.mem_cons.mp hmem with rfl | hmem
    · exact hbase (hattr ▸ rfl) (hattr ▸ rfl)
    · rcases List.mem_pair.mp hmem with rfl | rfl
      · exact .canActAs
      · exact hbase (hattr ▸ rfl) (hattr ▸ rfl)
  | canActAs canActAs =>
    rw [hcase, spokenRules, List.mem_singleton] at h
    subst h
    intro predicate hmem
    rcases List.mem_cons.mp hmem with rfl | hmem
    · exact .canActAs
    · rcases List.mem_pair.mp hmem with rfl | rfl
      · exact .canActAs
      · exact .canActAs

theorem occurs_delegationRules {fact : Fact} (hfact : fact ∈ program.recordedFacts) {n : ℕ}
    {speaker : Principal} {rule : Rule}
    (h : rule ∈ delegationRules speaker n fact.delegationChain fact.base) :
    ∀ predicate ∈ rule.lhs :: rule.rhs, Occurs program predicate.name predicate.args.length := by
  rw [delegationRules_eq] at h
  obtain ⟨k, hk, rfl⟩ := List.mem_map.mp h
  rw [List.mem_range] at hk
  obtain ⟨hname, hargs⟩ := chainPredicate_shape (fact.delegationChain.take k) fact.base
  rw [List.length_take, Nat.min_eq_left hk.le] at hname hargs
  intro predicate hmem
  rcases List.mem_cons.mp hmem with rfl | hmem
  · exact occurs_said hfact speaker hk.le hname hargs
  · rcases List.mem_pair.mp hmem with rfl | rfl
    · exact occurs_said hfact _ hk.le hname hargs
    · refine occurs_said hfact speaker (Nat.succ_le_of_lt hk) ?_ ?_
      · rw [pushPrincipal, pushOntoPredicate, hname, canSayName]
      · rw [pushPrincipal, pushOntoPredicate, List.length_append, hargs, List.length_singleton]
        omega

theorem occurs_toPredicate {fact : Fact} (hfact : fact ∈ program.recordedFacts)
    (speaker : Principal) : Occurs program (pushPrincipal "says_" speaker fact.toPredicate).name
      (pushPrincipal "says_" speaker fact.toPredicate).args.length := by
  obtain ⟨hname, hargs⟩ := chainPredicate_shape fact.delegationChain fact.base
  exact occurs_said hfact speaker (le_refl _) hname hargs

theorem mem_recordedFacts_said {said : Principal × Assertion} (h : said ∈ program.said) :
    said.2.lhs ∈ program.recordedFacts :=
  List.mem_append_left _ (List.mem_map_of_mem h)

theorem mem_recordedFacts_query {query : Query} (h : query ∈ program.queries) :
    query.fact ∈ program.recordedFacts :=
  List.mem_append_right _ (List.mem_map_of_mem h)

theorem occurs_of_mem {order : List (String × ℕ) → List (String × ℕ)} {rule : Rule}
    (hrule : rule ∈ (lower order program).rules) :
    ∀ predicate ∈ rule.lhs :: rule.rhs, Occurs program predicate.name predicate.args.length := by
  rw [lower_rules, List.mem_append, List.mem_append] at hrule
  rcases hrule with (hassertion | hquery) | hdummy
  · obtain ⟨block, hblock, hrule⟩ := List.mem_flatten.mp hassertion
    rw [loweredAssertions_eq] at hblock
    obtain ⟨n, said, hsaid, rfl⟩ := mem_mapDrawn hblock
    have hfact := mem_recordedFacts_said hsaid
    rw [Assertion.rules, List.mem_append] at hrule
    rcases hrule with hgenerated | hmain
    · rw [Assertion.generatedRules, Fact.generatedRules, List.mem_append] at hgenerated
      rcases hgenerated with hspoken | hdelegation
      · exact occurs_spokenRules hfact hspoken
      · exact occurs_delegationRules hfact hdelegation
    · rw [List.mem_singleton.mp hmain]
      intro predicate hmem
      rcases List.mem_cons.mp hmem with rfl | hmem
      · exact occurs_toPredicate hfact said.1
      · obtain ⟨condition, hcondition, rfl⟩ := List.mem_map.mp hmem
        exact .condition (List.mem_flatMap.mpr ⟨said, hsaid, hcondition⟩)
  · obtain ⟨query, hmemQuery, rfl⟩ := List.mem_map.mp hquery
    intro predicate hmem
    rcases List.mem_cons.mp hmem with rfl | hmem
    · exact .query hmemQuery
    · rcases List.mem_pair.mp hmem with rfl | rfl
      · exact occurs_toPredicate (mem_recordedFacts_query hmemQuery) query.principal
      · exact .dummy
  · rw [List.mem_singleton.mp hdummy]
    intro predicate hmem
    rw [List.mem_singleton.mp hmem]
    exact .dummy

theorem exists_rule_toPredicate (order : List (String × ℕ) → List (String × ℕ)) {fact : Fact}
    (hfact : fact ∈ program.recordedFacts) : ∃ rule ∈ (lower order program).rules,
      ∃ speaker, pushPrincipal "says_" speaker fact.toPredicate ∈ rule.lhs :: rule.rhs := by
  rw [lower_rules]
  rcases List.mem_append.mp hfact with hsaid | hquery
  · obtain ⟨said, hmem, rfl⟩ := List.mem_map.mp hsaid
    obtain ⟨n, hblock⟩ : ∃ n, said.2.rules n said.1 ∈ loweredAssertions program := by
      rw [loweredAssertions_eq]
      exact exists_mem_mapDrawn hmem
    refine ⟨said.2.mainRule said.1, ?_, said.1, List.mem_cons_self ..⟩
    refine List.mem_append_left _ (List.mem_append_left _ (List.mem_flatten.mpr ⟨_, hblock, ?_⟩))
    exact List.mem_append_right _ (List.mem_singleton_self _)
  · obtain ⟨query, hmem, rfl⟩ := List.mem_map.mp hquery
    refine ⟨queryRule query, ?_, query.principal, ?_⟩
    · exact List.mem_append_left _ (List.mem_append_right _ (List.mem_map_of_mem hmem))
    · exact List.mem_cons_of_mem _ (List.mem_cons_self ..)

/-! ### The recorded depths -/

def recordedDepths (program : Program) : List (String × ℕ) :=
  (LoweringToDatalogPass.run program).2.canSayDepth.entries.map fun entry => (entry.1, entry.2)

theorem recordedDepths_keys (program : Program) :
    ((recordedDepths program).map Prod.fst).Nodup := by
  rw [recordedDepths, List.map_map]
  exact (LoweringToDatalogPass.run program).2.canSayDepth.nodupKeys

theorem mem_recordedDepths (name : String) (depth : ℕ) : (name, depth) ∈ recordedDepths program ↔
    ((program.recordedFacts.filter (·.base.name = name)).map (·.delegationChain.length)).max? =
      some depth := by
  have hlookup : (LoweringToDatalogPass.run program).2.canSayDepth.lookup name =
      ((program.recordedFacts.filter (·.base.name = name)).map
        (·.delegationChain.length)).max? := by
    rw [LoweringToDatalogPass.run_eq]
    exact lookup_recordFact program.recordedFacts ∅ name
  rw [← hlookup, ← Option.mem_def, AList.mem_lookup_iff, recordedDepths, List.mem_map]
  refine ⟨?_, ?_⟩
  · rintro ⟨⟨name', depth'⟩, hmem, heq⟩
    cases heq
    exact hmem
  · intro hmem
    exact ⟨⟨name, depth⟩, hmem, rfl⟩

theorem exists_fact_of_mem_recordedDepths {name : String} {depth : ℕ}
    (h : (name, depth) ∈ recordedDepths program) :
    ∃ fact ∈ program.recordedFacts,
      fact.base.name = name ∧ fact.delegationChain.length = depth := by
  obtain ⟨hmem, -⟩ := List.max?_eq_some_iff.mp ((mem_recordedDepths name depth).mp h)
  obtain ⟨fact, hfact, hdepth⟩ := List.mem_map.mp hmem
  obtain ⟨hfact, hname⟩ := List.mem_filter.mp hfact
  exact ⟨fact, hfact, of_decide_eq_true hname, hdepth⟩

theorem exists_recordedDepth {fact : Fact} (hfact : fact ∈ program.recordedFacts) :
    ∃ depth, (fact.base.name, depth) ∈ recordedDepths program ∧
      fact.delegationChain.length ≤ depth := by
  have hmem : fact.delegationChain.length ∈ (program.recordedFacts.filter
      (·.base.name = fact.base.name)).map (·.delegationChain.length) :=
    List.mem_map_of_mem (List.mem_filter.mpr ⟨hfact, decide_eq_true rfl⟩)
  obtain ⟨depth, hdepth⟩ := Option.ne_none_iff_exists'.mp
    (mt List.max?_eq_none_iff.mp (List.ne_nil_of_mem hmem))
  exact ⟨depth, (mem_recordedDepths _ _).mpr hdepth,
    (List.max?_eq_some_iff.mp hdepth).2 _ hmem⟩

/-! ### The declarations of the lowered program -/

def transformedDeclarations (program : Program) : List RelationDeclaration :=
  program.relationDeclarations.map transformAttributeDeclaration

theorem transformAttributeDeclaration_name (declaration : RelationDeclaration) :
    (transformAttributeDeclaration declaration).relationName = declaration.relationName := by
  unfold transformAttributeDeclaration
  split <;> rfl

theorem transformedDeclarations_names (program : Program) :
    (transformedDeclarations program).map RelationDeclaration.relationName =
      program.relationDeclarations.map RelationDeclaration.relationName := by
  rw [transformedDeclarations, List.map_map]
  exact List.map_congr_left fun declaration _ => transformAttributeDeclaration_name declaration

theorem lower_declarations (order : List (String × ℕ) → List (String × ℕ)) (program : Program) :
    (lower order program).relationDeclarations =
      (transformedDeclarations program ++ getCanSayDeclarations
          (typeEnvironment (transformedDeclarations program)) (order (recordedDepths program)) ++
        [canActAsDeclaration]).map saysExtendRelationDeclaration ++
      (program.queries.map (fun query => dummyDeclaration query.name) ++
        [dummyDeclaration "grounded_dummy"]) := rfl

theorem typeEnvironment_some {declarations : List RelationDeclaration} {name : String}
    {declaration : RelationDeclaration}
    (h : typeEnvironment declarations name = some declaration) :
    declaration ∈ declarations ∧ declaration.relationName = name := by
  unfold typeEnvironment at h
  exact ⟨List.mem_of_find?_eq_some h, by simpa using List.find?_some h⟩

theorem typeEnvironment_eq_some_iff {declarations : List RelationDeclaration}
    (h : (declarations.map RelationDeclaration.relationName).Nodup) (name : String)
    (declaration : RelationDeclaration) : typeEnvironment declarations name = some declaration ↔
      declaration ∈ declarations ∧ declaration.relationName = name := by
  refine ⟨typeEnvironment_some, ?_⟩
  rintro ⟨hmem, hname⟩
  cases hfind : typeEnvironment declarations name with
  | none =>
    have hnone := List.find?_eq_none.mp hfind declaration hmem
    exact absurd (beq_iff_eq.mpr hname) hnone
  | some other =>
    obtain ⟨hother, hsame⟩ := typeEnvironment_some hfind
    exact congrArg some (List.inj_on_of_nodup_map h hother hmem (hsame.trans hname.symm))

/-- What is used is declared behind the transformation of the attributes. -/
theorem UsedAsDeclared.exists_transformed {baseFact : BaseFact}
    (hused : UsedAsDeclared program.relationDeclarations baseFact) :
    (∃ canActAs, baseFact = .canActAs canActAs) ∨
      ∃ declaration ∈ transformedDeclarations program,
        declaration.relationName = (baseFactPredicate baseFact).name ∧
        declaration.arguments.length = (baseFactPredicate baseFact).args.length := by
  cases baseFact with
  | predicate predicate =>
    obtain ⟨declaration, hmem, hname, hform, hargs⟩ := hused
    refine .inr ⟨_, List.mem_map_of_mem hmem, ?_, ?_⟩
    · rw [transformAttributeDeclaration_name, hname, baseFactPredicate]
    · rw [transformAttributeDeclaration, hform, if_neg Bool.false_ne_true, hargs,
        baseFactPredicate]
  | attr attr =>
    obtain ⟨declaration, hmem, hname, hform, hargs⟩ := hused
    refine .inr ⟨_, List.mem_map_of_mem hmem, ?_, ?_⟩
    · rw [transformAttributeDeclaration_name, hname, baseFactPredicate]
      exact String.empty_append.symm
    · rw [transformAttributeDeclaration, hform, if_pos rfl, baseFactPredicate]
      exact congrArg (· + 1) hargs
  | canActAs canActAs => exact .inl ⟨canActAs, rfl⟩

/-! ### Delegation of one relation is covered -/

theorem DelegatesAlone.entries_alone (halone : DelegatesAlone program)
    {entries : List (String × ℕ)} (hperm : entries.Perm (recordedDepths program)) :
    ∀ entry ∈ entries, ∀ other ∈ entries,
      IsDelegated (typeEnvironment (transformedDeclarations program)) entry → 2 ≤ entry.2 →
      IsDelegated (typeEnvironment (transformedDeclarations program)) other → other = entry := by
  intro entry hentry other hother _ hdeep hdelegated
  obtain ⟨fact, hfact, hname, hdepth⟩ :=
    exists_fact_of_mem_recordedDepths (hperm.mem_iff.mp hentry)
  obtain ⟨fact', hfact', hname', hdepth'⟩ :=
    exists_fact_of_mem_recordedDepths (hperm.mem_iff.mp hother)
  have hchain : fact'.delegationChain ≠ [] := by
    rw [← List.length_pos_iff, hdepth']
    exact hdelegated.1
  have hsame := halone.alone fact hfact fact' hfact' (hdepth ▸ hdeep) hchain
  rw [hname, hname'] at hsame
  exact List.inj_on_of_nodup_map (recordedDepths_keys program) (hperm.mem_iff.mp hother)
    (hperm.mem_iff.mp hentry) hsame

theorem DelegatesAlone.getCanSayDeclarations_eq (halone : DelegatesAlone program)
    {entries : List (String × ℕ)} (hperm : entries.Perm (recordedDepths program)) :
    getCanSayDeclarations (typeEnvironment (transformedDeclarations program)) entries =
      entries.flatMap
        (canSayDeclarationsOf (typeEnvironment (transformedDeclarations program))) := by
  have hnodup : entries.Nodup := hperm.nodup_iff.mpr (recordedDepths_keys program).of_map
  exact Raksha.AuthLogic.getCanSayDeclarations_eq entries hnodup (halone.entries_alone hperm)

theorem lower_names (order : List (String × ℕ) → List (String × ℕ)) :
    (lower order program).relationDeclarations.map RelationDeclaration.relationName =
      ((transformedDeclarations program ++ getCanSayDeclarations
          (typeEnvironment (transformedDeclarations program)) (order (recordedDepths program)) ++
        [canActAsDeclaration]).map RelationDeclaration.relationName).map ("says_" ++ ·) ++
      (program.queries.map Query.name ++ ["grounded_dummy"]) := by
  rw [lower_declarations]
  simp [saysExtendRelationDeclaration, dummyDeclaration, canActAsDeclaration, Function.comp_def]

theorem says_ne_dummy (name : String) : "says_" ++ name ≠ "grounded_dummy" := by
  intro heq
  have hchars := congrArg (fun s : String => s.toList[0]?) heq
  have hprefix : "says_".toList = ['s', 'a', 'y', 's', '_'] := by decide
  rw [String.toList_append, hprefix] at hchars
  exact absurd (Option.some.inj hchars) (by decide)

theorem UsedAsDeclared.exists_saysDeclaration {order : List (String × ℕ) → List (String × ℕ)}
    {baseFact : BaseFact} (hused : UsedAsDeclared program.relationDeclarations baseFact) :
    ∃ declaration ∈ (lower order program).relationDeclarations,
      declaration.relationName = "says_" ++ (baseFactPredicate baseFact).name ∧
      declaration.arguments.length = (baseFactPredicate baseFact).args.length + 1 := by
  rw [lower_declarations]
  rcases hused.exists_transformed with ⟨canActAs, rfl⟩ | ⟨declaration, hmem, hname, hargs⟩
  · refine ⟨_, List.mem_append_left _ (List.mem_map_of_mem (List.mem_append_right _
      (List.mem_singleton_self _))), rfl, rfl⟩
  · refine ⟨_, List.mem_append_left _ (List.mem_map_of_mem (List.mem_append_left _
      (List.mem_append_left _ hmem))), ?_, congrArg (· + 1) hargs⟩
    rw [saysExtendRelationDeclaration, hname]

theorem filter_eq_singleton {α : Type} {key : α → String} {values : List α}
    (hnodup : (values.map key).Nodup) {value : α} (hmem : value ∈ values) :
    values.filter (fun other => decide (key other = key value)) = [value] := by
  induction values with
  | nil => cases hmem
  | cons first values ih =>
    obtain ⟨hnew, hrest⟩ := List.nodup_cons.mp hnodup
    rcases List.mem_cons.mp hmem with rfl | hmem
    · have hothers : values.filter (fun other => decide (key other = key value)) = [] := by
        refine List.filter_eq_nil_iff.mpr fun other hother hkey => hnew ?_
        rw [← of_decide_eq_true hkey]
        exact List.mem_map_of_mem hother
      simp only [List.filter_cons, decide_true, if_true, hothers]
    · have hne : key first ≠ key value := by
        intro hkey
        rw [hkey] at hnew
        exact hnew (List.mem_map_of_mem hmem)
      simp only [List.filter_cons, decide_eq_false hne, Bool.false_eq_true, if_false,
        ih hrest hmem]

section

variable (h : WellDeclared program)
include h

theorem WellDeclared.typeEnvironment_iff (name : String) (declaration : RelationDeclaration) :
    typeEnvironment (transformedDeclarations program) name = some declaration ↔
      declaration ∈ transformedDeclarations program ∧ declaration.relationName = name :=
  typeEnvironment_eq_some_iff ((transformedDeclarations_names program).symm ▸ h.once) name
    declaration

theorem WellDeclared.not_generated {declaration : RelationDeclaration}
    (hmem : declaration ∈ transformedDeclarations program) :
    ¬ IsGeneratedName program declaration.relationName := by
  obtain ⟨original, horiginal, rfl⟩ := List.mem_map.mp hmem
  rw [transformAttributeDeclaration_name]
  exact h.relations original horiginal

theorem WellDeclared.exists_declaration {fact : Fact} (hfact : fact ∈ program.recordedFacts)
    (hcanActAs : ∀ canActAs, fact.baseFact ≠ .canActAs canActAs) :
    ∃ declaration ∈ transformedDeclarations program, declaration.relationName = fact.base.name ∧
      declaration.arguments.length = fact.base.args.length := by
  rcases (h.facts fact hfact).exists_transformed with ⟨canActAs, heq⟩ | hdeclared
  · exact absurd heq (hcanActAs canActAs)
  · exact hdeclared

theorem WellDeclared.mem_canSayDeclarationsOf (entry : String × ℕ) (x : RelationDeclaration) :
    x ∈ canSayDeclarationsOf (typeEnvironment (transformedDeclarations program)) entry ↔
      ∃ declaration ∈ transformedDeclarations program, declaration.relationName = entry.1 ∧
        ∃ k ≥ 1, k ≤ entry.2 ∧ x = canSayLevel declaration k := by
  unfold canSayDeclarationsOf
  cases hentry : typeEnvironment (transformedDeclarations program) entry.1 with
  | none =>
    refine ⟨fun hx => absurd hx List.not_mem_nil, ?_⟩
    rintro ⟨declaration, hmem, hname, -⟩
    rw [(h.typeEnvironment_iff entry.1 declaration).mpr ⟨hmem, hname⟩] at hentry
    cases hentry
  | some declaration =>
    obtain ⟨hmem, hname⟩ := (h.typeEnvironment_iff entry.1 declaration).mp hentry
    simp only [List.mem_map, List.mem_range]
    refine ⟨?_, ?_⟩
    · rintro ⟨k, hk, rfl⟩
      exact ⟨declaration, hmem, hname, k + 1, by omega, hk, rfl⟩
    · rintro ⟨other, hother, hother', k, hk, hle, rfl⟩
      have hsame := (h.typeEnvironment_iff entry.1 other).mpr ⟨hother, hother'⟩
      rw [hentry, Option.some.injEq] at hsame
      exact ⟨k - 1, by omega, by rw [hsame, Nat.sub_add_cancel hk]⟩

theorem WellDeclared.generated_of_mem {entries : List (String × ℕ)}
    (hperm : entries.Perm (recordedDepths program)) {x : RelationDeclaration}
    (hx : x ∈ entries.flatMap
      (canSayDeclarationsOf (typeEnvironment (transformedDeclarations program)))) :
    ∃ fact ∈ program.recordedFacts, ∃ k ≥ 1, k ≤ fact.delegationChain.length ∧
      x.relationName = canSayName k fact.base.name := by
  obtain ⟨entry, hentry, hx⟩ := List.mem_flatMap.mp hx
  obtain ⟨declaration, -, hname, k, hk, hle, rfl⟩ := (h.mem_canSayDeclarationsOf _ _).mp hx
  obtain ⟨fact, hfact, hfactName, hdepth⟩ :=
    exists_fact_of_mem_recordedDepths (hperm.mem_iff.mp hentry)
  exact ⟨fact, hfact, k, hk, hdepth ▸ hle, by rw [canSayLevel_name, hname, hfactName]⟩

theorem WellDeclared.canSayName_inj {fact fact' : Fact} (hfact : fact ∈ program.recordedFacts)
    (hfact' : fact' ∈ program.recordedFacts) {declaration declaration' : RelationDeclaration}
    (hmem : declaration ∈ transformedDeclarations program)
    (hmem' : declaration' ∈ transformedDeclarations program)
    (hname : declaration.relationName = fact.base.name)
    (hname' : declaration'.relationName = fact'.base.name) {j k : ℕ}
    (hj : j ≤ fact.delegationChain.length) (hk : k ≤ fact'.delegationChain.length)
    (heq : canSayName j declaration.relationName = canSayName k declaration'.relationName) :
    j = k ∧ declaration.relationName = declaration'.relationName := by
  rcases Nat.lt_trichotomy j k with hlt | rfl | hlt
  · refine absurd (.inr ⟨fact', hfact', k - j, by omega, by omega, ?_⟩) (h.not_generated hmem)
    rw [← hname']
    exact eq_canSayName_of_le heq hlt.le
  · exact ⟨rfl, Raksha.AuthLogic.canSayName_inj.mp heq⟩
  · refine absurd (.inr ⟨fact, hfact, j - k, by omega, by omega, ?_⟩) (h.not_generated hmem')
    rw [← hname]
    exact eq_canSayName_of_le heq.symm hlt.le

theorem WellDeclared.canSayDeclarations_nodup {entries : List (String × ℕ)}
    (hperm : entries.Perm (recordedDepths program)) :
    ((entries.flatMap (canSayDeclarationsOf (typeEnvironment
      (transformedDeclarations program)))).map RelationDeclaration.relationName).Nodup := by
  have hkeys : (entries.map Prod.fst).Nodup :=
    (hperm.map Prod.fst).nodup_iff.mpr (recordedDepths_keys program)
  rw [List.map_flatMap, List.nodup_flatMap]
  refine ⟨?_, ?_⟩
  · intro entry hentry
    unfold canSayDeclarationsOf
    cases typeEnvironment (transformedDeclarations program) entry.1 with
    | none => exact List.nodup_nil
    | some declaration =>
      rw [List.map_map]
      refine List.Nodup.map ?_ List.nodup_range
      intro j k heq
      rw [Function.comp_apply, Function.comp_apply, canSayLevel_name, canSayLevel_name] at heq
      exact Nat.succ.inj (canSayName_level_inj heq)
  · refine (List.pairwise_map.mp hkeys).imp_of_mem ?_
    intro entry other hentry hother hne
    rw [Function.onFun, List.disjoint_left]
    intro name hname hname'
    obtain ⟨x, hx, rfl⟩ := List.mem_map.mp hname
    obtain ⟨y, hy, heq⟩ := List.mem_map.mp hname'
    obtain ⟨declaration, hmem, hentryName, j, -, hj, rfl⟩ := (h.mem_canSayDeclarationsOf _ _).mp hx
    obtain ⟨declaration', hmem', hotherName, k, -, hk, rfl⟩ :=
      (h.mem_canSayDeclarationsOf _ _).mp hy
    obtain ⟨fact, hfact, hfactName, hdepth⟩ :=
      exists_fact_of_mem_recordedDepths (hperm.mem_iff.mp hentry)
    obtain ⟨fact', hfact', hfactName', hdepth'⟩ :=
      exists_fact_of_mem_recordedDepths (hperm.mem_iff.mp hother)
    rw [canSayLevel_name, canSayLevel_name] at heq
    obtain ⟨-, hsame⟩ := h.canSayName_inj hfact' hfact hmem' hmem
      (hotherName.trans hfactName'.symm) (hentryName.trans hfactName.symm) (hdepth' ▸ hk)
      (hdepth ▸ hj) heq
    exact hne (by rw [← hentryName, ← hotherName, hsame])

theorem DelegatesAlone.names_nodup (halone : DelegatesAlone program)
    {order : List (String × ℕ) → List (String × ℕ)} (horder : IsIteration order) :
    ((lower order program).relationDeclarations.map RelationDeclaration.relationName).Nodup := by
  have hperm := horder (recordedDepths program)
  have hgenerated : ∀ x ∈ (order (recordedDepths program)).flatMap (canSayDeclarationsOf
      (typeEnvironment (transformedDeclarations program))),
      IsGeneratedName program x.relationName ∧ x.relationName ≠ "canActAs" := by
    intro x hx
    obtain ⟨fact, hfact, k, hk, hle, hname⟩ := h.generated_of_mem hperm hx
    exact ⟨.inr ⟨fact, hfact, k, hk, hle, hname⟩, hname ▸ canSayName_ne_canActAs hk _⟩
  rw [lower_names, halone.getCanSayDeclarations_eq hperm, List.nodup_append,
    List.nodup_map_iff fun _ _ => (String.append_right_inj _).mp, List.map_append, List.map_append,
    List.nodup_append, List.nodup_append, List.nodup_append, transformedDeclarations_names]
  refine ⟨⟨⟨h.once, h.canSayDeclarations_nodup hperm, ?_⟩, List.nodup_singleton _, ?_⟩,
    ⟨halone.queries, List.nodup_singleton _, ?_⟩, ?_⟩
  · intro name hname name' hname' heq
    obtain ⟨declaration, hdeclaration, rfl⟩ := List.mem_map.mp hname
    obtain ⟨x, hx, rfl⟩ := List.mem_map.mp hname'
    exact h.relations declaration hdeclaration (heq ▸ (hgenerated x hx).1)
  · intro name hname name' hname' heq
    rw [List.mem_singleton.mp hname'] at heq
    rcases List.mem_append.mp hname with hdeclared | hlevel
    · obtain ⟨declaration, hdeclaration, rfl⟩ := List.mem_map.mp hdeclared
      exact h.relations declaration hdeclaration (.inl heq)
    · obtain ⟨x, hx, rfl⟩ := List.mem_map.mp hlevel
      exact (hgenerated x hx).2 heq
  · intro name hname name' hname' heq
    obtain ⟨query, hquery, rfl⟩ := List.mem_map.mp hname
    rw [List.mem_singleton.mp hname'] at heq
    exact (h.queries query hquery).1 heq
  · intro name hname name' hname' heq
    obtain ⟨inner, hinner, rfl⟩ := List.mem_map.mp hname
    rcases List.mem_append.mp hname' with hquery | hdummy
    · obtain ⟨query, hmemQuery, rfl⟩ := List.mem_map.mp hquery
      obtain ⟨hgen, hdeclared⟩ := (h.queries query hmemQuery).2 inner heq.symm
      rcases List.mem_append.mp hinner with hinner | hcanActAs
      · rcases List.mem_append.mp hinner with hmem | hlevel
        · obtain ⟨declaration, hdeclaration, rfl⟩ := List.mem_map.mp hmem
          exact hdeclared declaration hdeclaration rfl
        · obtain ⟨x, hx, rfl⟩ := List.mem_map.mp hlevel
          exact hgen (hgenerated x hx).1
      · exact hgen (.inl (List.mem_singleton.mp hcanActAs))
    · rw [List.mem_singleton.mp hdummy] at heq
      exact says_ne_dummy inner heq

theorem DelegatesAlone.exists_declaration (halone : DelegatesAlone program)
    {order : List (String × ℕ) → List (String × ℕ)} (horder : IsIteration order) {name : String}
    {arity : ℕ} (hoccurs : Occurs program name arity) :
    ∃ declaration ∈ (lower order program).relationDeclarations,
      declaration.relationName = name ∧ declaration.arguments.length = arity := by
  have hperm := horder (recordedDepths program)
  cases hoccurs with
  | @level fact k hfact hk =>
    rcases Nat.eq_zero_or_pos k with rfl | hpos
    · rw [Nat.zero_add]
      exact (h.facts fact hfact).exists_saysDeclaration
    · have hchain : fact.delegationChain ≠ [] := List.length_pos_iff.mp (by omega)
      obtain ⟨declaration, hmem, hname, hargs⟩ := h.exists_declaration hfact fun canActAs heq =>
        hchain (halone.canActAs fact hfact canActAs heq)
      obtain ⟨depth, hdepth, hle⟩ := exists_recordedDepth hfact
      have hlevel := (h.mem_canSayDeclarationsOf (fact.base.name, depth) _).mpr
        ⟨declaration, hmem, hname, k, hpos, hk.trans hle, rfl⟩
      have hdue := List.mem_flatMap.mpr ⟨_, hperm.mem_iff.mpr hdepth, hlevel⟩
      rw [← halone.getCanSayDeclarations_eq hperm] at hdue
      rw [lower_declarations]
      refine ⟨_, List.mem_append_left _ (List.mem_map_of_mem (List.mem_append_left _
        (List.mem_append_right _ hdue))), ?_, ?_⟩
      · rw [saysExtendRelationDeclaration, canSayLevel_name, hname]
      · rw [saysExtendRelationDeclaration, List.length_cons, canSayLevel_arity, hargs]
  | condition hcondition => exact (h.conditions _ hcondition).exists_saysDeclaration
  | canActAs =>
    rw [lower_declarations]
    exact ⟨_, List.mem_append_left _ (List.mem_map_of_mem (List.mem_append_right _
      (List.mem_singleton_self _))), rfl, rfl⟩
  | query hquery =>
    rw [lower_declarations]
    exact ⟨_, List.mem_append_right _ (List.mem_append_left _ (List.mem_map_of_mem hquery)), rfl,
      rfl⟩
  | dummy =>
    rw [lower_declarations]
    exact ⟨_, List.mem_append_right _ (List.mem_append_right _ (List.mem_singleton_self _)), rfl,
      rfl⟩

theorem DelegatesAlone.covers (halone : DelegatesAlone program) : CoveredInAnyOrder program := by
  intro order horder rule hrule predicate hpredicate
  obtain ⟨declaration, hmem, hname, hargs⟩ :=
    halone.exists_declaration h horder (occurs_of_mem hrule predicate hpredicate)
  refine ⟨declaration, ?_, hargs⟩
  rw [← hname]
  exact filter_eq_singleton (halone.names_nodup h horder) hmem

/-! ### What coverage forces -/

/-- A covered program declares every generated name under a stem and a level. -/
theorem WellDeclared.exists_level {order : List (String × ℕ) → List (String × ℕ)}
    (hcovers : Covers (lower order program)) {fact : Fact} (hfact : fact ∈ program.recordedFacts)
    (hchain : fact.delegationChain ≠ []) :
    ∃ level ∈ (order (recordedDepths program)).foldl
        (addLevels (typeEnvironment (transformedDeclarations program))) [],
      declaredName level = canSayName fact.delegationChain.length fact.base.name := by
  have hpos := List.length_pos_iff.mpr hchain
  have hgenerated : IsGeneratedName program
      (canSayName fact.delegationChain.length fact.base.name) :=
    .inr ⟨fact, hfact, _, hpos, le_refl _, rfl⟩
  obtain ⟨rule, hrule, speaker, hpredicate⟩ := exists_rule_toPredicate order hfact
  obtain ⟨declaration, hfilter, -⟩ := hcovers rule hrule _ hpredicate
  have hmem := List.mem_singleton_self declaration
  rw [← hfilter, List.mem_filter] at hmem
  have hname := List.mem_map_of_mem (f := RelationDeclaration.relationName) hmem.1
  rw [of_decide_eq_true hmem.2, lower_names] at hname
  have hsaid : (pushPrincipal "says_" speaker fact.toPredicate).name =
      "says_" ++ canSayName fact.delegationChain.length fact.base.name :=
    congrArg ("says_" ++ ·) (chainPredicate_shape fact.delegationChain fact.base).1
  rw [hsaid] at hname
  rcases List.mem_append.mp hname with hinner | hquery
  · obtain ⟨inner, hinner, heq⟩ := List.mem_map.mp hinner
    rw [(String.append_right_inj _).mp heq, List.map_append, List.map_append] at hinner
    rcases List.mem_append.mp hinner with hinner | hcanActAs
    · rcases List.mem_append.mp hinner with hdeclared | hlevel
      · obtain ⟨declared, hdeclared, heq⟩ := List.mem_map.mp hdeclared
        exact absurd (heq ▸ hgenerated) (h.not_generated hdeclared)
      · rw [map_getCanSayDeclarations] at hlevel
        exact List.mem_map.mp hlevel
    · exact absurd (List.mem_singleton.mp hcanActAs) (canSayName_ne_canActAs hpos _)
  · rcases List.mem_append.mp hquery with hquery | hdummy
    · obtain ⟨query, hmemQuery, heq⟩ := List.mem_map.mp hquery
      exact absurd hgenerated ((h.queries query hmemQuery).2 _ heq).1
    · exact absurd (List.mem_singleton.mp hdummy) (says_ne_dummy _)

theorem WellDeclared.stem_declared {entries : List (String × ℕ)} {level : String × ℕ}
    (hlevel : level ∈ entries.foldl
      (addLevels (typeEnvironment (transformedDeclarations program))) []) :
    (∃ depth, (level.1, depth) ∈ entries) ∧ ¬ IsGeneratedName program level.1 := by
  rcases stem_of_mem_foldl entries hlevel with ⟨entry, hentry, declaration, hfind, hname⟩ | hold
  · obtain ⟨hmem, hentryName⟩ := (h.typeEnvironment_iff entry.1 declaration).mp hfind
    rw [← hname]
    refine ⟨⟨entry.2, ?_⟩, h.not_generated hmem⟩
    rw [hentryName]
    exact hentry
  · obtain ⟨old, hold, -⟩ := hold
    cases hold

theorem CoveredInAnyOrder.canActAs (hcovered : CoveredInAnyOrder program) {fact : Fact}
    (hfact : fact ∈ program.recordedFacts) {canActAs : CanActAs}
    (hcanActAs : fact.baseFact = .canActAs canActAs) : fact.delegationChain = [] := by
  by_contra hchain
  have hbase : fact.base.name = "canActAs" := by rw [Fact.base, hcanActAs]; rfl
  obtain ⟨level, hlevel, hname⟩ := h.exists_level (hcovered id fun _ => .refl _) hfact hchain
  obtain ⟨-, hstem⟩ := h.stem_declared hlevel
  rw [declaredName, hbase] at hname
  rcases Nat.lt_trichotomy level.2 fact.delegationChain.length with hlt | heq | hlt
  · refine hstem (.inr ⟨fact, hfact, fact.delegationChain.length - level.2, by omega, by omega,
      ?_⟩)
    rw [hbase]
    exact eq_canSayName_of_le hname hlt.le
  · rw [heq] at hname
    exact hstem (.inl (Raksha.AuthLogic.canSayName_inj.mp hname))
  · have heq := eq_canSayName_of_le hname.symm hlt.le
    exact canSayName_ne_canActAs (by omega) _ heq.symm

omit h in
theorem exists_deepest {facts : List Fact} {first : Fact} (hfirst : first ∈ facts) :
    ∃ deepest ∈ facts, ∀ fact ∈ facts,
      fact.delegationChain.length ≤ deepest.delegationChain.length := by
  obtain ⟨deepest, hmem, hmax⟩ := Finset.exists_max_image facts.toFinset
    (fun fact => fact.delegationChain.length) ⟨first, List.mem_toFinset.mpr hfirst⟩
  exact ⟨deepest, List.mem_toFinset.mp hmem, fun fact hfact =>
    hmax fact (List.mem_toFinset.mpr hfact)⟩

/-- The order in which the entries of one relation come last. -/
def relationLast (name : String) (entries : List (String × ℕ)) : List (String × ℕ) :=
  entries.filter (fun entry => !decide (entry.1 = name)) ++
    entries.filter fun entry => decide (entry.1 = name)

omit h in
theorem isIteration_relationLast (name : String) : IsIteration (relationLast name) := by
  intro entries
  exact List.perm_append_comm.trans (List.filter_append_perm _ entries)

/-- The levels that stand before those of the relation when its entry comes last. -/
def otherLevels (program : Program) (name : String) : List (String × ℕ) :=
  ((recordedDepths program).filter fun entry => !decide (entry.1 = name)).foldl
    (addLevels (typeEnvironment (transformedDeclarations program))) []

theorem CoveredInAnyOrder.otherLevels_ne_nil (hcovered : CoveredInAnyOrder program) {other : Fact}
    (hother : other ∈ program.recordedFacts) (hchain : other.delegationChain ≠ []) {name : String}
    (hne : other.base.name ≠ name) : otherLevels program name ≠ [] := by
  obtain ⟨depth, hentry, hle⟩ := exists_recordedDepth hother
  obtain ⟨declaration, hmem, hname, -⟩ :=
    h.exists_declaration hother fun canActAs heq => hchain (hcovered.canActAs h hother heq)
  have hfind := (h.typeEnvironment_iff other.base.name declaration).mpr ⟨hmem, hname⟩
  have hdelegated : IsDelegated (typeEnvironment (transformedDeclarations program))
      (other.base.name, depth) := by
    refine ⟨(List.length_pos_iff.mpr hchain).trans_le hle, ?_⟩
    rw [hfind]
    rfl
  exact foldl_addLevels_ne_nil (List.mem_filter.mpr ⟨hentry, by simpa using hne⟩) hdelegated []

theorem otherLevels_stem {name : String} {level : String × ℕ}
    (hlevel : level ∈ otherLevels program name) : level.1 ≠ name := by
  intro heq
  obtain ⟨⟨depth, hdepth⟩, -⟩ := h.stem_declared hlevel
  have hkept := (List.mem_filter.mp hdepth).2
  rw [heq, decide_eq_true rfl] at hkept
  cases hkept

theorem foldl_relationLast {name : String} {depth : ℕ}
    (hentry : (name, depth) ∈ recordedDepths program)
    (hdeclared : ∃ declaration ∈ transformedDeclarations program,
      declaration.relationName = name) :
    (relationLast name (recordedDepths program)).foldl
        (addLevels (typeEnvironment (transformedDeclarations program))) [] =
      levelsAt name depth (otherLevels program name) := by
  obtain ⟨declaration, hmem, hname⟩ := hdeclared
  have hfind := (h.typeEnvironment_iff name declaration).mpr ⟨hmem, hname⟩
  rw [relationLast, filter_eq_singleton (recordedDepths_keys program) hentry, List.foldl_append,
    List.foldl_cons, List.foldl_nil, addLevels, hfind]
  exact congrArg (fun stem => levelsAt stem _ _) hname

omit h in
theorem levelsWithin_relationLast {bound : ℕ}
    (hmax : ∀ fact ∈ program.recordedFacts, fact.delegationChain.length ≤ bound)
    (name : String) :
    LevelsWithin bound ((relationLast name (recordedDepths program)).foldl
      (addLevels (typeEnvironment (transformedDeclarations program))) []) := by
  refine levelsWithin_foldl _ ?_ fun j level hlevel => ?_
  · intro entry hmem
    have hrecorded := (isIteration_relationLast _ _).mem_iff.mp hmem
    obtain ⟨fact, hfact, -, hdepth⟩ := exists_fact_of_mem_recordedDepths hrecorded
    exact hdepth ▸ hmax fact hfact
  · cases hlevel

/-- Behind another delegated relation the deepest relation lacks its last declaration. -/
theorem CoveredInAnyOrder.only_deepest (hcovered : CoveredInAnyOrder program) {deepest : Fact}
    (hdeepest : deepest ∈ program.recordedFacts)
    (hmax : ∀ fact ∈ program.recordedFacts,
      fact.delegationChain.length ≤ deepest.delegationChain.length)
    (hdeep : 2 ≤ deepest.delegationChain.length) {other : Fact}
    (hother : other ∈ program.recordedFacts) (hchain : other.delegationChain ≠ []) :
    other.base.name = deepest.base.name := by
  by_contra hne
  have hdeepestChain : deepest.delegationChain ≠ [] := List.length_pos_iff.mp (by omega)
  obtain ⟨depth, hentry, hle⟩ := exists_recordedDepth hdeepest
  obtain ⟨fact, hfact, -, hdepth⟩ := exists_fact_of_mem_recordedDepths hentry
  obtain rfl : depth = deepest.delegationChain.length := by
    have hfactLe := hmax fact hfact
    omega
  obtain ⟨declaration, hmem, hname, -⟩ := h.exists_declaration hdeepest fun canActAs heq =>
    hdeepestChain (hcovered.canActAs h hdeepest heq)
  -- The other relations come first in the order that puts the deepest one last.
  have hlevels := foldl_relationLast h hentry ⟨declaration, hmem, hname⟩
  have htop := top_not_mem_levelsAt hdeep (hcovered.otherLevels_ne_nil h hother hchain hne)
    fun level hlevel => otherLevels_stem h hlevel
  obtain ⟨level, hlevel, hlevelName⟩ := h.exists_level
    (hcovered _ (isIteration_relationLast deepest.base.name)) hdeepest hdeepestChain
  obtain ⟨j, hget⟩ := List.mem_iff_getElem?.mp hlevel
  obtain ⟨hpos, -, hwithin⟩ := levelsWithin_relationLast hmax deepest.base.name j level hget
  obtain ⟨-, hstem⟩ := h.stem_declared hlevel
  rcases Nat.lt_or_eq_of_le hwithin with hlt | heq
  · refine hstem (.inr ⟨deepest, hdeepest, deepest.delegationChain.length - level.2, by omega,
      by omega, ?_⟩)
    exact eq_canSayName_of_le hlevelName hlt.le
  · rw [declaredName, heq] at hlevelName
    rw [hlevels] at hlevel
    have hpair : level = (deepest.base.name, deepest.delegationChain.length) :=
      Prod.ext (Raksha.AuthLogic.canSayName_inj.mp hlevelName) heq
    exact htop (hpair ▸ hlevel)

omit h in
theorem CoveredInAnyOrder.queries (hcovered : CoveredInAnyOrder program) :
    (program.queries.map Query.name).Nodup := by
  refine List.nodup_iff_count_le_one.mpr fun name => ?_
  by_cases hname : name ∈ program.queries.map Query.name
  · obtain ⟨query, hquery, rfl⟩ := List.mem_map.mp hname
    have hrule : queryRule query ∈ (lower id program).rules := by
      rw [lower_rules]
      exact List.mem_append_left _ (List.mem_append_right _ (List.mem_map_of_mem hquery))
    obtain ⟨declaration, hfilter, -⟩ :=
      hcovered id (fun _ => .refl _) _ hrule _ (List.mem_cons_self ..)
    have hcount : ((lower id program).relationDeclarations.map
        RelationDeclaration.relationName).count query.name = 1 := by
      rw [List.count_eq_countP, List.countP_map, List.countP_eq_length_filter]
      exact congrArg List.length hfilter
    rw [← hcount, lower_names]
    exact List.Sublist.count_le _ ((List.sublist_append_left _ _).trans
      (List.sublist_append_right _ _))
  · rw [List.count_eq_zero_of_not_mem hname]
    exact Nat.zero_le 1

theorem CoveredInAnyOrder.delegatesAlone (hcovered : CoveredInAnyOrder program) :
    DelegatesAlone program where
  canActAs := fun _ hfact _ hcanActAs => hcovered.canActAs h hfact hcanActAs
  queries := hcovered.queries
  alone := by
    intro fact hfact other hother hdeep hchain
    obtain ⟨deepest, hdeepest, hmax⟩ := exists_deepest hfact
    have hbound := hmax fact hfact
    have honly : ∀ {fact : Fact}, fact ∈ program.recordedFacts → fact.delegationChain ≠ [] →
        fact.base.name = deepest.base.name := fun hfact hchain =>
      hcovered.only_deepest h hdeepest hmax (hdeep.trans hbound) hfact hchain
    rw [honly hother hchain, honly hfact (List.length_pos_iff.mp (by omega))]

/-- The declarations cover the rules, in any order of the depth map, exactly if delegation stays
alone. -/
theorem declarations_cover_iff : CoveredInAnyOrder program ↔ DelegatesAlone program :=
  ⟨fun hcovered => hcovered.delegatesAlone h, fun halone => halone.covers h⟩

end

/-! ### Two delegated relations -/

theorem IsGeneratedName.le_length {name : String} (h : IsGeneratedName program name) :
    7 ≤ name.length := by
  rcases h with rfl | ⟨fact, -, k, hk, -, rfl⟩
  · decide
  · rw [length_canSayName]
    omega

def numberRelation (name : String) : RelationDeclaration := ⟨name, false, [⟨"x", .number⟩]⟩

/-- `A says B1 canSay ... Bn canSay relation(1)`. -/
def delegatedFact (relation : String) (delegatees : List String) : Fact :=
  ⟨delegatees.map Principal.mk, .predicate ⟨relation, ["1"], .positive⟩⟩

def delegatingProgram (delegated : List (String × List String)) : Program where
  relationDeclarations := [numberRelation "p", numberRelation "q"]
  saysAssertions :=
    [⟨⟨"A"⟩, delegated.map fun (relation, delegatees) =>
      .fact (delegatedFact relation delegatees)⟩]
  queries := []

theorem recordedFacts_delegatingProgram (delegated : List (String × List String)) :
    (delegatingProgram delegated).recordedFacts =
      delegated.map fun (relation, delegatees) => delegatedFact relation delegatees := by
  simp [Program.recordedFacts, Program.said, delegatingProgram, SaysAssertion.said,
    Function.comp_def, Assertion.lhs]

theorem wellDeclared_delegatingProgram {delegated : List (String × List String)}
    (h : ∀ entry ∈ delegated, entry.1 = "p" ∨ entry.1 = "q") :
    WellDeclared (delegatingProgram delegated) where
  once := show ([numberRelation "p", numberRelation "q"].map
    RelationDeclaration.relationName).Nodup by decide
  facts := by
    rw [recordedFacts_delegatingProgram]
    intro fact hfact
    obtain ⟨⟨relation, delegatees⟩, hmem, rfl⟩ := List.mem_map.mp hfact
    rcases h _ hmem with hname | hname
    · exact ⟨_, List.mem_cons_self .., hname.symm, rfl, rfl⟩
    · exact ⟨_, List.mem_cons_of_mem _ (List.mem_cons_self ..), hname.symm, rfl, rfl⟩
  conditions := by
    intro condition hcondition
    obtain ⟨said, hsaid, hrhs⟩ := List.mem_flatMap.mp hcondition
    obtain ⟨saysAssertion, hmem, hsaid⟩ := List.mem_flatMap.mp hsaid
    obtain ⟨assertion, hassertion, rfl⟩ := List.mem_map.mp hsaid
    rw [List.mem_singleton.mp hmem] at hassertion
    obtain ⟨entry, -, rfl⟩ := List.mem_map.mp hassertion
    cases hrhs
  relations := by
    intro declaration hmem hgenerated
    have hlength : ∀ declaration ∈ [numberRelation "p", numberRelation "q"],
        declaration.relationName.length = 1 := by decide
    have hle := hgenerated.le_length
    rw [hlength declaration hmem] at hle
    exact absurd hle (by decide)
  queries := fun _ hquery => absurd hquery List.not_mem_nil

/-- In one order the second level of `q` extends the first one of `p`. -/
theorem twoDelegated_uncovered :
    ¬ ∀ program, WellDeclared program → CoveredInAnyOrder program := by
  intro hall
  have hdeclared : WellDeclared (delegatingProgram [("p", ["B"]), ("q", ["B", "C"])]) :=
    wellDeclared_delegatingProgram (by decide)
  have halone := (hall _ hdeclared).delegatesAlone hdeclared
  have hfacts := recordedFacts_delegatingProgram [("p", ["B"]), ("q", ["B", "C"])]
  have hsame := halone.alone (delegatedFact "q" ["B", "C"]) (hfacts ▸ by decide)
    (delegatedFact "p" ["B"]) (hfacts ▸ by decide) (by decide) (by decide)
  exact absurd hsame (by decide)

theorem oneDelegated_covered : CoveredInAnyOrder (delegatingProgram [("q", ["B", "C"])]) := by
  have hfacts := recordedFacts_delegatingProgram [("q", ["B", "C"])]
  have honly : ∀ fact ∈ (delegatingProgram [("q", ["B", "C"])]).recordedFacts,
      fact = delegatedFact "q" ["B", "C"] := by
    rw [hfacts]
    exact fun fact hfact => List.mem_singleton.mp hfact
  refine (declarations_cover_iff (wellDeclared_delegatingProgram (by decide))).mpr ?_
  refine ⟨?_, ?_, List.nodup_nil⟩
  · intro fact hfact canActAs hcanActAs
    rw [honly fact hfact] at hcanActAs
    cases hcanActAs
  · intro fact hfact other hother _ _
    rw [honly fact hfact, honly other hother]

end Raksha.AuthLogic
