import Raksha.PolicyEngine.WrittenFacts
import Raksha.Sql.WrittenArenas

/-!
# The verdict of the driver

The driver accepts an arena whose strings need no escapes exactly when the last expression has no
confidentiality tags. Datalog derives the tags of all expressions at once; the proof follows the
order of the arena, in which the tags of an expression come after the tags of the expressions that
it refers to.
-/

namespace Raksha.Sql.Decode
open Raksha.Common Raksha.Ir Raksha.PolicyEngine

/-! ### Arenas in order -/

section

variable {β : Type*} {f : (UInt64 → β) → IdExpressionPair → β}

/-- The expressions are read in order, each with what was computed for the ones before it. In the
end the references of an expression still have what was computed for them. -/
theorem foldl_update_eq (hf : ∀ values values' pair,
      (∀ id ∈ pair.expression.references, values id = values' id) →
      f values pair = f values' pair)
    (start : UInt64 → β) {pairs : List IdExpressionPair} (h : WellDeclared pairs) :
    ∀ pair ∈ pairs,
      pairs.foldl (fun values pair => Function.update values pair.id (f values pair)) start
          pair.id =
        f (pairs.foldl (fun values pair => Function.update values pair.id (f values pair)) start)
          pair := by
  induction pairs using List.reverseRecOn with
  | nil => exact fun pair hpair => absurd hpair List.not_mem_nil
  | append_singleton pairs last ih =>
    obtain ⟨hpairs, -, hfresh, hreferences⟩ := (wellDeclared_concat pairs last).mp h
    simp only [List.foldl_append, List.foldl_cons, List.foldl_nil]
    generalize hvalues : pairs.foldl
      (fun values pair => Function.update values pair.id (f values pair)) start = values at ih ⊢
    have hkeep : ∀ id ∈ pairs.map IdExpressionPair.id,
        Function.update values last.id (f values last) id = values id := by
      intro id hid
      rw [Function.update_of_ne]
      rintro rfl
      exact hfresh hid
    intro pair hpair
    rcases List.mem_append.mp hpair with hpair | hpair
    · rw [hkeep _ (List.mem_map_of_mem hpair), ih hpairs pair hpair]
      refine hf _ _ _ fun id hid => (hkeep id ?_).symm
      obtain ⟨k, hk⟩ := List.getElem?_of_mem hpair
      obtain ⟨-, j, -, earlier, hearlier, rfl⟩ := hpairs.declared k pair hk id hid
      exact List.mem_map_of_mem (List.mem_of_getElem? hearlier)
    · obtain rfl := List.mem_singleton.mp hpair
      rw [Function.update_self]
      exact hf _ _ _ fun id hid => (hkeep id (hreferences id hid).2).symm

end

/-! ### Tags -/

section

variable (policy : Finset Souffle.SqlPolicyRule) (arena : List IdExpressionPair)

theorem mem_addedTags_confidentiality (rules : Finset Souffle.SqlPolicyRule) (tag : String) :
    tag ∈ (addedTags rules).confidentiality ↔
      ∃ rule ∈ rules, rule.result = .addConfidentialityTag tag := by
  simp only [addedTags, Finset.mem_biUnion]
  refine exists_congr fun rule => and_congr_right fun _ => ?_
  cases rule.result <;> simp [eq_comm]

theorem mem_addedTags_integrity (rules : Finset Souffle.SqlPolicyRule) (tag : String) :
    tag ∈ (addedTags rules).integrity ↔ ∃ rule ∈ rules, rule.result = .addIntegrityTag tag := by
  simp only [addedTags, Finset.mem_biUnion]
  refine exists_congr fun rule => and_congr_right fun _ => ?_
  cases rule.result <;> simp [eq_comm]

theorem mem_removedTags (rules : Finset Souffle.SqlPolicyRule) (tag : String) :
    tag ∈ removedTags rules ↔ ∃ rule ∈ rules, rule.result = .removeConfidentialityTag tag := by
  simp only [removedTags, Finset.mem_biUnion]
  refine exists_congr fun rule => and_congr_right fun _ => ?_
  cases rule.result <;> simp [eq_comm]

theorem mergeTags_congr {tags tags' : UInt64 → ExpressionTags} {merge : MergeOperation}
    (h : ∀ id ∈ merge.inputs ++ merge.controlInputs, tags id = tags' id) (id : UInt64) :
    mergeTags arena tags id merge = mergeTags arena tags' id merge := by
  have hdirect : ∀ input ∈ merge.inputs, tags input = tags' input :=
    fun input hinput => h input (List.mem_append_left _ hinput)
  have hunion : (merge.inputs.toFinset.biUnion fun input => (tags input).integrity) =
      merge.inputs.toFinset.biUnion fun input => (tags' input).integrity :=
    Finset.biUnion_congr rfl fun input hinput => by rw [hdirect input (List.mem_toFinset.mp hinput)]
  have hall : ∀ tag : String,
      (merge.inputs.all fun input => decide (tag ∈ (tags input).integrity)) =
        merge.inputs.all fun input => decide (tag ∈ (tags' input).integrity) := by
    intro tag
    rw [Bool.eq_iff_iff, List.all_eq_true, List.all_eq_true]
    refine forall₂_congr fun input hinput => ?_
    rw [hdirect input hinput]
  simp only [mergeTags, hunion, hall, ExpressionTags.mk.injEq, and_true]
  exact Finset.biUnion_congr rfl fun input hinput => by rw [h input (List.mem_toFinset.mp hinput)]

theorem TagTransform.meets_congr {tags tags' : UInt64 → ExpressionTags} {transform : TagTransform}
    (h : ∀ entry ∈ transform.tagPreconditions.entries, tags entry.2 = tags' entry.2)
    (precondition : Souffle.SqlPolicyRulePrecondition) :
    transform.Meets tags precondition ↔ transform.Meets tags' precondition := by
  refine exists_congr fun id => and_congr_right fun hid => ?_
  rw [h ⟨_, id⟩ ((List.mem_dlookup_iff transform.tagPreconditions.nodupKeys).mp hid)]

theorem expressionTags_congr {tags tags' : UInt64 → ExpressionTags} {pair : IdExpressionPair}
    (h : ∀ id ∈ pair.expression.references, tags id = tags' id) :
    expressionTags policy arena tags pair = expressionTags policy arena tags' pair := by
  unfold expressionTags
  cases hexpr : pair.expression with
  | exprVariantNotSet => rfl
  | sourceTableColumn => rfl
  | literal => rfl
  | mergeOperation merge =>
    rw [hexpr] at h
    exact mergeTags_congr arena h pair.id
  | tagTransform transform =>
    rw [hexpr] at h
    have hnode := h transform.transformedNode (List.mem_cons_self ..)
    have hmeets : ∀ precondition, transform.Meets tags precondition ↔
        transform.Meets tags' precondition := TagTransform.meets_congr fun entry hentry =>
      h entry.2 (List.mem_cons_of_mem _ (List.mem_map_of_mem (f := Sigma.snd) hentry))
    have hrules : transform.metRules policy tags = transform.metRules policy tags' := by
      simp only [TagTransform.metRules, hmeets]
    simp only [transformTags, hnode, hrules]

/-- An expression has the tags that follow from the final tags of its references. -/
theorem tagsUpTo_eq {pairs : List IdExpressionPair} (h : WellDeclared pairs) :
    ∀ pair ∈ pairs, tagsUpTo policy arena pairs pair.id =
      expressionTags policy arena (tagsUpTo policy arena pairs) pair := by
  have hcongr : ∀ tags tags' pair, (∀ id ∈ pair.expression.references, tags id = tags' id) →
      expressionTags policy arena tags pair = expressionTags policy arena tags' pair :=
    fun _ _ _ hsame => expressionTags_congr policy arena hsame
  exact foldl_update_eq hcongr _ h

end

/-! ### Tags of the results -/

/-- Datalog gives the value these tags. -/
def HasTags (e : Souffle.Evaluation) (path : String) (tags : ExpressionTags) : Prop :=
  (∀ tag, e.MayHaveTag path "sql" tag ↔ tag ∈ tags.confidentiality) ∧
    ∀ tag, e.MustHaveIntegrityTag path "sql" tag ↔ tag ∈ tags.integrity

/-- Datalog gives the value of the id these tags. -/
def ValueHasTags (e : Souffle.Evaluation) (symbol : Value → String)
    (values : UInt64 → Option Value) (id : UInt64) (tags : ExpressionTags) : Prop :=
  ∀ v, values id = some v → HasTags e (symbol v) tags

theorem mem_mergeTags_integrity (arena : List IdExpressionPair) (tags : UInt64 → ExpressionTags)
    (id : UInt64) {merge : MergeOperation} (hne : merge.inputs ≠ []) (tag : String) :
    tag ∈ (mergeTags arena tags id merge).integrity ↔
      (AppliesRule arena TagTransformOp.unionItagRule id ∧
        ∃ input ∈ merge.inputs, tag ∈ (tags input).integrity) ∨
      (AppliesRule arena TagTransformOp.intersectItagRule id ∧
        ∀ input ∈ merge.inputs, tag ∈ (tags input).integrity) := by
  have hite : ∀ (p : Prop) [Decidable p] (s : Finset String),
      tag ∈ (if p then s else ∅) ↔ p ∧ tag ∈ s := by
    intro p _ s
    split <;> simp [*]
  have hsome : (∀ input ∈ merge.inputs, tag ∈ (tags input).integrity) →
      ∃ input ∈ merge.inputs, tag ∈ (tags input).integrity := by
    intro hall
    obtain ⟨input, hinput⟩ := List.exists_mem_of_ne_nil _ hne
    exact ⟨input, hinput, hall input hinput⟩
  simp only [mergeTags, Finset.mem_union, hite, Finset.mem_filter, Finset.mem_biUnion,
    List.mem_toFinset, List.all_eq_true, decide_eq_true_eq, and_iff_right_of_imp hsome]

section

variable {values : UInt64 → Option Value} {module : Module} {symbol : Value → String}
  {e : Souffle.Evaluation} (hfacts : SqlFacts module symbol e)
  (hmembers : NoMemberResults module symbol e)

include hfacts

/-- A precondition is met when the expression that the transform names for it has the tag. -/
theorem preconditionMet_iff_meets {tags : UInt64 → ExpressionTags} {transform : TagTransform}
    {op : Operation} (hop : op ∈ module.operations)
    (hdescribes : DescribesTagTransform values transform op)
    (hreserved : TagTransformOp.ruleNameAttribute ∉ transform.tagPreconditions)
    (hinputs : ∀ entry ∈ transform.tagPreconditions.entries,
      ValueHasTags e symbol values entry.2 (tags entry.2))
    (precondition : Souffle.SqlPolicyRulePrecondition) :
    Souffle.Evaluation.PreconditionMet e (operationFact symbol op) precondition ↔
      transform.Meets tags precondition := by
  have hinput : ∀ name id, transform.tagPreconditions.lookup name = some id →
      ValueHasTags e symbol values id (tags id) := by
    intro name id hid
    exact hinputs ⟨name, id⟩ ((List.mem_dlookup_iff transform.tagPreconditions.nodupKeys).mp hid)
  constructor
  · rintro ⟨hname, operandIndex, path, hnumber, hoperand, hmust⟩
    rw [hfacts.hasNumberAttribute_iff hop] at hnumber
    cases hid : transform.tagPreconditions.lookup precondition.preconditionName with
    | none =>
      rw [hdescribes.others _ hname ((FlatHashMap.lookup_eq_none_iff _ _).mp hid)] at hnumber
      cases hnumber
    | some id =>
      obtain ⟨index, value, -, hlookup, hvalue, hknown⟩ := hdescribes.preconditions _ id hid
      rw [hnumber, Option.some.injEq, Attribute.int64.injEq] at hlookup
      subst hlookup
      obtain ⟨i, hi, v, hv, rfl⟩ := (hfacts.hasOperandAtIndex_iff hop path _).mp hoperand
      cases Nat.cast_inj.mp hi
      rw [hvalue, Option.some.injEq] at hv
      subst hv
      exact ⟨id, hid, ((hinput _ id hid value hknown).2 _).mp hmust⟩
  · rintro ⟨id, hid, htag⟩
    obtain ⟨index, value, -, hlookup, hvalue, hknown⟩ := hdescribes.preconditions _ id hid
    refine ⟨?_, index, symbol value, (hfacts.hasNumberAttribute_iff hop _ _).mpr hlookup,
      (hfacts.hasOperandAtIndex_iff hop _ _).mpr ⟨index, rfl, value, hvalue, rfl⟩,
      ((hinput _ id hid value hknown).2 _).mpr htag⟩
    intro hname
    have hmem := (FlatHashMap.mem_iff_lookup _ _).mpr (Option.ne_none_iff_exists'.mpr ⟨id, hid⟩)
    rw [hname] at hmem
    exact hreserved hmem

/-- The results of the rule of a transform whose preconditions are met. -/
theorem ruleResult_iff {policy : Finset Souffle.SqlPolicyRule} {tags : UInt64 → ExpressionTags}
    {transform : TagTransform} {op : Operation} (hpolicy : e.facts.isSqlPolicyRule = policy)
    (hrules : Souffle.Evaluation.DistinctRuleNames e.facts) (hop : op ∈ module.operations)
    (hdescribes : DescribesTagTransform values transform op)
    (hmeets : ∀ precondition, Souffle.Evaluation.PreconditionMet e (operationFact symbol op)
      precondition ↔ transform.Meets tags precondition) (result : Souffle.SqlPolicyRuleResult) :
    (∃ ruleName, HasRuleName op ruleName ∧
      Souffle.SqlPolicyRuleNameHasResult e.facts ruleName result ∧
      e.AllTagTransformPreconditionsMet (operationFact symbol op)) ↔
      ∃ rule ∈ transform.metRules policy tags, rule.result = result := by
  have hname : ∀ ruleName, Souffle.TagTransformHasRuleName e.facts.isOperation
      (operationFact symbol op) ruleName ↔ ruleName = transform.transformRuleName := by
    intro ruleName
    rw [hfacts.hasRuleName_iff hop, hdescribes.hasRuleName_iff]
  have hall : ∀ rule ∈ policy, rule.policyRuleName = transform.transformRuleName →
      (e.AllTagTransformPreconditionsMet (operationFact symbol op) ↔
        ∀ precondition ∈ rule.preconditions, transform.Meets tags precondition) := by
    intro rule hrule hrn
    rw [Souffle.Evaluation.allPreconditionsMet_iff hrules (hpolicy ▸ hrule)
      (by intro ruleName; rw [hname, hrn]), and_iff_right hfacts.tagTransforms_mem]
    exact forall₂_congr fun precondition _ => hmeets precondition
  simp only [TagTransform.metRules, Finset.mem_filter]
  constructor
  · rintro ⟨ruleName, hrn, ⟨rule, hrule, hsame, hresult⟩, hmet⟩
    rw [(hdescribes.hasRuleName_iff ruleName).mp hrn] at hsame
    rw [hpolicy] at hrule
    exact ⟨rule, ⟨hrule, hsame, (hall rule hrule hsame).mp hmet⟩, hresult⟩
  · rintro ⟨rule, ⟨hrule, hsame, hmet⟩, hresult⟩
    exact ⟨_, (hdescribes.hasRuleName_iff _).mpr rfl, ⟨rule, hpolicy ▸ hrule, hsame, hresult⟩,
      (hall rule hrule hsame).mpr hmet⟩

include hmembers

theorem hasTags_literal {text : Literal} {op : Operation}
    (hop : op ∈ module.operations) (hdescribes : Describes values (.literal text) op) :
    HasTags e (symbol (op.getOutputValue 0)) {} := by
  obtain ⟨hoperator, -, hinputs⟩ := hdescribes
  have htransform : ¬ IsTagTransformOp op := by
    rw [IsTagTransformOp, hoperator]
    decide
  have hmerge : ¬ IsMergeOp op := by
    rw [IsMergeOp, hoperator]
    decide
  refine ⟨?_, ?_⟩
  · intro tag
    simp [hfacts.mayHave_default_iff hmembers hop htransform, hinputs]
  · intro tag
    refine ⟨?_, fun htag => absurd htag (Finset.notMem_empty tag)⟩
    intro hmust
    exact absurd (hfacts.mustHave_cases hop htransform hmust).1 hmerge

theorem hasTags_merge {arena : List IdExpressionPair} {tags : UInt64 → ExpressionTags} {id : UInt64}
    {merge : MergeOperation} {op : Operation} (hop : op ∈ module.operations)
    (hdescribes : DescribesMerge values merge op) (hne : merge.inputs ≠ [])
    (hrule : ∀ ruleName, HasITagRule module op ruleName ↔ AppliesRule arena ruleName id)
    (hinputs : ∀ input ∈ merge.inputs ++ merge.controlInputs,
      ValueHasTags e symbol values input (tags input)) :
    HasTags e (symbol (op.getOutputValue 0)) (mergeTags arena tags id merge) := by
  have hmerge : IsMergeOp op := by rw [IsMergeOp, hdescribes.operator]
  have hpairs : List.Forall₂ (fun input v => HasTags e (symbol v) (tags input))
      (merge.inputs ++ merge.controlInputs) op.inputs :=
    ((List.forall₂_and_left _ _).mpr ⟨hinputs, hdescribes.inputs⟩).imp
      fun _ v hinput => hinput.1 v hinput.2
  have hdirect : List.Forall₂ (fun input v => HasTags e (symbol v) (tags input)) merge.inputs
      (op.inputs.take merge.inputs.length) := by
    have htake := List.forall₂_take merge.inputs.length hpairs
    rwa [List.take_left] at htake
  have hlength : merge.inputs.length ≤ op.inputs.length := by
    rw [← hdescribes.inputs.length_eq, List.length_append]
    exact Nat.le_add_right _ _
  have hnonempty : op.inputs.take merge.inputs.length ≠ [] := by
    rw [← List.length_pos_iff, ← hdirect.length_eq]
    exact List.length_pos_iff.mpr hne
  refine ⟨?_, ?_⟩
  · intro tag
    rw [hfacts.mayHave_default_iff hmembers hop hmerge.not_transform]
    simp only [mergeTags, Finset.mem_biUnion, List.mem_toFinset]
    exact (exists_mem_iff_of_forall₂ hpairs fun input v hv => (hv.1 tag).symm).symm
  · intro tag
    have hsome := exists_mem_iff_of_forall₂ hdirect fun input v hv => (hv.2 tag).symm
    have hall := forall_mem_iff_of_forall₂ hdirect fun input v hv => (hv.2 tag).symm
    rw [hfacts.mustHave_merge_iff hop hmerge hdescribes.getControlInputStartIndex hlength, hrule,
      hrule, mem_mergeTags_integrity arena tags id hne, hsome, hall,
      and_iff_right_of_imp fun _ => hnonempty]

theorem hasTags_transform {policy : Finset Souffle.SqlPolicyRule} {tags : UInt64 → ExpressionTags}
    {transform : TagTransform} {op : Operation} (hpolicy : e.facts.isSqlPolicyRule = policy)
    (hrules : Souffle.Evaluation.DistinctRuleNames e.facts) (hop : op ∈ module.operations)
    (hdescribes : DescribesTagTransform values transform op)
    (hreserved : TagTransformOp.ruleNameAttribute ∉ transform.tagPreconditions)
    (hinputs : ∀ id ∈ (Expression.tagTransform transform).references,
      ValueHasTags e symbol values id (tags id)) :
    HasTags e (symbol (op.getOutputValue 0)) (transformTags policy tags transform) := by
  have htransform : IsTagTransformOp op := by rw [IsTagTransformOp, hdescribes.operator]
  obtain ⟨u, hu, hnode⟩ := hdescribes.transformed
  have hhead : op.inputs.head? = some u := by rw [List.head?_eq_getElem?, hu]
  have hbefore := hinputs _ (List.mem_cons_self ..) u hnode
  have hpreconditions : ∀ entry ∈ transform.tagPreconditions.entries,
      ValueHasTags e symbol values entry.2 (tags entry.2) := fun entry hentry =>
    hinputs entry.2 (List.mem_cons_of_mem _ (List.mem_map_of_mem (f := Sigma.snd) hentry))
  have hmeets := preconditionMet_iff_meets hfacts hop hdescribes hreserved hpreconditions
  have hresult := ruleResult_iff hfacts hpolicy hrules hop hdescribes hmeets
  refine ⟨?_, ?_⟩
  · intro tag
    rw [hfacts.mayHave_transform_iff hmembers hop hhead htransform, hfacts.hasTag_iff hop,
      hfacts.removeTag_iff hop, hresult, hresult, hbefore.1 tag]
    simp only [transformTags, Finset.mem_union, Finset.mem_sdiff, mem_removedTags,
      mem_addedTags_confidentiality, or_comm]
  · intro tag
    rw [hfacts.mustHave_transform_iff hop hhead htransform, hresult, hbefore.2 tag]
    simp only [transformTags, Finset.mem_union, mem_addedTags_integrity]

end

/-! ### The arena -/

namespace ModuleOf

variable {arena : List IdExpressionPair} {values : UInt64 → Option Value} {sqlOutput : Operation}
  {module : Module} (h : ModuleOf arena values sqlOutput module)

include h

theorem hasTags_expression {symbol : Value → String} {e : Souffle.Evaluation}
    {policy : Finset Souffle.SqlPolicyRule} (hfacts : SqlFacts module symbol e)
    (hmembers : NoMemberResults module symbol e) (hpolicy : e.facts.isSqlPolicyRule = policy)
    (hrules : Souffle.Evaluation.DistinctRuleNames e.facts) {tags : UInt64 → ExpressionTags}
    {pair : IdExpressionPair} (hpair : pair ∈ arena) {op : Operation}
    (hop : op ∈ module.operations) (hdecoded : DecodedOperation values pair op)
    (hinputs : ∀ id ∈ pair.expression.references, ValueHasTags e symbol values id (tags id)) :
    HasTags e (symbol (op.getOutputValue 0)) (expressionTags policy arena tags pair) := by
  obtain ⟨hvalue, hdescribes⟩ := hdecoded
  have hcomplete := h.wellDeclared.complete pair hpair
  have hrule := h.hasITagRule_iff hpair hvalue
  unfold expressionTags
  cases hexpr : pair.expression with
  | exprVariantNotSet =>
    rw [hexpr] at hcomplete
    exact absurd hcomplete id
  | sourceTableColumn column =>
    rw [hexpr] at hdescribes
    exact absurd hdescribes id
  | literal text =>
    rw [hexpr] at hdescribes
    exact hasTags_literal hfacts hmembers hop hdescribes
  | mergeOperation merge =>
    rw [hexpr] at hdescribes hcomplete hinputs
    exact hasTags_merge hfacts hmembers hop hdescribes hcomplete hrule hinputs
  | tagTransform transform =>
    rw [hexpr] at hdescribes hcomplete hinputs
    exact hasTags_transform hfacts hmembers hpolicy hrules hop hdescribes hcomplete.2 hinputs

/-- Datalog gives every expression its tags, by induction on its place in the arena. -/
theorem valueHasTags {storageName : Address → String} {e : Souffle.Evaluation}
    {policy : Finset Souffle.SqlPolicyRule} (hfacts : SqlFacts module
      (symbolOf storageName (finalNames storageName {} module)) e)
    (hpolicy : e.facts.isSqlPolicyRule = policy)
    (hrules : Souffle.Evaluation.DistinctRuleNames e.facts) (k : ℕ) :
    ∀ pair, arena[k]? = some pair →
      ValueHasTags e (symbolOf storageName (finalNames storageName {} module)) values pair.id
        (arenaTags policy arena pair.id) := by
  have hmembers := noMemberResults_fresh storageName module e
  induction k using Nat.strong_induction_on with
  | h k ih =>
    intro pair hk v hv
    have hpair := List.mem_of_getElem? hk
    have hinputs : ∀ id ∈ pair.expression.references,
        ValueHasTags e (symbolOf storageName (finalNames storageName {} module)) values id
          (arenaTags policy arena id) := by
      intro id hid
      obtain ⟨-, j, hj, earlier, hearlier, rfl⟩ := h.wellDeclared.declared k pair hk id hid
      exact ih j hj earlier hearlier
    rw [show arenaTags policy arena pair.id =
        expressionTags policy arena (arenaTags policy arena) pair from
      tagsUpTo_eq policy arena h.wellDeclared pair hpair]
    rcases h.expression pair hpair with ⟨hcolumn, storage, hstored⟩ | ⟨op, hop, hdecoded⟩
    · obtain ⟨column, hexpr⟩ := (Expression.isColumn_iff _).mp hcolumn
      rw [hv, Option.some.injEq] at hstored
      subst hstored
      have hne : ∀ op ∈ module.operations,
          symbolOf storageName (finalNames storageName {} module) (.storedValue storage) ≠
            symbolOf storageName (finalNames storageName {} module) (op.getOutputValue 0) :=
        fun op hop heq => symbolOf_storedValue_ne storageName module
          (isResult_output h.single hop) storage heq.symm
      simp only [expressionTags, hexpr]
      refine ⟨?_, ?_⟩
      · intro tag
        refine ⟨?_, fun htag => absurd htag (Finset.notMem_empty tag)⟩
        intro hmay
        obtain ⟨op, hop, heq⟩ := hfacts.mayHave_target hmembers hmay
        exact absurd heq (hne op hop)
      · intro tag
        refine ⟨?_, fun htag => absurd htag (Finset.notMem_empty tag)⟩
        intro hmust
        obtain ⟨op, hop, heq⟩ := hfacts.mustHave_target hmust
        exact absurd heq (hne op hop)
    · have hvalue := hdecoded.value
      rw [hv, Option.some.injEq] at hvalue
      subst hvalue
      exact h.hasTags_expression hfacts hmembers hpolicy hrules hpair hop hdecoded hinputs

/-- Datalog derives a violation exactly if the last expression has a confidentiality tag. -/
theorem violatesPolicy_iff {storageName : Address → String} {e : Souffle.Evaluation}
    {policy : Finset Souffle.SqlPolicyRule} (hfacts : SqlFacts module
      (symbolOf storageName (finalNames storageName {} module)) e)
    (hpolicy : e.facts.isSqlPolicyRule = policy)
    (hrules : Souffle.Evaluation.DistinctRuleNames e.facts) {last : IdExpressionPair}
    (hlast : arena.getLast? = some last) :
    (∃ path name text, e.ViolatesPolicy path name text) ↔
      ∃ tag, tag ∈ (arenaTags policy arena last.id).confidentiality := by
  have hmembers := noMemberResults_fresh storageName module e
  obtain ⟨last', value, hlast', hvalue, hinputs⟩ := h.output_inputs
  rw [hlast, Option.some.injEq] at hlast'
  subst hlast'
  obtain ⟨k, hk⟩ := List.getElem?_of_mem (List.mem_of_getLast? hlast)
  have htags := h.valueHasTags hfacts hpolicy hrules k last hk value hvalue
  have htransform : ¬ IsTagTransformOp sqlOutput := by
    rw [IsTagTransformOp, h.output_op]
    decide
  have houtput : ∀ tag, e.MayHaveTag
      (symbolOf storageName (finalNames storageName {} module) (sqlOutput.getOutputValue 0))
      "sql" tag ↔ tag ∈ (arenaTags policy arena last.id).confidentiality := by
    intro tag
    rw [hfacts.mayHave_default_iff hmembers h.output_mem htransform, ← htags.1 tag, hinputs]
    simp
  rw [hfacts.violatesPolicy_iff]
  constructor
  · rintro ⟨op, hop, hname, tag, hmay⟩
    rcases h.operation op hop with rfl | ⟨pair, -, hdecoded⟩
    · exact ⟨tag, (houtput tag).mp hmay⟩
    · exact absurd hname hdecoded.describes.numberOfOutputs.2
  · rintro ⟨tag, htag⟩
    exact ⟨sqlOutput, h.output_mem, by rw [h.output_op], tag, (houtput tag).mpr htag⟩

end ModuleOf

theorem create_empty : ∃ context, DecoderContext.create IRContext.empty = .ok context :=
  ⟨_, rfl⟩

section

variable (ord : Souffle.Symbol → ℕ) (hord : Function.Injective ord) {reader : FactsReader}
  (floatToString : BitVec 64 → String) (order : IterationOrder) {arena : List IdExpressionPair}
  {policyString : String}

open Classical in
/-- An arena that is well declared is decoded and lowered. -/
theorem verify_eq {last : IdExpressionPair} (hlast : arena.getLast? = some last)
    (hdeclared : WellDeclared arena) :
    ∃ (storageName : Address → String) (values : UInt64 → Option Value) (sqlOutput : Operation)
      (module : Module), ModuleOf arena values sqlOutput module ∧
      (UnescapedArena arena →
        ∀ fact ∈ (lowerModule storageName {} module).1, UnescapedOperation fact) ∧
      verify ord hord reader floatToString order arena policyString =
        .ok (decide (SoufflePolicyChecker.IsModulePolicyCompliant (policyEvaluation ord hord reader
          floatToString storageName module policyString))) := by
  obtain ⟨context, hcreate⟩ := create_empty
  obtain ⟨state, hloop⟩ := foldlM_of_wellDeclared order hcreate hdeclared
  have hdecoded := decoded_of_foldlM hcreate hloop
  obtain ⟨output, -, hvalue⟩ := hdecoded.topLevel_of_last hlast
  obtain ⟨module, hbuild, hmodule⟩ := hdecoded.built hlast hvalue
  have hdecode := (decodeExpressionArena_eq_ok order hcreate arena _).mpr
    ⟨state, last, output, hloop, hlast, hvalue, rfl⟩
  refine ⟨state.2.irContext.storageName, _, _, module, hmodule, ?_, ?_⟩
  · intro harena
    exact hmodule.unescaped harena rfl (hdecoded.unescaped_storageName harena)
  · simp only [verify, hcreate, Checked.bind_eq_ok, Except.ok.injEq, exists_eq_left', hdecode,
      wrapOperationResultValue, hbuild, Checked.pure_eq_ok]
    rfl

theorem verify_eq_ok (hreads : reader.ReadsWritten)
    (hrules : ∀ rule ∈ reader.isSqlPolicyRule policyString,
      ∀ rule' ∈ reader.isSqlPolicyRule policyString,
      rule.policyRuleName = rule'.policyRuleName → rule = rule') {last : IdExpressionPair}
    (hlast : arena.getLast? = some last) (hdeclared : WellDeclared arena)
    (harena : UnescapedArena arena) :
    verify ord hord reader floatToString order arena policyString =
      .ok (decide ((arenaTags (reader.isSqlPolicyRule policyString) arena last.id).confidentiality =
        ∅)) := by
  obtain ⟨storageName, values, sqlOutput, module, hmodule, hunescaped, hverify⟩ :=
    verify_eq ord hord floatToString order hlast hdeclared
  have hfacts := hmodule.sqlFacts ord hord (hreads floatToString _ (hunescaped harena)) policyString
  have hviolates := hmodule.violatesPolicy_iff hfacts rfl hrules hlast
  rw [hverify]
  refine congrArg Except.ok (decide_eq_decide.mpr ?_)
  rw [SoufflePolicyChecker.isModulePolicyCompliant_iff, hviolates,
    Finset.eq_empty_iff_forall_notMem, not_exists]
  rfl

variable {ord hord floatToString order} in
theorem wellDeclared_of_verify {verdict : Bool}
    (h : verify ord hord reader floatToString order arena policyString = .ok verdict) :
    ∃ last, arena.getLast? = some last ∧ WellDeclared arena := by
  obtain ⟨context, hcreate⟩ := create_empty
  simp only [verify, hcreate, Checked.bind_eq_ok, Except.ok.injEq, exists_eq_left'] at h
  obtain ⟨added, hdecode, -⟩ := h
  obtain ⟨state, last, output, hloop, hlast, -⟩ :=
    (decodeExpressionArena_eq_ok order hcreate arena added).mp hdecode
  exact ⟨last, hlast, (decoded_of_foldlM hcreate hloop).wellDeclared⟩

end

/-- A literal and its transform under the rule `add_tag`. -/
def addTagTransform : TagTransform := ⟨1, "add_tag", ∅, by decide⟩

def labelledLiteral : List IdExpressionPair :=
  [⟨1, .literal ⟨"hello"⟩⟩] ++ [⟨2, .tagTransform addTagTransform⟩]

theorem labelledLiteral_wellDeclared : WellDeclared labelledLiteral := by
  refine (wellDeclared_concat _ _).mpr
    ⟨(wellDeclared_concat [] _).mpr ⟨wellDeclared_nil, ?_, ?_, ?_⟩, ⟨?_, ?_⟩, ?_, ?_⟩
  · exact (by decide : "hello" ≠ "")
  · exact List.not_mem_nil
  · exact fun _ hid => absurd hid List.not_mem_nil
  · exact (by decide : "add_tag" ≠ "")
  · exact AList.notMem_empty _
  · exact fun hid => absurd (List.mem_singleton.mp hid) (by decide : (2 : UInt64) ≠ 1)
  · intro id hid
    obtain rfl : id = 1 := List.mem_singleton.mp hid
    exact ⟨by decide, List.mem_singleton_self _⟩

theorem labelledLiteral_unescaped : UnescapedArena labelledLiteral := by
  have hliteral : Unescaped "hello" := by decide
  have hrule : Unescaped "add_tag" := by decide
  refine List.forall_mem_cons.mpr ⟨hliteral, List.forall_mem_singleton.mpr ⟨hrule, ?_⟩⟩
  exact fun entry hentry => absurd hentry List.not_mem_nil

/-- The rule of `driver_test.cc`. -/
def addTagPolicy : String := "[\"add_tag\", $AddConfidentialityTag(\"tag\"), nil]"

/-- Reads written operations, and the rule of `driver_test.cc`. -/
def addTagReader : FactsReader where
  isOperation := readFacts
  isSqlPolicyRule policyString :=
    if policyString = addTagPolicy then {⟨"add_tag", .addConfidentialityTag "tag", []⟩} else ∅

theorem addTagReader_readsWritten : addTagReader.ReadsWritten := fun floatToString _ h =>
  readFacts_dumpFacts floatToString h

theorem addTagReader_rules (policyString : String) :
    ∀ rule ∈ addTagReader.isSqlPolicyRule policyString,
      ∀ rule' ∈ addTagReader.isSqlPolicyRule policyString,
      rule.policyRuleName = rule'.policyRuleName → rule = rule' := by
  intro rule hrule rule' hrule' _
  simp only [addTagReader] at hrule hrule'
  split at hrule
  · rw [if_pos ‹_›] at hrule'
    rw [Finset.mem_singleton.mp hrule, Finset.mem_singleton.mp hrule']
  · exact absurd hrule (Finset.notMem_empty rule)

end Raksha.Sql.Decode
