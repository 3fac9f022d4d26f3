import Raksha.Souffle.IntegrityTags

/-!
# Tag transforms and merges

What the preconditions of tag transforms and the special rules for merge operations mean, in
terms of the operations and the policy rules themselves.
-/

namespace Raksha.Souffle
open Datalog

/-- No attribute name occurs twice in an operation. -/
def UniqueAttributeNames (facts : Facts) : Prop :=
  ∀ op ∈ facts.isOperation, (op.attributes.map Attribute.attrName).Nodup

theorem UniqueAttributeNames.payload_eq {facts : Facts} (h : UniqueAttributeNames facts)
    {op : Operation} (hop : op ∈ facts.isOperation) {name : Symbol} {p q : AttributePayload}
    (hp : ⟨name, p⟩ ∈ op.attributes) (hq : ⟨name, q⟩ ∈ op.attributes) : p = q := by
  have heq := List.inj_on_of_nodup_map (h op hop) hp hq rfl
  exact congrArg Attribute.attrPayload heq

namespace Evaluation

variable {e : Evaluation}

/-! ### Preconditions -/

/-- The operation has an integer attribute for the precondition, which is the index of an operand
with the required tag. -/
def OperandMeets (e : Evaluation) (op : Operation) (precondition : SqlPolicyRulePrecondition) :
    Prop :=
  ∃ (i : ℕ) (x : AccessPath),
    ⟨precondition.preconditionName, .numberAttributePayload i⟩ ∈ op.attributes ∧
    op.operandList[i]? = some x ∧ e.MustHaveIntegrityTag x sqlActor precondition.requiredTag

theorem tagTransformHasRuleName_iff {op : Operation}
    (htransform : IsTagTransformOperation e.facts.isOperation op) (ruleName : Symbol) :
    TagTransformHasRuleName e.facts.isOperation op ruleName ↔
      ⟨ruleNameAttr, .stringAttributePayload ruleName⟩ ∈ op.attributes := by
  simp only [TagTransformHasRuleName, HasStringAttribute, operationHasAttribute_iff, htransform,
    htransform.1.1, true_and]

theorem preconditionMet_iff {op : Operation} (hop : op ∈ e.facts.isOperation)
    (precondition : SqlPolicyRulePrecondition) :
    PreconditionMet e op precondition ↔
      precondition.preconditionName ≠ ruleNameAttr ∧ OperandMeets e op precondition := by
  refine and_congr_right fun _ => ?_
  simp only [HasNumberAttribute, operationHasAttribute_iff, operationHasOperandAtIndex_iff, hop,
    true_and, OperandMeets]
  refine ⟨?_, ?_⟩
  · rintro ⟨operandIndex, path, hattr, ⟨i, rfl, hget⟩, hmust⟩
    exact ⟨i, path, hattr, hget, hmust⟩
  · rintro ⟨i, path, hattr, hget, hmust⟩
    exact ⟨i, path, hattr, ⟨i, rfl, hget⟩, hmust⟩

theorem AllTagTransformPreconditionsMet.names_rule {op : Operation}
    (h : e.AllTagTransformPreconditionsMet op) : ∃ rule ∈ e.facts.isSqlPolicyRule,
      TagTransformHasRuleName e.facts.isOperation op rule.policyRuleName := by
  obtain ⟨premises, hderive, -⟩ := (derivable_iff _).mp h
  cases hderive with
  | allPreconditions _ _ hname hlist _ =>
    obtain ⟨rule, hrule, rfl, -⟩ := hlist
    exact ⟨rule, hrule, hname⟩

/-- The preconditions of a tag transform are met exactly if it names a rule all of whose
preconditions are met by operands. -/
theorem allTagTransformPreconditionsMet_iff (hfile : .tagTransforms ∈ e.program)
    (hrules : DistinctRuleNames e.facts) (hattributes : UniqueAttributeNames e.facts)
    {op : Operation} (htransform : IsTagTransformOperation e.facts.isOperation op) :
    e.AllTagTransformPreconditionsMet op ↔ ∃ rule ∈ e.facts.isSqlPolicyRule,
      ⟨ruleNameAttr, .stringAttributePayload rule.policyRuleName⟩ ∈ op.attributes ∧
        ∀ precondition ∈ rule.preconditions, OperandMeets e op precondition := by
  have hop : op ∈ e.facts.isOperation := htransform.1.1
  have hiff : ∀ rule ∈ e.facts.isSqlPolicyRule,
      ⟨ruleNameAttr, .stringAttributePayload rule.policyRuleName⟩ ∈ op.attributes →
      (e.AllTagTransformPreconditionsMet op ↔
        ∀ precondition ∈ rule.preconditions, OperandMeets e op precondition) := by
    intro rule hrule hnamed
    have hname : ∀ ruleName, TagTransformHasRuleName e.facts.isOperation op ruleName ↔
        ruleName = rule.policyRuleName := by
      intro ruleName
      rw [tagTransformHasRuleName_iff htransform]
      refine ⟨?_, fun heq => heq ▸ hnamed⟩
      intro hattr
      have hpayload := hattributes.payload_eq hop hattr hnamed
      rwa [AttributePayload.stringAttributePayload.injEq] at hpayload
    rw [allPreconditionsMet_iff hrules hrule hname, and_iff_right hfile]
    refine forall₂_congr fun precondition _ => ?_
    rw [preconditionMet_iff hop]
    refine and_iff_right_of_imp ?_
    -- the attribute of this name holds the name of the rule
    rintro ⟨i, x, hattr, -⟩ heq
    rw [heq] at hattr
    cases hattributes.payload_eq hop hattr hnamed
  refine ⟨?_, ?_⟩
  · intro h
    obtain ⟨rule, hrule, hname⟩ := h.names_rule
    have hnamed := (tagTransformHasRuleName_iff htransform _).mp hname
    exact ⟨rule, hrule, hnamed, (hiff rule hrule hnamed).mp h⟩
  · rintro ⟨rule, hrule, hnamed, hall⟩
    exact (hiff rule hrule hnamed).mpr hall

/-- A transform whose rule asks twice for the tag of the operand that `p` names. -/
def repeatedTransform : Operation where
  actor := sqlActor
  operator := tagTransformOperator
  resultList := ["z"]
  operandList := ["x", "y"]
  attributes := [⟨ruleNameAttr, .stringAttributePayload "r"⟩, ⟨"p", .numberAttributePayload 1⟩]

def repeatedEvaluation : Evaluation where
  program := sqlPolicyVerifierInterface
  facts :=
    { isOperation := {repeatedTransform}
      isSqlPolicyRule := {⟨"r", .addIntegrityTag "h", [⟨"p", "g"⟩, ⟨"p", "g"⟩]⟩}
      hasAppliedIntegrityTag := {("y", sqlActor, "g")} }
  ord := symbolOrdinal
  ord_injective := symbolOrdinal_injective

theorem repeatedEvaluation_met :
    repeatedEvaluation.AllTagTransformPreconditionsMet repeatedTransform := by
  have htransform : IsTagTransformOperation repeatedEvaluation.facts.isOperation
      repeatedTransform :=
    ⟨⟨Finset.mem_singleton_self _, rfl⟩, ⟨Finset.mem_singleton_self _, rfl⟩⟩
  have hrules : DistinctRuleNames repeatedEvaluation.facts := by
    unfold DistinctRuleNames
    decide
  have hattributes : UniqueAttributeNames repeatedEvaluation.facts := by
    unfold UniqueAttributeNames
    decide
  refine (allTagTransformPreconditionsMet_iff (by decide) hrules hattributes htransform).mpr
    ⟨_, Finset.mem_singleton_self _, by decide, ?_⟩
  have hmeets : OperandMeets repeatedEvaluation repeatedTransform ⟨"p", "g"⟩ :=
    ⟨1, "y", by decide, rfl, .fact (.applied (Finset.mem_singleton_self _))⟩
  simpa using hmeets

/-! ### Merges with special rules -/

/-- The body of the union rule. -/
def UnionRuleGives (e : Evaluation) (mergeOp : Operation) (result : AccessPath)
    (owner : Principal) (tag : IntegrityTag) : Prop :=
  owner = sqlActor ∧ IsModifiedPropagationMergeOp e.facts mergeOp unionItagRuleName ∧
    OperationHasResult e.facts.isOperation mergeOp result ∧ ∃ operand,
      IsMergeOperationDirectInput e.facts mergeOp operand ∧
        e.MustHaveIntegrityTag operand sqlActor tag

/-- The body of the intersect rule, whose actor is any principal. -/
def IntersectRuleGives (e : Evaluation) (mergeOp : Operation) (result : AccessPath)
    (owner : Principal) (tag : IntegrityTag) : Prop :=
  IsModifiedPropagationMergeOp e.facts mergeOp intersectItagRuleName ∧ e.IsPrincipal owner ∧
    OperationHasResult e.facts.isOperation mergeOp result ∧ ∃ idx,
      Derivable (IntegrityRule e)
        (.mergeOperationHasIntegrityTagOnDirectOperandsUpToIndex mergeOp tag idx) ∧
      MergeOperationHasControlInputStartIndex e.facts mergeOp (idx + 1)

/-- A merge operation whose operands from index `k` on are control inputs, wrapped by a tag
transform with the given rule. -/
structure SpecialMerge (e : Evaluation) (mergeOp : Operation) (k : ℕ) (ruleName : Symbol) :
    Prop where
  file : .tagTransforms ∈ e.program
  wrapped : IsModifiedPropagationMergeOp e.facts mergeOp ruleName
  controlInputStartIndex : ∀ index,
    MergeOperationHasControlInputStartIndex e.facts mergeOp index ↔ index = k
  pos : 1 ≤ k
  le_length : k ≤ mergeOp.operandList.length

/-- Every operand at an index below `k` has the tag. -/
def DirectOperandsHave (e : Evaluation) (mergeOp : Operation) (k : ℕ) (owner : Principal)
    (tag : IntegrityTag) : Prop :=
  ∀ i < k, ∀ x, mergeOp.operandList[i]? = some x → e.MustHaveIntegrityTag x owner tag

namespace SpecialMerge

variable {mergeOp : Operation} {k : ℕ} {ruleName : Symbol}

theorem isMergeOp (h : SpecialMerge e mergeOp k ruleName) : IsMergeOp e.facts mergeOp := by
  obtain ⟨-, -, -, -, -, -, -, hmerge⟩ := h.wrapped
  exact hmerge

/-- Directness is a property of the value: it is at some index below `k`. -/
theorem isMergeOperationDirectInput_iff (h : SpecialMerge e mergeOp k ruleName)
    (x : AccessPath) : IsMergeOperationDirectInput e.facts mergeOp x ↔
      ∃ i < k, mergeOp.operandList[i]? = some x := by
  have hmerge := h.isMergeOp
  simp only [IsMergeOperationDirectInput, hmerge, true_and, h.controlInputStartIndex,
    operationHasOperandAtIndex_iff, hmerge.1]
  refine ⟨?_, ?_⟩
  · rintro ⟨_, _, ⟨i, rfl, hget⟩, rfl, hlt⟩
    exact ⟨i, Nat.cast_lt.mp hlt, hget⟩
  · rintro ⟨i, hlt, hget⟩
    exact ⟨i, k, ⟨i, rfl, hget⟩, rfl, Nat.cast_lt.mpr hlt⟩

theorem unionRuleGives_iff (h : SpecialMerge e mergeOp k unionItagRuleName)
    {result : AccessPath} (hresult : result ∈ mergeOp.resultList) (tag : IntegrityTag) :
    UnionRuleGives e mergeOp result sqlActor tag ↔
      ∃ i < k, ∃ x, mergeOp.operandList[i]? = some x ∧ e.MustHaveIntegrityTag x sqlActor tag := by
  simp only [UnionRuleGives, h.wrapped, operationHasResult_iff, h.isMergeOp.1, hresult,
    h.isMergeOperationDirectInput_iff, true_and]
  refine ⟨?_, ?_⟩
  · rintro ⟨x, ⟨i, hi, hget⟩, hmust⟩
    exact ⟨i, hi, x, hget, hmust⟩
  · rintro ⟨i, hi, x, hget, hmust⟩
    exact ⟨x, ⟨i, hi, hget⟩, hmust⟩

theorem directOperandsUpToLast_iff (h : SpecialMerge e mergeOp k ruleName)
    (tag : IntegrityTag) :
    Derivable (IntegrityRule e)
        (.mergeOperationHasIntegrityTagOnDirectOperandsUpToIndex mergeOp tag (k - 1)) ↔
      DirectOperandsHave e mergeOp k mergeOp.actor tag := by
  have hmerge := h.isMergeOp
  have hpos := h.pos
  simp only [directOperandsUpTo_iff, h.file, hmerge, true_and, h.isMergeOperationDirectInput_iff,
    operationHasOperandAtIndex_iff, hmerge.1]
  refine ⟨?_, ?_⟩
  · rintro ⟨last, hlast, hall⟩ i hi x hget
    obtain ⟨operand, ⟨j, hj, hoperand⟩, -, hmust⟩ := hall i (by omega)
    obtain rfl := Nat.cast_inj.mp hj
    rw [hget, Option.some.injEq] at hoperand
    exact hoperand ▸ hmust
  · intro hall
    refine ⟨k - 1, by omega, ?_⟩
    intro i hi
    have hlt : i < k := by omega
    have hget := List.getElem?_eq_getElem (hlt.trans_le h.le_length)
    exact ⟨_, ⟨i, rfl, hget⟩, ⟨i, hlt, hget⟩, hall i hlt _ hget⟩

/-- The intersect rule gives the tags of the merge's owner to every principal. -/
theorem intersectRuleGives_iff (h : SpecialMerge e mergeOp k intersectItagRuleName)
    {result : AccessPath} (hresult : result ∈ mergeOp.resultList) (owner : Principal)
    (tag : IntegrityTag) :
    IntersectRuleGives e mergeOp result owner tag ↔
      e.IsPrincipal owner ∧ DirectOperandsHave e mergeOp k mergeOp.actor tag := by
  have hindex : ∀ idx : ℤ, idx + 1 = k ↔ idx = k - 1 := by omega
  simp only [IntersectRuleGives, h.wrapped, operationHasResult_iff, h.isMergeOp.1, hresult,
    h.controlInputStartIndex, hindex, exists_eq_right, h.directOperandsUpToLast_iff, true_and]

end SpecialMerge

/-- The rules give a tag for the owner of the merge only, and exactly the tags of all or of some
direct operands, unless the intersect rule meets another principal and a tag of all direct
operands. -/
theorem mergeRules_iff {mergeOp : Operation} {k : ℕ} {ruleName : Symbol} {result : AccessPath}
    (h : SpecialMerge e mergeOp k ruleName) (hresult : result ∈ mergeOp.resultList) :
    ((ruleName = intersectItagRuleName → ∀ owner tag,
        IntersectRuleGives e mergeOp result owner tag ↔
          owner = mergeOp.actor ∧ DirectOperandsHave e mergeOp k mergeOp.actor tag) ∧
      (ruleName = unionItagRuleName → ∀ tag, UnionRuleGives e mergeOp result sqlActor tag ↔
        ∃ i < k, ∃ x, mergeOp.operandList[i]? = some x ∧
          e.MustHaveIntegrityTag x sqlActor tag)) ↔
    (ruleName = intersectItagRuleName →
      (∀ owner, e.IsPrincipal owner → owner = mergeOp.actor) ∨
        ¬ ∃ tag, DirectOperandsHave e mergeOp k mergeOp.actor tag) := by
  have hunion : ruleName = unionItagRuleName → ∀ tag,
      UnionRuleGives e mergeOp result sqlActor tag ↔ ∃ i < k, ∃ x,
        mergeOp.operandList[i]? = some x ∧ e.MustHaveIntegrityTag x sqlActor tag := by
    rintro rfl tag
    exact h.unionRuleGives_iff hresult tag
  rw [and_iff_left hunion]
  refine imp_congr_right ?_
  rintro rfl
  have hactor : e.IsPrincipal mergeOp.actor := .fact (.actor h.isMergeOp.1)
  simp only [h.intersectRuleGives_iff hresult]
  refine ⟨?_, ?_⟩
  · intro hgives
    by_contra hcontra
    rw [not_or, not_not] at hcontra
    obtain ⟨hother, tag, hall⟩ := hcontra
    exact hother fun owner howner => ((hgives owner tag).mp ⟨howner, hall⟩).1
  · rintro hcondition owner tag
    refine and_congr_left fun hall => ⟨?_, fun heq => heq ▸ hactor⟩
    rcases hcondition with honly | hnone
    · exact honly owner
    · exact absurd ⟨tag, hall⟩ hnone

/-- A merge of `x` with a control input `c`, and the transform that wraps it. -/
def controlledMerge : Operation where
  actor := sqlActor
  operator := mergeOperator
  resultList := ["m"]
  operandList := ["x", "c"]
  attributes := [⟨controlInputStartIndexNameAttr, .numberAttributePayload 1⟩]

def mergeWrapper (ruleName : Symbol) : Operation where
  actor := sqlActor
  operator := tagTransformOperator
  resultList := ["t"]
  operandList := ["m"]
  attributes := [⟨ruleNameAttr, .stringAttributePayload ruleName⟩]

/-- The tag of `x` belongs to the owner of the merge; another principal owns a tag elsewhere. -/
def strangerEvaluation (ruleName : Symbol) : Evaluation where
  program := sqlPolicyVerifierInterface
  facts :=
    { isOperation := {controlledMerge, mergeWrapper ruleName}
      hasAppliedIntegrityTag := {("x", sqlActor, "g"), ("y", "stranger", "h")} }
  ord := symbolOrdinal
  ord_injective := symbolOrdinal_injective

theorem strangerEvaluation_specialMerge {ruleName : Symbol}
    (hspecial : IsSpecialITagPropagationRule ruleName) :
    SpecialMerge (strangerEvaluation ruleName) controlledMerge 1 ruleName := by
  have hmerge : controlledMerge ∈ (strangerEvaluation ruleName).facts.isOperation :=
    Finset.mem_insert_self ..
  have hwrapper : mergeWrapper ruleName ∈ (strangerEvaluation ruleName).facts.isOperation :=
    Finset.mem_insert_of_mem (Finset.mem_singleton_self _)
  have hfile : .tagTransforms ∈ sqlPolicyVerifierInterface := by decide
  refine ⟨hfile, ?_, ?_, Nat.le_refl 1, by decide⟩
  · refine ⟨mergeWrapper ruleName, "m", ⟨⟨hwrapper, rfl⟩, ⟨hwrapper, rfl⟩⟩,
      ⟨⟨⟨hwrapper, rfl⟩, ⟨hwrapper, rfl⟩⟩, ?_⟩, hspecial, ?_, ?_, ⟨hmerge, rfl⟩⟩
    · exact (operationHasAttribute_iff _ _).mpr ⟨hwrapper, List.mem_singleton_self _⟩
    · exact (operationHasOperandAtIndex_iff _ _ _).mpr ⟨hwrapper, 0, rfl, rfl⟩
    · exact (operationHasResult_iff _ _).mpr ⟨hmerge, List.mem_singleton_self _⟩
  · intro index
    have hisMerge : IsMergeOp (strangerEvaluation ruleName).facts controlledMerge := ⟨hmerge, rfl⟩
    have hattr : ∀ attr, attr ∈ controlledMerge.attributes ↔
        attr = ⟨controlInputStartIndexNameAttr, .numberAttributePayload 1⟩ := by
      simp [controlledMerge]
    simp [MergeOperationHasControlInputStartIndex, hisMerge, HasNumberAttribute, hmerge, hattr]

theorem strangerEvaluation_union :
    UnionRuleGives (strangerEvaluation unionItagRuleName) controlledMerge "m" sqlActor "g" := by
  have hspecial := strangerEvaluation_specialMerge (.inr rfl)
  have hrules := (mergeRules_iff hspecial (List.mem_singleton_self "m")).mpr
    fun h => absurd h (by decide)
  exact (hrules.2 rfl "g").mpr
    ⟨0, Nat.one_pos, "x", rfl, .fact (.applied (Finset.mem_insert_self ..))⟩

/-- The intersect rule gives the stranger the tag of the owner of the merge. -/
theorem strangerEvaluation_intersect : ¬ ∀ (e : Evaluation) mergeOp k result,
    SpecialMerge e mergeOp k intersectItagRuleName → result ∈ mergeOp.resultList →
      ∀ owner tag, IntersectRuleGives e mergeOp result owner tag ↔
        owner = mergeOp.actor ∧ DirectOperandsHave e mergeOp k mergeOp.actor tag := by
  intro hclaim
  have hspecial := strangerEvaluation_specialMerge (.inl rfl)
  have hresult : "m" ∈ controlledMerge.resultList := List.mem_singleton_self _
  have hstranger : (strangerEvaluation intersectItagRuleName).IsPrincipal "stranger" :=
    .fact (.appliedIntegrityTag (Finset.mem_insert_of_mem (Finset.mem_singleton_self _)))
  have hall : DirectOperandsHave (strangerEvaluation intersectItagRuleName) controlledMerge 1
      controlledMerge.actor "g" := by
    intro i hi x hget
    obtain rfl : i = 0 := by omega
    cases hget
    exact .fact (.applied (Finset.mem_insert_self ..))
  have hgives := (hspecial.intersectRuleGives_iff hresult _ _).mpr ⟨hstranger, hall⟩
  have howner := ((hclaim _ _ _ _ hspecial hresult _ _).mp hgives).1
  exact absurd howner (by decide)

end Evaluation

end Raksha.Souffle
