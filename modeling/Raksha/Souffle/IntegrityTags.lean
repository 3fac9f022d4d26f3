import Raksha.Souffle.ResolvedEdges

/-!
# Integrity tags

The relation `mustHaveIntegrityTag` of `taint.dl`, with the preconditions of tag transforms and
the merge rules of `tag_transforms.dl`, which depend on it and which it depends on.
-/

namespace Raksha.Souffle
open Datalog

/-! ### Policy rules -/

section

variable (facts : Facts)

def SqlPolicyRuleNameHasPreconditionList (policyRuleName : Symbol)
    (preconditions : List SqlPolicyRulePrecondition) : Prop :=
  ∃ rule ∈ facts.isSqlPolicyRule, rule.policyRuleName = policyRuleName ∧
    rule.preconditions = preconditions

abbrev SqlPolicyRuleNameHasPreconditionListSuffix :
    Symbol → List SqlPolicyRulePrecondition → Prop :=
  HasSuffix (SqlPolicyRuleNameHasPreconditionList facts)

abbrev PolicyRulePreconditionListLength : List SqlPolicyRulePrecondition → ℤ → Prop :=
  ListLength (SqlPolicyRuleNameHasPreconditionListSuffix facts)

def SqlPolicyRuleNameHasPreconditionAtIndex (policyRuleName : Symbol)
    (precondition : SqlPolicyRulePrecondition) (index : ℤ) : Prop :=
  ∃ tail suffixLen,
    SqlPolicyRuleNameHasPreconditionListSuffix facts policyRuleName (precondition :: tail) ∧
    PolicyRulePreconditionListLength facts (precondition :: tail) suffixLen ∧
    index = suffixLen - 1

def SqlPolicyRuleNameHasResult (policyRuleName : Symbol) (result : SqlPolicyRuleResult) : Prop :=
  ∃ rule ∈ facts.isSqlPolicyRule, rule.policyRuleName = policyRuleName ∧ rule.result = result

def TagTransformHasIndexedTagPrecondition (op : Operation) (index : ℤ) (path : AccessPath)
    (requiredTag : IntegrityTag) : Prop :=
  IsTagTransformOperation facts.isOperation op ∧ ∃ ruleName preconditionName operandIndex,
    TagTransformHasRuleName facts.isOperation op ruleName ∧
    HasNumberAttribute facts.isOperation op preconditionName operandIndex ∧
    preconditionName ≠ ruleNameAttr ∧
    OperationHasOperandAtIndex facts.isOperation op path operandIndex ∧
    SqlPolicyRuleNameHasPreconditionAtIndex facts ruleName ⟨preconditionName, requiredTag⟩ index

/-! ### Merge operations -/

def IsSpecialITagPropagationRule (ruleName : Symbol) : Prop :=
  ruleName = intersectItagRuleName ∨ ruleName = unionItagRuleName

def IsMergeOp (mergeOp : Operation) : Prop :=
  OperationHasOperator facts.isOperation mergeOp mergeOperator

def IsModifiedPropagationMergeOp (mergeOp : Operation) (ruleName : Symbol) : Prop :=
  ∃ tagTransformOp transformedInput,
    IsTagTransformOperation facts.isOperation tagTransformOp ∧
    TagTransformHasRuleName facts.isOperation tagTransformOp ruleName ∧
    IsSpecialITagPropagationRule ruleName ∧
    OperationHasOperandAtIndex facts.isOperation tagTransformOp transformedInput 0 ∧
    OperationHasResult facts.isOperation mergeOp transformedInput ∧ IsMergeOp facts mergeOp

def MergeOperationHasControlInputStartIndex (mergeOp : Operation) (index : ℤ) : Prop :=
  IsMergeOp facts mergeOp ∧
    HasNumberAttribute facts.isOperation mergeOp controlInputStartIndexNameAttr index

def IsMergeOperationDirectInput (mergeOp : Operation) (inputPath : AccessPath) : Prop :=
  IsMergeOp facts mergeOp ∧ ∃ idx controlStartIdx,
    OperationHasOperandAtIndex facts.isOperation mergeOp inputPath idx ∧
    MergeOperationHasControlInputStartIndex facts mergeOp controlStartIdx ∧
    idx < controlStartIdx

end

/-- `isIntegrityTag`. -/
inductive IsIntegrityTag (program : Program) (facts : Facts) : IntegrityTag → Prop
  | applied {path : AccessPath} {owner : Principal} {tag : IntegrityTag} :
      (path, owner, tag) ∈ facts.hasAppliedIntegrityTag → IsIntegrityTag program facts tag
  | added {ruleName : Symbol} {tag : IntegrityTag} : .tagTransforms ∈ program →
      SqlPolicyRuleNameHasResult facts ruleName (.addIntegrityTag tag) →
      IsIntegrityTag program facts tag

inductive IntegrityAtom
  | predecessorsUpToOrderNumHaveIntegrityTag (path : AccessPath) (owner : Principal)
      (tag : IntegrityTag) (orderNum : ℕ)
  | mustHaveIntegrityTag (path : AccessPath) (owner : Principal) (tag : IntegrityTag)
  | allTagTransformPreconditionsLessThanIndexMet (tagTransform : Operation) (index : ℤ)
  | allTagTransformPreconditionsMet (tagTransform : Operation)
  | mergeOperationHasIntegrityTagOnDirectOperandsUpToIndex (mergeOp : Operation)
      (tag : IntegrityTag) (index : ℤ)

open IntegrityAtom in
inductive IntegrityRule (e : Evaluation) : RuleSet IntegrityAtom
  -- taint.dl
  | firstPredecessor {ap pred : AccessPath} {owner : Principal} {tag : IntegrityTag} :
      e.OrderedPredecessors ap owner pred 0 →
      IntegrityRule e (predecessorsUpToOrderNumHaveIntegrityTag ap owner tag 0)
        [mustHaveIntegrityTag pred owner tag]
  | nextPredecessor {ap pred : AccessPath} {owner : Principal} {tag : IntegrityTag}
      {ordNum : ℕ} : e.OrderedPredecessors ap owner pred (ordNum + 1) →
      IntegrityRule e (predecessorsUpToOrderNumHaveIntegrityTag ap owner tag (ordNum + 1))
        [predecessorsUpToOrderNumHaveIntegrityTag ap owner tag ordNum,
          mustHaveIntegrityTag pred owner tag]
  | applied {ap : AccessPath} {owner : Principal} {tag : IntegrityTag} :
      (ap, owner, tag) ∈ e.facts.hasAppliedIntegrityTag →
      IntegrityRule e (mustHaveIntegrityTag ap owner tag) []
  | propagated {ap : AccessPath} {owner : Principal} {tag : IntegrityTag} {numPreds : ℕ} :
      e.IsAccessPath ap → IsIntegrityTag e.program e.facts tag → e.IsPrincipal owner →
      e.NumPredecessors ap owner numPreds → numPreds > 0 →
      (ap, owner, tag) ∉ e.facts.removeIntegrityTag →
      IntegrityRule e (mustHaveIntegrityTag ap owner tag)
        [predecessorsUpToOrderNumHaveIntegrityTag ap owner tag (numPreds - 1)]
  -- tag_transforms.dl
  | noPrecondition {op : Operation} : .tagTransforms ∈ e.program →
      IsTagTransformOperation e.facts.isOperation op →
      IntegrityRule e (allTagTransformPreconditionsLessThanIndexMet op 0) []
  | nextPrecondition {op : Operation} {idx : ℤ} {path : AccessPath} {tag : IntegrityTag} :
      .tagTransforms ∈ e.program → IsTagTransformOperation e.facts.isOperation op →
      TagTransformHasIndexedTagPrecondition e.facts op idx path tag →
      IntegrityRule e (allTagTransformPreconditionsLessThanIndexMet op (idx + 1))
        [mustHaveIntegrityTag path sqlActor tag,
          allTagTransformPreconditionsLessThanIndexMet op idx]
  | allPreconditions {op : Operation} {ruleName : Symbol}
      {preconditions : List SqlPolicyRulePrecondition} {length : ℤ} :
      .tagTransforms ∈ e.program → IsTagTransformOperation e.facts.isOperation op →
      TagTransformHasRuleName e.facts.isOperation op ruleName →
      SqlPolicyRuleNameHasPreconditionList e.facts ruleName preconditions →
      PolicyRulePreconditionListLength e.facts preconditions length →
      IntegrityRule e (allTagTransformPreconditionsMet op)
        [allTagTransformPreconditionsLessThanIndexMet op length]
  | addIntegrityTag {op : Operation} {result : AccessPath} {ruleName : Symbol}
      {tag : IntegrityTag} : .tagTransforms ∈ e.program →
      IsTagTransformOperation e.facts.isOperation op →
      OperationHasResult e.facts.isOperation op result →
      TagTransformHasRuleName e.facts.isOperation op ruleName →
      SqlPolicyRuleNameHasResult e.facts ruleName (.addIntegrityTag tag) →
      IntegrityRule e (mustHaveIntegrityTag result sqlActor tag)
        [allTagTransformPreconditionsMet op]
  | union {mergeOp : Operation} {result operand : AccessPath} {tag : IntegrityTag} :
      .tagTransforms ∈ e.program →
      IsModifiedPropagationMergeOp e.facts mergeOp unionItagRuleName →
      OperationHasResult e.facts.isOperation mergeOp result →
      IsMergeOperationDirectInput e.facts mergeOp operand →
      IntegrityRule e (mustHaveIntegrityTag result sqlActor tag)
        [mustHaveIntegrityTag operand sqlActor tag]
  | firstDirectOperand {mergeOp : Operation} {operand : AccessPath} {actor : Principal}
      {tag : IntegrityTag} : .tagTransforms ∈ e.program → IsMergeOp e.facts mergeOp →
      OperationHasOperandAtIndex e.facts.isOperation mergeOp operand 0 →
      IsMergeOperationDirectInput e.facts mergeOp operand →
      OperationHasActor e.facts.isOperation mergeOp actor →
      IntegrityRule e (mergeOperationHasIntegrityTagOnDirectOperandsUpToIndex mergeOp tag 0)
        [mustHaveIntegrityTag operand actor tag]
  | nextDirectOperand {mergeOp : Operation} {operand : AccessPath} {actor : Principal}
      {tag : IntegrityTag} {idx : ℤ} : .tagTransforms ∈ e.program → IsMergeOp e.facts mergeOp →
      OperationHasOperandAtIndex e.facts.isOperation mergeOp operand (idx + 1) →
      IsMergeOperationDirectInput e.facts mergeOp operand →
      OperationHasActor e.facts.isOperation mergeOp actor →
      IntegrityRule e
        (mergeOperationHasIntegrityTagOnDirectOperandsUpToIndex mergeOp tag (idx + 1))
        [mergeOperationHasIntegrityTagOnDirectOperandsUpToIndex mergeOp tag idx,
          mustHaveIntegrityTag operand actor tag]
  | intersect {mergeOp : Operation} {result : AccessPath} {actor : Principal}
      {tag : IntegrityTag} {idx : ℤ} : .tagTransforms ∈ e.program →
      IsModifiedPropagationMergeOp e.facts mergeOp intersectItagRuleName →
      e.IsPrincipal actor → OperationHasResult e.facts.isOperation mergeOp result →
      MergeOperationHasControlInputStartIndex e.facts mergeOp (idx + 1) →
      IntegrityRule e (mustHaveIntegrityTag result actor tag)
        [mergeOperationHasIntegrityTagOnDirectOperandsUpToIndex mergeOp tag idx]

namespace Evaluation

variable (e : Evaluation)

def MustHaveIntegrityTag (ap : AccessPath) (owner : Principal) (tag : IntegrityTag) : Prop :=
  Derivable (IntegrityRule e) (.mustHaveIntegrityTag ap owner tag)

def AllTagTransformPreconditionsMet (op : Operation) : Prop :=
  Derivable (IntegrityRule e) (.allTagTransformPreconditionsMet op)

variable {e}

/-! ### All predecessors -/

theorem OrderedPredecessors.unique {ap p q : AccessPath} {owner : Principal} {m : ℕ}
    (hp : e.OrderedPredecessors ap owner p m) (hq : e.OrderedPredecessors ap owner q m) :
    p = q :=
  ((orderedPredecessors_iff _ _ _ _).mp hp).unique e.ord_injective
    ((orderedPredecessors_iff _ _ _ _).mp hq)

/-- The numbers below the number of predecessors are those of all predecessors. -/
theorem NumPredecessors.covers {ap pred : AccessPath} {owner : Principal} {numPreds : ℕ}
    (h : e.NumPredecessors ap owner numPreds) (hedge : e.ResolvedEdge owner pred ap) :
    ∃ m ≤ numPreds - 1, e.OrderedPredecessors ap owner pred m := by
  obtain ⟨src, maxOrd, -, hmax, rfl⟩ := h
  simp only [orderedPredecessors_iff] at hmax ⊢
  rw [Nat.add_sub_cancel]
  exact (OrderedEnumeration.mem_iff_numbered_le (predecessors_finite ap owner) hmax pred).mp hedge

theorem predecessorsUpTo_iff (ap : AccessPath) (owner : Principal) (tag : IntegrityTag)
    (n : ℕ) : Derivable (IntegrityRule e)
        (.predecessorsUpToOrderNumHaveIntegrityTag ap owner tag n) ↔
      (∃ pred, e.OrderedPredecessors ap owner pred n) ∧ ∀ m ≤ n, ∀ pred,
        e.OrderedPredecessors ap owner pred m → e.MustHaveIntegrityTag pred owner tag := by
  induction n with
  | zero =>
    constructor
    · intro h
      obtain ⟨premises, hrule, hpremises⟩ := (derivable_iff _).mp h
      cases hrule with
      | firstPredecessor hpred =>
        refine ⟨⟨_, hpred⟩, ?_⟩
        intro m hm pred hpred'
        cases Nat.le_zero.mp hm
        rw [hpred'.unique hpred]
        exact hpremises _ (List.mem_singleton.mpr rfl)
    · rintro ⟨⟨pred, hpred⟩, hall⟩
      exact .step (.firstPredecessor hpred) (hall 0 (Nat.le_refl 0) pred hpred)
  | succ n ih =>
    constructor
    · intro h
      obtain ⟨premises, hrule, hpremises⟩ := (derivable_iff _).mp h
      cases hrule with
      | nextPredecessor hpred =>
        rw [List.forall_mem_cons, List.forall_mem_singleton] at hpremises
        obtain ⟨-, hall⟩ := ih.mp hpremises.1
        refine ⟨⟨_, hpred⟩, ?_⟩
        intro m hm pred hpred'
        rcases Nat.lt_or_ge n m with hlt | hle
        · have heq : m = n + 1 := by omega
          subst heq
          rw [hpred'.unique hpred]
          exact hpremises.2
        · exact hall m hle pred hpred'
    · rintro ⟨⟨pred, hpred⟩, hall⟩
      have hprev : ∃ p, e.OrderedPredecessors ap owner p n := by
        cases hpred with
        | next hprev _ _ => exact ⟨_, hprev⟩
      refine .step₂ (.nextPredecessor hpred) (ih.mpr ⟨hprev, ?_⟩)
        (hall (n + 1) (Nat.le_refl _) pred hpred)
      intro m hm
      exact hall m (by omega)

theorem allPredecessors_iff (ap : AccessPath) (owner : Principal) (tag : IntegrityTag) :
    (∃ numPreds, e.NumPredecessors ap owner numPreds ∧ numPreds > 0 ∧
      Derivable (IntegrityRule e)
        (.predecessorsUpToOrderNumHaveIntegrityTag ap owner tag (numPreds - 1))) ↔
      (∃ pred, e.ResolvedEdge owner pred ap) ∧
        ∀ pred, e.ResolvedEdge owner pred ap → e.MustHaveIntegrityTag pred owner tag := by
  have hfin := predecessors_finite (e := e) ap owner
  have hset : {n | ∃ src, e.OrderedPredecessors ap owner src n} =
      {n | ∃ src, OrderedEnumeration.Numbered e.ord (e.predecessors ap owner) src n} := by
    ext n
    simp only [orderedPredecessors_iff]
  constructor
  · rintro ⟨numPreds, hnum, -, hall⟩
    obtain ⟨src, maxOrd, hsrc, -, -⟩ := id hnum
    refine ⟨⟨src, ((orderedPredecessors_iff _ _ _ _).mp hsrc).mem⟩, ?_⟩
    intro pred hpred
    obtain ⟨m, hm, hordered⟩ := hnum.covers hpred
    exact ((predecessorsUpTo_iff _ _ _ _).mp hall).2 m hm pred hordered
  · rintro ⟨⟨pred, hpred⟩, hall⟩
    obtain ⟨n, hn⟩ := OrderedEnumeration.exists_isGreatest hfin e.ord_injective ⟨pred, hpred⟩
    obtain ⟨src, hsrc⟩ := hn.1
    have hsrc := (orderedPredecessors_iff _ _ _ _).mpr hsrc
    refine ⟨n + 1, ⟨src, n, hsrc, hset ▸ hn, rfl⟩, Nat.succ_pos n, ?_⟩
    rw [Nat.add_sub_cancel, predecessorsUpTo_iff]
    refine ⟨⟨src, hsrc⟩, ?_⟩
    intro m _ p hp
    exact hall p ((orderedPredecessors_iff _ _ _ _).mp hp).mem

/-! ### All preconditions -/

/-- Index `i` of the rules counts from the end of the precondition list. -/
theorem preconditionAtIndex_iff (facts : Facts) (ruleName : Symbol)
    (precondition : SqlPolicyRulePrecondition) (index : ℤ) :
    SqlPolicyRuleNameHasPreconditionAtIndex facts ruleName precondition index ↔
      ∃ rule ∈ facts.isSqlPolicyRule, rule.policyRuleName = ruleName ∧ ∃ i : ℕ, index = i ∧
        rule.preconditions.reverse[i]? = some precondition := by
  constructor
  · rintro ⟨tail, suffixLen, hsuffix, hlen, rfl⟩
    obtain ⟨l, ⟨rule, hrule, hname, rfl⟩, before, happend⟩ := (hasSuffix_iff _ _).mp hsuffix
    refine ⟨rule, hrule, hname, tail.length, ?_, ?_⟩
    · rw [hlen.eq_length, List.length_cons]
      omega
    · rw [← happend, List.reverse_append, List.reverse_cons, List.append_assoc,
        List.getElem?_append_right (by simp)]
      simp
  · rintro ⟨rule, hrule, hname, i, rfl, hget⟩
    obtain ⟨hi, -⟩ := List.getElem?_eq_some_iff.mp hget
    rw [List.length_reverse] at hi
    rw [List.getElem?_reverse hi] at hget
    obtain ⟨hsuffix, hindex⟩ := suffix_of_getElem? hget
    have hhas : SqlPolicyRuleNameHasPreconditionListSuffix facts ruleName (precondition :: _) :=
      (hasSuffix_iff ruleName _).mpr ⟨_, ⟨rule, hrule, hname, rfl⟩, hsuffix⟩
    refine ⟨_, _, hhas, listLength_of_suffix hhas, ?_⟩
    simp only [List.length_cons, List.length_drop] at hindex ⊢
    omega

theorem lessThanIndexMet_iff (op : Operation) (n : ℤ) :
    Derivable (IntegrityRule e) (.allTagTransformPreconditionsLessThanIndexMet op n) ↔
      .tagTransforms ∈ e.program ∧ IsTagTransformOperation e.facts.isOperation op ∧
      ∃ k : ℕ, n = k ∧ ∀ i < k, ∃ path tag,
        TagTransformHasIndexedTagPrecondition e.facts op i path tag ∧
        e.MustHaveIntegrityTag path sqlActor tag := by
  constructor
  · intro h
    generalize hatom : IntegrityAtom.allTagTransformPreconditionsLessThanIndexMet op n = atom at h
    induction h generalizing n with
    | intro hrule hpremises ih =>
      subst hatom
      cases hrule with
      | noPrecondition hfile htransform =>
        exact ⟨hfile, htransform, 0, rfl, fun i hi => absurd hi (Nat.not_lt_zero i)⟩
      | @nextPrecondition _ idx path tag hfile htransform hindexed =>
        rw [List.forall_mem_cons, List.forall_mem_singleton] at hpremises ih
        obtain ⟨-, -, k, rfl, hall⟩ := ih.2 _ rfl
        refine ⟨hfile, htransform, k + 1, by simp, ?_⟩
        intro i hi
        rcases Nat.lt_or_ge i k with hlt | hge
        · exact hall i hlt
        · have heq : i = k := by omega
          subst heq
          exact ⟨path, tag, hindexed, hpremises.1⟩
  · rintro ⟨hfile, htransform, k, rfl, hall⟩
    induction k with
    | zero => exact .fact (.noPrecondition hfile htransform)
    | succ k ih =>
      obtain ⟨path, tag, hindexed, hmust⟩ := hall k (Nat.lt_succ_self k)
      have hprev := ih fun i hi => hall i (by omega)
      rw [Nat.cast_add, Nat.cast_one]
      exact .step₂ (.nextPrecondition hfile htransform hindexed) hmust hprev

/-- The operand that the operation names for the precondition has the required tag. -/
def PreconditionMet (e : Evaluation) (op : Operation)
    (precondition : SqlPolicyRulePrecondition) : Prop :=
  precondition.preconditionName ≠ ruleNameAttr ∧ ∃ operandIndex path,
    HasNumberAttribute e.facts.isOperation op precondition.preconditionName operandIndex ∧
    OperationHasOperandAtIndex e.facts.isOperation op path operandIndex ∧
    e.MustHaveIntegrityTag path sqlActor precondition.requiredTag

def DistinctRuleNames (facts : Facts) : Prop :=
  ∀ rule ∈ facts.isSqlPolicyRule, ∀ rule' ∈ facts.isSqlPolicyRule,
    rule.policyRuleName = rule'.policyRuleName → rule = rule'

theorem indexedTagPrecondition_iff (hrules : DistinctRuleNames e.facts) {op : Operation}
    {rule : SqlPolicyRule} (hrule : rule ∈ e.facts.isSqlPolicyRule)
    (hname : ∀ ruleName, TagTransformHasRuleName e.facts.isOperation op ruleName ↔
      ruleName = rule.policyRuleName) (i : ℕ) (path : Symbol) (tag : Tag) :
    TagTransformHasIndexedTagPrecondition e.facts op i path tag ↔
      ∃ name operandIndex, rule.preconditions.reverse[i]? = some ⟨name, tag⟩ ∧
        name ≠ ruleNameAttr ∧ HasNumberAttribute e.facts.isOperation op name operandIndex ∧
        OperationHasOperandAtIndex e.facts.isOperation op path operandIndex := by
  constructor
  · rintro ⟨-, ruleName, name, operandIndex, hrn, hattr, hne, hoperand, hat⟩
    obtain ⟨rule', hrule', hname', j, hj, hget⟩ := (preconditionAtIndex_iff _ _ _ _).mp hat
    have heq : rule' = rule :=
      hrules rule' hrule' rule hrule (hname'.trans ((hname _).mp hrn))
    rw [Nat.cast_inj.mp hj, ← heq]
    exact ⟨name, operandIndex, hget, hne, hattr, hoperand⟩
  · rintro ⟨name, operandIndex, hget, hne, hattr, hoperand⟩
    have hthis := (hname _).mpr rfl
    exact ⟨hthis.1, _, name, operandIndex, hthis, hattr, hne, hoperand,
      (preconditionAtIndex_iff _ _ _ _).mpr ⟨rule, hrule, rfl, i, rfl, hget⟩⟩

theorem allPreconditionsMet_iff (hrules : DistinctRuleNames e.facts) {op : Operation}
    {rule : SqlPolicyRule} (hrule : rule ∈ e.facts.isSqlPolicyRule)
    (hname : ∀ ruleName, TagTransformHasRuleName e.facts.isOperation op ruleName ↔
      ruleName = rule.policyRuleName) :
    e.AllTagTransformPreconditionsMet op ↔
      .tagTransforms ∈ e.program ∧ ∀ p ∈ rule.preconditions, PreconditionMet e op p := by
  have hthis := (hname _).mpr rfl
  have hlength : PolicyRulePreconditionListLength e.facts rule.preconditions
      rule.preconditions.length :=
    listLength_of_suffix (o := rule.policyRuleName) (.list ⟨rule, hrule, rfl, rfl⟩)
  have hindexed := indexedTagPrecondition_iff hrules hrule hname
  constructor
  · intro h
    obtain ⟨premises, hderive, hpremises⟩ := (derivable_iff _).mp h
    cases hderive with
    | @allPreconditions _ ruleName preconditions length hfile _ hrn hlist hlen =>
      rw [List.forall_mem_singleton] at hpremises
      obtain ⟨-, -, k, hk, hall⟩ := (lessThanIndexMet_iff op length).mp hpremises
      obtain ⟨rule', hrule', hname', rfl⟩ := hlist
      have heq : rule' = rule :=
        hrules rule' hrule' rule hrule (hname'.trans ((hname _).mp hrn))
      subst heq
      have hcount : k = rule'.preconditions.length := by
        rw [hlen.eq_length] at hk
        omega
      refine ⟨hfile, ?_⟩
      intro p hp
      obtain ⟨i, hget⟩ := List.mem_iff_getElem?.mp (List.mem_reverse.mpr hp)
      have hi : i < k := by
        obtain ⟨hlt, -⟩ := List.getElem?_eq_some_iff.mp hget
        rw [List.length_reverse] at hlt
        omega
      obtain ⟨path, tag, hat, hmust⟩ := hall i hi
      obtain ⟨name, operandIndex, hget', hne, hattr, hoperand⟩ := (hindexed i path tag).mp hat
      rw [hget] at hget'
      cases hget'
      exact ⟨hne, operandIndex, path, hattr, hoperand, hmust⟩
  · rintro ⟨hfile, hall⟩
    refine .step (.allPreconditions hfile hthis.1 hthis ⟨rule, hrule, rfl, rfl⟩ hlength) ?_
    refine (lessThanIndexMet_iff op _).mpr ⟨hfile, hthis.1, _, rfl, ?_⟩
    intro i hi
    have hlt : i < rule.preconditions.reverse.length := by rwa [List.length_reverse]
    obtain ⟨p, hget⟩ : ∃ p, rule.preconditions.reverse[i]? = some p :=
      ⟨_, List.getElem?_eq_getElem hlt⟩
    obtain ⟨hne, operandIndex, path, hattr, hoperand, hmust⟩ :=
      hall p (List.mem_reverse.mp (List.mem_of_getElem? hget))
    exact ⟨path, p.requiredTag,
      (hindexed i path _).mpr ⟨p.preconditionName, operandIndex, hget, hne, hattr, hoperand⟩, hmust⟩

/-! ### All direct operands of a merge -/

theorem directOperandsUpTo_iff (mergeOp : Operation) (tag : IntegrityTag) (n : ℤ) :
    Derivable (IntegrityRule e)
        (.mergeOperationHasIntegrityTagOnDirectOperandsUpToIndex mergeOp tag n) ↔
      .tagTransforms ∈ e.program ∧ IsMergeOp e.facts mergeOp ∧ ∃ k : ℕ, n = k ∧ ∀ i ≤ k,
        ∃ operand, OperationHasOperandAtIndex e.facts.isOperation mergeOp operand i ∧
          IsMergeOperationDirectInput e.facts mergeOp operand ∧
          e.MustHaveIntegrityTag operand mergeOp.actor tag := by
  constructor
  · intro h
    generalize hatom :
      IntegrityAtom.mergeOperationHasIntegrityTagOnDirectOperandsUpToIndex mergeOp tag n = atom at h
    induction h generalizing n with
    | intro hrule hpremises ih =>
      subst hatom
      cases hrule with
      | @firstDirectOperand _ operand _ _ hfile hmerge hoperand hdirect hactor =>
        rw [List.forall_mem_singleton, ← hactor.2] at hpremises
        refine ⟨hfile, hmerge, 0, rfl, ?_⟩
        intro i hi
        cases Nat.le_zero.mp hi
        exact ⟨operand, hoperand, hdirect, hpremises⟩
      | @nextDirectOperand _ operand _ _ idx hfile hmerge hoperand hdirect hactor =>
        rw [List.forall_mem_cons, List.forall_mem_singleton] at hpremises ih
        obtain ⟨-, -, k, rfl, hall⟩ := ih.1 _ rfl
        refine ⟨hfile, hmerge, k + 1, by simp, ?_⟩
        intro i hi
        rcases Nat.lt_or_ge k i with hlt | hge
        · have heq : i = k + 1 := by omega
          subst heq
          have hlast := hpremises.2
          rw [← hactor.2] at hlast
          exact ⟨operand, by simpa using hoperand, hdirect, hlast⟩
        · exact hall i hge
  · rintro ⟨hfile, hmerge, k, rfl, hall⟩
    have hactor : OperationHasActor e.facts.isOperation mergeOp mergeOp.actor := ⟨hmerge.1, rfl⟩
    induction k with
    | zero =>
      obtain ⟨operand, hoperand, hdirect, hmust⟩ := hall 0 (Nat.le_refl 0)
      exact .step (.firstDirectOperand hfile hmerge hoperand hdirect hactor) hmust
    | succ k ih =>
      obtain ⟨operand, hoperand, hdirect, hmust⟩ := hall (k + 1) (Nat.le_refl _)
      have hprev := ih fun i hi => hall i (by omega)
      rw [Nat.cast_add, Nat.cast_one] at hoperand ⊢
      exact .step₂ (.nextDirectOperand hfile hmerge hoperand hdirect hactor) hprev hmust

/-! ### Where an integrity tag comes from -/

/-- The ways in which an access path gets an integrity tag, in one step. -/
inductive IntegritySource (e : Evaluation) (ap : AccessPath) (owner : Principal)
    (tag : IntegrityTag) : Prop
  | applied : (ap, owner, tag) ∈ e.facts.hasAppliedIntegrityTag → IntegritySource e ap owner tag
  | propagated : IsIntegrityTag e.program e.facts tag → e.IsPrincipal owner →
      (∃ pred, e.ResolvedEdge owner pred ap) →
      (∀ pred, e.ResolvedEdge owner pred ap → e.MustHaveIntegrityTag pred owner tag) →
      (ap, owner, tag) ∉ e.facts.removeIntegrityTag → IntegritySource e ap owner tag
  | addIntegrityTag {op : Operation} {ruleName : Symbol} : .tagTransforms ∈ e.program →
      owner = sqlActor → OperationHasResult e.facts.isOperation op ap →
      TagTransformHasRuleName e.facts.isOperation op ruleName →
      SqlPolicyRuleNameHasResult e.facts ruleName (.addIntegrityTag tag) →
      e.AllTagTransformPreconditionsMet op → IntegritySource e ap owner tag
  | union {mergeOp : Operation} {operand : AccessPath} : .tagTransforms ∈ e.program →
      owner = sqlActor → IsModifiedPropagationMergeOp e.facts mergeOp unionItagRuleName →
      OperationHasResult e.facts.isOperation mergeOp ap →
      IsMergeOperationDirectInput e.facts mergeOp operand →
      e.MustHaveIntegrityTag operand sqlActor tag → IntegritySource e ap owner tag
  | intersect {mergeOp : Operation} {k : ℕ} : .tagTransforms ∈ e.program →
      IsModifiedPropagationMergeOp e.facts mergeOp intersectItagRuleName →
      e.IsPrincipal owner → OperationHasResult e.facts.isOperation mergeOp ap →
      MergeOperationHasControlInputStartIndex e.facts mergeOp (k + 1) →
      (∀ i ≤ k, ∃ operand, OperationHasOperandAtIndex e.facts.isOperation mergeOp operand i ∧
        IsMergeOperationDirectInput e.facts mergeOp operand ∧
        e.MustHaveIntegrityTag operand mergeOp.actor tag) → IntegritySource e ap owner tag

theorem mustHaveIntegrityTag_iff (ap : AccessPath) (owner : Principal) (tag : IntegrityTag) :
    e.MustHaveIntegrityTag ap owner tag ↔ IntegritySource e ap owner tag := by
  constructor
  · intro h
    obtain ⟨premises, hrule, hpremises⟩ := (derivable_iff _).mp h
    cases hrule with
    | applied happlied => exact .applied happlied
    | @propagated _ _ _ numPreds _ htag hprincipal hnum hpos hkept =>
      rw [List.forall_mem_singleton] at hpremises
      obtain ⟨hex, hall⟩ := (allPredecessors_iff ap owner tag).mp ⟨numPreds, hnum, hpos, hpremises⟩
      exact .propagated htag hprincipal hex hall hkept
    | addIntegrityTag hfile _ hresult hname hadds =>
      exact .addIntegrityTag hfile rfl hresult hname hadds (hpremises _ (List.mem_singleton.mpr rfl))
    | union hfile hmodified hresult hdirect =>
      exact .union hfile rfl hmodified hresult hdirect (hpremises _ (List.mem_singleton.mpr rfl))
    | intersect hfile hmodified hprincipal hresult hindex =>
      rw [List.forall_mem_singleton, directOperandsUpTo_iff] at hpremises
      obtain ⟨-, -, k, rfl, hall⟩ := hpremises
      exact .intersect hfile hmodified hprincipal hresult hindex hall
  · intro h
    cases h with
    | applied happlied => exact .fact (.applied happlied)
    | propagated htag hprincipal hex hall hkept =>
      obtain ⟨numPreds, hnum, hpos, hupTo⟩ := (allPredecessors_iff ap owner tag).mpr ⟨hex, hall⟩
      obtain ⟨pred, hedge⟩ := hex
      exact .step (.propagated (.target hedge) htag hprincipal hnum hpos hkept) hupTo
    | addIntegrityTag hfile howner hresult hname hadds hmet =>
      subst howner
      exact .step (.addIntegrityTag hfile hname.1 hresult hname hadds) hmet
    | union hfile howner hmodified hresult hdirect hmust =>
      subst howner
      exact .step (.union hfile hmodified hresult hdirect) hmust
    | @intersect mergeOp k hfile hmodified hprincipal hresult hindex hall =>
      refine .step (.intersect hfile hmodified hprincipal hresult hindex) ?_
      exact (directOperandsUpTo_iff mergeOp tag _).mpr ⟨hfile, hindex.1, k, rfl, hall⟩

/-! ### Tags and principals -/

theorem mustHave_isIntegrityTag {x owner tag : String}
    (hmust : e.MustHaveIntegrityTag x owner tag) :
    IsIntegrityTag e.program e.facts tag := by
  let I : IntegrityAtom → Prop
    | .predecessorsUpToOrderNumHaveIntegrityTag _ _ tag _ =>
      IsIntegrityTag e.program e.facts tag
    | .mustHaveIntegrityTag _ _ tag => IsIntegrityTag e.program e.facts tag
    | .mergeOperationHasIntegrityTagOnDirectOperandsUpToIndex _ tag _ =>
      IsIntegrityTag e.program e.facts tag
    | _ => True
  have hmodel : Model (IntegrityRule e) I := by
    intro head premises hrule hpremises
    cases hrule with
    | firstPredecessor _ => exact hpremises _ (List.mem_singleton.mpr rfl)
    | nextPredecessor _ => exact hpremises _ (List.mem_cons_self ..)
    | applied happlied => exact .applied happlied
    | propagated _ htag _ _ _ _ => exact htag
    | noPrecondition => trivial
    | nextPrecondition => trivial
    | allPreconditions => trivial
    | addIntegrityTag hfile _ _ _ hadds => exact .added hfile hadds
    | union _ _ _ _ => exact hpremises _ (List.mem_singleton.mpr rfl)
    | firstDirectOperand _ _ _ _ _ => exact hpremises _ (List.mem_singleton.mpr rfl)
    | nextDirectOperand _ _ _ _ _ => exact hpremises _ (List.mem_cons_self ..)
    | intersect _ _ _ _ _ => exact hpremises _ (List.mem_singleton.mpr rfl)
  exact hmust.least hmodel

theorem mustHave_isPrincipal {x owner tag : String} (hmust : e.MustHaveIntegrityTag x owner tag) :
    e.IsPrincipal owner := by
  have hsql : ∀ op, IsTagTransformOperation e.facts.isOperation op → e.IsPrincipal sqlActor := by
    intro op htransform
    have hactor : op.actor = sqlActor := htransform.1.2
    rw [← hactor]
    exact .fact (.actor htransform.1.1)
  cases (mustHaveIntegrityTag_iff x owner tag).mp hmust with
  | applied happlied => exact .fact (.appliedIntegrityTag happlied)
  | propagated _ hprincipal _ _ _ => exact hprincipal
  | addIntegrityTag _ howner _ hname _ _ =>
    rw [howner]
    exact hsql _ hname.1
  | union _ howner hmodified _ _ _ =>
    obtain ⟨op, _, htransform, -⟩ := hmodified
    rw [howner]
    exact hsql op htransform
  | intersect _ _ hprincipal _ _ _ => exact hprincipal

end Evaluation

end Raksha.Souffle
