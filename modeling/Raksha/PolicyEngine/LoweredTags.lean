import Raksha.PolicyEngine.LoweredModules

/-!
# Tags in lowered modules

What Datalog derives about the results of a module from its operations and the facts of the policy
rules: the predecessors of a result, its integrity tags, its confidentiality tags and the
violations.
-/

namespace Raksha.PolicyEngine
open Datalog
open Raksha.Common Raksha.Ir Raksha.Sql Raksha.Souffle.Evaluation

/-- No access path has a result as a member. -/
def NoMemberResults (module : Module) (symbol : Value → String) (e : Souffle.Evaluation) : Prop :=
  ∀ v, module.IsResult v → ∀ base, ¬ Souffle.IsMemberOf e base (symbol v)

theorem noMemberResults_fresh (storageName : Address → String) (module : Module)
    (e : Souffle.Evaluation) :
    NoMemberResults module (symbolOf storageName (finalNames storageName {} module)) e := by
  rintro v hv base ⟨-, -, -, htake⟩
  have hdot : '.' ∈ (base ++ ".").toList := by simp
  rw [htake] at hdot
  exact dot_notMem_fresh storageName module hv (List.mem_of_mem_take hdot)

/-- A condition on the first elements of a list, by their places. -/
theorem forall_lt_iff_forall_mem_take {α : Type} {l : List α} {k : ℕ} (hk : 0 < k) (P : α → Prop) :
    (∀ i < k, ∃ u, l[i]? = some u ∧ P u) ↔ k ≤ l.length ∧ ∀ u ∈ l.take k, P u := by
  constructor
  · intro hall
    refine ⟨?_, ?_⟩
    · obtain ⟨u, hu, -⟩ := hall (k - 1) (by omega)
      have hlt := (List.getElem?_eq_some_iff.mp hu).1
      omega
    · intro u hu
      obtain ⟨i, hi, hget⟩ := List.mem_take_iff_getElem.mp hu
      obtain ⟨u', hu', hP⟩ := hall i (by omega)
      rw [List.getElem?_eq_getElem (by omega), hget] at hu'
      cases hu'
      exact hP
  · rintro ⟨hlength, hall⟩ i hi
    have hlt : i < l.length := by omega
    exact ⟨l[i], List.getElem?_eq_getElem hlt,
      hall _ (List.mem_take_iff_getElem.mpr ⟨i, by omega, rfl⟩)⟩

section

variable {module : Module} {symbol : Value → String} {e : Souffle.Evaluation}

namespace SqlFacts

variable (h : SqlFacts module symbol e)

include h

/-! ### Edges -/

theorem hasSpecialEdgeRules_iff (operator : String) :
    Souffle.HasSpecialEdgeRules e.program operator ↔ operator = tagTransformOpName := by
  rw [h.program]
  constructor
  · intro hspecial
    cases hspecial with
    | tagTransform _ => rfl
    | connectInput hfile => exact absurd hfile (by decide)
    | connectOutput hfile => exact absurd hfile (by decide)
    | wrapOpaque hfile => exact absurd hfile (by decide)
    | unwrapOpaque hfile => exact absurd hfile (by decide)
    | userConsentToDowngrade hfile => exact absurd hfile (by decide)
  · rintro rfl
    exact .tagTransform (by decide)

/-- The predecessors of a result: the transformed value of a tag transform, or all operands and
the special access path. -/
theorem resolvedEdge_iff (owner src tgt : String) :
    e.ResolvedEdge owner src tgt ↔ owner = "sql" ∧ ∃ op ∈ module.operations,
      tgt = symbol (op.getOutputValue 0) ∧
      (IsTagTransformOp op ∧ (∃ u, op.inputs.head? = some u ∧ src = symbol u) ∨
        ¬ IsTagTransformOp op ∧
          (src = Souffle.arbitraryComputation ∨ ∃ u ∈ op.inputs, src = symbol u)) := by
  have hinputs : .arcsJsInputAndOutput ∉ e.program := by rw [h.program]; decide
  have hconsent : .arcsJsUserConsentToDowngrade ∉ e.program := by
    rw [h.program]
    decide
  constructor
  · intro hedge
    obtain ⟨premises, hrule, -⟩ := (derivable_iff _).mp hedge
    cases hrule with
    | edge hmem _ =>
      rw [h.edge] at hmem
      exact absurd hmem (Finset.notMem_empty _)
    | operandEdge hfact hactor hoperator hoperand hresult hnot =>
      obtain ⟨op, hop, rfl, rfl⟩ := (h.hasResult_iff _ _).mp hresult
      obtain ⟨i, -, u, hu, rfl⟩ := (h.hasOperandAtIndex_iff hop _ _).mp hoperand
      refine ⟨hactor.2.symm, op, hop, rfl, Or.inr ⟨?_, Or.inr ⟨u, List.mem_of_getElem? hu, rfl⟩⟩⟩
      rw [h.hasSpecialEdgeRules_iff, ← hoperator.2] at hnot
      exact hnot
    | arbitraryComputationEdge hfact hresult hnot hactor hoperator =>
      obtain ⟨op, hop, rfl, rfl⟩ := (h.hasResult_iff _ _).mp hresult
      refine ⟨hactor.2.symm, op, hop, rfl, Or.inr ⟨?_, Or.inl rfl⟩⟩
      rw [h.hasSpecialEdgeRules_iff, ← hoperator.2] at hnot
      exact hnot
    | tagTransform _ htransform hoperand hresult =>
      obtain ⟨op, hop, rfl, rfl⟩ := (h.hasResult_iff _ _).mp hresult
      obtain ⟨i, hi, u, hu, rfl⟩ := (h.hasOperandAtIndex_iff hop _ _).mp hoperand
      cases Nat.cast_eq_zero.mp hi.symm
      refine ⟨rfl, op, hop, rfl, Or.inl ⟨(h.isTagTransformOperation_iff hop).mp htransform,
        u, ?_, rfl⟩⟩
      rwa [List.head?_eq_getElem?]
    | inputStore hfile => exact absurd hfile hinputs
    | inputParticle hfile => exact absurd hfile hinputs
    | outputStore hfile => exact absurd hfile hinputs
    | outputParticle hfile => exact absurd hfile hinputs
    | userConsent hfile => exact absurd hfile hconsent
  · rintro ⟨rfl, op, hop, rfl, hcases⟩
    have hfact := h.fact_mem hop
    have hresult := (h.hasResult_iff _ _).mpr ⟨op, hop, rfl, rfl⟩
    rcases hcases with ⟨htransform, u, hu, rfl⟩ | ⟨hnot, rfl | ⟨u, hu, rfl⟩⟩
    · rw [List.head?_eq_getElem?] at hu
      exact .fact (.tagTransform h.tagTransforms_mem
        ((h.isTagTransformOperation_iff hop).mpr htransform)
        ((h.hasOperandAtIndex_iff hop _ 0).mpr ⟨0, rfl, u, hu, rfl⟩) hresult)
    · exact .fact (.arbitraryComputationEdge hfact hresult
        (fun hspecial => hnot ((h.hasSpecialEdgeRules_iff _).mp hspecial)) ⟨hfact, rfl⟩
        ⟨hfact, rfl⟩)
    · obtain ⟨i, hi⟩ := List.mem_iff_getElem?.mp hu
      exact .fact (.operandEdge hfact ⟨hfact, rfl⟩ ⟨hfact, rfl⟩
        ((h.hasOperandAtIndex_iff hop _ i).mpr ⟨i, rfl, u, hi, rfl⟩) hresult
        fun hspecial => hnot ((h.hasSpecialEdgeRules_iff _).mp hspecial))

theorem resolvedEdge_output_iff {op : Operation} (hop : op ∈ module.operations) (src : String) :
    e.ResolvedEdge "sql" src (symbol (op.getOutputValue 0)) ↔
      (IsTagTransformOp op ∧ (∃ u, op.inputs.head? = some u ∧ src = symbol u) ∨
        ¬ IsTagTransformOp op ∧
          (src = Souffle.arbitraryComputation ∨ ∃ u ∈ op.inputs, src = symbol u)) := by
  rw [h.resolvedEdge_iff]
  constructor
  · rintro ⟨-, op', hop', heq, hcases⟩
    rwa [h.output_injective hop hop' heq]
  · intro hcases
    exact ⟨rfl, op, hop, rfl, hcases⟩

theorem isPrincipal_sql {op : Operation} (hop : op ∈ module.operations) :
    e.IsPrincipal "sql" :=
  .fact (.actor (h.fact_mem hop))

/-! ### Integrity tags -/

theorem mustHave_target {x owner tag : String} (hmust : e.MustHaveIntegrityTag x owner tag) :
    ∃ op ∈ module.operations, x = symbol (op.getOutputValue 0) := by
  have hresult : ∀ fact, Souffle.OperationHasResult e.facts.isOperation fact x →
      ∃ op ∈ module.operations, x = symbol (op.getOutputValue 0) := by
    intro fact hresult
    obtain ⟨op, hop, -, rfl⟩ := (h.hasResult_iff _ _).mp hresult
    exact ⟨op, hop, rfl⟩
  cases (mustHaveIntegrityTag_iff x owner tag).mp hmust with
  | applied happlied =>
    rw [h.hasAppliedIntegrityTag] at happlied
    exact absurd happlied (Finset.notMem_empty _)
  | propagated _ _ hex _ _ =>
    obtain ⟨pred, hedge⟩ := hex
    obtain ⟨-, op, hop, heq, -⟩ := (h.resolvedEdge_iff _ _ _).mp hedge
    exact ⟨op, hop, heq⟩
  | addIntegrityTag _ _ hres => exact hresult _ hres
  | union _ _ _ hres => exact hresult _ hres
  | intersect _ _ _ hres => exact hresult _ hres

theorem not_mustHave_reserved (owner tag : String) :
    ¬ e.MustHaveIntegrityTag Souffle.arbitraryComputation owner tag := by
  intro hmust
  obtain ⟨op, hop, heq⟩ := h.mustHave_target hmust
  exact h.symbols.notReserved _ (isResult_output h.single hop) heq.symm

/-- The integrity tags of the result of an operation that is no tag transform come from a merge
rule. -/
theorem mustHave_cases {op : Operation} (hop : op ∈ module.operations)
    (htransform : ¬ IsTagTransformOp op) {tag : String}
    (hmust : e.MustHaveIntegrityTag (symbol (op.getOutputValue 0)) "sql" tag) :
    IsMergeOp op ∧ ((HasITagRule module op TagTransformOp.unionItagRule ∧
      ∃ x, Souffle.IsMergeOperationDirectInput e.facts (operationFact symbol op) x ∧
        e.MustHaveIntegrityTag x "sql" tag) ∨
    (HasITagRule module op TagTransformOp.intersectItagRule ∧
      ∃ k : ℕ, MergeOp.getControlInputStartIndex op = .ok k ∧ 0 < k ∧ k ≤ op.inputs.length ∧
        ∀ u ∈ op.inputs.take k, e.MustHaveIntegrityTag (symbol u) "sql" tag)) := by
  cases (mustHaveIntegrityTag_iff _ _ tag).mp hmust with
  | applied happlied =>
    rw [h.hasAppliedIntegrityTag] at happlied
    exact absurd happlied (Finset.notMem_empty _)
  | propagated _ _ _ hall _ =>
    refine absurd (hall _ ?_) (h.not_mustHave_reserved "sql" tag)
    exact (h.resolvedEdge_output_iff hop _).mpr (Or.inr ⟨htransform, Or.inl rfl⟩)
  | addIntegrityTag _ _ hresult hname _ _ =>
    cases h.eq_fact_of_hasResult hop hresult
    exact absurd ((h.isTagTransformOperation_iff hop).mp hname.1) htransform
  | union _ _ hmodified hresult hdirect hinput =>
    cases h.eq_fact_of_hasResult hop hresult
    obtain ⟨-, hmerge, hrule⟩ := (h.isModifiedPropagationMergeOp_iff hop _).mp hmodified
    exact ⟨hmerge, Or.inl ⟨hrule, _, hdirect, hinput⟩⟩
  | @intersect _ k _ hmodified _ hresult hindex hall =>
    cases h.eq_fact_of_hasResult hop hresult
    obtain ⟨-, hmerge, hrule⟩ := (h.isModifiedPropagationMergeOp_iff hop _).mp hmodified
    refine ⟨hmerge, Or.inr ⟨hrule, k + 1, ?_, Nat.succ_pos k, ?_⟩⟩
    · exact (MergeOp.getControlInputStartIndex_eq_ok op _).mpr
        ((h.hasNumberAttribute_iff hop _ _).mp hindex.2)
    · refine (forall_lt_iff_forall_mem_take (Nat.succ_pos k) _).mp ?_
      intro i hi
      obtain ⟨x, hoperand, -, hinput⟩ := hall i (Nat.lt_succ_iff.mp hi)
      obtain ⟨j, hj, u, hu, rfl⟩ := (h.hasOperandAtIndex_iff hop x i).mp hoperand
      cases Nat.cast_inj.mp hj
      exact ⟨u, hu, hinput⟩

theorem mustHave_of_union {op : Operation} (hop : op ∈ module.operations) (hmerge : IsMergeOp op)
    (hrule : HasITagRule module op TagTransformOp.unionItagRule) {k : ℕ}
    (hk : MergeOp.getControlInputStartIndex op = .ok k) {u : Value} (hu : u ∈ op.inputs.take k)
    {tag : String} (hinput : e.MustHaveIntegrityTag (symbol u) "sql" tag) :
    e.MustHaveIntegrityTag (symbol (op.getOutputValue 0)) "sql" tag :=
  (mustHaveIntegrityTag_iff _ _ tag).mpr (.union h.tagTransforms_mem rfl
    ((h.isModifiedPropagationMergeOp_iff hop _).mpr ⟨Or.inr rfl, hmerge, hrule⟩)
    ((h.hasResult_iff _ _).mpr ⟨op, hop, rfl, rfl⟩)
    ((h.isDirectInput_iff hop hmerge hk _).mpr ⟨u, hu, rfl⟩) hinput)

theorem mustHave_of_intersect {op : Operation} (hop : op ∈ module.operations)
    (hmerge : IsMergeOp op) (hrule : HasITagRule module op TagTransformOp.intersectItagRule)
    {k : ℕ} (hk : MergeOp.getControlInputStartIndex op = .ok k) (hbound : k ≤ op.inputs.length)
    {tag : String} (hne : op.inputs.take k ≠ [])
    (hall : ∀ u ∈ op.inputs.take k, e.MustHaveIntegrityTag (symbol u) "sql" tag) :
    e.MustHaveIntegrityTag (symbol (op.getOutputValue 0)) "sql" tag := by
  cases k with
  | zero => exact absurd (List.take_zero) hne
  | succ k =>
    have hlookup := (MergeOp.getControlInputStartIndex_eq_ok op _).mp hk
    have hfact := (h.isMergeOp_iff hop).mpr hmerge
    refine (mustHaveIntegrityTag_iff _ _ tag).mpr (.intersect h.tagTransforms_mem
      ((h.isModifiedPropagationMergeOp_iff hop _).mpr ⟨Or.inl rfl, hmerge, hrule⟩)
      (h.isPrincipal_sql hop) ((h.hasResult_iff _ _).mpr ⟨op, hop, rfl, rfl⟩)
      ⟨hfact, (h.hasNumberAttribute_iff hop _ _).mpr hlookup⟩ ?_)
    intro i hi
    have hlt : i < op.inputs.length := by omega
    have hmem : op.inputs[i] ∈ op.inputs.take (k + 1) :=
      List.mem_take_iff_getElem.mpr ⟨i, by omega, rfl⟩
    exact ⟨symbol op.inputs[i], (h.hasOperandAtIndex_iff hop _ _).mpr
        ⟨i, rfl, _, List.getElem?_eq_getElem hlt, rfl⟩,
      (h.isDirectInput_iff hop hmerge hk _).mpr ⟨_, hmem, rfl⟩, hall _ hmem⟩

theorem mustHave_merge_iff {op : Operation} (hop : op ∈ module.operations) (hmerge : IsMergeOp op)
    {k : ℕ} (hk : MergeOp.getControlInputStartIndex op = .ok k) (hbound : k ≤ op.inputs.length)
    (tag : String) :
    e.MustHaveIntegrityTag (symbol (op.getOutputValue 0)) "sql" tag ↔
      (HasITagRule module op TagTransformOp.unionItagRule ∧
        ∃ u ∈ op.inputs.take k, e.MustHaveIntegrityTag (symbol u) "sql" tag) ∨
      (HasITagRule module op TagTransformOp.intersectItagRule ∧ op.inputs.take k ≠ [] ∧
        ∀ u ∈ op.inputs.take k, e.MustHaveIntegrityTag (symbol u) "sql" tag) := by
  constructor
  · intro hmust
    obtain ⟨-, ⟨hrule, x, hdirect, hinput⟩ | ⟨hrule, k', hk', hpos, hlength, hall⟩⟩ :=
      h.mustHave_cases hop hmerge.not_transform hmust
    · obtain ⟨u, hu, rfl⟩ := (h.isDirectInput_iff hop hmerge hk x).mp hdirect
      exact Or.inl ⟨hrule, u, hu, hinput⟩
    · rw [hk] at hk'
      cases hk'
      refine Or.inr ⟨hrule, ?_, hall⟩
      rw [← List.length_pos_iff, List.length_take]
      omega
  · rintro (⟨hrule, u, hu, hinput⟩ | ⟨hrule, hne, hall⟩)
    · exact h.mustHave_of_union hop hmerge hrule hk hu hinput
    · exact h.mustHave_of_intersect hop hmerge hrule hk hbound hne hall

/-- The result of a tag transform has the tags of the transformed value and the tag that its
rule adds. -/
theorem mustHave_transform_iff {op : Operation} (hop : op ∈ module.operations)
    {u : Value} (hhead : op.inputs.head? = some u) (htransform : IsTagTransformOp op)
    (tag : String) :
    e.MustHaveIntegrityTag (symbol (op.getOutputValue 0)) "sql" tag ↔
      e.MustHaveIntegrityTag (symbol u) "sql" tag ∨
      ∃ ruleName, HasRuleName op ruleName ∧
        Souffle.SqlPolicyRuleNameHasResult e.facts ruleName (.addIntegrityTag tag) ∧
        e.AllTagTransformPreconditionsMet (operationFact symbol op) := by
  have hpred : ∀ src, e.ResolvedEdge "sql" src (symbol (op.getOutputValue 0)) ↔
      src = symbol u := by
    intro src
    rw [h.resolvedEdge_output_iff hop, hhead]
    simp [htransform]
  have hmergeOp : ∀ ruleName, ¬ Souffle.IsModifiedPropagationMergeOp e.facts
      (operationFact symbol op) ruleName := by
    intro ruleName hmodified
    obtain ⟨-, hmerge, -⟩ := (h.isModifiedPropagationMergeOp_iff hop _).mp hmodified
    exact hmerge.not_transform htransform
  constructor
  · intro hmust
    cases (mustHaveIntegrityTag_iff _ _ tag).mp hmust with
    | applied happlied =>
      rw [h.hasAppliedIntegrityTag] at happlied
      exact absurd happlied (Finset.notMem_empty _)
    | propagated _ _ _ hall _ => exact Or.inl (hall _ ((hpred _).mpr rfl))
    | addIntegrityTag _ _ hresult hname hadds hmet =>
      cases h.eq_fact_of_hasResult hop hresult
      exact Or.inr ⟨_, (h.hasRuleName_iff hop _).mp hname, hadds, hmet⟩
    | union _ _ hmodified hresult _ _ =>
      cases h.eq_fact_of_hasResult hop hresult
      exact absurd hmodified (hmergeOp _)
    | intersect _ hmodified _ hresult _ _ =>
      cases h.eq_fact_of_hasResult hop hresult
      exact absurd hmodified (hmergeOp _)
  · rintro (hmust | ⟨ruleName, hname, hadds, hmet⟩)
    · refine (mustHaveIntegrityTag_iff _ _ tag).mpr (.propagated (mustHave_isIntegrityTag hmust)
        (h.isPrincipal_sql hop) ⟨_, (hpred _).mpr rfl⟩ ?_ ?_)
      · intro pred hedge
        rwa [(hpred pred).mp hedge]
      · rw [h.removeIntegrityTag]
        exact Finset.notMem_empty _
    · exact (mustHaveIntegrityTag_iff _ _ tag).mpr (.addIntegrityTag h.tagTransforms_mem rfl
        ((h.hasResult_iff _ _).mpr ⟨op, hop, rfl, rfl⟩) ((h.hasRuleName_iff hop _).mpr hname)
        hadds hmet)

/-! ### Confidentiality tags -/

theorem isAccessPath_cases {path : String} (hpath : e.IsAccessPath path) :
    path = Souffle.arbitraryComputation ∨ ∃ v, IsValue module v ∧ path = symbol v := by
  have hedge : ∀ owner src tgt, e.ResolvedEdge owner src tgt →
      (src = Souffle.arbitraryComputation ∨ ∃ v, IsValue module v ∧ src = symbol v) ∧
        ∃ v, IsValue module v ∧ tgt = symbol v := by
    intro owner src tgt hedge
    obtain ⟨-, op, hop, rfl, hcases⟩ := (h.resolvedEdge_iff owner src tgt).mp hedge
    refine ⟨?_, _, Or.inr (isResult_output h.single hop), rfl⟩
    rcases hcases with ⟨-, u, hu, rfl⟩ | ⟨-, rfl | ⟨u, hu, rfl⟩⟩
    · exact Or.inr ⟨u, Or.inl ⟨op, hop, List.mem_of_mem_head? hu⟩, rfl⟩
    · exact Or.inl rfl
    · exact Or.inr ⟨u, Or.inl ⟨op, hop, hu⟩, rfl⟩
  cases hpath with
  | source hsrc => exact (hedge _ _ _ hsrc).1
  | target htgt => exact Or.inr (hedge _ _ _ htgt).2
  | result hresult =>
    obtain ⟨op, hop, -, rfl⟩ := (h.hasResult_iff _ _).mp hresult
    exact Or.inr ⟨_, Or.inr (isResult_output h.single hop), rfl⟩
  | @operand fact _ index hoperand =>
    obtain ⟨op, hop, rfl⟩ := (h.isOperation fact).mp
      ((Souffle.operationHasOperandAtIndex_iff _ _ _).mp hoperand).1
    obtain ⟨i, -, u, hu, rfl⟩ := (h.hasOperandAtIndex_iff hop _ _).mp hoperand
    exact Or.inr ⟨u, Or.inl ⟨op, hop, List.mem_of_getElem? hu⟩, rfl⟩
  | arbitraryComputation => exact Or.inl rfl
  | saysHasTag hsays =>
    rw [h.saysHasTag] at hsays
    exact absurd hsays (Finset.notMem_empty _)

theorem hasTag_iff {op : Operation} (hop : op ∈ module.operations) (tag : String) :
    Souffle.HasTag e (symbol (op.getOutputValue 0)) "sql" tag ↔
      ∃ ruleName, HasRuleName op ruleName ∧
        Souffle.SqlPolicyRuleNameHasResult e.facts ruleName (.addConfidentialityTag tag) ∧
        e.AllTagTransformPreconditionsMet (operationFact symbol op) := by
  constructor
  · intro hhas
    cases hhas with
    | declared hsays =>
      rw [h.saysHasTag] at hsays
      exact absurd hsays (Finset.notMem_empty _)
    | tagTransform _ _ hresult hname hmet hadds =>
      cases h.eq_fact_of_hasResult hop hresult
      exact ⟨_, (h.hasRuleName_iff hop _).mp hname, hadds, hmet⟩
  · rintro ⟨ruleName, hname, hadds, hmet⟩
    exact .tagTransform h.tagTransforms_mem
      ((h.isTagTransformOperation_iff hop).mpr hname.transform)
      ((h.hasResult_iff _ _).mpr ⟨op, hop, rfl, rfl⟩) ((h.hasRuleName_iff hop _).mpr hname) hmet
      hadds

theorem removeTag_iff {op : Operation} (hop : op ∈ module.operations) (tag : String) :
    Souffle.RemoveTag e (symbol (op.getOutputValue 0)) "sql" tag ↔
      ∃ ruleName, HasRuleName op ruleName ∧
        Souffle.SqlPolicyRuleNameHasResult e.facts ruleName (.removeConfidentialityTag tag) ∧
        e.AllTagTransformPreconditionsMet (operationFact symbol op) := by
  constructor
  · intro hremove
    cases hremove with
    | declared hsays =>
      rw [h.saysRemoveTag] at hsays
      exact absurd hsays (Finset.notMem_empty _)
    | tagTransform _ _ hresult hname hmet hremoves =>
      cases h.eq_fact_of_hasResult hop hresult
      exact ⟨_, (h.hasRuleName_iff hop _).mp hname, hremoves, hmet⟩
    | userConsent hfile =>
      rw [h.program] at hfile
      exact absurd hfile (by decide)
  · rintro ⟨ruleName, hname, hremoves, hmet⟩
    exact .tagTransform h.tagTransforms_mem
      ((h.isTagTransformOperation_iff hop).mpr hname.transform)
      ((h.hasResult_iff _ _).mpr ⟨op, hop, rfl, rfl⟩) ((h.hasRuleName_iff hop _).mpr hname) hmet
      hremoves

theorem mayHave_target (hmembers : NoMemberResults module symbol e) {x owner tag : String}
    (hmay : e.MayHaveTag x owner tag) :
    ∃ op ∈ module.operations, x = symbol (op.getOutputValue 0) := by
  have hfiles : ∀ file ∈ e.program, file = .sqlOutput ∨ file = .tagTransforms := by
    rw [h.program]
    decide
  have hatom : ∀ atom, Derivable (Souffle.TagRule e) atom → ∀ x owner tag,
      atom = .mayHaveTag x owner tag → ∃ op ∈ module.operations,
        x = symbol (op.getOutputValue 0) := by
    intro atom hderive
    induction hderive with
    | intro hrule _ ih =>
      rintro x owner tag rfl
      cases hrule with
      | hasTag hhas =>
        cases hhas with
        | declared hsays =>
          rw [h.saysHasTag] at hsays
          exact absurd hsays (Finset.notMem_empty _)
        | tagTransform _ _ hresult =>
          obtain ⟨op, hop, -, rfl⟩ := (h.hasResult_iff _ _).mp hresult
          exact ⟨op, hop, rfl⟩
      | propagated hedge =>
        obtain ⟨-, op, hop, heq, -⟩ := (h.resolvedEdge_iff _ _ _).mp hedge
        exact ⟨op, hop, heq⟩
      | member _ _ hmember =>
        -- the member is a result, and no result is a member
        obtain ⟨op, hop, rfl⟩ := ih _ (List.mem_singleton.mpr rfl) _ _ _ rfl
        exact absurd hmember (hmembers _ (isResult_output h.single hop) _)
      | claimed hfile => rcases hfiles _ hfile with hf | hf <;> cases hf
      | wrapOpaque hfile => rcases hfiles _ hfile with hf | hf <;> cases hf
      | unwrapOpaque hfile => rcases hfiles _ hfile with hf | hf <;> cases hf
      | downgraded hfile => rcases hfiles _ hfile with hf | hf <;> cases hf
  exact hatom _ hmay x owner tag rfl

theorem mayHave_output_iff (hmembers : NoMemberResults module symbol e) (op : Operation)
    (tag : String) :
    e.MayHaveTag (symbol (op.getOutputValue 0)) "sql" tag ↔
      Souffle.HasTag e (symbol (op.getOutputValue 0)) "sql" tag ∨
      (∃ src, e.ResolvedEdge "sql" src (symbol (op.getOutputValue 0)) ∧
        e.MayHaveTag src "sql" tag) ∧
        ¬ Souffle.RemoveTag e (symbol (op.getOutputValue 0)) "sql" tag := by
  rw [mayHaveTag_iff h.program]
  constructor
  · intro hsource
    cases hsource with
    | hasTag hhas => exact Or.inl hhas
    | propagated hedge hmay hkept => exact Or.inr ⟨⟨_, hedge, hmay⟩, hkept⟩
    | member hmember hmay =>
      obtain ⟨op', hop', rfl⟩ := h.mayHave_target hmembers hmay
      exact absurd hmember (hmembers _ (isResult_output h.single hop') _)
  · rintro (hhas | ⟨⟨src, hedge, hmay⟩, hkept⟩)
    · exact .hasTag hhas
    · exact .propagated hedge hmay hkept

/-- The result of a tag transform has the tags of the transformed value except for the tag that
its rule removes, and the tag that its rule adds. -/
theorem mayHave_transform_iff (hmembers : NoMemberResults module symbol e) {op : Operation}
    (hop : op ∈ module.operations) {u : Value} (hhead : op.inputs.head? = some u)
    (htransform : IsTagTransformOp op) (tag : String) :
    e.MayHaveTag (symbol (op.getOutputValue 0)) "sql" tag ↔
      Souffle.HasTag e (symbol (op.getOutputValue 0)) "sql" tag ∨
      e.MayHaveTag (symbol u) "sql" tag ∧
        ¬ Souffle.RemoveTag e (symbol (op.getOutputValue 0)) "sql" tag := by
  have hpred : (∃ src, e.ResolvedEdge "sql" src (symbol (op.getOutputValue 0)) ∧
      e.MayHaveTag src "sql" tag) ↔ e.MayHaveTag (symbol u) "sql" tag := by
    simp [h.resolvedEdge_output_iff hop, hhead, htransform]
  rw [h.mayHave_output_iff hmembers op, hpred]

theorem mayHave_default_iff (hmembers : NoMemberResults module symbol e) {op : Operation}
    (hop : op ∈ module.operations) (htransform : ¬ IsTagTransformOp op) (tag : String) :
    e.MayHaveTag (symbol (op.getOutputValue 0)) "sql" tag ↔
      ∃ u ∈ op.inputs, e.MayHaveTag (symbol u) "sql" tag := by
  have hhas : ¬ Souffle.HasTag e (symbol (op.getOutputValue 0)) "sql" tag := by
    rw [h.hasTag_iff hop]
    rintro ⟨n, hname, -⟩
    exact htransform hname.transform
  have hremove : ¬ Souffle.RemoveTag e (symbol (op.getOutputValue 0)) "sql" tag := by
    rw [h.removeTag_iff hop]
    rintro ⟨n, hname, -⟩
    exact htransform hname.transform
  rw [h.mayHave_output_iff hmembers op, or_iff_right hhas, and_iff_left hremove]
  constructor
  · rintro ⟨src, hedge, hmay⟩
    rcases (h.resolvedEdge_output_iff hop src).mp hedge with ⟨htag, -⟩ | ⟨-, rfl | ⟨u, hu, rfl⟩⟩
    · exact absurd htag htransform
    · obtain ⟨op', hop', heq⟩ := h.mayHave_target hmembers hmay
      exact absurd heq.symm (h.symbols.notReserved _ (isResult_output h.single hop'))
    · exact ⟨u, hu, hmay⟩
  · rintro ⟨u, hu, hmay⟩
    exact ⟨symbol u, (h.resolvedEdge_output_iff hop _).mpr (Or.inr ⟨htransform, Or.inr ⟨u, hu,
      rfl⟩⟩), hmay⟩

/-! ### Violations -/

theorem violatesPolicy_iff :
    (∃ path name text, e.ViolatesPolicy path name text) ↔
      ∃ op ∈ module.operations, op.op.name = sqlOutputOpName ∧
        ∃ tag, e.MayHaveTag (symbol (op.getOutputValue 0)) "sql" tag := by
  have hfiles : ∀ file ∈ e.program, file = .sqlOutput ∨ file = .tagTransforms := by
    rw [h.program]
    decide
  constructor
  · rintro ⟨path, name, text, hviolates⟩
    cases hviolates with
    | sqlOutput _ htag =>
      obtain ⟨hout, x, hresult, -, hmay, -⟩ := htag
      obtain ⟨op, hop, rfl, rfl⟩ := (h.hasResult_iff _ _).mp hresult
      exact ⟨op, hop, hout.2.2.2, _, hmay⟩
    | _ => rcases hfiles _ ‹_ ∈ e.program› with hf | hf <;> cases hf
  · rintro ⟨op, hop, hname, tag, hmay⟩
    have hfact := h.fact_mem hop
    refine ⟨_, _, _, .sqlOutput (by rw [h.program]; decide) ⟨⟨hfact, ⟨hfact, rfl⟩, hfact,
      hname⟩, _, (h.hasResult_iff _ _).mpr ⟨op, hop, rfl, rfl⟩,
      Souffle.Evaluation.MayHaveTag.isTag hmay, hmay, ?_⟩⟩
    rintro ⟨hfile, -⟩
    rcases hfiles _ hfile with hf | hf <;> cases hf

end SqlFacts

end

end Raksha.PolicyEngine
