import Raksha.PolicyEngine.IntegrityAgreement
import Raksha.PolicyEngine.TaintSoundness

/-!
# Special tag transforms in both policy engines

A tag transform with a special rule changes the integrity tags of the merge that it wraps. Both
engines compute the same tags for the merge. The tag transform itself has the default semantics
in the fixpoint iteration, which drops integrity tags, and the edge of every tag transform in
Datalog, which keeps them.
-/

namespace Raksha.PolicyEngine
open Raksha.Common Raksha.Ir Raksha.Analysis Raksha.Taint Raksha.Sql

/-- Both engines give the value the same integrity tags. -/
def SameIntegrityTags (rules : InferenceRules) (valueStates : ValueStateMap AbstractIfcTags)
    (symbol : Value → String) (e : Souffle.Evaluation) (v : Value) : Prop :=
  ∃ s, valueStates.lookup v = some (.tags s) ∧
    HasTagNames rules s.integrityTags (e.MustHaveIntegrityTag (symbol v) "sql")

section

variable {expr : ExpressionArena} {module : Module} {rules : InferenceRules}
  {symbol : Value → String} {e : Souffle.Evaluation}

/-- The iteration treats a special transform like an unmarked operation. -/
theorem IsSpecialTransform.hasDefaultOutput {T : Operation} (hspecial : IsSpecialTransform T) :
    HasDefaultOutput module T 0 := by
  obtain ⟨ruleName, hname, hrule⟩ := hspecial
  refine Or.inr ⟨?_, ?_⟩
  · rintro ⟨T', -, n, hwraps⟩
    exact hwraps.isMerge.not_transform hname.transform
  · rintro ⟨n, hn, hnot⟩
    rw [hn.unique hname] at hnot
    exact hnot hrule

/-- The result of a special transform has no integrity tags in the iteration. -/
theorem Comparable.special_integrityTags (h : Comparable expr module rules symbol e)
    {valueStates : ValueStateMap AbstractIfcTags}
    (hrun : ComputeIfcTags rules module valueStates) {T : Operation}
    (hT : T ∈ module.operations) (hspecial : IsSpecialTransform T) :
    ∃ s, valueStates.lookup (T.getOutputValue 0) = some (.tags s) ∧ s.integrityTags = ∅ := by
  have hlive := h.live_output hT
  obtain ⟨s, hlookup⟩ := h.decoded.lookup_of_live hrun hlive
  refine ⟨s, hlookup, Finset.eq_empty_of_forall_notMem ?_⟩
  intro t ht
  have hiff := h.decoded.mem_integrityOf_iff hrun (T.getOutputValue 0) t
  rw [currentStates_eq, hlookup, Option.getD_some] at hiff
  exact (hiff.mp ht).2 (.default hT hspecial.hasDefaultOutput (h.hasOutput hT) hlive)

end

/-- A wrapped merge has the same integrity tags in both engines when its direct inputs have, in
particular when it does not depend on the result of a special transform. The result of the
special transform has no integrity tags in the iteration. In Datalog it has those of the merge,
and the tag that a policy rule with the name of the special rule adds. -/
theorem specialRules_agree (expr : ExpressionArena) (module : Module) (seedTags : List String)
    (rules : InferenceRules) (hdecode : decodeSqlPolicyRules expr module seedTags = .ok rules)
    (hlinked : module.WellLinked) (hacyclic : Acyclic module) (hsingle : SingleResults module)
    (hbounds : MergesInBounds module) (ord : Souffle.Symbol → ℕ) (hord : Function.Injective ord)
    (storageName : Address → String) (names : SsaNames) (hnames : names.Temporaries)
    (hdistinct : DistinctSymbols module
      (symbolOf storageName (finalNames storageName names module)))
    (valueStates : ValueStateMap AbstractIfcTags)
    (hrun : ComputeIfcTags rules module valueStates) (T merge : Operation) (ruleName : String)
    (hT : T ∈ module.operations) (hwraps : Wraps module T merge ruleName) :
    let e := sqlEvaluation ord hord storageName names expr module
    let symbol := symbolOf storageName (finalNames storageName names module)
    (∀ k, MergeOp.getControlInputStartIndex merge = .ok k →
      (∀ u ∈ merge.inputs.take k, SameIntegrityTags rules valueStates symbol e u) →
      SameIntegrityTags rules valueStates symbol e (merge.getOutputValue 0)) ∧
    (¬ AfterSpecial module merge →
      SameIntegrityTags rules valueStates symbol e (merge.getOutputValue 0)) ∧
    (∃ s, valueStates.lookup (T.getOutputValue 0) = some (.tags s) ∧ s.integrityTags = ∅) ∧
    ∀ tag, e.MustHaveIntegrityTag (symbol (T.getOutputValue 0)) "sql" tag ↔
      e.MustHaveIntegrityTag (symbol (merge.getOutputValue 0)) "sql" tag ∨
      Souffle.SqlPolicyRuleNameHasResult e.facts ruleName (.addIntegrityTag tag) ∧
        e.AllTagTransformPreconditionsMet (operationFact symbol T) := by
  intro e symbol
  have h : Comparable expr module rules symbol e :=
    comparable_of_lowered hdecode hlinked hacyclic hsingle ord hord storageName hnames hdistinct
  have hmerge := hwraps.owned
  have hagrees : ∀ v, IsValue module v → (AgreesOn module rules symbol e v ↔
      SameIntegrityTags rules valueStates symbol e v) := fun v hv => h.agreesOn_iff hrun hv
  have houtput : IsValue module (merge.getOutputValue 0) := Or.inr (isResult_output hsingle hmerge)
  refine ⟨?_, ?_, ?_, ?_⟩
  · intro k hk hinputs
    refine (hagrees _ houtput).mp (h.agreesOn_merge hbounds ⟨T, hT, ruleName, hwraps⟩ hk ?_)
    intro u hu
    exact (hagrees u (Or.inl ⟨merge, hmerge, List.mem_of_mem_take hu⟩)).mpr (hinputs u hu)
  · intro hafter
    exact (hagrees _ houtput).mp (h.agreesOn_results hbounds merge hmerge hafter)
  · exact h.special_integrityTags hrun hT ⟨ruleName, hwraps.named, hwraps.special⟩
  · intro tag
    have hhead : T.inputs.head? = some (merge.getOutputValue 0) := by
      rw [h.wraps_inputs hT hwraps, List.head?_cons]
    rw [h.mustHave_transform_iff hT hhead hwraps.named.transform]
    refine or_congr_right ⟨?_, ?_⟩
    · rintro ⟨n, hn, hadds, hmet⟩
      rw [hn.unique hwraps.named] at hadds
      exact ⟨hadds, hmet⟩
    · rintro ⟨hadds, hmet⟩
      exact ⟨ruleName, hwraps.named, hadds, hmet⟩

/-- `%0 = sql.literal`, `%1 = sql.tag_transform[rule_name: "grant"](%0)`,
`%2 = sql.merge[control_input_start_index: 1](%1)`,
`%3 = sql.tag_transform[rule_name: union rule](%2)`. -/
def grantedMerge : Module where
  blocks := [⟨[
    { address := 0, op := ⟨literalOpName, 1⟩ },
    { address := 1, op := ⟨tagTransformOpName, 1⟩
      attributes := AList.singleton TagTransformOp.ruleNameAttribute (.string "grant")
      inputs := [.operationResult 0 0] },
    { address := 2, op := ⟨mergeOpName, 1⟩
      attributes := AList.singleton MergeOp.controlInputStartIndex (.int64 1)
      inputs := [.operationResult 1 0] },
    { address := 3, op := ⟨tagTransformOpName, 1⟩
      attributes := AList.singleton TagTransformOp.ruleNameAttribute
        (.string TagTransformOp.unionItagRule)
      inputs := [.operationResult 2 0] }]⟩]
  distinct := by decide

theorem grantedMerge_acyclic : Acyclic grantedMerge := by
  refine acyclic_of_rank id ?_
  intro op hop op' hop' v hv i heq
  have hearlier : ∀ op ∈ grantedMerge.operations, ∀ v ∈ op.inputs,
      ∃ a < op.address, v = .operationResult a 0 := by
    decide +kernel
  obtain ⟨a, ha, hvalue⟩ := hearlier op' hop' v hv
  rw [heq] at hvalue
  cases hvalue
  exact ha

theorem grantedMerge_wraps : Wraps grantedMerge (operationOf grantedMerge 3)
    (operationOf grantedMerge 2) TagTransformOp.unionItagRule :=
  ⟨⟨by decide +kernel, by decide +kernel⟩, Or.inr rfl, ⟨0, by decide +kernel⟩,
    operationOf_mem (by decide +kernel), by decide +kernel⟩

/-- The evaluation of the module with the names of a fresh visitor. -/
def grantedMergeEvaluation : Souffle.Evaluation :=
  sqlEvaluation Souffle.symbolOrdinal Souffle.symbolOrdinal_injective (fun _ => "") {} ⟨[grantRule]⟩ grantedMerge

def grantedMergeSymbol : Value → String :=
  symbolOf (fun _ => "") (finalNames (fun _ => "") {} grantedMerge)

theorem grantedMerge_comparable : Comparable ⟨[grantRule]⟩ grantedMerge
    (decodedRules ⟨[grantRule]⟩ grantedMerge) grantedMergeSymbol grantedMergeEvaluation :=
  comparable_of_lowered (decodedRules_of_isOk (by decide +kernel)) (by decide +kernel)
    grantedMerge_acyclic (by decide +kernel) Souffle.symbolOrdinal Souffle.symbolOrdinal_injective (fun _ => "")
    SsaNames.temporaries_empty (distinctSymbols_fresh _ _)

theorem grantedMerge_mustHave : grantedMergeEvaluation.MustHaveIntegrityTag
    (grantedMergeSymbol ((operationOf grantedMerge 3).getOutputValue 0)) "sql" "i" := by
  have h := grantedMerge_comparable
  have hliteral : operationOf grantedMerge 0 ∈ grantedMerge.operations :=
    operationOf_mem (by decide +kernel)
  have hgrant : operationOf grantedMerge 1 ∈ grantedMerge.operations :=
    operationOf_mem (by decide +kernel)
  have hspecial : operationOf grantedMerge 3 ∈ grantedMerge.operations :=
    operationOf_mem (by decide +kernel)
  have hagrees : AgreesOn grantedMerge (decodedRules ⟨[grantRule]⟩ grantedMerge)
      grantedMergeSymbol grantedMergeEvaluation ((operationOf grantedMerge 0).getOutputValue 0) := by
    refine h.agreesOn_default hliteral (by decide +kernel) ?_
    rintro ⟨T, -, ruleName, hwraps⟩
    exact absurd hwraps.isMerge (by decide +kernel)
  have hinputs : (operationOf grantedMerge 1).inputs =
      [(operationOf grantedMerge 0).getOutputValue 0] := by decide +kernel
  have hgranted : grantedMergeEvaluation.MustHaveIntegrityTag
      (grantedMergeSymbol ((operationOf grantedMerge 1).getOutputValue 0)) "sql" "i" := by
    refine (h.agreesOn_transform hgrant
      ⟨"grant", ⟨by decide +kernel, by decide +kernel⟩, by decide +kernel⟩ ?_ "i").mpr ?_
    · intro u hu
      rw [hinputs, List.mem_singleton] at hu
      rw [hu]
      exact hagrees
    · exact ⟨0, by decide +kernel, Lacks.not_of_granted h.decoded hgrant (by decide +kernel)⟩
  have hmerged := (h.mustHave_union_iff (k := 1) hspecial grantedMerge_wraps (by decide +kernel)
    "i").mpr ⟨_, by decide +kernel, hgranted⟩
  exact (h.mustHave_transform_iff hspecial (u := (operationOf grantedMerge 2).getOutputValue 0)
    (by decide +kernel) (by decide +kernel) "i").mpr (Or.inl hmerged)

theorem grantedMerge_wrapper_disagrees :
    (decodeSqlPolicyRules ⟨[grantRule]⟩ grantedMerge []).isOk = true ∧ grantedMerge.WellLinked ∧
    Acyclic grantedMerge ∧ SingleResults grantedMerge ∧
    MergeOp.getControlInputStartIndex (operationOf grantedMerge 2) = .ok 1 ∧
    (operationOf grantedMerge 2).inputs.length = 1 ∧
    Wraps grantedMerge (operationOf grantedMerge 3) (operationOf grantedMerge 2)
      TagTransformOp.unionItagRule ∧
    DistinctSymbols grantedMerge grantedMergeSymbol ∧
    ∃ valueStates, ComputeIfcTags (decodedRules ⟨[grantRule]⟩ grantedMerge) grantedMerge
      valueStates ∧ ¬ SameIntegrityTags (decodedRules ⟨[grantRule]⟩ grantedMerge) valueStates
        grantedMergeSymbol grantedMergeEvaluation
        ((operationOf grantedMerge 3).getOutputValue 0) := by
  refine ⟨by decide +kernel, by decide +kernel, grantedMerge_acyclic, by decide +kernel,
    by decide +kernel, by decide +kernel, grantedMerge_wraps, distinctSymbols_fresh _ _, ?_⟩
  obtain ⟨valueStates, hstates⟩ := Checked.exists_eq_ok_of_isOk
    (x := runSchedule (taintSemantics (decodedRules ⟨[grantRule]⟩ grantedMerge)) grantedMerge
      [0, 1, 2, 3]) (by decide +kernel)
  have hrun : ComputeIfcTags (decodedRules ⟨[grantRule]⟩ grantedMerge) grantedMerge valueStates :=
    runSchedule_returns hstates
  refine ⟨valueStates, hrun, ?_⟩
  rintro ⟨s, hlookup, hnames, -⟩
  obtain ⟨s', hlookup', hempty⟩ := grantedMerge_comparable.special_integrityTags hrun
    (operationOf_mem (by decide +kernel)) ⟨_, grantedMerge_wraps.named, grantedMerge_wraps.special⟩
  rw [hlookup, Option.some.injEq, AbstractIfcTags.tags.injEq] at hlookup'
  subst hlookup'
  obtain ⟨id, hid, -⟩ := (hnames "i").mp grantedMerge_mustHave
  rw [hempty] at hid
  exact absurd hid (Finset.notMem_empty id)

theorem grantedMerge_wrapper_untagged : ∃ valueStates,
    ComputeIfcTags (decodedRules ⟨[grantRule]⟩ grantedMerge) grantedMerge valueStates ∧
    ∃ s, valueStates.lookup ((operationOf grantedMerge 3).getOutputValue 0) = some (.tags s) ∧
      s.integrityTags = ∅ := by
  obtain ⟨valueStates, hstates⟩ := Checked.exists_eq_ok_of_isOk
    (x := runSchedule (taintSemantics (decodedRules ⟨[grantRule]⟩ grantedMerge)) grantedMerge
      [0, 1, 2, 3]) (by decide +kernel)
  refine ⟨valueStates, runSchedule_returns hstates, ?_⟩
  exact (specialRules_agree ⟨[grantRule]⟩ grantedMerge [] _
    (decodedRules_of_isOk (by decide +kernel)) (by decide +kernel) grantedMerge_acyclic
    (by decide +kernel) (mergesInBounds_of_all _ (by decide +kernel)) Souffle.symbolOrdinal
    Souffle.symbolOrdinal_injective (fun _ => "") {} SsaNames.temporaries_empty (distinctSymbols_fresh _ _)
    valueStates (runSchedule_returns hstates) _ _ _ (operationOf_mem (by decide +kernel))
    grantedMerge_wraps).2.2.1

end Raksha.PolicyEngine
