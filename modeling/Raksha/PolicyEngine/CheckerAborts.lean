import Raksha.PolicyEngine.AbstractInterpretationPolicyChecker
import Raksha.Sql.Liveness

/-!
# Failing checks of the policy checker

On a decoded, well-linked module the fixpoint computation never fails a check. The check of an
egress operation fails exactly when one of its inputs is processed but stays bottom.
-/

namespace Raksha.PolicyEngine
open Raksha.Common Raksha.Ir Raksha.Analysis Raksha.Taint Raksha.Sql

/-- No check fails in `ComputeIfcTags`: all indices are in bounds and all nodes exist. -/
theorem computeIfcTags_never_aborts {expr : ExpressionArena} {module : Module}
    {rules : InferenceRules} (hd : Decoded expr module rules) (hlinked : module.WellLinked)
    (hmerges : MergesInBounds module) (htransforms : TransformsHaveResult module) :
    ¬ ComputeFixpointAborts (taintSemantics rules) module := by
  refine not_computeIfcTags_aborts rules module ?_
  intro op hop
  refine hd.inBounds hmerges hop ?_
  rintro (hwrapped | ⟨ruleName, hname, -⟩)
  · exact hwrapped.hasResult hlinked
  · exact htransforms op hop hname.transform

/-- The checker reaches no failing check, in any run, if and only if every input of an egress
operation that the iteration reaches is live. -/
theorem isModulePolicyCompliant_aborts_iff (expr : ExpressionArena) (module : Module)
    (seedTags : List String) (rules : InferenceRules) (egressOperationNames : Finset String)
    (hdecode : decodeSqlPolicyRules expr module seedTags = .ok rules)
    (hlinked : module.WellLinked) (hmerges : MergesInBounds module)
    (htransforms : TransformsHaveResult module) :
    ¬ IsModulePolicyCompliantAborts rules egressOperationNames module ↔
      ∀ v, IsEgressInput egressOperationNames module v → Reached module v → Live module v := by
  have hd := decodeSqlPolicyRules_spec expr module seedTags rules hdecode
  have hnever := computeIfcTags_never_aborts hd hlinked hmerges htransforms
  have hreturns := (computeIfcTags_or_aborts rules module).resolve_right hnever
  constructor
  · intro hok v hv hreached
    by_contra hlive
    obtain ⟨valueStates, hrun⟩ := hreturns
    have hbot := (hd.lookup_eq_bottom_iff hrun v).mpr ⟨hreached, hlive⟩
    obtain ⟨message, herror⟩ := checkEgresses_error egressOperationNames module valueStates hv hbot
    exact hok (Or.inr ⟨valueStates, message, hrun, herror⟩)
  · rintro hlive (habort | ⟨valueStates, message, hrun, herror⟩)
    · exact hnever habort
    · obtain ⟨v, hv, hbot⟩ :=
        (checkEgresses_aborts_iff egressOperationNames module valueStates).mp ⟨message, herror⟩
      obtain ⟨hreached, hnot⟩ := (hd.lookup_eq_bottom_iff hrun v).mp hbot
      exact hnot (hlive v hv hreached)

/-- `%0 = sql.literal`, `%1 = op(%1)`, `%2 = sql.merge[control_input_start_index: 2](%0, %1)`,
`%3 = sql.tag_transform[rule_name: union rule](%2)`, `%4 = sql.sql_output(%3)`. -/
def bottomEgress : Module where
  blocks := [⟨[
    { address := 0, op := ⟨literalOpName, 1⟩ },
    { address := 1, op := ⟨"op", 1⟩, inputs := [.operationResult 1 0] },
    { address := 2, op := ⟨mergeOpName, 1⟩
      attributes := AList.singleton MergeOp.controlInputStartIndex (.int64 2)
      inputs := [.operationResult 0 0, .operationResult 1 0] },
    { address := 3, op := ⟨tagTransformOpName, 1⟩
      attributes := AList.singleton TagTransformOp.ruleNameAttribute
        (.string TagTransformOp.unionItagRule)
      inputs := [.operationResult 2 0] },
    { address := 4, op := ⟨sqlOutputOpName, 1⟩, inputs := [.operationResult 3 0] }]⟩]
  distinct := by decide

theorem bottomEgress_aborts_iff :
    ¬ IsModulePolicyCompliantAborts (decodedRules ⟨[]⟩ bottomEgress) {sqlOutputOpName}
      bottomEgress ↔
      ∀ v, IsEgressInput {sqlOutputOpName} bottomEgress v → Reached bottomEgress v →
        Live bottomEgress v :=
  isModulePolicyCompliant_aborts_iff ⟨[]⟩ bottomEgress [] _ {sqlOutputOpName}
    (decodedRules_of_isOk (by decide +kernel)) (by decide +kernel)
    (mergesInBounds_of_all _ (by decide +kernel)) (by decide +kernel)

theorem bottomEgress_aborts :
    (decodeSqlPolicyRules ⟨[]⟩ bottomEgress []).isOk = true ∧ bottomEgress.WellLinked ∧
    MergesInBounds bottomEgress ∧ TransformsHaveResult bottomEgress ∧
    IsModulePolicyCompliantAborts (decodedRules ⟨[]⟩ bottomEgress) {sqlOutputOpName}
      bottomEgress := by
  refine ⟨by decide +kernel, by decide +kernel, mergesInBounds_of_all _ (by decide +kernel),
    by decide +kernel, Or.inr ?_⟩
  obtain ⟨valueStates, hrun, hcheck⟩ := scheduledVerdict_run
    (decodedRules ⟨[]⟩ bottomEgress) {sqlOutputOpName} bottomEgress [0, 2, 3, 4]
    (by decide +kernel)
  refine ⟨valueStates, "Cannot check secrecy for bottom.", hrun, ?_⟩
  rw [hcheck]
  decide +kernel

end Raksha.PolicyEngine
