import Raksha.PolicyEngine.TaintSoundness
import Raksha.Sql.GuardedRuns

/-!
# Independence of the schedule

The worklist of `ComputeFixpoint` is a hash set of pointers, so the order of the visits changes
from run to run. The result does not, unless a transform adds a secrecy tag because of an input
that has not been processed yet.
-/

namespace Raksha.PolicyEngine
open Raksha.Common Raksha.Ir Raksha.Analysis Raksha.Taint Raksha.Sql AbstractIfcTags

theorem checkEgresses_congr {valueStates valueStates' : ValueStateMap AbstractIfcTags}
    (h : ∀ v, valueStates.lookup v = valueStates'.lookup v)
    (egressOperationNames : Finset String) (module : Module) :
    checkEgresses egressOperationNames module valueStates =
      checkEgresses egressOperationNames module valueStates' := by
  have hinput : checkInput valueStates = checkInput valueStates' := by
    funext policyCompliant input
    simp only [checkInput, h]
  have hoperation : checkOperation egressOperationNames valueStates =
      checkOperation egressOperationNames valueStates' := by
    funext policyCompliant operation
    simp only [checkOperation, hinput]
  simp only [checkEgresses, hoperation]

/-- Two runs that add no secrecy tag under preconditions that are lost later return the same map
and lead to the same verdict. -/
theorem computeFixpoint_scheduleIndependent (expr : ExpressionArena) (module : Module)
    (seedTags : List String) (rules : InferenceRules)
    (hdecode : decodeSqlPolicyRules expr module seedTags = .ok rules)
    (valueStates valueStates' : ValueStateMap AbstractIfcTags)
    (h : ComputeFixpointUnder (NoPrematureSecrecy module rules) (taintSemantics rules) module
      valueStates)
    (h' : ComputeFixpointUnder (NoPrematureSecrecy module rules) (taintSemantics rules) module
      valueStates') :
    (∀ v, valueStates.lookup v = valueStates'.lookup v) ∧
    ∀ egressOperationNames, checkEgresses egressOperationNames module valueStates =
      checkEgresses egressOperationNames module valueStates' := by
  have hd := decodeSqlPolicyRules_spec expr module seedTags rules hdecode
  have hlookup := hd.lookup_unique h h'
  exact ⟨hlookup, fun names => checkEgresses_congr hlookup names module⟩

/-- Adds `t` to the transformed value when the argument `premise` has the integrity tag `i`. -/
def addIfRule : SqlPolicyRule where
  name := "add_if"
  result := ⟨.addConfidentiality, "t"⟩
  preconditions := [⟨"premise", "i"⟩]

def grantRule : SqlPolicyRule := { name := "grant", result := ⟨.addIntegrity, "i"⟩ }

/-- `%0 = sql.literal`, `%1 = sql.literal`, `%2 = sql.tag_transform[rule_name: "grant"](%1)`,
`%3 = sql.tag_transform[rule_name: "add_if", premise: 1](%0, %2)`, `%4 = sql.sql_output(%3)`. -/
def grantedAdd : Module where
  blocks := [⟨[
    { address := 0, op := ⟨literalOpName, 1⟩ },
    { address := 1, op := ⟨literalOpName, 1⟩ },
    { address := 2, op := ⟨tagTransformOpName, 1⟩
      attributes := AList.singleton TagTransformOp.ruleNameAttribute (.string "grant")
      inputs := [.operationResult 1 0] },
    { address := 3, op := ⟨tagTransformOpName, 1⟩
      attributes := (AList.singleton "premise" (.int64 1)).insert
        TagTransformOp.ruleNameAttribute (.string "add_if")
      inputs := [.operationResult 0 0, .operationResult 2 0] },
    { address := 4, op := ⟨sqlOutputOpName, 1⟩, inputs := [.operationResult 3 0] }]⟩]
  distinct := by decide

theorem grantedAdd_satisfied :
    ∀ op ∈ grantedAdd.operations, ∀ tag premises,
      MarkedAs (decodedRules ⟨[addIfRule, grantRule]⟩ grantedAdd) op
        (.transform .addSecrecy tag premises) →
      Satisfied grantedAdd (decodedRules ⟨[addIfRule, grantRule]⟩ grantedAdd) op premises := by
  have hd := decodeSqlPolicyRules_spec ⟨[addIfRule, grantRule]⟩ grantedAdd [] _
    (decodedRules_of_isOk (by decide +kernel))
  have hgranted := Lacks.not_of_granted (t := 0) hd
    (operationOf_mem (show (grantedAdd.operationAt 2).isSome = true by decide +kernel))
    (by decide +kernel)
  intro op hop tag premises hmark
  have hrules := rulesForOutput_zero hmark
  have hcases : ∀ op ∈ grantedAdd.operations,
      (decodedRules ⟨[addIfRule, grantRule]⟩ grantedAdd).rulesForOutput op 0 = none ∨
      (decodedRules ⟨[addIfRule, grantRule]⟩ grantedAdd).rulesForOutput op 0 =
        some (transformRules 0 .addIntegrity 0 []) ∨
      op.inputs[1]? = some ((operationOf grantedAdd 2).getOutputValue 0) ∧
      (decodedRules ⟨[addIfRule, grantRule]⟩ grantedAdd).rulesForOutput op 0 =
        some (transformRules 0 .addSecrecy 1 [⟨1, 0⟩]) := by
    decide +kernel
  rcases hcases op hop with hnone | hadd | ⟨hinput, hadd⟩
  · rw [hnone] at hrules
    cases hrules
  · rw [hadd] at hrules
    cases hrules
  · rw [hadd] at hrules
    cases hrules
    intro p hp w hw
    cases List.mem_singleton.mp hp
    rw [hinput] at hw
    cases hw
    exact hgranted

theorem grantedAdd_scheduleIndependent : ∃ valueStates valueStates',
    runSchedule (taintSemantics (decodedRules ⟨[addIfRule, grantRule]⟩ grantedAdd)) grantedAdd
      [0, 3, 4, 1, 2, 3] = .ok valueStates ∧
    runSchedule (taintSemantics (decodedRules ⟨[addIfRule, grantRule]⟩ grantedAdd)) grantedAdd
      [1, 0, 2, 3, 4] = .ok valueStates' ∧
    ∀ v, valueStates.lookup v = valueStates'.lookup v := by
  obtain ⟨valueStates, hrun⟩ := Checked.exists_eq_ok_of_isOk
    (x := runSchedule (taintSemantics (decodedRules ⟨[addIfRule, grantRule]⟩ grantedAdd))
      grantedAdd [0, 3, 4, 1, 2, 3]) (by decide +kernel)
  obtain ⟨valueStates', hrun'⟩ := Checked.exists_eq_ok_of_isOk
    (x := runSchedule (taintSemantics (decodedRules ⟨[addIfRule, grantRule]⟩ grantedAdd))
      grantedAdd [1, 0, 2, 3, 4]) (by decide +kernel)
  refine ⟨valueStates, valueStates', hrun, hrun', ?_⟩
  exact (computeFixpoint_scheduleIndependent ⟨[addIfRule, grantRule]⟩ grantedAdd [] _
    (decodedRules_of_isOk (by decide +kernel)) valueStates valueStates'
    (ComputeFixpoint.noPrematureSecrecy grantedAdd_satisfied (runSchedule_returns hrun))
    (ComputeFixpoint.noPrematureSecrecy grantedAdd_satisfied (runSchedule_returns hrun'))).1

/-- `%0 = sql.literal`, `%1 = sql.literal`,
`%2 = sql.tag_transform[rule_name: "add_if", premise: 1](%0, %1)`, `%3 = sql.sql_output(%2)`. -/
def conditionalAdd : Module where
  blocks := [⟨[
    { address := 0, op := ⟨literalOpName, 1⟩ },
    { address := 1, op := ⟨literalOpName, 1⟩ },
    { address := 2, op := ⟨tagTransformOpName, 1⟩
      attributes := (AList.singleton "premise" (.int64 1)).insert
        TagTransformOp.ruleNameAttribute (.string "add_if")
      inputs := [.operationResult 0 0, .operationResult 1 0] },
    { address := 3, op := ⟨sqlOutputOpName, 1⟩, inputs := [.operationResult 2 0] }]⟩]
  distinct := by decide

/-- Two orders of the worklist lead to different verdicts. -/
theorem conditionalAdd_scheduleDependent :
    (decodeSqlPolicyRules ⟨[addIfRule]⟩ conditionalAdd []).isOk = true ∧
    ∃ valueStates valueStates',
      ComputeIfcTags (decodedRules ⟨[addIfRule]⟩ conditionalAdd) conditionalAdd valueStates ∧
      ComputeIfcTags (decodedRules ⟨[addIfRule]⟩ conditionalAdd) conditionalAdd valueStates' ∧
      checkEgresses {sqlOutputOpName} conditionalAdd valueStates = .ok true ∧
      checkEgresses {sqlOutputOpName} conditionalAdd valueStates' = .ok false ∧
      ∃ v, valueStates.lookup v ≠ valueStates'.lookup v := by
  refine ⟨by decide +kernel, ?_⟩
  obtain ⟨valueStates, hrun, hcheck⟩ := scheduledVerdict_run
    (decodedRules ⟨[addIfRule]⟩ conditionalAdd) {sqlOutputOpName} conditionalAdd [0, 1, 2, 3]
    (by decide +kernel)
  obtain ⟨valueStates', hrun', hcheck'⟩ := scheduledVerdict_run
    (decodedRules ⟨[addIfRule]⟩ conditionalAdd) {sqlOutputOpName} conditionalAdd [0, 2, 3, 1, 2]
    (by decide +kernel)
  have htrue : checkEgresses {sqlOutputOpName} conditionalAdd valueStates = .ok true := by
    rw [hcheck]
    decide +kernel
  have hfalse : checkEgresses {sqlOutputOpName} conditionalAdd valueStates' = .ok false := by
    rw [hcheck']
    decide +kernel
  refine ⟨valueStates, valueStates', hrun, hrun', htrue, hfalse, ?_⟩
  by_contra hsame
  push Not at hsame
  rw [checkEgresses_congr hsame, hfalse] at htrue
  cases htrue

end Raksha.PolicyEngine
