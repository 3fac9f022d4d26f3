import Raksha.Analysis.FixpointRuns
import Raksha.Taint.AbstractSemantics

/-!
# Taint analysis

`TaintAnalysis` is the fixpoint iterator over the abstract semantics of the inference rules
(`backends/policy_engine/abstract_interpretation/abstract_interpretation_policy_checker.h`).
-/

namespace Raksha.Taint
open Raksha.Common Raksha.Ir Raksha.Analysis

instance : AbstractState AbstractIfcTags where
  join := AbstractIfcTags.join
  isEquivalentTo := AbstractIfcTags.isEquivalentTo
  join_eq_sup := AbstractIfcTags.join_eq_sup
  isEquivalentTo_iff := AbstractIfcTags.isEquivalentTo_iff

/-- The abstract semantics that the rules define. -/
def taintSemantics (rules : InferenceRules) : AbstractSemantics AbstractIfcTags where
  getInitialState := getInitialState
  applyOperationTransformer := applyOperationTransformer rules

/-- `ComputeIfcTags` returns the map. -/
def ComputeIfcTags (rules : InferenceRules) (module : Module)
    (valueStates : ValueStateMap AbstractIfcTags) : Prop :=
  ComputeFixpoint (taintSemantics rules) module valueStates

/-- The map gives every settled operation its outputs: `result i` has an entry that the `i`-th
output of the transformer does not change when joined into it. -/
def PostFixpointAt (rules : InferenceRules) (valueStates : ValueStateMap AbstractIfcTags)
    (op : Operation) : Prop :=
  ∃ outputs, applyOperationTransformer rules op
      (op.inputs.map (currentStates valueStates)) = .ok outputs ∧
    ∀ i < op.numberOfOutputs, ∃ output state, outputs[i]? = some output ∧
      valueStates.lookup (op.getOutputValue i) = some state ∧
      (state.join output).isEquivalentTo state = true

theorem ComputeIfcTags.postFixpointAt {rules : InferenceRules} {module : Module}
    {valueStates : ValueStateMap AbstractIfcTags} (h : ComputeIfcTags rules module valueStates)
    {op : Operation} (hop : op ∈ module.operations)
    (hdue : op.inputs = [] ∨ ∃ v ∈ op.inputs, valueStates.lookup v ≠ none) :
    PostFixpointAt rules valueStates op := by
  obtain ⟨outputs, happly, hlen, hle⟩ := ComputeFixpoint.settled h hop hdue
  refine ⟨outputs, happly, ?_⟩
  intro i hi
  obtain ⟨hne, hout⟩ := hle i hi
  obtain ⟨state, hstate⟩ := Option.ne_none_iff_exists'.mp hne
  have hget : outputs[i]? = some (outputs.getD i ⊥) := by
    rw [List.getD_eq_getElem?_getD, List.getElem?_eq_getElem (hlen ▸ hi), Option.getD_some]
  refine ⟨_, state, hget, hstate, ?_⟩
  rw [AbstractIfcTags.isEquivalentTo_iff, AbstractIfcTags.join_eq_sup, sup_eq_left]
  rwa [currentStates_eq, hstate, Option.getD_some] at hout

theorem ComputeIfcTags.lookup_operand {rules : InferenceRules} {module : Module}
    {valueStates : ValueStateMap AbstractIfcTags} (h : ComputeIfcTags rules module valueStates)
    {v : Value} (hv : module.IsOperand v) (hres : v.isOperationResult = false) :
    valueStates.lookup v = some (getInitialState v) := by
  have hnot : ¬ module.IsResult v := by
    rintro ⟨op, -, i, -, rfl⟩
    cases hres
  rw [ComputeFixpoint.entry h hnot]
  simp only [entryStates, hv, hres, and_self, if_true]
  rfl

/-- `ComputeFixpoint` returns a post-fixpoint whose entries are the initial states of the values
that no operation computes and states of the reached results. -/
theorem computeIfcTags_postFixpoint (rules : InferenceRules) (module : Module)
    (valueStates : ValueStateMap AbstractIfcTags) (h : ComputeIfcTags rules module valueStates) :
    (∀ op ∈ module.operations,
      (op.inputs = [] ∨ ∃ v ∈ op.inputs, valueStates.lookup v ≠ none) →
      PostFixpointAt rules valueStates op) ∧
    (∀ v, module.IsOperand v → v.isOperationResult = false →
      valueStates.lookup v = some (getInitialState v)) ∧
    (∀ v, valueStates.lookup v ≠ none ↔ Reached module v) := by
  refine ⟨?_, ?_, ?_⟩
  · intro op hop hdue
    exact h.postFixpointAt hop hdue
  · intro v hv hres
    exact h.lookup_operand hv hres
  · exact ComputeFixpoint.lookup_ne_none_iff h

/-- `%0 = sql.literal`, `%1 = op(%0, %1)`. -/
def selfLoop : Module where
  blocks := [⟨[
    { address := 0, op := ⟨"sql.literal", 1⟩ },
    { address := 1, op := ⟨"op", 1⟩
      inputs := [.operationResult 0 0, .operationResult 1 0] }]⟩]
  distinct := by decide

theorem selfLoop_postFixpoint : ∃ valueStates : ValueStateMap AbstractIfcTags,
    ∀ op ∈ selfLoop.operations,
      (op.inputs = [] ∨ ∃ v ∈ op.inputs, valueStates.lookup v ≠ none) →
      PostFixpointAt {} valueStates op := by
  obtain ⟨valueStates, hrun⟩ : ∃ valueStates,
      runSchedule (taintSemantics {}) selfLoop [0, 1, 1] = .ok valueStates :=
    Checked.exists_eq_ok_of_isOk (by decide +kernel)
  exact ⟨valueStates, (computeIfcTags_postFixpoint {} selfLoop valueStates
    (runSchedule_returns hrun)).1⟩

end Raksha.Taint
