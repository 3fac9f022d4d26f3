import Raksha.Taint.TaintAnalysis

/-!
# The abstract interpretation policy checker

`backends/policy_engine/abstract_interpretation/abstract_interpretation_policy_checker.cc`: a
module complies when no input of an egress operation carries a secrecy tag.
-/

namespace Raksha.PolicyEngine
open Raksha.Common Raksha.Ir Raksha.Analysis Raksha.Taint

/-- The check of one input of an egress operation. -/
def checkInput (fixpointResult : ValueStateMap AbstractIfcTags) (policyCompliant : Bool)
    (input : Value) : Checked Bool :=
  match fixpointResult.lookup input with
  -- No result means this value was unreachable.
  | none => return policyCompliant
  | some state => do
    if ← state.hasNoSecrecy then return policyCompliant else return false

def checkOperation (egressOperationNames : Finset String)
    (fixpointResult : ValueStateMap AbstractIfcTags) (policyCompliant : Bool)
    (operation : Operation) : Checked Bool :=
  if operation.op.name ∈ egressOperationNames then
    operation.inputs.foldlM (checkInput fixpointResult) policyCompliant
  else
    return policyCompliant

/-- The loops over the blocks and operations after the fixpoint computation. -/
def checkEgresses (egressOperationNames : Finset String) (module : Module)
    (fixpointResult : ValueStateMap AbstractIfcTags) : Checked Bool :=
  module.operations.foldlM (checkOperation egressOperationNames fixpointResult) true

/-- `IsModulePolicyCompliant` returns the verdict in some run. -/
def IsModulePolicyCompliant (rules : InferenceRules) (egressOperationNames : Finset String)
    (module : Module) (verdict : Bool) : Prop :=
  ∃ fixpointResult, ComputeIfcTags rules module fixpointResult ∧
    checkEgresses egressOperationNames module fixpointResult = .ok verdict

/-- `IsModulePolicyCompliant` reaches a failing check in some run. -/
def IsModulePolicyCompliantAborts (rules : InferenceRules)
    (egressOperationNames : Finset String) (module : Module) : Prop :=
  ComputeFixpointAborts (taintSemantics rules) module ∨
  ∃ fixpointResult message, ComputeIfcTags rules module fixpointResult ∧
    checkEgresses egressOperationNames module fixpointResult = .error message

/-- The inputs of the egress operations of a module. -/
def IsEgressInput (egressOperationNames : Finset String) (module : Module) (v : Value) : Prop :=
  ∃ op ∈ module.operations, op.op.name ∈ egressOperationNames ∧ v ∈ op.inputs

/-! ### What the checks return -/

/-- The state of an input that does not make a module incompliant. -/
def CleanInput (fixpointResult : ValueStateMap AbstractIfcTags) (v : Value) : Prop :=
  ∀ s, fixpointResult.lookup v = some (.tags s) → s.secrecyTags = ∅

theorem checkInput_eq_ok (fixpointResult : ValueStateMap AbstractIfcTags)
    (policyCompliant : Bool) (input : Value) (hlive : fixpointResult.lookup input ≠ some ⊥) :
    ∃ verdict, checkInput fixpointResult policyCompliant input = .ok verdict ∧
      (verdict = true ↔ policyCompliant = true ∧ CleanInput fixpointResult input) := by
  unfold checkInput CleanInput
  cases hstate : fixpointResult.lookup input with
  | none => exact ⟨policyCompliant, rfl, by simp⟩
  | some state =>
    cases state with
    | bottom => exact absurd hstate hlive
    | tags s =>
      by_cases hempty : s.secrecyTags = ∅
      · refine ⟨policyCompliant, ?_, by simp [hempty]⟩
        simp [AbstractIfcTags.hasNoSecrecy, hempty, bind, Except.bind, pure, Except.pure]
      · refine ⟨false, ?_, by simp [hempty]⟩
        simp [AbstractIfcTags.hasNoSecrecy, hempty, bind, Except.bind, pure, Except.pure]

theorem checkInput_bottom (fixpointResult : ValueStateMap AbstractIfcTags)
    (policyCompliant : Bool) (input : Value) (hbot : fixpointResult.lookup input = some ⊥) :
    checkInput fixpointResult policyCompliant input =
      .error "Cannot check secrecy for bottom." := by
  simp only [checkInput, hbot]
  rfl

theorem foldlM_and {α : Type} (f : Bool → α → Checked Bool) (P : α → Prop) (l : List α)
    (h : ∀ a ∈ l, ∀ b, ∃ r, f b a = .ok r ∧ (r = true ↔ b = true ∧ P a)) (b : Bool) :
    ∃ r, l.foldlM f b = .ok r ∧ (r = true ↔ b = true ∧ ∀ a ∈ l, P a) := by
  induction l generalizing b with
  | nil => exact ⟨b, rfl, by simp⟩
  | cons a l ih =>
    obtain ⟨mid, hmid, hmidIff⟩ := h a (List.mem_cons_self ..) b
    obtain ⟨r, hr, hrIff⟩ := ih (fun c hc => h c (List.mem_cons_of_mem _ hc)) mid
    refine ⟨r, ?_, ?_⟩
    · rw [List.foldlM_cons, hmid]
      exact hr
    · rw [hrIff, hmidIff, List.forall_mem_cons, and_assoc]

theorem foldlM_error {α β : Type} (f : β → α → Checked β) (l : List α) (a : α) (ha : a ∈ l)
    (h : ∀ b, ∃ message, f b a = .error message) (b : β) :
    ∃ message, l.foldlM f b = .error message := by
  induction l generalizing b with
  | nil => cases ha
  | cons c l ih =>
    rw [List.foldlM_cons]
    cases hc : f b c with
    | error message => exact ⟨message, rfl⟩
    | ok b' =>
      rcases List.mem_cons.mp ha with rfl | hmem
      · obtain ⟨message, hmessage⟩ := h b
        rw [hc] at hmessage
        cases hmessage
      · exact ih hmem b'

/-- No input of an egress operation has a secrecy tag. -/
def EgressesClean (egressOperationNames : Finset String) (module : Module)
    (fixpointResult : ValueStateMap AbstractIfcTags) : Prop :=
  ∀ v, IsEgressInput egressOperationNames module v → CleanInput fixpointResult v

theorem checkEgresses_eq_ok (egressOperationNames : Finset String) (module : Module)
    (fixpointResult : ValueStateMap AbstractIfcTags)
    (hlive : ∀ v, IsEgressInput egressOperationNames module v →
      fixpointResult.lookup v ≠ some ⊥) :
    ∃ verdict, checkEgresses egressOperationNames module fixpointResult = .ok verdict ∧
      (verdict = true ↔ EgressesClean egressOperationNames module fixpointResult) := by
  obtain ⟨verdict, hok, hiff⟩ := foldlM_and
    (checkOperation egressOperationNames fixpointResult)
    (fun op => op.op.name ∈ egressOperationNames →
      ∀ v ∈ op.inputs, CleanInput fixpointResult v) module.operations (by
      intro op hop b
      unfold checkOperation
      by_cases hegress : op.op.name ∈ egressOperationNames
      · rw [if_pos hegress]
        simp only [hegress, true_implies]
        exact foldlM_and _ _ _ (fun v hv b' =>
          checkInput_eq_ok fixpointResult b' v (hlive v ⟨op, hop, hegress, hv⟩)) b
      · rw [if_neg hegress]
        exact ⟨b, rfl, by simp [hegress]⟩) true
  refine ⟨verdict, hok, hiff.trans ?_⟩
  constructor
  · rintro ⟨-, h⟩ v ⟨op, hop, hegress, hv⟩
    exact h op hop hegress v hv
  · intro h
    exact ⟨rfl, fun op hop hegress v hv => h v ⟨op, hop, hegress, hv⟩⟩

theorem checkEgresses_error (egressOperationNames : Finset String) (module : Module)
    (fixpointResult : ValueStateMap AbstractIfcTags) {v : Value}
    (hv : IsEgressInput egressOperationNames module v)
    (hbot : fixpointResult.lookup v = some ⊥) :
    ∃ message, checkEgresses egressOperationNames module fixpointResult = .error message := by
  obtain ⟨op, hop, hegress, hin⟩ := hv
  refine foldlM_error _ _ op hop ?_ true
  intro b
  unfold checkOperation
  rw [if_pos hegress]
  exact foldlM_error _ _ v hin (fun b' => ⟨_, checkInput_bottom fixpointResult b' v hbot⟩) b

/-- The checks of the egress operations fail exactly on an egress input that is bottom. -/
theorem checkEgresses_aborts_iff (egressOperationNames : Finset String) (module : Module)
    (fixpointResult : ValueStateMap AbstractIfcTags) :
    (∃ message, checkEgresses egressOperationNames module fixpointResult = .error message) ↔
      ∃ v, IsEgressInput egressOperationNames module v ∧ fixpointResult.lookup v = some ⊥ := by
  constructor
  · rintro ⟨message, herror⟩
    by_contra hnone
    obtain ⟨verdict, hok, -⟩ := checkEgresses_eq_ok egressOperationNames module fixpointResult
      fun v hv hbot => hnone ⟨v, hv, hbot⟩
    rw [herror] at hok
    cases hok
  · rintro ⟨v, hv, hbot⟩
    exact checkEgresses_error egressOperationNames module fixpointResult hv hbot

theorem checkEgresses_verdict {egressOperationNames : Finset String} {module : Module}
    {fixpointResult : ValueStateMap AbstractIfcTags} {verdict : Bool}
    (h : checkEgresses egressOperationNames module fixpointResult = .ok verdict) :
    verdict = true ↔ EgressesClean egressOperationNames module fixpointResult := by
  obtain ⟨verdict', hok, hiff⟩ := checkEgresses_eq_ok egressOperationNames module fixpointResult
    (by
      intro v hv hbot
      obtain ⟨message, herror⟩ :=
        checkEgresses_error egressOperationNames module fixpointResult hv hbot
      rw [h] at herror
      cases herror)
  rw [h] at hok
  cases hok
  exact hiff

/-! ### Scheduled verdicts -/

/-- The verdict of the checker after a scheduled run. -/
def scheduledVerdict (rules : InferenceRules) (egressOperationNames : Finset String)
    (module : Module) (schedule : List Address) : Checked Bool := do
  checkEgresses egressOperationNames module
    (← runSchedule (taintSemantics rules) module schedule)

theorem scheduledVerdict_run (rules : InferenceRules) (egressOperationNames : Finset String)
    (module : Module) (schedule : List Address)
    (hrun : (runSchedule (taintSemantics rules) module schedule).isOk = true) :
    ∃ valueStates, ComputeIfcTags rules module valueStates ∧
      checkEgresses egressOperationNames module valueStates =
        scheduledVerdict rules egressOperationNames module schedule := by
  unfold scheduledVerdict
  cases h : runSchedule (taintSemantics rules) module schedule with
  | error message =>
    rw [h] at hrun
    cases hrun
  | ok valueStates => exact ⟨valueStates, runSchedule_returns h, rfl⟩

end Raksha.PolicyEngine
