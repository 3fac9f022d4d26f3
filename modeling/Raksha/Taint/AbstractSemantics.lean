import Raksha.Taint.InferenceRules

/-!
# The abstract semantics of an operation

`analysis/taint/abstract_semantics.cc`: the default transformer, the interpretation of an
inference rule and the transformer of an operation, with every `CHECK` on the way.
-/

namespace Raksha.Taint
open Raksha.Common Raksha.Ir

/-- `input_states[index]` behind `CHECK(IndexInBounds(index, input_states))`. -/
def inputAt (inputStates : List AbstractIfcTags) (index : ℕ) (message : String) :
    Checked AbstractIfcTags :=
  match inputStates[index]? with
  | some state => .ok state
  | none => .error message

/-- The fold of `InteprepretMergeIntegrityTags`: `(first_time, accumulated_tags)`. -/
def mergeStep (kind : MergeIntegrityTags.Kind) (inputStates : List AbstractIfcTags)
    (accumulated : Bool × TagIdSet) (index : ℕ) : Checked (Bool × TagIdSet) := do
  let inputState ← inputAt inputStates index "Index is out of bounds in MergeIntegrityTags"
  let inputIntegrityTags ← inputState.integrityTags
  if accumulated.1 then
    return (false, inputIntegrityTags)
  else
    match kind with
    | .union => return (false, accumulated.2 ∪ inputIntegrityTags)
    | .intersect => return (false, accumulated.2 ∩ inputIntegrityTags)

def inteprepretMergeIntegrityTags (kind : MergeIntegrityTags.Kind) (inputIndices : List ℕ)
    (inputStates : List AbstractIfcTags) (currentValue : AbstractIfcTags) :
    Checked AbstractIfcTags :=
  if currentValue.isBottom then
    return currentValue
  -- Waiting for all inputs keeps the merged integrity tags precise.
  else if inputStates.any AbstractIfcTags.isBottom then
    return .bottom
  else do
    let currentSecrecyTags ← currentValue.secrecyTags
    let merged ← inputIndices.foldlM (mergeStep kind inputStates) (true, ∅)
    return .of currentSecrecyTags merged.2

/-- The `absl::c_any_of` over the premises, which stops at the first failing premise. -/
def premisesNotSatisfied (inputStates : List AbstractIfcTags) :
    List InputHasIntegrity → Checked Bool
  | [] => return false
  | premise :: premises => do
    let inputState ← inputAt inputStates premise.inputIndex "Premise index is out of bounds. "
    -- Bottom counts as having all integrity tags.
    if inputState.isBottom then
      premisesNotSatisfied inputStates premises
    else if ← inputState.hasIntegrity premise.tag then
      premisesNotSatisfied inputStates premises
    else
      return true

def applyModifyTag (kind : ModifyTag.Kind) (tag : TagId) (currentValue : AbstractIfcTags) :
    AbstractIfcTags :=
  match kind with
  | .addIntegrity => currentValue.setIntegrity tag
  | .removeSecrecy => currentValue.clearSecrecy tag
  | .addSecrecy => currentValue.setSecrecy tag

def interpretInferenceRule (rule : InferenceRule) (inputStates : List AbstractIfcTags)
    (currentValue : AbstractIfcTags) : Checked AbstractIfcTags := do
  if ← premisesNotSatisfied inputStates rule.premises then
    return currentValue
  else
    match rule.conclusion with
    | .copyInput inputIndex =>
      inputAt inputStates inputIndex "Input index in CopyInput is out of bounds"
    | .modifyTag kind tag => return applyModifyTag kind tag currentValue
    | .mergeIntegrityTags kind inputIndices =>
      inteprepretMergeIntegrityTags kind inputIndices inputStates currentValue

/-- `GetInitialState`: a seed value has no tags. -/
def getInitialState (_ : Value) : AbstractIfcTags := .of ∅ ∅

def applyDefaultOperationTransformer (operation : Operation)
    (inputStates : List AbstractIfcTags) : AbstractIfcTags :=
  if inputStates = [] then
    getInitialState (operation.getOutputValue 0)
  else
    match inputStates.foldl AbstractIfcTags.join .bottom with
    | .bottom => .bottom
    -- Integrity tags are not preserved by default.
    | .tags joinedResult => .of joinedResult.secrecyTags ∅

/-- The loop body over the output rules of an operation. -/
def applyOutputRules (defaultResult : AbstractIfcTags) (inputStates : List AbstractIfcTags)
    (results : List AbstractIfcTags) (entry : Σ _ : ℕ, List InferenceRule) :
    Checked (List AbstractIfcTags) := do
  check (entry.1 < results.length) "Output index in inference rules is out of bounds"
  let result ← entry.2.foldlM
    (fun accumulated rule => interpretInferenceRule rule inputStates accumulated) defaultResult
  return results.set entry.1 result

def applyOperationTransformer (rules : InferenceRules) (operation : Operation)
    (inputStates : List AbstractIfcTags) : Checked (List AbstractIfcTags) :=
  let defaultResult := applyDefaultOperationTransformer operation inputStates
  let results := List.replicate operation.numberOfOutputs defaultResult
  match rules.getOutputRulesForOperation operation with
  | none => return results
  | some outputRules =>
    outputRules.entries.foldlM (applyOutputRules defaultResult inputStates) results

/-! ### One output at a time -/

/-- The state of one output, whatever the order of the output rules. -/
def outputState (rules : InferenceRules) (operation : Operation)
    (inputStates : List AbstractIfcTags) (index : ℕ) : Checked AbstractIfcTags :=
  let defaultResult := applyDefaultOperationTransformer operation inputStates
  match rules.rulesForOutput operation index with
  | none => return defaultResult
  | some inferenceRules =>
    inferenceRules.foldlM
      (fun accumulated rule => interpretInferenceRule rule inputStates accumulated) defaultResult

theorem applyOutputRules_eq_ok (defaultResult : AbstractIfcTags)
    (inputStates results results' : List AbstractIfcTags)
    (entry : Σ _ : ℕ, List InferenceRule) :
    applyOutputRules defaultResult inputStates results entry = .ok results' ↔
      entry.1 < results.length ∧ ∃ result,
        entry.2.foldlM (fun accumulated rule =>
          interpretInferenceRule rule inputStates accumulated) defaultResult = .ok result ∧
        results' = results.set entry.1 result := by
  simp only [applyOutputRules, Checked.bind_eq_ok, Checked.pure_eq_ok, check_eq_ok, exists_const]
  constructor
  · rintro ⟨hlt, result, hresult, rfl⟩
    exact ⟨hlt, result, hresult, rfl⟩
  · rintro ⟨hlt, result, hresult, rfl⟩
    exact ⟨hlt, result, hresult, rfl⟩

/-- The loop writes each index with rules once and leaves the others alone. -/
theorem foldlM_applyOutputRules (defaultResult : AbstractIfcTags)
    (inputStates : List AbstractIfcTags) (entries : List (Σ _ : ℕ, List InferenceRule))
    (hnodup : entries.NodupKeys) (results results' : List AbstractIfcTags) :
    entries.foldlM (applyOutputRules defaultResult inputStates) results = .ok results' ↔
      results'.length = results.length ∧ (∀ e ∈ entries, e.1 < results.length) ∧
      ∀ i, i < results.length → match entries.dlookup i with
        | none => results'[i]? = results[i]?
        | some inferenceRules => ∃ result,
            inferenceRules.foldlM (fun accumulated rule =>
              interpretInferenceRule rule inputStates accumulated) defaultResult = .ok result ∧
            results'[i]? = some result := by
  induction entries generalizing results with
  | nil =>
    simp only [List.foldlM_nil, Checked.pure_eq_ok, List.not_mem_nil, List.dlookup_nil,
      false_implies, implies_true, true_and]
    constructor
    · rintro rfl
      exact ⟨rfl, fun _ _ => rfl⟩
    · rintro ⟨hlen, hget⟩
      refine List.ext_getElem? ?_
      intro i
      by_cases hi : i < results.length
      · exact (hget i hi).symm
      · rw [List.getElem?_eq_none (by omega), List.getElem?_eq_none (by omega)]
  | cons e entries ih =>
    have hkeys := List.nodupKeys_cons.mp hnodup
    simp only [List.foldlM_cons, Checked.bind_eq_ok, applyOutputRules_eq_ok]
    have hfresh : entries.dlookup e.1 = none := List.dlookup_eq_none.mpr hkeys.1
    constructor
    · rintro ⟨mid, ⟨hlt, result, hresult, rfl⟩, hrest⟩
      obtain ⟨hlen, hbounds, hget⟩ := (ih hkeys.2 _).mp hrest
      rw [List.length_set] at hlen hbounds hget
      refine ⟨hlen, ?_, ?_⟩
      · intro e' he'
        rcases List.mem_cons.mp he' with rfl | hmem
        · exact hlt
        · exact hbounds e' hmem
      · intro i hi
        have hi' := hget i hi
        by_cases hie : i = e.1
        · subst hie
          rw [hfresh] at hi'
          rw [List.dlookup_cons_eq]
          refine ⟨result, hresult, ?_⟩
          rw [hi', List.getElem?_set_self hlt]
        · rw [List.dlookup_cons_ne _ e hie]
          rwa [List.getElem?_set_ne (Ne.symm hie)] at hi'
    · rintro ⟨hlen, hbounds, hget⟩
      have hlt := hbounds e (List.mem_cons_self ..)
      have he := hget e.1 hlt
      rw [List.dlookup_cons_eq] at he
      obtain ⟨result, hresult, hat⟩ := he
      refine ⟨results.set e.1 result, ⟨hlt, result, hresult, rfl⟩, (ih hkeys.2 _).mpr ?_⟩
      rw [List.length_set]
      refine ⟨hlen, fun e' he' => hbounds e' (List.mem_cons_of_mem _ he'), ?_⟩
      intro i hi
      have hi' := hget i hi
      by_cases hie : i = e.1
      · subst hie
        rw [hfresh, hat, List.getElem?_set_self hlt]
      · rw [List.dlookup_cons_ne _ e hie] at hi'
        rwa [List.getElem?_set_ne (Ne.symm hie)]

/-- The output rules of an operation write outputs that it has. -/
def OutputsInBounds (rules : InferenceRules) (operation : Operation) : Prop :=
  ∀ i, rules.rulesForOutput operation i ≠ none → i < operation.numberOfOutputs

theorem applyOperationTransformer_eq_ok (rules : InferenceRules) (operation : Operation)
    (inputStates outs : List AbstractIfcTags) :
    applyOperationTransformer rules operation inputStates = .ok outs ↔
      outs.length = operation.numberOfOutputs ∧ OutputsInBounds rules operation ∧
      ∀ i < operation.numberOfOutputs, ∃ out,
        outputState rules operation inputStates i = .ok out ∧ outs[i]? = some out := by
  unfold applyOperationTransformer outputState OutputsInBounds InferenceRules.rulesForOutput
  cases hrules : rules.getOutputRulesForOperation operation with
  | none =>
    simp only [Checked.pure_eq_ok, Option.bind_none, ne_eq, not_true_eq_false, false_implies,
      implies_true, true_and, exists_eq_left']
    constructor
    · rintro rfl
      refine ⟨List.length_replicate, ?_⟩
      intro i hi
      simp only [List.getElem?_replicate, hi, if_true]
    · rintro ⟨hlen, hget⟩
      refine (List.eq_replicate_iff.mpr ⟨hlen, ?_⟩).symm
      intro b hb
      obtain ⟨i, hi, hib⟩ := List.getElem_of_mem hb
      have h := hget i (by omega)
      rw [List.getElem?_eq_getElem hi, hib] at h
      exact Option.some.inj h
  | some outputRules =>
    simp only [Option.bind_some]
    rw [foldlM_applyOutputRules _ _ _ outputRules.nodupKeys]
    rw [List.length_replicate]
    have hbounds : (∀ e ∈ outputRules.entries, e.1 < operation.numberOfOutputs) ↔
        ∀ i, outputRules.lookup i ≠ none → i < operation.numberOfOutputs := by
      constructor
      · intro h i hi
        have hmem : i ∈ outputRules := (FlatHashMap.mem_iff_lookup outputRules i).mpr hi
        obtain ⟨e, he, rfl⟩ := List.mem_map.mp (AList.mem_keys.mp hmem)
        exact h e he
      · intro h e he
        refine h e.1 ((FlatHashMap.mem_iff_lookup outputRules e.1).mp ?_)
        exact AList.mem_keys.mpr (List.mem_map.mpr ⟨e, he, rfl⟩)
    rw [hbounds]
    refine and_congr_right fun _ => and_congr_right fun _ => forall₂_congr fun i hi => ?_
    change (match outputRules.lookup i with
      | none => outs[i]? = _
      | some inferenceRules => _) ↔ _
    cases outputRules.lookup i with
    | none => simp [hi]
    | some inferenceRules => simp only

/-! ### Rules in bounds never abort -/

/-- All input indices of the rule are below `n`. -/
def RuleInBounds (n : ℕ) (rule : InferenceRule) : Prop :=
  (∀ premise ∈ rule.premises, premise.inputIndex < n) ∧
  match rule.conclusion with
  | .copyInput inputIndex => inputIndex < n
  | .modifyTag _ _ => True
  | .mergeIntegrityTags _ inputIndices => ∀ index ∈ inputIndices, index < n

instance (n : ℕ) (rule : InferenceRule) : Decidable (RuleInBounds n rule) :=
  match rule with
  | ⟨.copyInput inputIndex, premises⟩ =>
    inferInstanceAs (Decidable ((∀ premise ∈ premises, _) ∧ inputIndex < n))
  | ⟨.modifyTag _ _, premises⟩ => inferInstanceAs (Decidable ((∀ premise ∈ premises, _) ∧ True))
  | ⟨.mergeIntegrityTags _ inputIndices, premises⟩ =>
    inferInstanceAs (Decidable ((∀ premise ∈ premises, _) ∧ ∀ index ∈ inputIndices, index < n))

/-- All indices in the rules of an operation are in bounds. -/
def InBounds (rules : InferenceRules) (operation : Operation) : Prop :=
  ∀ i inferenceRules, rules.rulesForOutput operation i = some inferenceRules →
    i < operation.numberOfOutputs ∧
    ∀ rule ∈ inferenceRules, RuleInBounds operation.inputs.length rule

theorem InBounds.outputs {rules : InferenceRules} {operation : Operation}
    (h : InBounds rules operation) : OutputsInBounds rules operation := by
  intro i hi
  obtain ⟨inferenceRules, hsome⟩ := Option.ne_none_iff_exists'.mp hi
  exact (h i inferenceRules hsome).1

theorem inputAt_of_lt (inputStates : List AbstractIfcTags) (index : ℕ) (message : String)
    (h : index < inputStates.length) :
    inputAt inputStates index message = .ok inputStates[index] := by
  simp only [inputAt, List.getElem?_eq_getElem h]

theorem inputAt_eq_ok (inputStates : List AbstractIfcTags) (index : ℕ) (message : String)
    (state : AbstractIfcTags) :
    inputAt inputStates index message = .ok state ↔ inputStates[index]? = some state := by
  unfold inputAt
  cases inputStates[index]? <;> simp

theorem premisesNotSatisfied_total (inputStates : List AbstractIfcTags)
    (premises : List InputHasIntegrity)
    (h : ∀ premise ∈ premises, premise.inputIndex < inputStates.length) :
    ∃ b, premisesNotSatisfied inputStates premises = .ok b := by
  induction premises with
  | nil => exact ⟨false, rfl⟩
  | cons premise premises ih =>
    have hlt := h premise (List.mem_cons_self ..)
    obtain ⟨b, hb⟩ := ih fun p hp => h p (List.mem_cons_of_mem _ hp)
    simp only [premisesNotSatisfied, inputAt_of_lt _ _ _ hlt, hb]
    cases inputStates[premise.inputIndex] with
    | bottom => exact ⟨b, rfl⟩
    | tags s =>
      by_cases hmem : premise.tag ∈ s.integrityTags
      · exact ⟨b, by simp [AbstractIfcTags.isBottom, AbstractIfcTags.hasIntegrity, hmem]⟩
      · exact ⟨true, by simp [AbstractIfcTags.isBottom, AbstractIfcTags.hasIntegrity, hmem]⟩

theorem foldlM_mergeStep_total (kind : MergeIntegrityTags.Kind)
    (inputStates : List AbstractIfcTags) (hbot : ∀ s ∈ inputStates, s ≠ ⊥)
    (indices : List ℕ) (h : ∀ index ∈ indices, index < inputStates.length)
    (accumulated : Bool × TagIdSet) :
    ∃ merged, indices.foldlM (mergeStep kind inputStates) accumulated = .ok merged := by
  induction indices generalizing accumulated with
  | nil => exact ⟨accumulated, rfl⟩
  | cons index indices ih =>
    have hlt := h index (List.mem_cons_self ..)
    obtain ⟨s, hs⟩ := (AbstractIfcTags.ne_bot_iff _).mp (hbot _ (List.getElem_mem hlt))
    have hstep : ∃ mid, mergeStep kind inputStates accumulated index = .ok mid := by
      simp only [mergeStep, inputAt_of_lt _ _ _ hlt, hs]
      cases accumulated.1 with
      | true => exact ⟨(false, s.integrityTags), rfl⟩
      | false => cases kind <;> exact ⟨_, rfl⟩
    obtain ⟨mid, hmid⟩ := hstep
    obtain ⟨merged, hmerged⟩ := ih (fun i hi => h i (List.mem_cons_of_mem _ hi)) mid
    refine ⟨merged, ?_⟩
    simp only [List.foldlM_cons, hmid]
    exact hmerged

theorem interpretInferenceRule_total (rule : InferenceRule)
    (inputStates : List AbstractIfcTags) (currentValue : AbstractIfcTags)
    (h : RuleInBounds inputStates.length rule) :
    ∃ out, interpretInferenceRule rule inputStates currentValue = .ok out := by
  obtain ⟨b, hb⟩ := premisesNotSatisfied_total inputStates rule.premises h.1
  obtain ⟨conclusion, premises⟩ := rule
  simp only [interpretInferenceRule, hb]
  cases b with
  | true => exact ⟨currentValue, rfl⟩
  | false =>
    cases conclusion with
    | copyInput inputIndex => exact ⟨_, inputAt_of_lt _ _ _ h.2⟩
    | modifyTag kind tag => exact ⟨_, rfl⟩
    | mergeIntegrityTags kind inputIndices =>
      change ∃ out, inteprepretMergeIntegrityTags _ _ _ _ = .ok out
      unfold inteprepretMergeIntegrityTags
      split
      · exact ⟨_, rfl⟩
      · next hcur =>
        split
        · exact ⟨_, rfl⟩
        · next hany =>
          have hbot : ∀ s ∈ inputStates, s ≠ ⊥ := by
            intro s hs heq
            exact hany (List.any_eq_true.mpr ⟨s, hs, (AbstractIfcTags.isBottom_iff s).mpr heq⟩)
          obtain ⟨merged, hmerged⟩ := foldlM_mergeStep_total kind inputStates hbot
            inputIndices h.2 (true, ∅)
          cases currentValue with
          | bottom => exact absurd rfl hcur
          | tags s => exact ⟨.of s.secrecyTags merged.2, by
              simp [AbstractIfcTags.secrecyTags, hmerged]⟩

theorem foldlM_interpretInferenceRule_total (inputStates : List AbstractIfcTags)
    (inferenceRules : List InferenceRule)
    (h : ∀ rule ∈ inferenceRules, RuleInBounds inputStates.length rule)
    (accumulated : AbstractIfcTags) :
    ∃ out, inferenceRules.foldlM
      (fun accumulated rule => interpretInferenceRule rule inputStates accumulated)
      accumulated = .ok out := by
  induction inferenceRules generalizing accumulated with
  | nil => exact ⟨accumulated, rfl⟩
  | cons rule inferenceRules ih =>
    obtain ⟨mid, hmid⟩ := interpretInferenceRule_total rule inputStates accumulated
      (h rule (List.mem_cons_self ..))
    obtain ⟨out, hout⟩ := ih (fun r hr => h r (List.mem_cons_of_mem _ hr)) mid
    refine ⟨out, ?_⟩
    simp only [List.foldlM_cons, hmid]
    exact hout

theorem outputState_total (rules : InferenceRules) (operation : Operation)
    (inputStates : List AbstractIfcTags) (hlen : inputStates.length = operation.inputs.length)
    (h : InBounds rules operation) (i : ℕ) :
    ∃ out, outputState rules operation inputStates i = .ok out := by
  unfold outputState
  cases hrules : rules.rulesForOutput operation i with
  | none => exact ⟨_, rfl⟩
  | some inferenceRules =>
    refine foldlM_interpretInferenceRule_total inputStates inferenceRules ?_ _
    rw [hlen]
    exact (h i inferenceRules hrules).2

/-- With all indices in bounds the transformer of an operation never aborts. -/
theorem applyOperationTransformer_total (rules : InferenceRules) (operation : Operation)
    (inputStates : List AbstractIfcTags) (hlen : inputStates.length = operation.inputs.length)
    (h : InBounds rules operation) :
    ∃ outs, applyOperationTransformer rules operation inputStates = .ok outs := by
  choose out hout using outputState_total rules operation inputStates hlen h
  refine ⟨(List.range operation.numberOfOutputs).map out, ?_⟩
  refine (applyOperationTransformer_eq_ok _ _ _ _).mpr ⟨by simp, h.outputs, ?_⟩
  intro i hi
  refine ⟨out i, hout i, ?_⟩
  simp only [List.getElem?_map, List.getElem?_range hi, Option.map_some]

end Raksha.Taint
