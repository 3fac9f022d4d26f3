import Raksha.Sql.DecodedRules
import Raksha.Taint.AbstractSemantics

/-!
# The semantics of marked operations

What the transformer computes for an operation with default semantics, for a wrapped merge and
for a policy transform, as functions of the input states without checks, and which tags the
results have.
-/

namespace Raksha.Sql
open Raksha.Common Raksha.Ir Raksha.Taint AbstractIfcTags

def joinAll (inputs : List AbstractIfcTags) : AbstractIfcTags := inputs.foldl join bottom

def defaultState (inputs : List AbstractIfcTags) : AbstractIfcTags :=
  if inputs = [] then .of ∅ ∅
  else match joinAll inputs with
    | .bottom => .bottom
    | .tags s => .of s.secrecyTags ∅

def integrityOf : AbstractIfcTags → TagIdSet
  | .bottom => ∅
  | .tags s => s.integrityTags

def mergeTags : MergeIntegrityTags.Kind → TagIdSet → TagIdSet → TagIdSet
  | .union => (· ∪ ·)
  | .intersect => (· ∩ ·)

/-- The integrity tags of the direct inputs, united or intersected. -/
def mergedIntegrity (kind : MergeIntegrityTags.Kind) : List TagIdSet → TagIdSet
  | [] => ∅
  | tagSet :: tagSets => tagSets.foldl (mergeTags kind) tagSet

def mergeState (kind : MergeIntegrityTags.Kind) (k : ℕ) (inputs : List AbstractIfcTags) :
    AbstractIfcTags :=
  if bottom ∈ inputs then .bottom
  else match defaultState inputs with
    | .bottom => .bottom
    | .tags s => .of s.secrecyTags (mergedIntegrity kind ((inputs.take k).map integrityOf))

instance (tag : TagId) : (a : AbstractIfcTags) → Decidable (AssumesIntegrity tag a)
  | .bottom => isTrue fun _ h => nomatch h
  | .tags s => decidable_of_iff (tag ∈ s.integrityTags)
      ⟨fun h _ heq => by cases heq; exact h, fun h => h s rfl⟩

/-- All premises hold of the input states, where bottom has every integrity tag. -/
def PremisesHold (premises : List InputHasIntegrity) (inputs : List AbstractIfcTags) : Prop :=
  ∀ premise ∈ premises, AssumesIntegrity premise.tag (inputs.getD premise.inputIndex bottom)

instance (premises : List InputHasIntegrity) (inputs : List AbstractIfcTags) :
    Decidable (PremisesHold premises inputs) :=
  inferInstanceAs (Decidable (∀ premise ∈ premises, _))

def transformState (kind : ModifyTag.Kind) (tag : TagId) (premises : List InputHasIntegrity)
    (inputs : List AbstractIfcTags) : AbstractIfcTags :=
  let transformed := inputs.getD 0 bottom
  if PremisesHold premises inputs then applyModifyTag kind tag transformed else transformed

/-! ### The transformer computes these states -/

theorem applyDefault_eq (operation : Operation) (inputs : List AbstractIfcTags) :
    applyDefaultOperationTransformer operation inputs = defaultState inputs := rfl

theorem rulesForOutput_zero {rules : InferenceRules} {operation : Operation} {mark : Mark}
    (h : MarkedAs rules operation mark) :
    rules.rulesForOutput operation 0 = some mark.inferenceRules := by
  unfold MarkedAs at h
  simp only [InferenceRules.rulesForOutput, h, Option.bind_some]
  exact FlatHashMap.dlookup_cons [] 0 0 mark.inferenceRules

theorem rulesForOutput_succ {rules : InferenceRules} {operation : Operation} {mark : Mark}
    (h : MarkedAs rules operation mark) {i : ℕ} (hi : i ≠ 0) :
    rules.rulesForOutput operation i = none := by
  unfold MarkedAs at h
  simp only [InferenceRules.rulesForOutput, h, Option.bind_some]
  refine (FlatHashMap.dlookup_cons [] 0 i mark.inferenceRules).trans ?_
  rw [if_neg hi]
  rfl

theorem outputState_unmarked {rules : InferenceRules} {operation : Operation}
    (h : Unmarked rules operation) (inputs : List AbstractIfcTags) (i : ℕ) :
    outputState rules operation inputs i = .ok (defaultState inputs) := by
  unfold Unmarked at h
  simp only [outputState, InferenceRules.rulesForOutput, h, Option.bind_none, applyDefault_eq]
  rfl

theorem outputState_marked_succ {rules : InferenceRules} {operation : Operation} {mark : Mark}
    (h : MarkedAs rules operation mark) (inputs : List AbstractIfcTags) {i : ℕ} (hi : i ≠ 0) :
    outputState rules operation inputs i = .ok (defaultState inputs) := by
  simp only [outputState, rulesForOutput_succ h hi, applyDefault_eq]
  rfl

theorem mergeStep_spec (kind : MergeIntegrityTags.Kind) (inputs : List AbstractIfcTags)
    (hbot : bottom ∉ inputs) (i : ℕ) (hi : i < inputs.length) (acc : Bool × TagIdSet) :
    mergeStep kind inputs acc i = .ok (false,
      if acc.1 then integrityOf inputs[i] else mergeTags kind acc.2 (integrityOf inputs[i])) := by
  simp only [mergeStep, inputAt_of_lt inputs i _ hi]
  cases hs : inputs[i] with
  | bottom => exact absurd (hs ▸ List.getElem_mem hi) hbot
  | tags s =>
    obtain ⟨first, tagSet⟩ := acc
    cases first <;> cases kind <;> rfl

theorem foldlM_mergeStep (kind : MergeIntegrityTags.Kind) (inputs : List AbstractIfcTags)
    (hbot : bottom ∉ inputs) (k : ℕ) (hk : k ≤ inputs.length) :
    (List.range k).foldlM (mergeStep kind inputs) (true, ∅) =
      .ok (decide (k = 0), mergedIntegrity kind ((inputs.take k).map integrityOf)) := by
  induction k with
  | zero => rfl
  | succ k ih =>
    have hlt : k < inputs.length := hk
    rw [List.range_succ, List.foldlM_append, ih (by omega)]
    change (List.foldlM (mergeStep kind inputs) _ [k]) = _
    rw [List.foldlM_cons, mergeStep_spec kind inputs hbot k hlt]
    change Except.ok _ = _
    rw [List.take_succ_eq_append_getElem hlt, List.map_append]
    cases k with
    | zero => rfl
    | succ k =>
      obtain ⟨s, rest, hcons⟩ : ∃ s rest, inputs.take (k + 1) = s :: rest := by
        cases inputs with
        | nil => simp at hlt
        | cons s rest => exact ⟨s, rest.take k, rfl⟩
      simp [hcons, mergedIntegrity]

theorem outputState_merge {rules : InferenceRules} {operation : Operation}
    {kind : MergeIntegrityTags.Kind} {k : ℕ}
    (h : MarkedAs rules operation (.merge kind k)) (inputs : List AbstractIfcTags)
    (hk : k ≤ inputs.length) :
    outputState rules operation inputs 0 = .ok (mergeState kind k inputs) := by
  simp only [outputState, rulesForOutput_zero h, Mark.inferenceRules, mergeRules,
    List.foldlM_cons, List.foldlM_nil, interpretInferenceRule, premisesNotSatisfied,
    applyDefault_eq, bind_pure]
  change inteprepretMergeIntegrityTags kind (List.range k) inputs (defaultState inputs) = _
  unfold inteprepretMergeIntegrityTags mergeState
  have hany : inputs.any isBottom = true ↔ bottom ∈ inputs := by
    simp only [List.any_eq_true, isBottom_iff, exists_eq_right]
    rfl
  cases hdefault : defaultState inputs with
  | bottom =>
    simp only [isBottom, if_true]
    split <;> rfl
  | tags s =>
    simp only [isBottom, Bool.false_eq_true, if_false]
    by_cases hbot : bottom ∈ inputs
    · rw [if_pos (hany.mpr hbot), if_pos hbot]
      rfl
    · rw [if_neg (fun h => hbot (hany.mp h)), if_neg hbot]
      rw [foldlM_mergeStep kind inputs hbot k hk]
      rfl

/-- A merge whose transformer succeeds returns its merge state, in bounds or not. -/
theorem outputState_merge_of_ok {rules : InferenceRules} {operation : Operation}
    {kind : MergeIntegrityTags.Kind} {k : ℕ}
    (h : MarkedAs rules operation (.merge kind k)) {inputs : List AbstractIfcTags}
    {out : AbstractIfcTags} (hout : outputState rules operation inputs 0 = .ok out) :
    out = mergeState kind k inputs := by
  by_cases hk : k ≤ inputs.length
  · rw [outputState_merge h inputs hk] at hout
    cases hout
    rfl
  · simp only [outputState, rulesForOutput_zero h, Mark.inferenceRules, mergeRules,
      List.foldlM_cons, List.foldlM_nil, interpretInferenceRule, premisesNotSatisfied,
      applyDefault_eq, bind_pure] at hout
    change inteprepretMergeIntegrityTags kind (List.range k) inputs (defaultState inputs) = _
      at hout
    unfold inteprepretMergeIntegrityTags at hout
    unfold mergeState
    have hany : inputs.any isBottom = true ↔ bottom ∈ inputs := by
      simp only [List.any_eq_true, isBottom_iff, exists_eq_right]
      rfl
    cases hdefault : defaultState inputs with
    | bottom =>
      rw [hdefault] at hout
      cases hout
      simp
    | tags s =>
      rw [hdefault] at hout
      simp only [isBottom, Bool.false_eq_true, if_false] at hout
      by_cases hbot : bottom ∈ inputs
      · rw [if_pos (hany.mpr hbot)] at hout
        cases hout
        rw [if_pos hbot]
      · rw [if_neg (fun h => hbot (hany.mp h))] at hout
        simp only [Checked.bind_eq_ok] at hout
        obtain ⟨_, -, merged, hmerged, -⟩ := hout
        -- The fold reads the input `inputs.length`, which does not exist.
        have hsteps := Checked.foldlM_step (fun _ _ => True) (fun _ => trivial)
          (fun _ _ _ _ _ => trivial) (mergeStep kind inputs) (List.range k)
          (fun _ _ _ _ _ => trivial) hmerged
        obtain ⟨acc, acc', -, hstep, -⟩ :=
          hsteps.2 inputs.length (List.mem_range.mpr (by omega))
        simp only [mergeStep, Checked.bind_eq_ok, inputAt_eq_ok] at hstep
        obtain ⟨input, hinput, -⟩ := hstep
        rw [List.getElem?_eq_none (le_refl _)] at hinput
        cases hinput

theorem premisesNotSatisfied_eq (inputs : List AbstractIfcTags)
    (premises : List InputHasIntegrity) (h : ∀ p ∈ premises, p.inputIndex < inputs.length) :
    premisesNotSatisfied inputs premises = .ok (decide (¬ PremisesHold premises inputs)) := by
  induction premises with
  | nil => simp [premisesNotSatisfied, PremisesHold, pure, Except.pure]
  | cons p premises ih =>
    have hlt := h p (List.mem_cons_self ..)
    have hrest := ih fun q hq => h q (List.mem_cons_of_mem _ hq)
    have hget : inputs.getD p.inputIndex bottom = inputs[p.inputIndex] := by
      rw [List.getD_eq_getElem?_getD, List.getElem?_eq_getElem hlt, Option.getD_some]
    have hcons : PremisesHold (p :: premises) inputs ↔
        AssumesIntegrity p.tag inputs[p.inputIndex] ∧ PremisesHold premises inputs := by
      unfold PremisesHold
      rw [List.forall_mem_cons, hget]
    simp only [premisesNotSatisfied, inputAt_of_lt inputs _ _ hlt, hrest, hcons]
    cases inputs[p.inputIndex] with
    | bottom =>
      have hassumes : AssumesIntegrity p.tag bottom := fun _ h => nomatch h
      simp [isBottom, hassumes, bind, Except.bind]
    | tags s =>
      have hassumes : AssumesIntegrity p.tag (tags s) ↔ p.tag ∈ s.integrityTags :=
        ⟨fun h => h s rfl, fun h _ heq => by cases heq; exact h⟩
      by_cases hmem : p.tag ∈ s.integrityTags
      · simp [isBottom, hasIntegrity, hassumes, hmem, bind, Except.bind]
      · simp [isBottom, hasIntegrity, hassumes, hmem, bind, Except.bind, pure, Except.pure]

theorem outputState_transform {rules : InferenceRules} {operation : Operation}
    {kind : ModifyTag.Kind} {tag : TagId} {premises : List InputHasIntegrity}
    (h : MarkedAs rules operation (.transform kind tag premises))
    (inputs : List AbstractIfcTags) (hinputs : inputs ≠ [])
    (hpremises : ∀ p ∈ premises, p.inputIndex < inputs.length) :
    outputState rules operation inputs 0 = .ok (transformState kind tag premises inputs) := by
  obtain ⟨x, rest, rfl⟩ := List.exists_cons_of_ne_nil hinputs
  simp only [outputState, rulesForOutput_zero h, Mark.inferenceRules, transformRules,
    List.foldlM_cons, List.foldlM_nil, interpretInferenceRule,
    premisesNotSatisfied_eq _ _ hpremises, premisesNotSatisfied, bind_pure]
  by_cases hhold : PremisesHold premises (x :: rest)
  · simp [transformState, hhold, inputAt, bind, Except.bind, pure, Except.pure]
  · simp [transformState, hhold, inputAt, bind, Except.bind, pure, Except.pure]

/-! ### Bottom and secrecy of the results -/

theorem memSecrecy_sup (tag : TagId) (a b : AbstractIfcTags) :
    MemSecrecy tag (a.join b) ↔ MemSecrecy tag a ∨ MemSecrecy tag b := by
  cases a with
  | bottom => simp [join, MemSecrecy]
  | tags s =>
    cases b with
    | bottom => simp [join, MemSecrecy]
    | tags t => simp [join, MemSecrecy, of]

theorem join_eq_bottom (a b : AbstractIfcTags) : a.join b = bottom ↔ a = bottom ∧ b = bottom := by
  cases a <;> cases b <;> simp [join, of]

theorem joinAll_spec (inputs : List AbstractIfcTags) :
    (joinAll inputs = bottom ↔ ∀ s ∈ inputs, s = bottom) ∧
    ∀ tag, MemSecrecy tag (joinAll inputs) ↔ ∃ s ∈ inputs, MemSecrecy tag s := by
  have hloop : ∀ acc : AbstractIfcTags,
      (inputs.foldl join acc = bottom ↔ acc = bottom ∧ ∀ s ∈ inputs, s = bottom) ∧
      ∀ tag, MemSecrecy tag (inputs.foldl join acc) ↔
        MemSecrecy tag acc ∨ ∃ s ∈ inputs, MemSecrecy tag s := by
    induction inputs with
    | nil => simp
    | cons s inputs ih =>
      intro acc
      obtain ⟨hbot, hsec⟩ := ih (acc.join s)
      refine ⟨?_, ?_⟩
      · rw [List.foldl_cons, hbot, join_eq_bottom, List.forall_mem_cons, and_assoc]
      · intro tag
        simp only [List.foldl_cons, hsec tag, memSecrecy_sup, List.mem_cons, exists_eq_or_imp,
          or_assoc]
  obtain ⟨hbot, hsec⟩ := hloop bottom
  refine ⟨?_, ?_⟩
  · rw [joinAll, hbot]
    simp
  · intro tag
    rw [joinAll, hsec tag]
    simp [MemSecrecy]

theorem defaultState_ne_bottom (inputs : List AbstractIfcTags) :
    defaultState inputs ≠ bottom ↔ inputs = [] ∨ ∃ s ∈ inputs, s ≠ bottom := by
  unfold defaultState
  by_cases hnil : inputs = []
  · simp [hnil, of]
  · have hjoin := (joinAll_spec inputs).1
    rw [if_neg hnil]
    cases hall : joinAll inputs with
    | bottom =>
      have hbot := hjoin.mp hall
      simp only [ne_eq, not_true_eq_false, hnil, false_or, false_iff, not_exists, not_and,
        not_not]
      exact hbot
    | tags s =>
      have hsome : ∃ s ∈ inputs, s ≠ bottom := by
        by_contra hnone
        push Not at hnone
        rw [hjoin.mpr hnone] at hall
        cases hall
      simp [of, hsome]

theorem memSecrecy_defaultState (tag : TagId) (inputs : List AbstractIfcTags) :
    MemSecrecy tag (defaultState inputs) ↔ ∃ s ∈ inputs, MemSecrecy tag s := by
  rw [← (joinAll_spec inputs).2 tag]
  unfold defaultState
  by_cases hnil : inputs = []
  · subst hnil
    simp [joinAll, MemSecrecy, of]
  · rw [if_neg hnil]
    cases joinAll inputs <;> simp [MemSecrecy, of]

theorem integrityOf_defaultState (inputs : List AbstractIfcTags) :
    integrityOf (defaultState inputs) = ∅ := by
  unfold defaultState
  split
  · rfl
  · split <;> rfl

theorem mergeState_ne_bottom (kind : MergeIntegrityTags.Kind) (k : ℕ)
    (inputs : List AbstractIfcTags) :
    mergeState kind k inputs ≠ bottom ↔ ∀ s ∈ inputs, s ≠ bottom := by
  have hdefault := defaultState_ne_bottom inputs
  unfold mergeState
  by_cases hbot : bottom ∈ inputs
  · simp only [hbot, if_true, ne_eq, not_true_eq_false, false_iff, not_forall, not_not]
    exact ⟨bottom, hbot, rfl⟩
  · have hall : ∀ s ∈ inputs, s ≠ bottom := fun s hs heq => hbot (heq ▸ hs)
    have hne : defaultState inputs ≠ bottom := by
      refine hdefault.mpr ?_
      cases inputs with
      | nil => exact Or.inl rfl
      | cons s rest => exact Or.inr ⟨s, List.mem_cons_self .., hall s (List.mem_cons_self ..)⟩
    rw [if_neg hbot]
    cases hstate : defaultState inputs with
    | bottom => exact absurd hstate hne
    | tags s => simpa [of] using hall

theorem memSecrecy_mergeState (tag : TagId) (kind : MergeIntegrityTags.Kind) (k : ℕ)
    (inputs : List AbstractIfcTags) : MemSecrecy tag (mergeState kind k inputs) ↔
      (∀ s ∈ inputs, s ≠ bottom) ∧ ∃ s ∈ inputs, MemSecrecy tag s := by
  rw [← memSecrecy_defaultState]
  unfold mergeState
  by_cases hbot : bottom ∈ inputs
  · rw [if_pos hbot]
    constructor
    · rintro ⟨s, hs, -⟩
      cases hs
    · rintro ⟨hall, -⟩
      exact absurd rfl (hall bottom hbot)
  · have hall : ∀ s ∈ inputs, s ≠ bottom := fun s hs heq => hbot (heq ▸ hs)
    rw [if_neg hbot]
    cases defaultState inputs with
    | bottom => simp [MemSecrecy]
    | tags s => simpa [MemSecrecy, of] using fun _ => hall

theorem integrityOf_mergeState (kind : MergeIntegrityTags.Kind) (k : ℕ)
    (inputs : List AbstractIfcTags) (h : ∀ s ∈ inputs, s ≠ bottom) :
    integrityOf (mergeState kind k inputs) =
      mergedIntegrity kind ((inputs.take k).map integrityOf) := by
  have hne := (mergeState_ne_bottom kind k inputs).mpr h
  unfold mergeState at hne ⊢
  split
  · next hbot => exact absurd rfl (h bottom hbot)
  · next hbot =>
    rw [if_neg hbot] at hne
    cases hstate : defaultState inputs with
    | bottom =>
      rw [hstate] at hne
      exact absurd rfl hne
    | tags s => rfl

theorem applyModifyTag_ne_bottom (kind : ModifyTag.Kind) (tag : TagId) (a : AbstractIfcTags) :
    applyModifyTag kind tag a ≠ bottom ↔ a ≠ bottom := by
  cases a <;> cases kind <;>
    simp [applyModifyTag, setIntegrity, setSecrecy, clearSecrecy, of]

theorem transformState_ne_bottom (kind : ModifyTag.Kind) (tag : TagId)
    (premises : List InputHasIntegrity) (inputs : List AbstractIfcTags) :
    transformState kind tag premises inputs ≠ bottom ↔ inputs.getD 0 bottom ≠ bottom := by
  unfold transformState
  simp only
  split
  · exact applyModifyTag_ne_bottom kind tag _
  · exact Iff.rfl

theorem memSecrecy_applyModifyTag (t : TagId) (kind : ModifyTag.Kind) (tag : TagId)
    (a : AbstractIfcTags) : MemSecrecy t (applyModifyTag kind tag a) ↔ match kind with
      | .addSecrecy => a ≠ bottom ∧ (t = tag ∨ MemSecrecy t a)
      | .removeSecrecy => t ≠ tag ∧ MemSecrecy t a
      | .addIntegrity => MemSecrecy t a := by
  cases a <;> cases kind <;>
    simp [applyModifyTag, setIntegrity, setSecrecy, clearSecrecy, of, MemSecrecy]

theorem integrityOf_applyModifyTag (kind : ModifyTag.Kind) (tag : TagId) (a : AbstractIfcTags)
    (ha : a ≠ bottom) : integrityOf (applyModifyTag kind tag a) = match kind with
      | .addIntegrity => insert tag (integrityOf a)
      | _ => integrityOf a := by
  cases a with
  | bottom => exact absurd rfl ha
  | tags s => cases kind <;> rfl

/-! ### Merged integrity tags -/

theorem mem_mergedIntegrity_union (tag : TagId) (tagSets : List TagIdSet) :
    tag ∈ mergedIntegrity .union tagSets ↔ ∃ s ∈ tagSets, tag ∈ s := by
  cases tagSets with
  | nil => simp [mergedIntegrity]
  | cons s tagSets =>
    have hloop : ∀ acc : TagIdSet, tag ∈ tagSets.foldl (mergeTags .union) acc ↔
        tag ∈ acc ∨ ∃ s ∈ tagSets, tag ∈ s := by
      induction tagSets with
      | nil => simp
      | cons t tagSets ih =>
        intro acc
        simp only [List.foldl_cons, ih, List.mem_cons, exists_eq_or_imp, ← or_assoc]
        exact or_congr_left Finset.mem_union
    simp only [List.mem_cons, exists_eq_or_imp]
    exact hloop s

theorem mem_mergedIntegrity_intersect (tag : TagId) (tagSets : List TagIdSet) :
    tag ∈ mergedIntegrity .intersect tagSets ↔ tagSets ≠ [] ∧ ∀ s ∈ tagSets, tag ∈ s := by
  cases tagSets with
  | nil => simp [mergedIntegrity]
  | cons s tagSets =>
    have hloop : ∀ acc : TagIdSet, tag ∈ tagSets.foldl (mergeTags .intersect) acc ↔
        tag ∈ acc ∧ ∀ s ∈ tagSets, tag ∈ s := by
      induction tagSets with
      | nil => simp
      | cons t tagSets ih =>
        intro acc
        rw [List.foldl_cons, ih, List.forall_mem_cons, ← and_assoc]
        exact and_congr_left fun _ => Finset.mem_inter
    rw [List.forall_mem_cons]
    simp only [ne_eq, reduceCtorEq, not_false_eq_true, true_and]
    exact hloop s

end Raksha.Sql
