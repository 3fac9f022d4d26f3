import Mathlib.Order.Bounds.Basic
import Raksha.Taint.AbstractSemantics

/-!
# Monotone transformers

Rules without premises take larger inputs to larger outputs. A union of integrity tags shrinks with
its inputs, as the tags do; it waits for inputs that are bottom, and so does not grow from nothing.
-/

namespace Raksha.Taint
open Raksha.Common Raksha.Ir AbstractIfcTags

/-! ### Single rules -/

theorem applyModifyTag_mono (kind : ModifyTag.Kind) (tag : TagId) {a b : AbstractIfcTags}
    (h : a ≤ b) : applyModifyTag kind tag a ≤ applyModifyTag kind tag b := by
  cases a with
  | bottom =>
    have hbottom : applyModifyTag kind tag .bottom = .bottom := by cases kind <;> rfl
    rw [hbottom]
    exact bottom_le' _
  | tags s =>
    cases b with
    | bottom => exact absurd h (tags_le_bottom s)
    | tags t =>
      obtain ⟨hsecrecy, hintegrity⟩ := h
      cases kind with
      | addSecrecy => exact ⟨Finset.insert_subset_insert _ hsecrecy, hintegrity⟩
      | removeSecrecy => exact ⟨Finset.erase_subset_erase _ hsecrecy, hintegrity⟩
      | addIntegrity => exact ⟨hsecrecy, Finset.insert_subset_insert _ hintegrity⟩

/-- The accumulators of a merge over larger inputs. -/
def MergedLe (acc acc' : Bool × TagIdSet) : Prop := acc.1 = acc'.1 ∧ acc'.2 ⊆ acc.2

variable {inputs inputs' : List AbstractIfcTags}

theorem mergeStep_mono {kind : MergeIntegrityTags.Kind} (hle : List.Forall₂ (· ≤ ·) inputs inputs')
    {index : ℕ} {acc acc' out out' : Bool × TagIdSet} (hacc : MergedLe acc acc')
    (h : mergeStep kind inputs acc index = .ok out)
    (h' : mergeStep kind inputs' acc' index = .ok out') : MergedLe out out' := by
  simp only [mergeStep, Checked.bind_eq_ok, inputAt_eq_ok] at h h'
  obtain ⟨state, hstate, tags, htags, h⟩ := h
  obtain ⟨state', hstate', tags', htags', h'⟩ := h'
  have hstates := forall₂_getElem? hle hstate hstate'
  have hsubset : tags' ⊆ tags := by
    cases state with
    | bottom => cases htags
    | tags s =>
      cases state' with
      | bottom => cases htags'
      | tags s' =>
        cases htags
        cases htags'
        exact hstates.2
  obtain ⟨hfirst, hmerged⟩ := hacc
  rw [← hfirst] at h'
  by_cases hbegin : acc.1 = true
  · rw [if_pos hbegin] at h h'
    cases h
    cases h'
    exact ⟨rfl, hsubset⟩
  · rw [if_neg hbegin] at h h'
    cases kind with
    | union =>
      cases h
      cases h'
      exact ⟨rfl, Finset.union_subset_union hmerged hsubset⟩
    | intersect =>
      cases h
      cases h'
      exact ⟨rfl, Finset.inter_subset_inter hmerged hsubset⟩

theorem any_isBottom_of_le (hle : List.Forall₂ (· ≤ ·) inputs inputs')
    (h : inputs'.any isBottom = true) : inputs.any isBottom = true := by
  obtain ⟨state', hmem, hbottom⟩ := List.any_eq_true.mp h
  obtain ⟨i, hi⟩ := List.mem_iff_getElem?.mp hmem
  obtain ⟨state, hstate, hstates⟩ := forall₂_left hle hi
  refine List.any_eq_true.mpr ⟨state, List.mem_of_getElem? hstate, (isBottom_iff _).mpr ?_⟩
  rw [(isBottom_iff _).mp hbottom] at hstates
  exact le_bot_iff.mp hstates

theorem inteprepretMergeIntegrityTags_mono {kind : MergeIntegrityTags.Kind} {indices : List ℕ}
    (hle : List.Forall₂ (· ≤ ·) inputs inputs') {current current' out out' : AbstractIfcTags}
    (hcurrent : current ≤ current')
    (h : inteprepretMergeIntegrityTags kind indices inputs current = .ok out)
    (h' : inteprepretMergeIntegrityTags kind indices inputs' current' = .ok out') : out ≤ out' := by
  unfold inteprepretMergeIntegrityTags at h h'
  cases current with
  | bottom =>
    cases h
    exact bottom_le' _
  | tags s =>
    cases current' with
    | bottom => exact absurd hcurrent (tags_le_bottom s)
    | tags s' =>
      simp only [isBottom, Bool.false_eq_true, if_false] at h h'
      by_cases hbottom : inputs.any isBottom = true
      · rw [if_pos hbottom] at h
        cases h
        exact bottom_le' _
      · rw [if_neg hbottom] at h
        rw [if_neg (mt (any_isBottom_of_le hle) hbottom)] at h'
        simp only [secrecyTags, Checked.bind_eq_ok, Checked.pure_eq_ok, Except.ok.injEq,
          exists_eq_left'] at h h'
        obtain ⟨merged, hmerged, rfl⟩ := h
        obtain ⟨merged', hmerged', rfl⟩ := h'
        have hfold : MergedLe merged merged' := by
          refine Checked.foldlM_rel ?_ ⟨rfl, Finset.Subset.refl _⟩ hmerged hmerged'
          intro index _ acc acc' mid mid' hacc hstep hstep'
          exact mergeStep_mono hle hacc hstep hstep'
        exact ⟨hcurrent.1, hfold.2⟩

theorem interpretInferenceRule_mono {rule : InferenceRule} (hfree : rule.premises = [])
    (hle : List.Forall₂ (· ≤ ·) inputs inputs') {current current' out out' : AbstractIfcTags}
    (hcurrent : current ≤ current') (h : interpretInferenceRule rule inputs current = .ok out)
    (h' : interpretInferenceRule rule inputs' current' = .ok out') : out ≤ out' := by
  obtain ⟨conclusion, premises⟩ := rule
  cases hfree
  cases conclusion with
  | copyInput inputIndex =>
    exact forall₂_getElem? hle ((inputAt_eq_ok _ _ _ _).mp h) ((inputAt_eq_ok _ _ _ _).mp h')
  | modifyTag kind tag =>
    cases h
    cases h'
    exact applyModifyTag_mono kind tag hcurrent
  | mergeIntegrityTags kind inputIndices =>
    exact inteprepretMergeIntegrityTags_mono hle hcurrent h h'

/-! ### Operations -/

theorem foldl_join_mono (hle : List.Forall₂ (· ≤ ·) inputs inputs') {a b : AbstractIfcTags}
    (h : a ≤ b) : inputs.foldl join a ≤ inputs'.foldl join b := by
  induction hle generalizing a b with
  | nil => exact h
  | cons hhead _ ih => exact ih (sup_le_sup h hhead)

theorem applyDefaultOperationTransformer_mono (operation : Operation)
    (hle : List.Forall₂ (· ≤ ·) inputs inputs') :
    applyDefaultOperationTransformer operation inputs ≤
      applyDefaultOperationTransformer operation inputs' := by
  have hjoin := foldl_join_mono hle (le_refl' .bottom)
  unfold applyDefaultOperationTransformer
  cases hle with
  | nil => exact le_refl' _
  | cons hhead hrest =>
    rw [if_neg (List.cons_ne_nil _ _), if_neg (List.cons_ne_nil _ _)]
    split
    · exact bottom_le' _
    · next s hs =>
      split
      · next hs' =>
        rw [hs, hs'] at hjoin
        exact absurd hjoin (tags_le_bottom s)
      · next s' hs' =>
        rw [hs, hs'] at hjoin
        exact ⟨hjoin.1, Finset.Subset.refl _⟩

/-- The rules of an operation have no premises and are in bounds for `n` inputs. -/
def PremiseFree (rules : InferenceRules) (operation : Operation) (n : ℕ) : Prop :=
  ∀ i inferenceRules, rules.rulesForOutput operation i = some inferenceRules →
    i < operation.numberOfOutputs ∧
    ∀ rule ∈ inferenceRules, rule.premises = [] ∧ RuleInBounds n rule

theorem outputState_mono {rules : InferenceRules} {operation : Operation} {n : ℕ}
    (hfree : PremiseFree rules operation n) (hle : List.Forall₂ (· ≤ ·) inputs inputs') {i : ℕ}
    {out out' : AbstractIfcTags} (h : outputState rules operation inputs i = .ok out)
    (h' : outputState rules operation inputs' i = .ok out') : out ≤ out' := by
  have hdefault := applyDefaultOperationTransformer_mono operation hle
  unfold outputState at h h'
  cases hrules : rules.rulesForOutput operation i with
  | none =>
    rw [hrules] at h h'
    cases h
    cases h'
    exact hdefault
  | some inferenceRules =>
    rw [hrules] at h h'
    have hpremises := (hfree i inferenceRules hrules).2
    refine Checked.foldlM_rel ?_ hdefault h h'
    intro rule hrule acc acc' mid mid' hacc hstep hstep'
    exact interpretInferenceRule_mono (hpremises rule hrule).1 hle hacc hstep hstep'

theorem applyOperationTransformer_of_premiseFree {rules : InferenceRules} {operation : Operation}
    (hfree : PremiseFree rules operation inputs.length) :
    ∃ outs, applyOperationTransformer rules operation inputs = .ok outs := by
  have htotal : ∀ i, ∃ out, outputState rules operation inputs i = .ok out := by
    intro i
    unfold outputState
    cases hrules : rules.rulesForOutput operation i with
    | none => exact ⟨_, rfl⟩
    | some inferenceRules =>
      exact foldlM_interpretInferenceRule_total inputs inferenceRules
        (fun rule hrule => ((hfree i inferenceRules hrules).2 rule hrule).2) _
  choose out hout using htotal
  refine ⟨(List.range operation.numberOfOutputs).map out, ?_⟩
  refine (applyOperationTransformer_eq_ok _ _ _ _).mpr ⟨by simp, ?_, ?_⟩
  · intro i hi
    obtain ⟨inferenceRules, hsome⟩ := Option.ne_none_iff_exists'.mp hi
    exact (hfree i inferenceRules hsome).1
  · intro i hi
    refine ⟨out i, hout i, ?_⟩
    simp only [List.getElem?_map, List.getElem?_range hi, Option.map_some]

/-- Join is the least upper bound, and an operation whose rules have no premises is monotone in all
its inputs together. -/
theorem applyOperationTransformer_mono :
    (∀ a b : AbstractIfcTags, IsLUB {a, b} (a.join b)) ∧
    ∀ (rules : InferenceRules) (operation : Operation) (inputs inputs' : List AbstractIfcTags),
      PremiseFree rules operation inputs.length → List.Forall₂ (· ≤ ·) inputs inputs' →
      ∃ outs outs', applyOperationTransformer rules operation inputs = .ok outs ∧
        applyOperationTransformer rules operation inputs' = .ok outs' ∧
        List.Forall₂ (· ≤ ·) outs outs' := by
  refine ⟨fun a b => isLUB_pair, ?_⟩
  intro rules operation inputs inputs' hfree hle
  obtain ⟨outs, houts⟩ := applyOperationTransformer_of_premiseFree hfree
  obtain ⟨outs', houts'⟩ := applyOperationTransformer_of_premiseFree (hle.length_eq ▸ hfree)
  refine ⟨outs, outs', houts, houts', ?_⟩
  obtain ⟨hlength, -, hget⟩ := (applyOperationTransformer_eq_ok _ _ _ _).mp houts
  obtain ⟨hlength', -, hget'⟩ := (applyOperationTransformer_eq_ok _ _ _ _).mp houts'
  refine List.forall₂_iff_get.mpr ⟨hlength.trans hlength'.symm, fun i hi hi' => ?_⟩
  obtain ⟨out, hout, hat⟩ := hget i (hlength ▸ hi)
  obtain ⟨out', hout', hat'⟩ := hget' i (hlength ▸ hi)
  rw [List.getElem?_eq_getElem hi, Option.some.injEq] at hat
  rw [List.getElem?_eq_getElem hi', Option.some.injEq] at hat'
  rw [List.get_eq_getElem, List.get_eq_getElem, hat, hat']
  exact outputState_mono hfree hle hout hout'

/-- A union of the integrity tags of two inputs, whose secrecy tags then get one more. -/
def unionRules : InferenceRules where
  actionRules := AList.singleton "union" (AList.singleton 0
    [⟨.mergeIntegrityTags .union [0, 1], []⟩, ⟨.modifyTag .addSecrecy 2, []⟩])
  actions := AList.singleton 0 "union"

theorem unionRules_mono : ∃ outs outs',
    applyOperationTransformer unionRules ⟨0, ⟨"union", 1⟩, ∅, [.any, .any]⟩
      [.of ∅ {0}, .bottom] = .ok outs ∧
    applyOperationTransformer unionRules ⟨0, ⟨"union", 1⟩, ∅, [.any, .any]⟩
      [.of ∅ ∅, .of {3} {1}] = .ok outs' ∧ List.Forall₂ (· ≤ ·) outs outs' := by
  refine applyOperationTransformer_mono.2 _ _ _ _ ?_ ?_
  · intro i inferenceRules h
    have hrules : unionRules.rulesForOutput ⟨0, ⟨"union", 1⟩, ∅, [.any, .any]⟩ i =
        (AList.singleton 0 [⟨.mergeIntegrityTags .union [0, 1], []⟩,
          ⟨.modifyTag .addSecrecy 2, []⟩] : OutputRules).lookup i := rfl
    rw [hrules] at h
    obtain ⟨rfl, rfl⟩ : i = 0 ∧ inferenceRules = [⟨.mergeIntegrityTags .union [0, 1], []⟩,
        ⟨.modifyTag .addSecrecy 2, []⟩] := by
      have hmem := AList.mem_lookup_iff.mp h
      simpa [eq_comm] using hmem
    decide
  · exact .cons ⟨by decide, by decide⟩ (.cons (bottom_le' _) .nil)

end Raksha.Taint
