import Raksha.Taint.TaintAnalysis

/-!
# Termination of the taint analysis

Only the tags of the rules ever occur in a state, so a state can grow finitely often.
-/

namespace Raksha.Taint
open Raksha.Common Raksha.Ir Raksha.Analysis AbstractIfcTags

def InferenceRule.tag? (rule : InferenceRule) : Option TagId :=
  match rule.conclusion with
  | .modifyTag _ tag => some tag
  | _ => none

def ruleTags (rules : InferenceRules) : Finset TagId :=
  (rules.actionRules.entries.flatMap fun action =>
    action.2.entries.flatMap fun output => output.2.filterMap InferenceRule.tag?).toFinset

theorem mem_ruleTags {rules : InferenceRules} {operation : Operation} {i : ℕ}
    {inferenceRules : List InferenceRule}
    (h : rules.rulesForOutput operation i = some inferenceRules) {rule : InferenceRule}
    (hrule : rule ∈ inferenceRules) {tag : TagId} (htag : rule.tag? = some tag) :
    tag ∈ ruleTags rules := by
  obtain ⟨outputRules, hout, hlookup⟩ := Option.bind_eq_some_iff.mp h
  obtain ⟨action, -, hrules⟩ := Option.bind_eq_some_iff.mp hout
  have hentry : (⟨action, outputRules⟩ : Σ _ : String, OutputRules) ∈ rules.actionRules.entries :=
    AList.mem_lookup_iff.mp hrules
  have houtput : (⟨i, inferenceRules⟩ : Σ _ : ℕ, List InferenceRule) ∈ outputRules.entries :=
    AList.mem_lookup_iff.mp hlookup
  simp only [ruleTags, List.mem_toFinset, List.mem_flatMap, List.mem_filterMap]
  exact ⟨_, hentry, _, houtput, rule, hrule, htag⟩

def WithinTags (T : Finset TagId) : AbstractIfcTags → Prop
  | .bottom => True
  | .tags s => s.secrecyTags ⊆ T ∧ s.integrityTags ⊆ T

theorem withinTags_bot (T : Finset TagId) : WithinTags T ⊥ := trivial

theorem withinTags_initial (T : Finset TagId) (v : Value) :
    WithinTags T (getInitialState v) :=
  ⟨Finset.empty_subset T, Finset.empty_subset T⟩

theorem WithinTags.join {T : Finset TagId} {a b : AbstractIfcTags} (ha : WithinTags T a)
    (hb : WithinTags T b) : WithinTags T (a.join b) := by
  cases a with
  | bottom => exact hb
  | tags s =>
    cases b with
    | bottom => exact ha
    | tags t =>
      exact ⟨Finset.union_subset ha.1 hb.1, Finset.inter_subset_left.trans ha.2⟩

theorem WithinTags.applyModifyTag {T : Finset TagId} {a : AbstractIfcTags}
    (ha : WithinTags T a) (kind : ModifyTag.Kind) {tag : TagId} (htag : tag ∈ T) :
    WithinTags T (applyModifyTag kind tag a) := by
  cases a with
  | bottom => cases kind <;> exact trivial
  | tags s =>
    cases kind with
    | addSecrecy => exact ⟨Finset.insert_subset htag ha.1, ha.2⟩
    | removeSecrecy => exact ⟨(Finset.erase_subset _ _).trans ha.1, ha.2⟩
    | addIntegrity => exact ⟨ha.1, Finset.insert_subset htag ha.2⟩

theorem mergeStep_within {T : Finset TagId} {kind : MergeIntegrityTags.Kind}
    {inputs : List AbstractIfcTags} (hinputs : ∀ s ∈ inputs, WithinTags T s)
    (acc : Bool × TagIdSet) (hacc : acc.2 ⊆ T) (i : ℕ) (acc' : Bool × TagIdSet)
    (h : mergeStep kind inputs acc i = .ok acc') : acc'.2 ⊆ T := by
  simp only [mergeStep, Checked.bind_eq_ok, inputAt_eq_ok] at h
  obtain ⟨s, hs, tagSet, htagSet, h⟩ := h
  have hsub : tagSet ⊆ T := by
    have hwithin := hinputs s (List.mem_of_getElem? hs)
    cases s with
    | bottom => cases htagSet
    | tags t =>
      cases htagSet
      exact hwithin.2
  obtain ⟨first, acc⟩ := acc
  cases first with
  | true =>
    cases h
    exact hsub
  | false =>
    cases kind with
    | union =>
      cases h
      exact Finset.union_subset hacc hsub
    | intersect =>
      cases h
      exact Finset.inter_subset_left.trans hacc

theorem interpretInferenceRule_within {T : Finset TagId} {rule : InferenceRule}
    {inputs : List AbstractIfcTags} (hinputs : ∀ s ∈ inputs, WithinTags T s)
    (hrule : ∀ tag, rule.tag? = some tag → tag ∈ T) {current out : AbstractIfcTags}
    (hcurrent : WithinTags T current)
    (h : interpretInferenceRule rule inputs current = .ok out) : WithinTags T out := by
  obtain ⟨conclusion, premises⟩ := rule
  simp only [interpretInferenceRule, Checked.bind_eq_ok] at h
  obtain ⟨unsatisfied, -, h⟩ := h
  cases unsatisfied with
  | true =>
    cases h
    exact hcurrent
  | false =>
    cases conclusion with
    | copyInput index =>
      exact hinputs out (List.mem_of_getElem? ((inputAt_eq_ok _ _ _ _).mp h))
    | modifyTag kind tag =>
      cases h
      exact hcurrent.applyModifyTag kind (hrule tag rfl)
    | mergeIntegrityTags kind indices =>
      change inteprepretMergeIntegrityTags kind indices inputs current = .ok out at h
      unfold inteprepretMergeIntegrityTags at h
      split at h
      · cases h
        exact hcurrent
      · split at h
        · cases h
          exact trivial
        · simp only [Checked.bind_eq_ok] at h
          obtain ⟨secrecy, hsecrecy, merged, hmerged, h⟩ := h
          cases h
          cases current with
          | bottom => cases hsecrecy
          | tags s =>
            cases hsecrecy
            refine ⟨hcurrent.1, ?_⟩
            exact Checked.foldlM_invariant (fun acc : Bool × TagIdSet => acc.2 ⊆ T) _ _
              (fun acc hacc i _ acc' hstep => mergeStep_within hinputs acc hacc i acc' hstep)
              (Finset.empty_subset T) hmerged

theorem applyDefault_within {T : Finset TagId} (operation : Operation)
    {inputs : List AbstractIfcTags} (hinputs : ∀ s ∈ inputs, WithinTags T s) :
    WithinTags T (applyDefaultOperationTransformer operation inputs) := by
  have hjoin : WithinTags T (inputs.foldl AbstractIfcTags.join .bottom) := by
    refine List.foldlRecOn (motive := fun s => WithinTags T s) inputs AbstractIfcTags.join
      (b := .bottom) trivial ?_
    intro acc hacc s hs
    exact hacc.join (hinputs s hs)
  unfold applyDefaultOperationTransformer
  split
  · exact ⟨Finset.empty_subset T, Finset.empty_subset T⟩
  · cases hall : inputs.foldl AbstractIfcTags.join .bottom with
    | bottom => exact trivial
    | tags s =>
      rw [hall] at hjoin
      exact ⟨hjoin.1, Finset.empty_subset T⟩

theorem outputState_within {rules : InferenceRules} {operation : Operation}
    {inputs : List AbstractIfcTags}
    (hinputs : ∀ s ∈ inputs, WithinTags (ruleTags rules) s) {i : ℕ} {out : AbstractIfcTags}
    (h : outputState rules operation inputs i = .ok out) :
    WithinTags (ruleTags rules) out := by
  unfold outputState at h
  cases hrules : rules.rulesForOutput operation i with
  | none =>
    rw [hrules] at h
    cases h
    exact applyDefault_within operation hinputs
  | some inferenceRules =>
    rw [hrules] at h
    exact Checked.foldlM_invariant (WithinTags (ruleTags rules)) _ _
      (fun acc hacc rule hmem acc' hstep => interpretInferenceRule_within hinputs
        (fun tag htag => mem_ruleTags hrules hmem htag) hacc hstep)
      (applyDefault_within operation hinputs) h

theorem reachable_within {rules : InferenceRules} {module : Module}
    {state : IterationState AbstractIfcTags}
    (h : Reachable (taintSemantics rules) module state) (v : Value) :
    WithinTags (ruleTags rules) (currentStates state.valueStates v) := by
  refine ReachableUnder.closed (I := fun _ s => WithinTags (ruleTags rules) s)
    (fun _ => withinTags_bot _) (fun _ _ _ ha hb => ha.join hb)
    (fun v _ _ => withinTags_initial _ v) ?_ h v
  intro op _ ρ outputs _ hin happly i hi
  obtain ⟨-, -, hout⟩ := (applyOperationTransformer_eq_ok _ _ _ _).mp happly
  obtain ⟨out, hstate, hget⟩ := hout i hi
  rw [List.getD_eq_getElem?_getD, hget, Option.getD_some]
  refine outputState_within ?_ hstate
  intro s hs
  obtain ⟨v, hv, rfl⟩ := List.mem_map.mp hs
  exact hin v hv

/-- How often a state within `T` can still grow. -/
def tagRank (T : Finset TagId) : AbstractIfcTags → ℕ
  | .bottom => 2 * T.card + 1
  | .tags s => (T.card - s.secrecyTags.card) + s.integrityTags.card

theorem tagRank_falls (T : Finset TagId) :
    ChaoticIteration.RankFalls (V := Value) (tagRank T) (fun _ s => WithinTags T s) := by
  intro _ a b ha hb hlt
  cases b with
  | bottom => exact absurd (lt_of_lt_of_le hlt bot_le) (lt_irrefl a)
  | tags t =>
    have hint := Finset.card_le_card hb.2
    cases a with
    | bottom =>
      simp only [tagRank]
      omega
    | tags s =>
      have hsec := Finset.card_le_card ha.1
      have hsec' := Finset.card_le_card hb.1
      have hle : s.secrecyTags ⊆ t.secrecyTags ∧ t.integrityTags ⊆ s.integrityTags := hlt.le
      simp only [tagRank]
      rcases hle.1.eq_or_ssubset with heq | hsub
      · have hne : t.integrityTags ≠ s.integrityTags := by
          intro heq'
          obtain ⟨ss, si⟩ := s
          obtain ⟨ts, ti⟩ := t
          simp only at heq heq'
          subst heq heq'
          exact lt_irrefl _ hlt
        have hcard := Finset.card_lt_card (hle.2.ssubset_of_ne hne)
        rw [heq]
        omega
      · have hcard := Finset.card_lt_card hsub
        have hcard' := Finset.card_le_card hle.2
        omega

theorem computeIfcTags_or_aborts (rules : InferenceRules) (module : Module) :
    (∃ valueStates, ComputeIfcTags rules module valueStates) ∨
      ComputeFixpointAborts (taintSemantics rules) module :=
  computeFixpoint_or_aborts (I := fun _ s => WithinTags (ruleTags rules) s)
    (fun _ => withinTags_bot _)
    (fun _ hstate v => reachable_within hstate v) (tagRank_falls (ruleTags rules))

/-- With rules in bounds no check of the fixpoint computation fails. -/
theorem not_computeIfcTags_aborts (rules : InferenceRules) (module : Module)
    (h : ∀ op ∈ module.operations, InBounds rules op) :
    ¬ ComputeFixpointAborts (taintSemantics rules) module := by
  refine not_computeFixpointAborts _ _ ?_
  intro op hop inputs hlen
  obtain ⟨outputs, happly⟩ := applyOperationTransformer_total rules op inputs hlen (h op hop)
  exact ⟨outputs, happly, ((applyOperationTransformer_eq_ok _ _ _ _).mp happly).1⟩

/-- One iteration of the loop of `ComputeFixpoint` with the taint semantics. -/
abbrev TaintIteration (rules : InferenceRules) (module : Module) :
    IterationState AbstractIfcTags → IterationState AbstractIfcTags → Prop :=
  StepUnder (fun _ _ => True) (taintSemantics rules) module

/-- The loop of `ComputeFixpoint` ends after finitely many iterations: no run goes on forever,
and a run that has not ended can go on with any pending operation, with its results in any
order. -/
theorem computeFixpoint_terminates (rules : InferenceRules) (module : Module)
    (hbounds : ∀ op ∈ module.operations, InBounds rules op) :
    (∀ run : ℕ → IterationState AbstractIfcTags,
      Reachable (taintSemantics rules) module (run 0) →
        ∃ n, ¬ TaintIteration rules module (run n) (run (n + 1))) ∧
    ∀ state, Reachable (taintSemantics rules) module state → ∀ address ∈ state.worklist,
      ∃ op ∈ module.operations, op.address = address ∧ ∀ resultOrder, ∃ state',
        visitOperation (taintSemantics rules) module op resultOrder state = .ok state' := by
  refine ⟨?_, ?_⟩
  · intro run hinit
    by_contra! hforever
    have hreach : ∀ n, Reachable (taintSemantics rules) module (run n) := by
      intro n
      induction n with
      | zero => exact hinit
      | succ n ih => exact ih.step (hforever n)
    have hwf : WellFounded fun state' state => Reachable (taintSemantics rules) module state ∧
        TaintIteration rules module state state' :=
      step_wellFounded (I := fun _ s => WithinTags (ruleTags rules) s) (fun _ => withinTags_bot _)
        (fun _ hstate v => reachable_within hstate v) (tagRank_falls (ruleTags rules))
    obtain ⟨n, hn⟩ := WellFounded.not_rel_apply_succ (h := ⟨hwf⟩) run
    exact hn ⟨hreach n, hforever n⟩
  · intro state hstate address haddress
    obtain ⟨op, hop, rfl⟩ := hstate.worklist_owned haddress
    refine ⟨op, hop, rfl, ?_⟩
    intro resultOrder
    refine visitOperation_total (taintSemantics rules) module hop resultOrder state ?_
    obtain ⟨outputs, happly⟩ := applyOperationTransformer_total rules op _
      (List.length_map _) (hbounds op hop)
    exact ⟨outputs, happly, ((applyOperationTransformer_eq_ok _ _ _ _).mp happly).1⟩

/-- `%1` copies `%0` and adds a tag while `%1` itself has the tag. -/
def selfLoopRules : InferenceRules where
  tags := AList.singleton "t" 0
  tagNames := ["t"]
  actions := AList.singleton 1 "add"
  actionRules := AList.singleton "add" (AList.singleton 0
    [⟨.copyInput 0, []⟩, ⟨.modifyTag .addSecrecy 0, [⟨1, 0⟩]⟩])

theorem selfLoop_terminates : ∃ init,
    initializeStates (taintSemantics selfLoopRules) selfLoop
      (ModuleGraph.ofModule selfLoop).getNodes = .ok init ∧
    ∀ address ∈ init.worklist, ∃ op ∈ selfLoop.operations, op.address = address ∧
      ∀ resultOrder, ∃ state', visitOperation (taintSemantics selfLoopRules) selfLoop op
        resultOrder init = .ok state' := by
  have hbounds : ∀ op ∈ selfLoop.operations, InBounds selfLoopRules op := by
    have hrules : ∀ op ∈ selfLoop.operations, ∀ entry ∈
        ((selfLoopRules.getOutputRulesForOperation op).getD ∅).entries,
        entry.1 < op.numberOfOutputs ∧ ∀ rule ∈ entry.2, RuleInBounds op.inputs.length rule := by
      decide +kernel
    intro op hop i inferenceRules h
    obtain ⟨outputRules, hout, hlookup⟩ := Option.bind_eq_some_iff.mp h
    have hentry := hrules op hop ⟨i, inferenceRules⟩
    rw [hout, Option.getD_some] at hentry
    exact hentry (AList.mem_lookup_iff.mp hlookup)
  obtain ⟨init, hinit, -, -⟩ := initializeStates_eq_ok (taintSemantics selfLoopRules) selfLoop
    (ModuleGraph.ofModule selfLoop).getNodes (List.Perm.refl _)
  exact ⟨init, hinit, (computeFixpoint_terminates selfLoopRules selfLoop hbounds).2 init
    ⟨_, init, List.Perm.refl _, hinit, Relation.ReflTransGen.refl⟩⟩

end Raksha.Taint
