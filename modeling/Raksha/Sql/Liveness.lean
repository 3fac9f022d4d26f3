import Raksha.Sql.MarkSemantics
import Raksha.Taint.Termination

/-!
# Live values of a decoded module

A wrapped merge returns bottom until all its inputs have been processed, so a value behind an
input that is never processed stays bottom. The live values are those that end up with tags,
whatever the order of the iteration.
-/

namespace Raksha.Sql
open Raksha.Common Raksha.Ir Raksha.Analysis Raksha.Taint AbstractIfcTags

/-- The start index of the control inputs of wrapped merges is within their inputs. -/
def MergesInBounds (module : Module) : Prop :=
  ∀ op ∈ module.operations, IsWrapped module op →
    ∀ k, MergeOp.getControlInputStartIndex op = .ok k → k ≤ op.inputs.length

def TransformsHaveResult (module : Module) : Prop :=
  ∀ op ∈ module.operations, IsTagTransformOp op → 0 < op.numberOfOutputs

instance (module : Module) : Decidable (TransformsHaveResult module) :=
  inferInstanceAs (Decidable (∀ op ∈ module.operations, _ → _))

theorem mergesInBounds_of_all (module : Module)
    (h : ∀ op ∈ module.operations, ∀ k ∈ (MergeOp.getControlInputStartIndex op).toOption,
      k ≤ op.inputs.length) : MergesInBounds module := by
  intro op hop _ k hk
  refine h op hop k ?_
  rw [hk]
  rfl

/-- A wrapped merge of a well-linked module has the result that its wrapper reads. -/
theorem IsWrapped.hasResult {module : Module} (hlinked : module.WellLinked) {op : Operation}
    (h : IsWrapped module op) : 0 < op.numberOfOutputs := by
  obtain ⟨T, hT, ruleName, hwraps⟩ := h
  obtain ⟨index, hinputs⟩ := hwraps.operand
  obtain ⟨op', hop', i, hi, heq⟩ := hlinked T hT (op.getOutputValue index)
    (by rw [hinputs]; exact List.mem_singleton.mpr rfl) rfl
  obtain ⟨rfl, -⟩ := module.eq_of_output hwraps.owned hop' heq
  omega

/-- Default semantics applies to the output: the operation is unmarked, or the rules are about
another output. -/
def HasDefaultOutput (module : Module) (op : Operation) (i : ℕ) : Prop :=
  i ≠ 0 ∨ (¬ IsWrapped module op ∧ ¬ IsPolicyTransform op)

/-- How the output of an operation of a decoded module is computed. -/
inductive OutputCase (expr : ExpressionArena) (module : Module) (rules : InferenceRules)
    (op : Operation) (inputs : List AbstractIfcTags) (i : ℕ) : AbstractIfcTags → Prop
  | default : HasDefaultOutput module op i →
      OutputCase expr module rules op inputs i (defaultState inputs)
  | merge (kind : MergeIntegrityTags.Kind) (k : ℕ) : i = 0 →
      MarkedMerge module rules op kind k →
      OutputCase expr module rules op inputs i (mergeState kind k inputs)
  | transform (ruleName : String) (rule : SqlPolicyRule) (kind : ModifyTag.Kind) (tag : TagId)
      (premises : List InputHasIntegrity) : i = 0 → HasRuleName op ruleName →
      ¬ TagTransformOp.IsSpecialRule ruleName → rule ∈ expr.sqlPolicyRules →
      rule.name = ruleName → DecodedTransform rules op rule kind tag premises →
      OutputCase expr module rules op inputs i (transformState kind tag premises inputs)

theorem PremisesMatch.index_lt {rules : InferenceRules} {op : Operation}
    {preconditions : List SqlPolicyRule.Precondition} {premises : List InputHasIntegrity}
    (h : PremisesMatch rules op preconditions premises) :
    ∀ p ∈ premises, p.inputIndex < op.inputs.length := by
  unfold PremisesMatch at h
  induction h with
  | nil =>
    intro p hp
    cases hp
  | cons hhead _ ih =>
    intro p hp
    rcases List.mem_cons.mp hp with rfl | hmem
    · exact hhead.2.2.2.1
    · exact ih p hmem

theorem Decoded.outputCase {expr : ExpressionArena} {module : Module} {rules : InferenceRules}
    (hd : Decoded expr module rules) {op : Operation} (hop : op ∈ module.operations)
    {inputs : List AbstractIfcTags} (hlen : inputs.length = op.inputs.length) {i : ℕ}
    {out : AbstractIfcTags} (hout : outputState rules op inputs i = .ok out) :
    OutputCase expr module rules op inputs i out := by
  by_cases hwrapped : IsWrapped module op
  · obtain ⟨T, hT, ruleName, hwraps⟩ := id hwrapped
    obtain ⟨k, hmarked⟩ := hd.markedMerge hT hwraps
    by_cases hi : i = 0
    · subst hi
      rw [outputState_merge_of_ok hmarked.marked hout]
      exact .merge _ k rfl hmarked
    · rw [outputState_marked_succ hmarked.marked inputs hi] at hout
      cases hout
      exact .default (Or.inl hi)
  · by_cases htransform : IsPolicyTransform op
    · obtain ⟨n, hn, hspecial⟩ := id htransform
      obtain ⟨rule, kind, tag, premises, hrule, hname, hdecoded⟩ := hd.transform op hop n hn hspecial
      by_cases hi : i = 0
      · subst hi
        have hne : inputs ≠ [] := by
          intro hnil
          rw [hnil, List.length_nil, eq_comm, List.length_eq_zero_iff] at hlen
          exact hdecoded.inputs hlen
        have hindex : ∀ p ∈ premises, p.inputIndex < inputs.length := by
          rw [hlen]
          exact hdecoded.premises.index_lt
        rw [outputState_transform hdecoded.marked inputs hne hindex] at hout
        cases hout
        exact .transform n rule kind tag premises rfl hn hspecial hrule hname hdecoded
      · rw [outputState_marked_succ hdecoded.marked inputs hi] at hout
        cases hout
        exact .default (Or.inl hi)
    · rw [outputState_unmarked (hd.unmarked_of hop hwrapped htransform) inputs i] at hout
      cases hout
      exact .default (Or.inr ⟨hwrapped, htransform⟩)

section

variable {expr : ExpressionArena} {module : Module} {rules : InferenceRules}

theorem OutputCase.of_transform {op : Operation} {kind : ModifyTag.Kind} {tag : TagId}
    {premises : List InputHasIntegrity} {inputs : List AbstractIfcTags} {out : AbstractIfcTags}
    (hd : Decoded expr module rules) (hop : op ∈ module.operations)
    (hmark : MarkedAs rules op (.transform kind tag premises))
    (h : OutputCase expr module rules op inputs 0 out) :
    out = transformState kind tag premises inputs := by
  cases h with
  | default hdefault =>
    rcases hdefault with hne | ⟨hnotw, hnott⟩
    · exact absurd rfl hne
    · have hnone := hd.unmarked_of hop hnotw hnott
      unfold MarkedAs at hmark
      unfold Unmarked at hnone
      rw [hnone] at hmark
      cases hmark
  | merge kind' k hzero hmarked =>
    have hrules := rulesForOutput_zero hmark
    rw [rulesForOutput_zero hmarked.marked] at hrules
    cases hrules
  | transform n rule kind' tag' premises' hzero hname hspecial hrule hn hdecoded =>
    have hrules := rulesForOutput_zero hmark
    rw [rulesForOutput_zero hdecoded.marked] at hrules
    cases hrules
    rfl

theorem OutputCase.of_merge {op : Operation} {kind : MergeIntegrityTags.Kind} {k : ℕ}
    {inputs : List AbstractIfcTags} {out : AbstractIfcTags}
    (hmark : MarkedMerge module rules op kind k)
    (h : OutputCase expr module rules op inputs 0 out) : out = mergeState kind k inputs := by
  cases h with
  | default hdefault =>
    obtain ⟨T, hT, ruleName, hwraps, -⟩ := hmark.wrapper
    rcases hdefault with hne | ⟨hnot, -⟩
    · exact absurd rfl hne
    · exact absurd ⟨T, hT, ruleName, hwraps⟩ hnot
  | merge kind' k' hzero hmarked =>
    have hrules := rulesForOutput_zero hmark.marked
    rw [rulesForOutput_zero hmarked.marked] at hrules
    simp only [Mark.inferenceRules, mergeRules, Option.some.injEq, List.cons.injEq,
      InferenceRule.mk.injEq, Conclusion.mergeIntegrityTags.injEq] at hrules
    have hk := hmarked.index
    rw [hmark.index] at hk
    cases hk
    rw [hrules.1.1.1]
  | transform n rule kind' tag premises hzero hname hspecial hrule hn hdecoded =>
    have hrules := rulesForOutput_zero hmark.marked
    rw [rulesForOutput_zero hdecoded.marked] at hrules
    cases hrules

theorem OutputCase.of_default {op : Operation} {i : ℕ} {inputs : List AbstractIfcTags}
    {out : AbstractIfcTags} (hdefault : HasDefaultOutput module op i)
    (h : OutputCase expr module rules op inputs i out) : out = defaultState inputs := by
  cases h with
  | default _ => rfl
  | merge kind k hzero hmarked =>
    obtain ⟨T, hT, ruleName, hwraps, -⟩ := hmarked.wrapper
    rcases hdefault with hne | ⟨hnot, -⟩
    · exact absurd hzero hne
    · exact absurd ⟨T, hT, ruleName, hwraps⟩ hnot
  | transform n rule kind tag premises hzero hname hspecial hrule hn hdecoded =>
    rcases hdefault with hne | ⟨-, hnot⟩
    · exact absurd hzero hne
    · exact absurd ⟨n, hname, hspecial⟩ hnot

end

theorem Decoded.transformer_output {expr : ExpressionArena} {module : Module}
    {rules : InferenceRules} (hd : Decoded expr module rules)
    {op : Operation} (hop : op ∈ module.operations) (ρ : Value → AbstractIfcTags)
    {outputs : List AbstractIfcTags}
    (happly : applyOperationTransformer rules op (op.inputs.map ρ) = .ok outputs)
    {i : ℕ} (hi : i < op.numberOfOutputs) :
    OutputCase expr module rules op (op.inputs.map ρ) i (outputs.getD i ⊥) := by
  obtain ⟨-, -, hout⟩ := (applyOperationTransformer_eq_ok _ _ _ _).mp happly
  obtain ⟨out, hstate, hget⟩ := hout i hi
  rw [List.getD_eq_getElem?_getD, hget, Option.getD_some]
  exact hd.outputCase hop (List.length_map _) hstate

/-- The rules of a decoded module are in bounds when marked operations have a result. -/
theorem Decoded.inBounds {expr : ExpressionArena} {module : Module} {rules : InferenceRules}
    (hd : Decoded expr module rules) (hbounds : MergesInBounds module)
    {op : Operation} (hop : op ∈ module.operations)
    (hresult : IsWrapped module op ∨ IsPolicyTransform op → 0 < op.numberOfOutputs) :
    InBounds rules op := by
  intro i inferenceRules hrules
  by_cases hwrapped : IsWrapped module op
  · obtain ⟨T, hT, ruleName, hwraps⟩ := id hwrapped
    obtain ⟨k, hmarked⟩ := hd.markedMerge hT hwraps
    have hi : i = 0 := by
      by_contra hi
      rw [rulesForOutput_succ hmarked.marked hi] at hrules
      cases hrules
    subst hi
    rw [rulesForOutput_zero hmarked.marked] at hrules
    cases hrules
    refine ⟨hresult (Or.inl hwrapped), ?_⟩
    have hk := hbounds op hop hwrapped k hmarked.index
    simp only [Mark.inferenceRules, mergeRules, List.mem_singleton, forall_eq, RuleInBounds,
      List.not_mem_nil, false_implies, implies_true, true_and, List.mem_range]
    omega
  · by_cases htransform : IsPolicyTransform op
    · obtain ⟨n, hn, hspecial⟩ := id htransform
      obtain ⟨rule, kind, tag, premises, -, -, hdecoded⟩ := hd.transform op hop n hn hspecial
      have hi : i = 0 := by
        by_contra hi
        rw [rulesForOutput_succ hdecoded.marked hi] at hrules
        cases hrules
      subst hi
      rw [rulesForOutput_zero hdecoded.marked] at hrules
      cases hrules
      refine ⟨hresult (Or.inr htransform), ?_⟩
      have hlen := List.length_pos_iff.mpr hdecoded.inputs
      simp only [Mark.inferenceRules, transformRules, List.mem_cons, List.not_mem_nil, or_false,
        forall_eq_or_imp, forall_eq, RuleInBounds, false_implies, implies_true, true_and,
        and_true]
      exact ⟨hlen, hdecoded.premises.index_lt⟩
    · have hunmarked := hd.unmarked_of hop hwrapped htransform
      unfold Unmarked at hunmarked
      simp only [InferenceRules.rulesForOutput, hunmarked, Option.bind_none] at hrules
      cases hrules

/-! ### Live values -/

/-- The values whose state ends up different from bottom. -/
inductive Live (module : Module) : Value → Prop
  | operand {v : Value} : module.IsOperand v → v.isOperationResult = false → Live module v
  | source {op : Operation} {i : ℕ} : op ∈ module.operations → op.inputs = [] →
      i < op.numberOfOutputs → Live module (op.getOutputValue i)
  | default {op : Operation} {u : Value} {i : ℕ} : op ∈ module.operations →
      HasDefaultOutput module op i → u ∈ op.inputs → Live module u →
      i < op.numberOfOutputs → Live module (op.getOutputValue i)
  | merge {op : Operation} : op ∈ module.operations → IsWrapped module op →
      (∀ u ∈ op.inputs, Live module u) → 0 < op.numberOfOutputs →
      Live module (op.getOutputValue 0)
  | transform {op : Operation} {u : Value} : op ∈ module.operations → IsPolicyTransform op →
      op.inputs.head? = some u → Live module u → 0 < op.numberOfOutputs →
      Live module (op.getOutputValue 0)

def AllInputsLive (module : Module) (op : Operation) : Prop := ∀ u ∈ op.inputs, Live module u

theorem memSecrecy_ne_bottom {tag : TagId} {a : AbstractIfcTags} (h : MemSecrecy tag a) :
    a ≠ bottom := by
  obtain ⟨s, rfl, -⟩ := h
  exact tags_ne_bot s

section

variable {expr : ExpressionArena} {module : Module} {rules : InferenceRules}

theorem getD_map_zero (op : Operation) (ρ : Value → AbstractIfcTags) {u : Value}
    (hu : op.inputs.head? = some u) : (op.inputs.map ρ).getD 0 bottom = ρ u := by
  cases h : op.inputs with
  | nil =>
    rw [h] at hu
    cases hu
  | cons x rest =>
    rw [h] at hu
    cases hu
    rfl

theorem OutputCase.live {op : Operation} (hop : op ∈ module.operations)
    {ρ : Value → AbstractIfcTags} {i : ℕ} {out : AbstractIfcTags}
    (h : OutputCase expr module rules op (op.inputs.map ρ) i out)
    (hi : i < op.numberOfOutputs) (hne : out ≠ bottom)
    (hinputs : ∀ u ∈ op.inputs, ρ u ≠ bottom → Live module u) :
    Live module (op.getOutputValue i) := by
  cases h with
  | default hdefault =>
    rcases (defaultState_ne_bottom _).mp hne with hnil | ⟨s, hs, hsne⟩
    · exact Live.source hop (List.map_eq_nil_iff.mp hnil) hi
    · obtain ⟨u, hu, rfl⟩ := List.mem_map.mp hs
      exact Live.default hop hdefault hu (hinputs u hu hsne) hi
  | merge kind k hzero hmarked =>
    subst hzero
    obtain ⟨T, hT, ruleName, hwraps, -⟩ := hmarked.wrapper
    have hall := (mergeState_ne_bottom kind k _).mp hne
    exact Live.merge hop ⟨T, hT, ruleName, hwraps⟩
      (fun u hu => hinputs u hu (hall _ (List.mem_map_of_mem hu))) hi
  | transform ruleName rule kind tag premises hzero hname hspecial hrule hruleName hdecoded =>
    subst hzero
    have hhead := (transformState_ne_bottom kind tag premises _).mp hne
    obtain ⟨u, rest, hcons⟩ := List.exists_cons_of_ne_nil hdecoded.inputs
    have hu : op.inputs.head? = some u := by rw [hcons, List.head?_cons]
    rw [getD_map_zero op ρ hu] at hhead
    have hmem : u ∈ op.inputs := by
      rw [hcons]
      exact List.mem_cons_self ..
    exact Live.transform hop ⟨ruleName, hname, hspecial⟩ hu (hinputs u hmem hhead) hi

/-- Values that are not live are bottom in every state of every run. -/
theorem Decoded.eq_bottom_of_not_live (hd : Decoded expr module rules)
    {state : IterationState AbstractIfcTags}
    (hreach : Reachable (taintSemantics rules) module state) {v : Value}
    (hv : ¬ Live module v) : currentStates state.valueStates v = bottom := by
  have hfamily : ∀ v, currentStates state.valueStates v ≠ bottom → Live module v := by
    refine ReachableUnder.closed (I := fun v s => s ≠ bottom → Live module v)
      (fun v hne => absurd rfl hne) ?_ (fun v hoperand hres _ => Live.operand hoperand hres) ?_
      hreach
    · intro v a b ha hb hne
      by_cases hab : a = bottom
      · refine hb ?_
        rintro rfl
        rw [hab] at hne
        exact hne rfl
      · exact ha hab
    · intro op hop ρ outputs _ hin happly i hi hne
      exact (hd.transformer_output hop ρ happly hi).live hop hi hne hin
  by_contra hne
  exact hv (hfamily v hne)

theorem OutputCase.ne_bottom_of_default {op : Operation} {ρ : Value → AbstractIfcTags} {i : ℕ}
    {out : AbstractIfcTags} (h : OutputCase expr module rules op (op.inputs.map ρ) i out)
    (hdefault : HasDefaultOutput module op i) {u : Value} (hu : u ∈ op.inputs)
    (hne : ρ u ≠ bottom) : out ≠ bottom := by
  rw [h.of_default hdefault]
  exact (defaultState_ne_bottom _).mpr (Or.inr ⟨_, List.mem_map_of_mem hu, hne⟩)

theorem OutputCase.ne_bottom_of_all {op : Operation} {ρ : Value → AbstractIfcTags} {i : ℕ}
    {out : AbstractIfcTags} (h : OutputCase expr module rules op (op.inputs.map ρ) i out)
    (hall : ∀ u ∈ op.inputs, ρ u ≠ bottom) : out ≠ bottom := by
  have hmap : ∀ s ∈ op.inputs.map ρ, s ≠ bottom := by
    intro s hs
    obtain ⟨u, hu, rfl⟩ := List.mem_map.mp hs
    exact hall u hu
  cases h with
  | default _ =>
    refine (defaultState_ne_bottom _).mpr ?_
    cases hinputs : op.inputs with
    | nil => exact Or.inl rfl
    | cons u rest =>
      have hmem : u ∈ op.inputs := by
        rw [hinputs]
        exact List.mem_cons_self ..
      exact Or.inr ⟨ρ u, List.mem_cons_self .., hall u hmem⟩
  | merge kind k hzero hmarked => exact (mergeState_ne_bottom kind k _).mpr hmap
  | transform ruleName rule kind tag premises hzero hname hspecial hrule hruleName hdecoded =>
    refine (transformState_ne_bottom kind tag premises _).mpr ?_
    obtain ⟨u, rest, hcons⟩ := List.exists_cons_of_ne_nil hdecoded.inputs
    have hu : op.inputs.head? = some u := by rw [hcons, List.head?_cons]
    rw [getD_map_zero op ρ hu]
    refine hall u ?_
    rw [hcons]
    exact List.mem_cons_self ..

theorem OutputCase.ne_bottom_of_head (hd : Decoded expr module rules) {op : Operation}
    (hop : op ∈ module.operations) {ρ : Value → AbstractIfcTags} {out : AbstractIfcTags}
    (h : OutputCase expr module rules op (op.inputs.map ρ) 0 out)
    (htransform : IsPolicyTransform op) {u : Value} (hu : op.inputs.head? = some u)
    (hne : ρ u ≠ bottom) : out ≠ bottom := by
  obtain ⟨_, _, kind, tag, premises, _, _, _, hdecoded⟩ := hd.policyTransform hop htransform
  rw [h.of_transform hd hop hdecoded.marked]
  refine (transformState_ne_bottom kind tag premises _).mpr ?_
  rwa [getD_map_zero op ρ hu]

/-- At the end of a run an operation that is due has outputs below its result states. -/
theorem Decoded.settled_output (hd : Decoded expr module rules)
    {valueStates : ValueStateMap AbstractIfcTags} (h : ComputeIfcTags rules module valueStates)
    {op : Operation} (hop : op ∈ module.operations)
    (hdue : op.inputs = [] ∨ ∃ v ∈ op.inputs, valueStates.lookup v ≠ none)
    {i : ℕ} (hi : i < op.numberOfOutputs) :
    ∃ out, OutputCase expr module rules op (op.inputs.map (currentStates valueStates)) i out ∧
      out ≤ currentStates valueStates (op.getOutputValue i) := by
  obtain ⟨outputs, happly, -, hle⟩ := ComputeFixpoint.settled h hop hdue
  exact ⟨_, hd.transformer_output hop _ happly hi, (hle i hi).2⟩

theorem lookup_ne_none_of_ne_bottom {valueStates : ValueStateMap AbstractIfcTags} {v : Value}
    (h : currentStates valueStates v ≠ bottom) : valueStates.lookup v ≠ none := by
  intro hnone
  rw [currentStates_eq, hnone] at h
  exact h rfl

theorem Decoded.ne_bottom_of_live (hd : Decoded expr module rules)
    {valueStates : ValueStateMap AbstractIfcTags}
    (h : ComputeIfcTags rules module valueStates) {v : Value} (hv : Live module v) :
    currentStates valueStates v ≠ bottom := by
  induction hv with
  | operand hoperand hres =>
    have hlookup := h.lookup_operand hoperand hres
    rw [currentStates_eq, hlookup, Option.getD_some]
    exact of_ne_bot ∅ ∅
  | source hop hnil hi =>
    obtain ⟨out, hcase, hle⟩ := hd.settled_output h hop (Or.inl hnil) hi
    refine ne_bot_of_le hle (hcase.ne_bottom_of_all ?_)
    rw [hnil]
    intro u hu
    cases hu
  | default hop hdefault hu _ hi ih =>
    obtain ⟨out, hcase, hle⟩ := hd.settled_output h hop
      (Or.inr ⟨_, hu, lookup_ne_none_of_ne_bottom ih⟩) hi
    exact ne_bot_of_le hle (hcase.ne_bottom_of_default hdefault hu ih)
  | @merge op hop hwrapped _ hi ih =>
    have hdue : op.inputs = [] ∨ ∃ v ∈ op.inputs, valueStates.lookup v ≠ none := by
      cases hinputs : op.inputs with
      | nil => exact Or.inl rfl
      | cons u rest =>
        have hmem : u ∈ op.inputs := by
          rw [hinputs]
          exact List.mem_cons_self ..
        exact Or.inr ⟨u, List.mem_cons_self .., lookup_ne_none_of_ne_bottom (ih u hmem)⟩
    obtain ⟨out, hcase, hle⟩ := hd.settled_output h hop hdue hi
    exact ne_bot_of_le hle (hcase.ne_bottom_of_all ih)
  | transform hop htransform hu _ hi ih =>
    obtain ⟨out, hcase, hle⟩ := hd.settled_output h hop
      (Or.inr ⟨_, List.mem_of_mem_head? hu, lookup_ne_none_of_ne_bottom ih⟩) hi
    exact ne_bot_of_le hle (hcase.ne_bottom_of_head hd hop htransform hu ih)

theorem Decoded.lookup_of_live (hd : Decoded expr module rules)
    {valueStates : ValueStateMap AbstractIfcTags}
    (h : ComputeIfcTags rules module valueStates) {v : Value} (hv : Live module v) :
    ∃ s, valueStates.lookup v = some (.tags s) := by
  have hne := hd.ne_bottom_of_live h hv
  rw [currentStates_eq] at hne
  cases hlookup : valueStates.lookup v with
  | none =>
    rw [hlookup] at hne
    exact absurd rfl hne
  | some state =>
    cases state with
    | bottom =>
      rw [hlookup] at hne
      exact absurd rfl hne
    | tags s => exact ⟨s, rfl⟩

/-- At the end of every run the reached values that are not live are bottom, and only they. -/
theorem Decoded.lookup_eq_bottom_iff (hd : Decoded expr module rules)
    {valueStates : ValueStateMap AbstractIfcTags}
    (h : ComputeIfcTags rules module valueStates) (v : Value) :
    valueStates.lookup v = some ⊥ ↔ Reached module v ∧ ¬ Live module v := by
  rw [← ComputeFixpoint.lookup_ne_none_iff h v]
  constructor
  · intro hlookup
    refine ⟨by rw [hlookup]; exact Option.some_ne_none _, ?_⟩
    intro hlive
    refine hd.ne_bottom_of_live h hlive ?_
    rw [currentStates_eq, hlookup, Option.getD_some]
    rfl
  · rintro ⟨hsome, hlive⟩
    obtain ⟨s, hs⟩ := Option.ne_none_iff_exists'.mp hsome
    obtain ⟨state, hreach, -, rfl⟩ := h
    have hbot := hd.eq_bottom_of_not_live hreach hlive
    rw [currentStates_eq, hs, Option.getD_some] at hbot
    rw [hs, hbot]
    rfl

end

end Raksha.Sql
