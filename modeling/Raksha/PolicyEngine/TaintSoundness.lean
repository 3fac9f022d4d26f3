import Raksha.PolicyEngine.AbstractInterpretationPolicyChecker
import Raksha.Sql.Liveness

/-!
# Soundness of the policy checker

A secrecy tag that a tag transform adds unconditionally reaches every value that the data flows
to, as long as no wrapped merge on the way waits for an input that is never processed.
-/

namespace Raksha.PolicyEngine
open Raksha.Common Raksha.Ir Raksha.Analysis Raksha.Taint Raksha.Sql AbstractIfcTags

/-- The operation is a tag transform that the arena's rule `rule` decides. -/
structure HasPolicyRule (expr : ExpressionArena) (op : Operation) (rule : SqlPolicyRule) :
    Prop where
  named : HasRuleName op rule.name
  ordinary : ¬ TagTransformOp.IsSpecialRule rule.name
  declared : rule ∈ expr.sqlPolicyRules

/-- `T` adds the tag without preconditions to a result of an operation without inputs. -/
structure AddsTagToSource (expr : ExpressionArena) (module : Module) (T : Operation)
    (tag : String) : Prop where
  owned : T ∈ module.operations
  result : 0 < T.numberOfOutputs
  rule : ∃ rule, HasPolicyRule expr T rule ∧ rule.result = ⟨.addConfidentiality, tag⟩ ∧
    rule.preconditions = []
  operand : ∃ source ∈ module.operations, source.inputs = [] ∧
    ∃ i < source.numberOfOutputs, T.inputs.head? = some (source.getOutputValue i)

/-- One step of a chain of values: it enters an operation and leaves at one of its results. A
wrapped merge takes part when it is `ready`. -/
inductive FlowStep (expr : ExpressionArena) (module : Module) (ready : Operation → Prop)
    (tag : String) : Value → Value → Prop
  | default {op : Operation} {u : Value} {i : ℕ} : op ∈ module.operations → u ∈ op.inputs →
      HasDefaultOutput module op i → i < op.numberOfOutputs →
      FlowStep expr module ready tag u (op.getOutputValue i)
  | merge {op : Operation} {u : Value} : op ∈ module.operations → u ∈ op.inputs →
      IsWrapped module op → ready op → 0 < op.numberOfOutputs →
      FlowStep expr module ready tag u (op.getOutputValue 0)
  | transform {op : Operation} {u : Value} {rule : SqlPolicyRule} : op ∈ module.operations →
      op.inputs.head? = some u → HasPolicyRule expr op rule →
      rule.result ≠ ⟨.removeConfidentiality, tag⟩ → 0 < op.numberOfOutputs →
      FlowStep expr module ready tag u (op.getOutputValue 0)

section

variable {expr : ExpressionArena} {module : Module} {rules : InferenceRules}
  {valueStates : ValueStateMap AbstractIfcTags}

theorem HasPolicyRule.decoded (hd : Decoded expr module rules) {op : Operation}
    (hop : op ∈ module.operations) {rule : SqlPolicyRule} (h : HasPolicyRule expr op rule) :
    ∃ kind tag premises, DecodedTransform rules op rule kind tag premises := by
  obtain ⟨rule', kind, tag, premises, hrule', hname, hdecoded⟩ :=
    hd.transform op hop rule.name h.named h.ordinary
  rw [hd.distinct rule' hrule' rule h.declared hname] at hdecoded
  exact ⟨kind, tag, premises, hdecoded⟩

/-- The result of the adding transform has the tag at the end of every run. -/
theorem memSecrecy_source (hd : Decoded expr module rules)
    (hrun : ComputeIfcTags rules module valueStates) {T : Operation} {tag : String}
    (hT : AddsTagToSource expr module T tag) : ∃ id, rules.tags.lookup tag = some id ∧
      MemSecrecy id (currentStates valueStates (T.getOutputValue 0)) := by
  obtain ⟨rule, hrule, hresult, hpre⟩ := hT.rule
  obtain ⟨source, hsource, hnil, i, hi, hhead⟩ := hT.operand
  have hlive : Live module (source.getOutputValue i) := Live.source hsource hnil hi
  have hne := hd.ne_bottom_of_live hrun hlive
  have hdue : T.inputs = [] ∨ ∃ v ∈ T.inputs, valueStates.lookup v ≠ none :=
    Or.inr ⟨_, List.mem_of_mem_head? hhead, lookup_ne_none_of_ne_bottom hne⟩
  obtain ⟨out, hcase, hle⟩ := hd.settled_output hrun hT.owned hdue hT.result
  obtain ⟨kind, id, premises, hdecoded⟩ := hrule.decoded hd hT.owned
  rw [hcase.of_transform hd hT.owned hdecoded.marked] at hle
  have hkind : kind = .addSecrecy := by
    have h := hdecoded.kind
    rw [hresult] at h
    cases h
    rfl
  have hpremises : premises = [] := by
    have h := hdecoded.premises
    rw [hpre] at h
    cases h
    rfl
  subst hkind hpremises
  refine ⟨id, ?_, MemSecrecy.mono hle ?_⟩
  · have htag := hdecoded.tag
    rwa [hresult] at htag
  · have hhold : PremisesHold [] (T.inputs.map (currentStates valueStates)) :=
      fun p hp => absurd hp List.not_mem_nil
    simp only [transformState, if_pos hhold]
    refine (memSecrecy_applyModifyTag id .addSecrecy id _).mpr ⟨?_, Or.inl rfl⟩
    rwa [getD_map_zero T _ hhead]

theorem memSecrecy_step (hd : Decoded expr module rules)
    (hrun : ComputeIfcTags rules module valueStates) {tag : String} {id : TagId}
    (hid : rules.tags.lookup tag = some id) {u v : Value}
    (hstep : FlowStep expr module (AllInputsLive module) tag u v)
    (hu : MemSecrecy id (currentStates valueStates u)) :
    MemSecrecy id (currentStates valueStates v) := by
  have hentry := lookup_ne_none_of_ne_bottom (memSecrecy_ne_bottom hu)
  cases hstep with
  | @default op _ i hop hin hdefault hi =>
    obtain ⟨out, hcase, hle⟩ := hd.settled_output hrun hop (Or.inr ⟨u, hin, hentry⟩) hi
    rw [hcase.of_default hdefault] at hle
    exact MemSecrecy.mono hle
      ((memSecrecy_defaultState id _).mpr ⟨_, List.mem_map_of_mem hin, hu⟩)
  | @merge op _ hop hin hwrapped hready hi =>
    obtain ⟨out, hcase, hle⟩ := hd.settled_output hrun hop (Or.inr ⟨u, hin, hentry⟩) hi
    obtain ⟨T, hT, ruleName, hwraps⟩ := hwrapped
    obtain ⟨k, hmarked⟩ := hd.markedMerge hT hwraps
    rw [hcase.of_merge hmarked] at hle
    refine MemSecrecy.mono hle
      ((memSecrecy_mergeState id _ k _).mpr ⟨?_, _, List.mem_map_of_mem hin, hu⟩)
    intro s hs
    obtain ⟨w, hw, rfl⟩ := List.mem_map.mp hs
    exact hd.ne_bottom_of_live hrun (hready w hw)
  | @transform op _ rule hop hhead hrule hresult hi =>
    obtain ⟨out, hcase, hle⟩ := hd.settled_output hrun hop
      (Or.inr ⟨u, List.mem_of_mem_head? hhead, hentry⟩) hi
    obtain ⟨kind, id', premises, hdecoded⟩ := hrule.decoded hd hop
    rw [hcase.of_transform hd hop hdecoded.marked] at hle
    refine MemSecrecy.mono hle ?_
    simp only [transformState]
    rw [getD_map_zero op _ hhead]
    split
    · refine (memSecrecy_applyModifyTag id kind id' _).mpr ?_
      cases kind with
      | addSecrecy => exact ⟨memSecrecy_ne_bottom hu, Or.inr hu⟩
      | addIntegrity => exact hu
      | removeSecrecy =>
        refine ⟨?_, hu⟩
        rintro rfl
        -- A rule that removes the id of the tag removes the tag.
        have hname := hd.table.injective hdecoded.tag hid
        refine hresult ?_
        have hkind := hdecoded.kind
        obtain ⟨⟨action, name⟩, hr⟩ : ∃ result, rule.result = result := ⟨_, rfl⟩
        rw [hr] at hkind hname
        rw [hr]
        simp only at hname
        subst hname
        cases action <;> simp [getModifyTagKind] at hkind ⊢
    · exact hu

end

/-- When a tag transform adds a secrecy tag unconditionally to a source and a chain of values,
whose wrapped merges have live inputs only, leads to an egress operation, then no run of the
checker accepts the module. -/
theorem isModulePolicyCompliant_sound (expr : ExpressionArena) (module : Module)
    (seedTags : List String) (rules : InferenceRules) (egressOperationNames : Finset String)
    (hdecode : decodeSqlPolicyRules expr module seedTags = .ok rules) (T : Operation)
    (tag : String) (hT : AddsTagToSource expr module T tag) (v : Value)
    (hchain : Relation.ReflTransGen (FlowStep expr module (AllInputsLive module) tag)
      (T.getOutputValue 0) v)
    (hv : IsEgressInput egressOperationNames module v) :
    ¬ IsModulePolicyCompliant rules egressOperationNames module true := by
  have hd := decodeSqlPolicyRules_spec expr module seedTags rules hdecode
  rintro ⟨valueStates, hrun, hcheck⟩
  obtain ⟨id, hid, hsource⟩ := memSecrecy_source hd hrun hT
  have hflow : ∀ w, Relation.ReflTransGen (FlowStep expr module (AllInputsLive module) tag)
      (T.getOutputValue 0) w → MemSecrecy id (currentStates valueStates w) := by
    intro w hw
    induction hw with
    | refl => exact hsource
    | tail _ hstep ih => exact memSecrecy_step hd hrun hid hstep ih
  obtain ⟨s, hs, hmem⟩ := hflow v hchain
  have hlookup : valueStates.lookup v = some (.tags s) := by
    obtain ⟨state, hstate⟩ := Option.ne_none_iff_exists'.mp
      (lookup_ne_none_of_ne_bottom (hs ▸ tags_ne_bot s))
    rw [currentStates_eq, hstate, Option.getD_some] at hs
    rw [hstate, hs]
  have hclean := (checkEgresses_verdict hcheck).mp rfl v hv s hlookup
  rw [hclean] at hmem
  exact absurd hmem (Finset.notMem_empty id)

/-! ### Concrete modules -/

def addTagRule : SqlPolicyRule := { name := "add", result := ⟨.addConfidentiality, "t"⟩ }

theorem hasDefaultOutput_of_name {module : Module} {op : Operation} (i : ℕ)
    (hmerge : ¬ IsMergeOp op) (htransform : ¬ IsTagTransformOp op) :
    HasDefaultOutput module op i := by
  refine Or.inr ⟨?_, ?_⟩
  · rintro ⟨T, -, ruleName, hwraps⟩
    exact hmerge hwraps.isMerge
  · rintro ⟨ruleName, hname, -⟩
    exact htransform hname.transform

def operationOf (module : Module) (address : Address) : Operation :=
  (module.operationAt address).getD { address, op := ⟨"", 0⟩ }

theorem operationOf_mem {module : Module} {address : Address}
    (h : (module.operationAt address).isSome = true) :
    operationOf module address ∈ module.operations := by
  obtain ⟨op, hop⟩ := Option.isSome_iff_exists.mp h
  unfold operationOf
  rw [hop]
  exact ((module.operationAt_eq_some address op).mp hop).1

/-- `%0 = sql.literal`, `%1 = sql.tag_transform[rule_name: "add"](%0)`,
`%2 = sql.merge[control_input_start_index: 2](%1, %0)`,
`%3 = sql.tag_transform[rule_name: union rule](%2)`, `%4 = sql.sql_output(%3)`. -/
def liveMerge : Module where
  blocks := [⟨[
    { address := 0, op := ⟨literalOpName, 1⟩ },
    { address := 1, op := ⟨tagTransformOpName, 1⟩
      attributes := AList.singleton TagTransformOp.ruleNameAttribute (.string "add")
      inputs := [.operationResult 0 0] },
    { address := 2, op := ⟨mergeOpName, 1⟩
      attributes := AList.singleton MergeOp.controlInputStartIndex (.int64 2)
      inputs := [.operationResult 1 0, .operationResult 0 0] },
    { address := 3, op := ⟨tagTransformOpName, 1⟩
      attributes := AList.singleton TagTransformOp.ruleNameAttribute
        (.string TagTransformOp.unionItagRule)
      inputs := [.operationResult 2 0] },
    { address := 4, op := ⟨sqlOutputOpName, 1⟩, inputs := [.operationResult 3 0] }]⟩]
  distinct := by decide

theorem liveMerge_addsTag :
    AddsTagToSource ⟨[addTagRule]⟩ liveMerge (operationOf liveMerge 1) "t" := by
  refine ⟨operationOf_mem (by decide +kernel), by decide +kernel, ?_, ?_⟩
  · exact ⟨addTagRule, ⟨⟨by decide +kernel, by decide +kernel⟩, by decide +kernel,
      List.mem_singleton.mpr rfl⟩, rfl, rfl⟩
  · exact ⟨operationOf liveMerge 0, operationOf_mem (by decide +kernel), by decide +kernel, 0,
      by decide +kernel, by decide +kernel⟩

theorem liveMerge_wrapped : IsWrapped liveMerge (operationOf liveMerge 2) :=
  ⟨operationOf liveMerge 3, operationOf_mem (by decide +kernel), TagTransformOp.unionItagRule,
    ⟨by decide +kernel, by decide +kernel⟩, Or.inr rfl, ⟨0, by decide +kernel⟩,
    operationOf_mem (by decide +kernel), by decide +kernel⟩

theorem liveMerge_live : AllInputsLive liveMerge (operationOf liveMerge 2) := by
  have hsource : Live liveMerge ((operationOf liveMerge 0).getOutputValue 0) :=
    .source (operationOf_mem (by decide +kernel)) (by decide +kernel) (by decide +kernel)
  have htransform : Live liveMerge ((operationOf liveMerge 1).getOutputValue 0) :=
    .transform (operationOf_mem (by decide +kernel))
      ⟨"add", ⟨by decide +kernel, by decide +kernel⟩, by decide +kernel⟩ (by decide +kernel)
      hsource (by decide +kernel)
  intro u hu
  have hcases : u = (operationOf liveMerge 1).getOutputValue 0 ∨
      u = (operationOf liveMerge 0).getOutputValue 0 := by
    revert u
    decide +kernel
  rcases hcases with rfl | rfl
  · exact htransform
  · exact hsource

theorem liveMerge_rejected :
    ¬ IsModulePolicyCompliant (decodedRules ⟨[addTagRule]⟩ liveMerge) {sqlOutputOpName}
      liveMerge true := by
  have hmerge : FlowStep ⟨[addTagRule]⟩ liveMerge (AllInputsLive liveMerge) "t"
      ((operationOf liveMerge 1).getOutputValue 0)
      ((operationOf liveMerge 2).getOutputValue 0) :=
    .merge (operationOf_mem (by decide +kernel)) (by decide +kernel) liveMerge_wrapped
      liveMerge_live (by decide +kernel)
  have hdefault : HasDefaultOutput liveMerge (operationOf liveMerge 3) 0 := by
    refine Or.inr ⟨?_, ?_⟩
    · rintro ⟨T, -, ruleName, hwraps⟩
      exact absurd hwraps.isMerge (by decide +kernel)
    · rintro ⟨ruleName, hname, hspecial⟩
      have hrule : HasRuleName (operationOf liveMerge 3) TagTransformOp.unionItagRule :=
        ⟨by decide +kernel, by decide +kernel⟩
      rw [hname.unique hrule] at hspecial
      exact hspecial (Or.inr rfl)
  have hspecial : FlowStep ⟨[addTagRule]⟩ liveMerge (AllInputsLive liveMerge) "t"
      ((operationOf liveMerge 2).getOutputValue 0)
      ((operationOf liveMerge 3).getOutputValue 0) :=
    .default (operationOf_mem (by decide +kernel)) (by decide +kernel) hdefault
      (by decide +kernel)
  exact isModulePolicyCompliant_sound ⟨[addTagRule]⟩ liveMerge [] _ {sqlOutputOpName}
    (decodedRules_of_isOk (by decide +kernel)) (operationOf liveMerge 1) "t" liveMerge_addsTag
    ((operationOf liveMerge 3).getOutputValue 0)
    ((Relation.ReflTransGen.single hmerge).tail hspecial)
    ⟨operationOf liveMerge 4, operationOf_mem (by decide +kernel), by decide +kernel,
      by decide +kernel⟩

/-- `%0 = sql.literal`, `%1 = sql.tag_transform[rule_name: "add"](%0)`, `%2 = op(%2)`,
`%3 = sql.merge[control_input_start_index: 2](%1, %2)`,
`%4 = sql.tag_transform[rule_name: union rule](%3)`, `%5 = op(%3, %0)`,
`%6 = sql.sql_output(%5)`. -/
def deadMerge : Module where
  blocks := [⟨[
    { address := 0, op := ⟨literalOpName, 1⟩ },
    { address := 1, op := ⟨tagTransformOpName, 1⟩
      attributes := AList.singleton TagTransformOp.ruleNameAttribute (.string "add")
      inputs := [.operationResult 0 0] },
    { address := 2, op := ⟨"op", 1⟩, inputs := [.operationResult 2 0] },
    { address := 3, op := ⟨mergeOpName, 1⟩
      attributes := AList.singleton MergeOp.controlInputStartIndex (.int64 2)
      inputs := [.operationResult 1 0, .operationResult 2 0] },
    { address := 4, op := ⟨tagTransformOpName, 1⟩
      attributes := AList.singleton TagTransformOp.ruleNameAttribute
        (.string TagTransformOp.unionItagRule)
      inputs := [.operationResult 3 0] },
    { address := 5, op := ⟨"op", 1⟩, inputs := [.operationResult 3 0, .operationResult 0 0] },
    { address := 6, op := ⟨sqlOutputOpName, 1⟩, inputs := [.operationResult 5 0] }]⟩]
  distinct := by decide

/-- A chain through a wrapped merge that waits forever loses the tag: the checker accepts. -/
theorem deadMerge_accepted :
    (decodeSqlPolicyRules ⟨[addTagRule]⟩ deadMerge []).isOk = true ∧
    deadMerge.WellLinked ∧ MergesInBounds deadMerge ∧
    AddsTagToSource ⟨[addTagRule]⟩ deadMerge (operationOf deadMerge 1) "t" ∧
    Relation.ReflTransGen (FlowStep ⟨[addTagRule]⟩ deadMerge (fun _ => True) "t")
      ((operationOf deadMerge 1).getOutputValue 0) ((operationOf deadMerge 5).getOutputValue 0) ∧
    IsEgressInput {sqlOutputOpName} deadMerge ((operationOf deadMerge 5).getOutputValue 0) ∧
    IsModulePolicyCompliant (decodedRules ⟨[addTagRule]⟩ deadMerge) {sqlOutputOpName}
      deadMerge true := by
  have hwrapped : IsWrapped deadMerge (operationOf deadMerge 3) :=
    ⟨operationOf deadMerge 4, operationOf_mem (by decide +kernel), TagTransformOp.unionItagRule,
      ⟨by decide +kernel, by decide +kernel⟩, Or.inr rfl, ⟨0, by decide +kernel⟩,
      operationOf_mem (by decide +kernel), by decide +kernel⟩
  have hstep₁ : FlowStep ⟨[addTagRule]⟩ deadMerge (fun _ => True) "t"
      ((operationOf deadMerge 1).getOutputValue 0) ((operationOf deadMerge 3).getOutputValue 0) :=
    .merge (operationOf_mem (by decide +kernel)) (by decide +kernel) hwrapped trivial
      (by decide +kernel)
  have hstep₂ : FlowStep ⟨[addTagRule]⟩ deadMerge (fun _ => True) "t"
      ((operationOf deadMerge 3).getOutputValue 0) ((operationOf deadMerge 5).getOutputValue 0) :=
    .default (operationOf_mem (by decide +kernel)) (by decide +kernel)
      (hasDefaultOutput_of_name 0 (by decide +kernel) (by decide +kernel)) (by decide +kernel)
  refine ⟨by decide +kernel, by decide +kernel, mergesInBounds_of_all _ (by decide +kernel),
    ⟨operationOf_mem (by decide +kernel), by decide +kernel, ?_, ?_⟩,
    (Relation.ReflTransGen.single hstep₁).tail hstep₂,
    ⟨operationOf deadMerge 6, operationOf_mem (by decide +kernel), by decide +kernel,
      by decide +kernel⟩, ?_⟩
  · exact ⟨addTagRule, ⟨⟨by decide +kernel, by decide +kernel⟩, by decide +kernel,
      List.mem_singleton.mpr rfl⟩, rfl, rfl⟩
  · exact ⟨operationOf deadMerge 0, operationOf_mem (by decide +kernel), by decide +kernel, 0,
      by decide +kernel, by decide +kernel⟩
  · obtain ⟨valueStates, hrun, hcheck⟩ := scheduledVerdict_run
      (decodedRules ⟨[addTagRule]⟩ deadMerge) {sqlOutputOpName} deadMerge
      [0, 1, 3, 4, 5, 6] (by decide +kernel)
    refine ⟨valueStates, hrun, ?_⟩
    rw [hcheck]
    decide +kernel

end Raksha.PolicyEngine
