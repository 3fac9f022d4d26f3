import Raksha.PolicyEngine.LoweredTags
import Raksha.PolicyEngine.ScheduleIndependence

/-!
# Agreement of the policy engines on integrity tags

The fixpoint iteration and the Datalog program are compared, one operation after the other along
the data flow, with the solution of the module. The engines differ only on the result of a tag
transform with a special rule: the iteration treats it like any unmarked operation, Datalog
passes the tags of the merge on.
-/

namespace Raksha.PolicyEngine
open Datalog
open Raksha.Common Raksha.Ir Raksha.Analysis Raksha.Taint Raksha.Sql
  Raksha.Souffle.Evaluation

section

variable {expr : ExpressionArena} {module : Module} {rules : InferenceRules}
  {symbol : Value → String} {e : Souffle.Evaluation}

/-- The ids are those of the names, and every id has a name. -/
def HasTagNames (rules : InferenceRules) (ids : Finset TagId) (names : String → Prop) : Prop :=
  (∀ name, names name ↔ ∃ id ∈ ids, rules.tagNames[id]? = some name) ∧
    ∀ id ∈ ids, id < rules.tagNames.length

def IsSpecialTransform (op : Operation) : Prop :=
  ∃ ruleName, HasRuleName op ruleName ∧ TagTransformOp.IsSpecialRule ruleName

/-- The operation is a special transform or depends on the result of one. -/
def AfterSpecial (module : Module) (op : Operation) : Prop :=
  ∃ T, IsSpecialTransform T ∧ Relation.ReflTransGen (Feeds module) T op

/-- Datalog gives the value the integrity tags that the solution does not lack. -/
def AgreesOn (module : Module) (rules : InferenceRules) (symbol : Value → String)
    (e : Souffle.Evaluation) (v : Value) : Prop :=
  ∀ tag, e.MustHaveIntegrityTag (symbol v) "sql" tag ↔
    ∃ id, rules.tags.lookup tag = some id ∧ ¬ Lacks module rules v id

namespace Comparable

variable (h : Comparable expr module rules symbol e)

include h

theorem live_output {op : Operation} (hop : op ∈ module.operations) :
    Live module (op.getOutputValue 0) :=
  (h.acyclic.live h.decoded h.linked h.single).1 op hop

theorem live_input {op : Operation} (hop : op ∈ module.operations) {u : Value}
    (hu : u ∈ op.inputs) : Live module u :=
  (h.acyclic.live h.decoded h.linked h.single).2 u ⟨op, hop, hu⟩

theorem hasOutput {op : Operation} (hop : op ∈ module.operations) : 0 < op.numberOfOutputs := by
  rw [h.single op hop]
  exact Nat.one_pos

theorem agreesOn_operand {v : Value} (hv : module.IsOperand v)
    (hres : v.isOperationResult = false) : AgreesOn module rules symbol e v := by
  intro tag
  constructor
  · intro hmust
    obtain ⟨op, hop, heq⟩ := h.facts.mustHave_target hmust
    rw [← h.symbols.injective _ v (isResult_output h.single hop) (Or.inl hv) heq.symm] at hres
    cases hres
  · rintro ⟨id, -, hnot⟩
    exact absurd (Lacks.operand hv hres) hnot

theorem agreesOn_default {op : Operation} (hop : op ∈ module.operations)
    (htransform : ¬ IsTagTransformOp op) (hwrapped : ¬ IsWrapped module op) :
    AgreesOn module rules symbol e (op.getOutputValue 0) := by
  have hdefault : HasDefaultOutput module op 0 :=
    Or.inr ⟨hwrapped, fun ⟨n, hname, _⟩ => htransform hname.transform⟩
  intro tag
  constructor
  · intro hmust
    obtain ⟨hmerge, ⟨hrule, -⟩ | ⟨hrule, -⟩⟩ := h.facts.mustHave_cases hop htransform hmust
    · obtain ⟨T, hT, hwraps⟩ := (h.hasITagRule_iff hop (Or.inr rfl)).mp ⟨hmerge, hrule⟩
      exact absurd ⟨T, hT, _, hwraps⟩ hwrapped
    · obtain ⟨T, hT, hwraps⟩ := (h.hasITagRule_iff hop (Or.inl rfl)).mp ⟨hmerge, hrule⟩
      exact absurd ⟨T, hT, _, hwraps⟩ hwrapped
  · rintro ⟨id, -, hnot⟩
    exact absurd (Lacks.default hop hdefault (h.hasOutput hop) (h.live_output hop)) hnot

theorem mustHave_transform_iff {op : Operation} (hop : op ∈ module.operations) {u : Value}
    (hhead : op.inputs.head? = some u) (htransform : IsTagTransformOp op) (tag : String) :
    e.MustHaveIntegrityTag (symbol (op.getOutputValue 0)) "sql" tag ↔
      e.MustHaveIntegrityTag (symbol u) "sql" tag ∨
      ∃ ruleName, HasRuleName op ruleName ∧
        Souffle.SqlPolicyRuleNameHasResult e.facts ruleName (.addIntegrityTag tag) ∧
        e.AllTagTransformPreconditionsMet (operationFact symbol op) :=
  h.facts.mustHave_transform_iff hop hhead htransform tag

/-! ### Policy rules -/

/-- The result record of a rule with the given effect. -/
def sqlPolicyRuleResult : ModifyTag.Kind → String → Souffle.SqlPolicyRuleResult
  | .addSecrecy, tag => .addConfidentialityTag tag
  | .removeSecrecy, tag => .removeConfidentialityTag tag
  | .addIntegrity, tag => .addIntegrityTag tag

theorem ruleFact_mem {rule : SqlPolicyRule} (hrule : rule ∈ expr.sqlPolicyRules)
    {kind : ModifyTag.Kind} (hkind : getModifyTagKind rule.result.action = .ok kind) :
    ⟨rule.name, sqlPolicyRuleResult kind rule.result.tag,
      rule.preconditions.map fun p => ⟨p.argument, p.requiredIntegrityTag⟩⟩ ∈
        e.facts.isSqlPolicyRule := by
  refine (h.lowered.isSqlPolicyRule _).mpr ⟨rule, hrule, ?_⟩
  unfold sqlPolicyRuleFact
  cases haction : rule.result.action <;> rw [haction] at hkind <;> cases hkind <;> rfl

theorem ruleNameHasResult_iff {rule : SqlPolicyRule} (hrule : rule ∈ expr.sqlPolicyRules)
    {kind : ModifyTag.Kind} (hkind : getModifyTagKind rule.result.action = .ok kind)
    (result : Souffle.SqlPolicyRuleResult) :
    Souffle.SqlPolicyRuleNameHasResult e.facts rule.name result ↔
      result = sqlPolicyRuleResult kind rule.result.tag := by
  have hmem := h.ruleFact_mem hrule hkind
  constructor
  · rintro ⟨fact, hfact, hname, rfl⟩
    rw [h.rule_injective fact _ hfact hmem hname]
  · rintro rfl
    exact ⟨_, hmem, rfl, rfl⟩

/-- The preconditions that Datalog finds met are the satisfied premises. -/
theorem allPreconditionsMet_iff_satisfied {op : Operation} (hop : op ∈ module.operations)
    {rule : SqlPolicyRule} (hrule : rule ∈ expr.sqlPolicyRules) (hname : HasRuleName op rule.name)
    {kind : ModifyTag.Kind} {tag : TagId} {premises : List InputHasIntegrity}
    (hdecoded : DecodedTransform rules op rule kind tag premises)
    (hinputs : ∀ u ∈ op.inputs, AgreesOn module rules symbol e u) :
    e.AllTagTransformPreconditionsMet (operationFact symbol op) ↔
      Satisfied module rules op premises := by
  have hruleName : ∀ n, Souffle.TagTransformHasRuleName e.facts.isOperation
      (operationFact symbol op) n ↔ n = rule.name := by
    intro n
    rw [h.facts.hasRuleName_iff hop]
    exact ⟨fun hn => hn.unique hname, fun hn => hn ▸ hname⟩
  rw [Souffle.Evaluation.allPreconditionsMet_iff h.distinctRuleNames
    (h.ruleFact_mem hrule hdecoded.kind) hruleName, and_iff_right h.facts.tagTransforms_mem,
    List.forall_mem_map]
  refine forall_mem_iff_of_forall₂ hdecoded.premises ?_
  rintro precondition premise ⟨hnotName, hattribute, -, hbound, htag⟩
  obtain ⟨w, hw⟩ : ∃ w, op.inputs[premise.inputIndex]? = some w :=
    ⟨_, List.getElem?_eq_getElem hbound⟩
  have hagrees := hinputs w (List.mem_of_getElem? hw) precondition.requiredIntegrityTag
  simp only [htag, Option.some.injEq, exists_eq_left'] at hagrees
  constructor
  · rintro ⟨-, operandIndex, path, hnumber, hoperand, hmust⟩ w' hw'
    rw [h.facts.hasNumberAttribute_iff hop, hattribute, Option.some.injEq,
      Attribute.int64.injEq] at hnumber
    subst hnumber
    obtain ⟨i, hi, v, hv, rfl⟩ := (h.facts.hasOperandAtIndex_iff hop path _).mp hoperand
    cases Nat.cast_inj.mp hi
    rw [hw] at hv hw'
    cases hv
    cases hw'
    exact hagrees.mp hmust
  · intro hsat
    exact ⟨hnotName, premise.inputIndex, symbol w, (h.facts.hasNumberAttribute_iff hop _ _).mpr
      hattribute, (h.facts.hasOperandAtIndex_iff hop _ _).mpr ⟨_, rfl, w, hw, rfl⟩,
      hagrees.mpr (hsat w hw)⟩

/-- The rule of a policy transform takes effect when its premises are satisfied. -/
theorem ruleEffect_iff {op : Operation} (hop : op ∈ module.operations)
    {rule : SqlPolicyRule} (hrule : rule ∈ expr.sqlPolicyRules) (hname : HasRuleName op rule.name)
    {kind : ModifyTag.Kind} {tag : TagId} {premises : List InputHasIntegrity}
    (hdecoded : DecodedTransform rules op rule kind tag premises)
    (hinputs : ∀ u ∈ op.inputs, AgreesOn module rules symbol e u)
    (result : Souffle.SqlPolicyRuleResult) :
    (∃ ruleName, HasRuleName op ruleName ∧
      Souffle.SqlPolicyRuleNameHasResult e.facts ruleName result ∧
      e.AllTagTransformPreconditionsMet (operationFact symbol op)) ↔
      result = sqlPolicyRuleResult kind rule.result.tag ∧
        Satisfied module rules op premises := by
  have hmet := h.allPreconditionsMet_iff_satisfied hop hrule hname hdecoded hinputs
  have hresult := h.ruleNameHasResult_iff hrule hdecoded.kind result
  constructor
  · rintro ⟨n, hn, hhas, hall⟩
    rw [hn.unique hname] at hhas
    exact ⟨hresult.mp hhas, hmet.mp hall⟩
  · rintro ⟨heq, hsat⟩
    exact ⟨rule.name, hname, hresult.mpr heq, hmet.mpr hsat⟩

theorem agreesOn_transform {op : Operation} (hop : op ∈ module.operations)
    (htransform : IsPolicyTransform op)
    (hinputs : ∀ u ∈ op.inputs, AgreesOn module rules symbol e u) :
    AgreesOn module rules symbol e (op.getOutputValue 0) := by
  obtain ⟨_, rule, kind, id, premises, hname, hrule, rfl, hdecoded⟩ :=
    h.decoded.policyTransform hop htransform
  obtain ⟨u, rest, hcons⟩ := List.exists_cons_of_ne_nil hdecoded.inputs
  have hhead : op.inputs.head? = some u := by rw [hcons, List.head?_cons]
  intro tag
  rw [h.mustHave_transform_iff hop hhead hname.transform,
    hinputs u (List.mem_of_mem_head? hhead) tag,
    h.ruleEffect_iff hop hrule hname hdecoded hinputs]
  simp only [lacks_transform_iff h.decoded hop hdecoded.marked (h.hasOutput hop) hhead]
  constructor
  · rintro (⟨t, ht, hnot⟩ | ⟨hresult, hsat⟩)
    · exact ⟨t, ht, fun hlacks => hnot hlacks.1⟩
    · cases kind <;> cases hresult
      exact ⟨id, hdecoded.tag, fun hlacks => hlacks.2 ⟨rfl, rfl, hsat⟩⟩
  · rintro ⟨t, ht, hnot⟩
    by_cases hlacks : Lacks module rules u t
    · obtain ⟨rfl, rfl, hsat⟩ : kind = .addIntegrity ∧ t = id ∧ Satisfied module rules op premises :=
        not_not.mp fun hkept => hnot ⟨hlacks, hkept⟩
      rw [h.decoded.table.injective hdecoded.tag ht]
      exact Or.inr ⟨rfl, hsat⟩
    · exact Or.inl ⟨t, ht, hlacks⟩

/-! ### Wrapped merges -/

/-- All special tag transforms that wrap a merge have the same rule. -/
theorem wraps_unique {op T T' : Operation} {n n' : String} (hT : T ∈ module.operations)
    (hT' : T' ∈ module.operations) (hwraps : Wraps module T op n)
    (hwraps' : Wraps module T' op n') : n = n' := by
  obtain ⟨k, hmerge⟩ := h.decoded.markedMerge hT hwraps
  obtain ⟨k', hmerge'⟩ := h.decoded.markedMerge hT' hwraps'
  have hkind := (hmerge.unique hmerge').1
  rcases hwraps.special with rfl | rfl <;> rcases hwraps'.special with rfl | rfl
  · rfl
  · exact absurd hkind (by decide)
  · exact absurd hkind (by decide)
  · rfl

theorem mustHave_union_iff {T op : Operation} (hT : T ∈ module.operations)
    (hwraps : Wraps module T op TagTransformOp.unionItagRule) {k : ℕ}
    (hk : MergeOp.getControlInputStartIndex op = .ok k) (tag : String) :
    e.MustHaveIntegrityTag (symbol (op.getOutputValue 0)) "sql" tag ↔
      ∃ u ∈ op.inputs.take k, e.MustHaveIntegrityTag (symbol u) "sql" tag := by
  have hop := hwraps.owned
  obtain ⟨hmerge, hrule⟩ := (h.hasITagRule_iff hop (Or.inr rfl)).mpr ⟨T, hT, hwraps⟩
  constructor
  · intro hmust
    obtain ⟨-, ⟨-, x, hdirect, hinput⟩ | ⟨hrule', -⟩⟩ :=
      h.facts.mustHave_cases hop hmerge.not_transform hmust
    · obtain ⟨u, hu, rfl⟩ := (h.facts.isDirectInput_iff hop hmerge hk x).mp hdirect
      exact ⟨u, hu, hinput⟩
    · obtain ⟨T', hT', hwraps'⟩ := (h.hasITagRule_iff hop (Or.inl rfl)).mp ⟨hmerge, hrule'⟩
      exact absurd (h.wraps_unique hT hT' hwraps hwraps') (by decide)
  · rintro ⟨u, hu, hinput⟩
    exact h.facts.mustHave_of_union hop hmerge hrule hk hu hinput

theorem mustHave_intersect_iff {T op : Operation} (hT : T ∈ module.operations)
    (hwraps : Wraps module T op TagTransformOp.intersectItagRule) {k : ℕ}
    (hk : MergeOp.getControlInputStartIndex op = .ok k) (hbound : k ≤ op.inputs.length)
    (tag : String) :
    e.MustHaveIntegrityTag (symbol (op.getOutputValue 0)) "sql" tag ↔
      op.inputs.take k ≠ [] ∧
        ∀ u ∈ op.inputs.take k, e.MustHaveIntegrityTag (symbol u) "sql" tag := by
  have hop := hwraps.owned
  obtain ⟨hmerge, hrule⟩ := (h.hasITagRule_iff hop (Or.inl rfl)).mpr ⟨T, hT, hwraps⟩
  rw [h.facts.mustHave_merge_iff hop hmerge hk hbound]
  constructor
  · rintro (⟨hrule', -⟩ | ⟨-, hall⟩)
    · obtain ⟨T', hT', hwraps'⟩ := (h.hasITagRule_iff hop (Or.inr rfl)).mp ⟨hmerge, hrule'⟩
      exact absurd (h.wraps_unique hT hT' hwraps hwraps') (by decide)
    · exact hall
  · intro hall
    exact Or.inr ⟨hrule, hall⟩

theorem agreesOn_merge (hbounds : MergesInBounds module) {op : Operation}
    (hwrapped : IsWrapped module op) {k : ℕ}
    (hk : MergeOp.getControlInputStartIndex op = .ok k)
    (hinputs : ∀ u ∈ op.inputs.take k, AgreesOn module rules symbol e u) :
    AgreesOn module rules symbol e (op.getOutputValue 0) := by
  obtain ⟨T, hT, ruleName, hwraps⟩ := hwrapped
  have hop := hwraps.owned
  obtain ⟨k', hmerge⟩ := h.decoded.markedMerge hT hwraps
  have hindex := hmerge.index
  rw [hk] at hindex
  cases hindex
  have hready : AllInputsLive module op := fun u hu => h.live_input hop hu
  intro tag
  rcases hwraps.special with rfl | rfl
  · rw [h.mustHave_intersect_iff hT hwraps hk (hbounds op hop hmerge.isWrapped k hk)]
    simp only [lacks_intersect_iff h.decoded hop hmerge hready (h.hasOutput hop), not_or,
      not_exists, not_and]
    constructor
    · rintro ⟨hne, hall⟩
      obtain ⟨u, hu⟩ := List.exists_mem_of_ne_nil _ hne
      obtain ⟨t, ht, -⟩ := (hinputs u hu tag).mp (hall u hu)
      refine ⟨t, ht, hne, ?_⟩
      intro w hw
      obtain ⟨t', ht', hnot⟩ := (hinputs w hw tag).mp (hall w hw)
      rw [ht] at ht'
      cases ht'
      exact hnot
    · rintro ⟨t, ht, hne, hall⟩
      exact ⟨hne, fun u hu => (hinputs u hu tag).mpr ⟨t, ht, hall u hu⟩⟩
  · rw [h.mustHave_union_iff hT hwraps hk]
    simp only [lacks_union_iff h.decoded hop hmerge hready (h.hasOutput hop), not_forall]
    constructor
    · rintro ⟨u, hu, hmust⟩
      obtain ⟨t, ht, hnot⟩ := (hinputs u hu tag).mp hmust
      exact ⟨t, ht, u, hu, hnot⟩
    · rintro ⟨t, ht, u, hu, hnot⟩
      exact ⟨u, hu, (hinputs u hu tag).mpr ⟨t, ht, hnot⟩⟩

/-! ### All values -/

/-- Without a special transform before it, every operation has a result that agrees. -/
theorem agreesOn_results (hbounds : MergesInBounds module) :
    ∀ op ∈ module.operations, ¬ AfterSpecial module op →
      AgreesOn module rules symbol e (op.getOutputValue 0) := by
  refine h.acyclic.induction ?_
  intro op hop ih hafter
  have hinputs : ∀ u ∈ op.inputs, AgreesOn module rules symbol e u := by
    intro u hu
    cases hres : u.isOperationResult with
    | false => exact h.agreesOn_operand ⟨op, hop, hu⟩ hres
    | true =>
      obtain ⟨op', hop', i, hi, rfl⟩ := h.linked op hop u hu hres
      rw [h.single op' hop', Nat.lt_one_iff] at hi
      subst hi
      have hfeeds : Feeds module op' op := ⟨hop', hop, 0, hu⟩
      exact ih op' hfeeds fun ⟨T, hT, hpath⟩ => hafter ⟨T, hT, hpath.tail hfeeds⟩
  by_cases hwrapped : IsWrapped module op
  · obtain ⟨T, hT, ruleName, hwraps⟩ := hwrapped
    obtain ⟨k, hmerge⟩ := h.decoded.markedMerge hT hwraps
    exact h.agreesOn_merge hbounds ⟨T, hT, ruleName, hwraps⟩ hmerge.index fun u hu =>
      hinputs u (List.mem_of_mem_take hu)
  · by_cases htransform : IsTagTransformOp op
    · obtain ⟨ruleName, hname⟩ := h.decoded.named op hop htransform
      refine h.agreesOn_transform hop ⟨ruleName, hname, ?_⟩ hinputs
      intro hspecial
      exact hafter ⟨op, ⟨ruleName, hname, hspecial⟩, .refl⟩
    · exact h.agreesOn_default hop htransform hwrapped

/-- The agreement on a value in terms of its state at the end of any run. -/
theorem agreesOn_iff {valueStates : ValueStateMap AbstractIfcTags}
    (hrun : ComputeIfcTags rules module valueStates) {v : Value} (hv : IsValue module v) :
    AgreesOn module rules symbol e v ↔ ∃ s, valueStates.lookup v = some (.tags s) ∧
      HasTagNames rules s.integrityTags (e.MustHaveIntegrityTag (symbol v) "sql") := by
  have hlive : Live module v := by
    rcases hv with hv | ⟨op, hop, i, hi, rfl⟩
    · exact (h.acyclic.live h.decoded h.linked h.single).2 v hv
    · rw [h.single op hop, Nat.lt_one_iff] at hi
      subst hi
      exact h.live_output hop
  obtain ⟨s, hlookup⟩ := h.decoded.lookup_of_live hrun hlive
  have hmem : ∀ t, t ∈ s.integrityTags ↔ ¬ Lacks module rules v t := by
    intro t
    have hiff := h.decoded.mem_integrityOf_iff hrun v t
    rw [currentStates_eq, hlookup, Option.getD_some, and_iff_right hlive] at hiff
    exact hiff
  have htable := h.decoded.table.lookup
  have hnamed : ∀ t ∈ s.integrityTags, t < rules.tagNames.length := by
    intro t ht
    by_contra hlen
    have hunnamed : ∀ name, rules.tags.lookup name ≠ some t := by
      intro name hname
      exact hlen ((List.getElem?_eq_some_iff.mp ((htable name t).mp hname)).1)
    have hlacks := h.acyclic.lacks_unnamed h.decoded h.linked h.single hunnamed
    refine (hmem t).mp ht ?_
    rcases hv with hv | ⟨op, hop, i, hi, rfl⟩
    · exact hlacks.2 v hv
    · rw [h.single op hop, Nat.lt_one_iff] at hi
      subst hi
      exact hlacks.1 op hop
  have hnames : ∀ name, (∃ id ∈ s.integrityTags, rules.tagNames[id]? = some name) ↔
      ∃ id, rules.tags.lookup name = some id ∧ ¬ Lacks module rules v id := by
    intro name
    simp only [hmem, htable, and_comm]
  constructor
  · intro hagrees
    exact ⟨s, hlookup, fun name => (hagrees name).trans (hnames name).symm, hnamed⟩
  · rintro ⟨s', hlookup', hiff, -⟩ name
    rw [hlookup, Option.some.injEq, AbstractIfcTags.tags.injEq] at hlookup'
    subst hlookup'
    exact (hiff name).trans (hnames name)

end Comparable

end

end Raksha.PolicyEngine
