import Raksha.Lib.Lexing
import Raksha.PolicyEngine.DatalogLoweringVisitor
import Raksha.Souffle.ViolatesPolicy
import Raksha.Sql.AcyclicModules

/-!
# The relations of a lowered module

What the rules of `operations.dl`, `taint.dl` and `tag_transforms.dl` derive from the facts of a
module whose operations have one result, in terms of the operations of the module.
-/

namespace Raksha.PolicyEngine
open Raksha.Common Raksha.Ir Raksha.Taint Raksha.Sql Raksha.Souffle.Evaluation

/-- The `isSqlPolicyRule` fact of a policy rule. A rule with an unknown action has none. -/
def sqlPolicyRuleFact (rule : SqlPolicyRule) : Option Souffle.SqlPolicyRule :=
  let fact := fun result =>
    { policyRuleName := rule.name, result
      preconditions := rule.preconditions.map fun p => ⟨p.argument, p.requiredIntegrityTag⟩ }
  match rule.result.action with
  | .unknown => none
  | .addConfidentiality => some (fact (.addConfidentialityTag rule.result.tag))
  | .removeConfidentiality => some (fact (.removeConfidentialityTag rule.result.tag))
  | .addIntegrity => some (fact (.addIntegrityTag rule.result.tag))

/-- The evaluation of a lowered module and its policy rules, without authorization logic. -/
def sqlEvaluation (ord : Souffle.Symbol → ℕ) (hord : Function.Injective ord)
    (storageName : Address → String) (names : SsaNames) (expr : ExpressionArena)
    (module : Module) : Souffle.Evaluation where
  program := Souffle.sqlPolicyVerifierInterface
  facts :=
    { isOperation := (lowerModule storageName names module).1.toFinset
      isSqlPolicyRule := (expr.sqlPolicyRules.filterMap sqlPolicyRuleFact).toFinset }
  ord := ord
  ord_injective := hord

def IsValue (module : Module) (v : Value) : Prop := module.IsOperand v ∨ module.IsResult v

/-- No value shares its symbol with a result. -/
def DistinctSymbols (module : Module) (symbol : Value → String) : Prop :=
  ∀ v w, module.IsResult v → IsValue module w → symbol v = symbol w → v = w

/-- Besides, no result has the symbol of the special access path. -/
structure OwnSymbols (module : Module) (symbol : Value → String) : Prop where
  injective : DistinctSymbols module symbol
  notReserved : ∀ v, module.IsResult v → symbol v ≠ Souffle.arbitraryComputation

theorem head?_percent {rest text : String} (h : "%" ++ rest = text) :
    text.toList.head? = some '%' := by
  subst h
  simp

/-- Distinct names that start with a percent sign make distinct symbols: no other symbol starts
so. -/
theorem distinctSymbols_of_names {storageName : Address → String} {module : Module}
    {names : SsaNames} (hnames : names.Temporaries) (hdistinct : names.Distinct)
    (hfound : ∀ v, module.IsResult v → ∃ id, names.find? v = some id) :
    DistinctSymbols module (symbolOf storageName names) := by
  have hnamed : ∀ v w id, names.find? v = some id → (∃ rest, id = "%" ++ rest) →
      id = (names.find? w).getD "" → v = w := by
    rintro v w id hid ⟨rest, hrest⟩ heq
    cases hw : names.find? w with
    | none =>
      rw [hw, Option.getD_none, hrest] at heq
      exact absurd (head?_percent heq) (by simp)
    | some id' =>
      rw [hw, Option.getD_some] at heq
      subst heq
      exact hdistinct v w id hid hw
  intro v w hv _ heq
  obtain ⟨id, hid⟩ := hfound v hv
  obtain ⟨rest, hrest⟩ := hnames.2 v id hid
  rw [symbolOf_result hv hid] at heq
  cases w with
  | any =>
    rw [hrest] at heq
    have hhead : "<<ANY>>".toList.head? = some '%' := head?_percent heq
    exact absurd hhead (by decide)
  | storedValue storage =>
    rw [hrest] at heq
    have hhead : ("store:" ++ storageName storage ++ ":type").toList.head? = some '%' :=
      head?_percent heq
    simp at hhead
  | blockArgument block index => exact hnamed v _ id hid ⟨rest, hrest⟩ heq
  | operationResult operation index => exact hnamed v _ id hid ⟨rest, hrest⟩ heq

/-- The names that the lowering of a module ends with. -/
abbrev finalNames (storageName : Address → String) (names : SsaNames) (module : Module) :
    SsaNames :=
  (lowerModule storageName names module).2

theorem finalNames_temporaries (storageName : Address → String) {names : SsaNames}
    (h : names.Temporaries) (module : Module) : (finalNames storageName names module).Temporaries :=
  lowerModule_names storageName (fun _ value hnames => hnames.getOrCreateID value) h module

/-- Without names of the parser, every value gets a number of its own. -/
theorem finalNames_numbered (storageName : Address → String) (module : Module) :
    (finalNames storageName {} module).valueIds.Numbered :=
  lowerModule_names (motive := fun names => names.valueIds.Numbered) storageName
    (fun _ value hnames => hnames.getOrCreateID value) (IDManager.Numbered.empty "%") module

theorem symbolOf_fresh (storageName : Address → String) (module : Module) {v : Value}
    (hv : module.IsResult v) :
    ∃ n : ℕ, symbolOf storageName (finalNames storageName {} module) v = "%" ++ toString n := by
  obtain ⟨id, hid⟩ := lowerModule_find? storageName {} module hv
  obtain ⟨n, -, rfl⟩ := (finalNames_numbered storageName module).generated v id hid
  have hname : (finalNames storageName {} module).valueIds.namePrefix = "%" :=
    (finalNames_temporaries storageName SsaNames.temporaries_empty module).1
  refine ⟨n, ?_⟩
  rw [symbolOf_result hv hid, hname]

/-- The names of results have no dot: they end in a number. -/
theorem dot_notMem_fresh (storageName : Address → String) (module : Module) {v : Value}
    (hv : module.IsResult v) :
    '.' ∉ (symbolOf storageName (finalNames storageName {} module) v).toList := by
  obtain ⟨n, hn⟩ := symbolOf_fresh storageName module hv
  rw [hn, String.toList_append, List.mem_append]
  rintro (hdot | hdot)
  · exact absurd hdot (by decide)
  · cases Lib.Lexing.isDigit_of_mem_toString hdot

/-- No result has the symbol of a storage. -/
theorem symbolOf_storedValue_ne (storageName : Address → String) (module : Module) {v : Value}
    (hv : module.IsResult v) (storage : Address) :
    symbolOf storageName (finalNames storageName {} module) v ≠
      symbolOf storageName (finalNames storageName {} module) (.storedValue storage) := by
  intro heq
  obtain ⟨id, hid⟩ := lowerModule_find? storageName {} module hv
  obtain ⟨rest, rfl⟩ :=
    (finalNames_temporaries storageName SsaNames.temporaries_empty module).2 v id hid
  rw [symbolOf_result hv hid] at heq
  have hhead : ("store:" ++ storageName storage ++ ":type").toList.head? = some '%' :=
    head?_percent heq
  simp at hhead

/-- Without names of the parser, the symbols of a module are distinct. -/
theorem distinctSymbols_fresh (storageName : Address → String) (module : Module) :
    DistinctSymbols module (symbolOf storageName (finalNames storageName {} module)) :=
  distinctSymbols_of_names (finalNames_temporaries storageName SsaNames.temporaries_empty module)
    (finalNames_numbered storageName module).distinct
    fun _ hv => lowerModule_find? storageName {} module hv

theorem ownSymbols_of_distinct (storageName : Address → String) {names : SsaNames}
    (hnames : names.Temporaries) {module : Module}
    (hdistinct : DistinctSymbols module
      (symbolOf storageName (finalNames storageName names module))) :
    OwnSymbols module (symbolOf storageName (finalNames storageName names module)) := by
  refine ⟨hdistinct, ?_⟩
  intro v hv heq
  obtain ⟨id, hid⟩ := lowerModule_find? storageName names module hv
  obtain ⟨rest, hrest⟩ := (finalNames_temporaries storageName hnames module).2 v id hid
  rw [symbolOf_result hv hid, hrest] at heq
  have hhead : Souffle.arbitraryComputation.toList.head? = some '%' := head?_percent heq
  exact absurd hhead (by decide)

/-- The facts of the evaluation are those of the module and its rules, and there are no others. -/
structure Lowered (expr : ExpressionArena) (module : Module) (symbol : Value → String)
    (e : Souffle.Evaluation) : Prop where
  program : e.program = Souffle.sqlPolicyVerifierInterface
  isOperation : ∀ fact, fact ∈ e.facts.isOperation ↔
    ∃ op ∈ module.operations, operationFact symbol op = fact
  isSqlPolicyRule : ∀ fact, fact ∈ e.facts.isSqlPolicyRule ↔
    ∃ rule ∈ expr.sqlPolicyRules, sqlPolicyRuleFact rule = some fact
  edge : e.facts.edge = ∅
  hasAppliedIntegrityTag : e.facts.hasAppliedIntegrityTag = ∅
  removeIntegrityTag : e.facts.removeIntegrityTag = ∅
  saysHasTag : e.facts.saysHasTag = ∅
  saysRemoveTag : e.facts.saysRemoveTag = ∅

theorem sqlEvaluation_lowered (ord : Souffle.Symbol → ℕ) (hord : Function.Injective ord)
    (storageName : Address → String) (names : SsaNames) (expr : ExpressionArena)
    (module : Module) : Lowered expr module
      (symbolOf storageName (lowerModule storageName names module).2)
      (sqlEvaluation ord hord storageName names expr module) := by
  refine ⟨rfl, ?_, ?_, rfl, rfl, rfl, rfl, rfl⟩
  · intro fact
    simp only [sqlEvaluation, List.mem_toFinset]
    rw [lowerModule_spec, List.mem_map]
  · intro fact
    simp only [sqlEvaluation, List.mem_toFinset, List.mem_filterMap]

/-- The shape of the modules on which the engines are compared. -/
structure Comparable (expr : ExpressionArena) (module : Module) (rules : InferenceRules)
    (symbol : Value → String) (e : Souffle.Evaluation) : Prop where
  decoded : Decoded expr module rules
  lowered : Lowered expr module symbol e
  acyclic : Acyclic module
  linked : module.WellLinked
  single : SingleResults module
  symbols : OwnSymbols module symbol

/-- The facts are those of a module whose operations have one result each, and of policy rules. -/
structure SqlFacts (module : Module) (symbol : Value → String) (e : Souffle.Evaluation) : Prop where
  program : e.program = Souffle.sqlPolicyVerifierInterface
  isOperation : ∀ fact, fact ∈ e.facts.isOperation ↔
    ∃ op ∈ module.operations, operationFact symbol op = fact
  edge : e.facts.edge = ∅
  hasAppliedIntegrityTag : e.facts.hasAppliedIntegrityTag = ∅
  removeIntegrityTag : e.facts.removeIntegrityTag = ∅
  saysHasTag : e.facts.saysHasTag = ∅
  saysRemoveTag : e.facts.saysRemoveTag = ∅
  linked : module.WellLinked
  single : SingleResults module
  symbols : OwnSymbols module symbol

theorem Comparable.facts {expr : ExpressionArena} {module : Module} {rules : InferenceRules}
    {symbol : Value → String} {e : Souffle.Evaluation}
    (h : Comparable expr module rules symbol e) : SqlFacts module symbol e :=
  { h.lowered, h with }

theorem comparable_of_lowered {expr : ExpressionArena} {module : Module}
    {seedTags : List String} {rules : InferenceRules}
    (hdecode : decodeSqlPolicyRules expr module seedTags = .ok rules)
    (hlinked : module.WellLinked) (hacyclic : Acyclic module) (hsingle : SingleResults module)
    (ord : Souffle.Symbol → ℕ) (hord : Function.Injective ord) (storageName : Address → String)
    {names : SsaNames} (hnames : names.Temporaries)
    (hdistinct : DistinctSymbols module
      (symbolOf storageName (finalNames storageName names module))) :
    Comparable expr module rules (symbolOf storageName (finalNames storageName names module))
      (sqlEvaluation ord hord storageName names expr module) where
  decoded := decodeSqlPolicyRules_spec expr module seedTags rules hdecode
  lowered := sqlEvaluation_lowered ord hord storageName names expr module
  acyclic := hacyclic
  linked := hlinked
  single := hsingle
  symbols := ownSymbols_of_distinct storageName hnames hdistinct

section

variable {expr : ExpressionArena} {module : Module} {rules : InferenceRules}
  {symbol : Value → String} {e : Souffle.Evaluation}

theorem isResult_output (hsingle : SingleResults module) {op : Operation}
    (hop : op ∈ module.operations) : module.IsResult (op.getOutputValue 0) :=
  ⟨op, hop, 0, by rw [hsingle op hop]; exact Nat.one_pos, rfl⟩

/-- A tag transform with the rule takes the result of the operation. -/
def HasITagRule (module : Module) (op : Operation) (ruleName : String) : Prop :=
  ∃ T ∈ module.operations, HasRuleName T ruleName ∧ T.inputs.head? = some (op.getOutputValue 0)

namespace SqlFacts

variable (h : SqlFacts module symbol e)

include h

theorem fact_mem {op : Operation} (hop : op ∈ module.operations) :
    operationFact symbol op ∈ e.facts.isOperation :=
  (h.isOperation _).mpr ⟨op, hop, rfl⟩

theorem tagTransforms_mem : Souffle.SourceFile.tagTransforms ∈ e.program := by
  rw [h.program]
  decide

theorem resultList {op : Operation} (hop : op ∈ module.operations) :
    (operationFact symbol op).resultList = [symbol (op.getOutputValue 0)] := by
  simp [operationFact, h.single op hop]

theorem hasResult_iff (fact : Souffle.Operation) (x : String) :
    Souffle.OperationHasResult e.facts.isOperation fact x ↔
      ∃ op ∈ module.operations, operationFact symbol op = fact ∧
        x = symbol (op.getOutputValue 0) := by
  rw [Souffle.operationHasResult_iff, h.isOperation]
  constructor
  · rintro ⟨⟨op, hop, rfl⟩, hx⟩
    rw [h.resultList hop, List.mem_singleton] at hx
    exact ⟨op, hop, rfl, hx⟩
  · rintro ⟨op, hop, rfl, rfl⟩
    refine ⟨⟨op, hop, rfl⟩, ?_⟩
    rw [h.resultList hop]
    exact List.mem_singleton.mpr rfl

theorem output_injective {op op' : Operation} (hop : op ∈ module.operations)
    (hop' : op' ∈ module.operations)
    (heq : symbol (op.getOutputValue 0) = symbol (op'.getOutputValue 0)) : op = op' := by
  have hvalue := h.symbols.injective _ _ (isResult_output h.single hop)
    (Or.inr (isResult_output h.single hop')) heq
  exact (module.eq_of_output hop hop' hvalue).1.symm

theorem fact_injective {op op' : Operation} (hop : op ∈ module.operations)
    (hop' : op' ∈ module.operations)
    (heq : operationFact symbol op = operationFact symbol op') : op = op' := by
  have hresults := congrArg Souffle.Operation.resultList heq
  rw [h.resultList hop, h.resultList hop', List.singleton_inj] at hresults
  exact h.output_injective hop hop' hresults

/-- The fact with the result symbol of an operation is the fact of the operation. -/
theorem eq_fact_of_hasResult {op : Operation} (hop : op ∈ module.operations)
    {fact : Souffle.Operation}
    (hresult : Souffle.OperationHasResult e.facts.isOperation fact
      (symbol (op.getOutputValue 0))) : fact = operationFact symbol op := by
  obtain ⟨op', hop', rfl, heq⟩ := (h.hasResult_iff _ _).mp hresult
  rw [h.output_injective hop hop' heq]

theorem hasOperandAtIndex_iff {op : Operation} (hop : op ∈ module.operations) (x : String)
    (index : ℤ) :
    Souffle.OperationHasOperandAtIndex e.facts.isOperation (operationFact symbol op) x index ↔
      ∃ i : ℕ, index = i ∧ ∃ v, op.inputs[i]? = some v ∧ x = symbol v := by
  rw [Souffle.operationHasOperandAtIndex_iff, and_iff_right (h.fact_mem hop)]
  simp only [operationFact, List.getElem?_map, Option.map_eq_some_iff,
    eq_comm (a := x)]

theorem hasAttribute_iff {op : Operation} (hop : op ∈ module.operations)
    (attr : Souffle.Attribute) :
    Souffle.OperationHasAttribute e.facts.isOperation (operationFact symbol op) attr ↔
      ∃ payload, op.attributes.lookup attr.attrName = some payload ∧
        attr.attrPayload = getPayloadForAttribute payload := by
  rw [Souffle.operationHasAttribute_iff, and_iff_right (h.fact_mem hop)]
  exact mem_lowerAttributes op.attributes attr

theorem hasStringAttribute_iff {op : Operation} (hop : op ∈ module.operations)
    (name str : String) :
    Souffle.HasStringAttribute e.facts.isOperation (operationFact symbol op) name str ↔
      op.attributes.lookup name = some (.string str) := by
  unfold Souffle.HasStringAttribute
  rw [h.hasAttribute_iff hop]
  constructor
  · rintro ⟨payload, hlookup, hpayload⟩
    cases payload <;> cases hpayload
    exact hlookup
  · intro hlookup
    exact ⟨_, hlookup, rfl⟩

theorem hasNumberAttribute_iff {op : Operation} (hop : op ∈ module.operations) (name : String)
    (num : ℤ) :
    Souffle.HasNumberAttribute e.facts.isOperation (operationFact symbol op) name num ↔
      op.attributes.lookup name = some (.int64 num) := by
  unfold Souffle.HasNumberAttribute
  rw [h.hasAttribute_iff hop]
  constructor
  · rintro ⟨payload, hlookup, hpayload⟩
    cases payload <;> cases hpayload
    exact hlookup
  · intro hlookup
    exact ⟨_, hlookup, rfl⟩

theorem isTagTransformOperation_iff {op : Operation} (hop : op ∈ module.operations) :
    Souffle.IsTagTransformOperation e.facts.isOperation (operationFact symbol op) ↔
      IsTagTransformOp op := by
  constructor
  · intro htransform
    exact htransform.2.2
  · intro htransform
    exact ⟨⟨h.fact_mem hop, rfl⟩, h.fact_mem hop, htransform⟩

theorem hasRuleName_iff {op : Operation} (hop : op ∈ module.operations) (ruleName : String) :
    Souffle.TagTransformHasRuleName e.facts.isOperation (operationFact symbol op) ruleName ↔
      HasRuleName op ruleName := by
  unfold Souffle.TagTransformHasRuleName
  rw [h.isTagTransformOperation_iff hop, h.hasStringAttribute_iff hop]
  constructor
  · rintro ⟨htransform, hlookup⟩
    exact ⟨htransform, (TagTransformOp.getRuleName_eq_ok op ruleName).mpr hlookup⟩
  · intro hname
    exact ⟨hname.transform, (TagTransformOp.getRuleName_eq_ok op ruleName).mp hname.name⟩

theorem isMergeOp_iff {op : Operation} (hop : op ∈ module.operations) :
    Souffle.IsMergeOp e.facts (operationFact symbol op) ↔ IsMergeOp op := by
  constructor
  · intro hmerge
    exact hmerge.2
  · intro hmerge
    exact ⟨h.fact_mem hop, hmerge⟩

theorem isModifiedPropagationMergeOp_iff {op : Operation} (hop : op ∈ module.operations)
    (ruleName : String) :
    Souffle.IsModifiedPropagationMergeOp e.facts (operationFact symbol op) ruleName ↔
      Souffle.IsSpecialITagPropagationRule ruleName ∧ IsMergeOp op ∧
        HasITagRule module op ruleName := by
  constructor
  · rintro ⟨fact, x, htransform, hname, hspecial, hoperand, hresult, hmerge⟩
    obtain ⟨T, hT, rfl⟩ := (h.isOperation fact).mp htransform.1.1
    obtain ⟨i, hi, v, hv, rfl⟩ := (h.hasOperandAtIndex_iff hT x 0).mp hoperand
    cases Nat.cast_eq_zero.mp hi.symm
    -- The merge is the operation with the result that is operand 0.
    obtain ⟨op', hop', hfact, heq⟩ := (h.hasResult_iff _ _).mp hresult
    obtain rfl := h.fact_injective hop' hop hfact
    have hin := List.mem_of_getElem? hv
    have hvalue := h.symbols.injective _ _ (isResult_output h.single hop)
      (Or.inl ⟨T, hT, hin⟩) heq.symm
    rw [← hvalue] at hv
    exact ⟨hspecial, (h.isMergeOp_iff hop).mp hmerge, T, hT,
      (h.hasRuleName_iff hT ruleName).mp hname, by rw [List.head?_eq_getElem?, hv]⟩
  · rintro ⟨hspecial, hmerge, T, hT, hname, hhead⟩
    rw [List.head?_eq_getElem?] at hhead
    exact ⟨operationFact symbol T, symbol (op.getOutputValue 0),
      (h.isTagTransformOperation_iff hT).mpr hname.transform,
      (h.hasRuleName_iff hT ruleName).mpr hname, hspecial,
      (h.hasOperandAtIndex_iff hT _ 0).mpr ⟨0, rfl, _, hhead, rfl⟩,
      (h.hasResult_iff _ _).mpr ⟨op, hop, rfl, rfl⟩, (h.isMergeOp_iff hop).mpr hmerge⟩

/-- The direct inputs of a merge are the operands before the control inputs. -/
theorem isDirectInput_iff {op : Operation} (hop : op ∈ module.operations) (hmerge : IsMergeOp op)
    {k : ℕ} (hk : MergeOp.getControlInputStartIndex op = .ok k) (x : String) :
    Souffle.IsMergeOperationDirectInput e.facts (operationFact symbol op) x ↔
      ∃ u ∈ op.inputs.take k, x = symbol u := by
  have hlookup := (MergeOp.getControlInputStartIndex_eq_ok op k).mp hk
  constructor
  · rintro ⟨-, idx, start, hoperand, ⟨-, hstart⟩, hlt⟩
    rw [h.hasNumberAttribute_iff hop] at hstart
    have hstartEq : start = k := by
      rw [show Souffle.controlInputStartIndexNameAttr = MergeOp.controlInputStartIndex from rfl,
        hlookup] at hstart
      cases hstart
      rfl
    obtain ⟨i, rfl, v, hv, rfl⟩ := (h.hasOperandAtIndex_iff hop x idx).mp hoperand
    refine ⟨v, ?_, rfl⟩
    rw [List.mem_take_iff_getElem]
    obtain ⟨hi, hget⟩ := List.getElem?_eq_some_iff.mp hv
    exact ⟨i, by omega, hget⟩
  · rintro ⟨u, hu, rfl⟩
    obtain ⟨i, hi, hget⟩ := List.mem_take_iff_getElem.mp hu
    refine ⟨(h.isMergeOp_iff hop).mpr hmerge, i, k,
      (h.hasOperandAtIndex_iff hop _ _).mpr ⟨i, rfl, u, ?_, rfl⟩,
      ⟨(h.isMergeOp_iff hop).mpr hmerge, (h.hasNumberAttribute_iff hop _ _).mpr hlookup⟩,
      by omega⟩
    exact List.getElem?_eq_some_iff.mpr ⟨by omega, hget⟩

end SqlFacts

namespace Comparable

variable (h : Comparable expr module rules symbol e)

include h

/-! ### Tag transforms and merges -/

/-- A special transform has the result of its merge as its only operand. -/
theorem wraps_inputs {T op : Operation} {ruleName : String} (hT : T ∈ module.operations)
    (hwraps : Wraps module T op ruleName) : T.inputs = [op.getOutputValue 0] := by
  obtain ⟨index, hinputs⟩ := hwraps.operand
  have hin : op.getOutputValue index ∈ T.inputs := by
    rw [hinputs]
    exact List.mem_singleton.mpr rfl
  obtain ⟨op', hop', i, hi, heq⟩ := h.linked T hT _ hin rfl
  obtain ⟨-, rfl⟩ := Operation.getOutputValue_inj.mp heq
  rw [h.single op' hop', Nat.lt_one_iff] at hi
  rw [hinputs, hi]

theorem hasITagRule_iff {op : Operation} (hop : op ∈ module.operations) {ruleName : String}
    (hspecial : TagTransformOp.IsSpecialRule ruleName) :
    IsMergeOp op ∧ HasITagRule module op ruleName ↔
      ∃ T ∈ module.operations, Wraps module T op ruleName := by
  constructor
  · rintro ⟨-, T, hT, hname, hhead⟩
    obtain ⟨merge, k, hwraps, -, -⟩ := h.decoded.special T hT ruleName hname hspecial
    rw [h.wraps_inputs hT hwraps, List.head?_cons, Option.some.injEq] at hhead
    obtain ⟨rfl, -⟩ := module.eq_of_output hop hwraps.owned hhead.symm
    exact ⟨T, hT, hwraps⟩
  · rintro ⟨T, hT, hwraps⟩
    exact ⟨hwraps.isMerge, T, hT, hwraps.named, by rw [h.wraps_inputs hT hwraps, List.head?_cons]⟩

/-! ### Rules -/

theorem rule_injective (rule rule' : Souffle.SqlPolicyRule)
    (hrule : rule ∈ e.facts.isSqlPolicyRule) (hrule' : rule' ∈ e.facts.isSqlPolicyRule)
    (hname : rule.policyRuleName = rule'.policyRuleName) : rule = rule' := by
  obtain ⟨r, hr, hfact⟩ := (h.lowered.isSqlPolicyRule rule).mp hrule
  obtain ⟨r', hr', hfact'⟩ := (h.lowered.isSqlPolicyRule rule').mp hrule'
  have hnames : ∀ {r : SqlPolicyRule} {fact}, sqlPolicyRuleFact r = some fact →
      r.name = fact.policyRuleName := by
    intro r fact hr
    unfold sqlPolicyRuleFact at hr
    cases haction : r.result.action <;> rw [haction] at hr <;> cases hr <;> rfl
  have heq : r = r' := by
    refine h.decoded.distinct r hr r' hr' ?_
    rw [hnames hfact, hnames hfact', hname]
  subst heq
  rw [hfact] at hfact'
  cases hfact'
  rfl

theorem distinctRuleNames : Souffle.Evaluation.DistinctRuleNames e.facts :=
  fun rule hrule rule' hrule' hname => h.rule_injective rule rule' hrule hrule' hname

end Comparable

end

end Raksha.PolicyEngine
