import Raksha.Sql.Operations
import Raksha.Taint.InferenceRules

/-!
# Decoding of SQL policy rules

`frontends/sql/decode_sql_policy_rules.cc`: the policy rules of an expression arena become the
inference rules of the tag transforms of a module. A special rule name marks the transformed
merge operation instead of the tag transform.
-/

namespace Raksha.Sql
open Raksha.Common Raksha.Ir Raksha.Taint

/-! ### The policy rules of `sql_ir.proto` -/

inductive Action
  | unknown
  | addConfidentiality
  | removeConfidentiality
  | addIntegrity
deriving DecidableEq

structure SqlPolicyRule.Result where
  action : Action
  tag : String
deriving DecidableEq

structure SqlPolicyRule.Precondition where
  argument : String
  requiredIntegrityTag : String
deriving DecidableEq

structure SqlPolicyRule where
  name : String
  result : SqlPolicyRule.Result
  preconditions : List SqlPolicyRule.Precondition := []
deriving DecidableEq

/-- `ExpressionArena`: the decoder of policy rules reads its rules only. -/
structure ExpressionArena where
  sqlPolicyRules : List SqlPolicyRule

/-! ### The decoder -/

def getModifyTagKind : Action → Checked ModifyTag.Kind
  | .addConfidentiality => .ok .addSecrecy
  | .removeConfidentiality => .ok .removeSecrecy
  | .addIntegrity => .ok .addIntegrity
  | .unknown => .error "Unknown category in SqlPolicyRule::Result::Action"

def kDefaultOutputIndex : ℕ := 0

/-- The output rules of an action: rules for one output index. -/
def singleOutputRules (index : ℕ) (rules : List InferenceRule) : OutputRules :=
  AList.singleton index rules

def mergeRules (kind : MergeIntegrityTags.Kind) (controlInputStartIndex : ℕ) :
    List InferenceRule :=
  [{ conclusion := .mergeIntegrityTags kind (List.range controlInputStartIndex), premises := [] }]

def addInferenceRuleForMerge (mergeOp : Operation) (kind : MergeIntegrityTags.Kind)
    (actionName : String) (rulesBuilder : InferenceRulesBuilder) :
    Checked InferenceRulesBuilder := do
  let controlInputStartIndex ← MergeOp.getControlInputStartIndex mergeOp
  rulesBuilder.addOutputRulesForAction actionName
    (singleOutputRules kDefaultOutputIndex (mergeRules kind controlInputStartIndex))

/-- The loop body over the preconditions of a rule. -/
def addPremise (inputIndices : FlatHashMap String ℕ)
    (state : List InputHasIntegrity × InferenceRulesBuilder)
    (precondition : SqlPolicyRule.Precondition) :
    Checked (List InputHasIntegrity × InferenceRulesBuilder) :=
  let (tag, rulesBuilder) := state.2.getOrCreateTagId precondition.requiredIntegrityTag
  match inputIndices.lookup precondition.argument with
  | none => .error ("Unable to find input index for '" ++ precondition.argument ++ "'.")
  | some inputIndex => return (state.1 ++ [{ inputIndex, tag }], rulesBuilder)

def transformRules (transformedValueIndex : ℕ) (kind : ModifyTag.Kind) (tag : TagId)
    (premises : List InputHasIntegrity) : List InferenceRule :=
  [{ conclusion := .copyInput transformedValueIndex, premises := [] },
   { conclusion := .modifyTag kind tag, premises }]

def addInferenceRuleForTagTransform (sqlPolicyRule : SqlPolicyRule) (tagTransformOp : Operation)
    (actionName : String) (rulesBuilder : InferenceRulesBuilder) :
    Checked InferenceRulesBuilder := do
  let inputIndices ← TagTransformOp.getPreconditionInputIndices tagTransformOp
  let (premises, rulesBuilder) ←
    sqlPolicyRule.preconditions.foldlM (addPremise inputIndices) ([], rulesBuilder)
  let transformedValueIndex ← TagTransformOp.getTransformedValueIndex tagTransformOp
  let kind ← getModifyTagKind sqlPolicyRule.result.action
  let (tag, rulesBuilder) := rulesBuilder.getOrCreateTagId sqlPolicyRule.result.tag
  rulesBuilder.addOutputRulesForAction actionName
    (singleOutputRules 0 (transformRules transformedValueIndex kind tag premises))

/-- The loop over the policy rules that builds the table of rules by name. -/
def addSqlPolicyRule (sqlPolicyRules : FlatHashMap String SqlPolicyRule)
    (sqlPolicyRule : SqlPolicyRule) : Checked (FlatHashMap String SqlPolicyRule) := do
  let (sqlPolicyRules, inserted) := sqlPolicyRules.tryInsert sqlPolicyRule.name sqlPolicyRule
  check (inserted = true) ("Dupliate entry for rule name '" ++ sqlPolicyRule.name ++ "'")
  return sqlPolicyRules

structure DecoderState where
  rulesBuilder : InferenceRulesBuilder
  ruleCounts : FlatHashMap String ℕ := ∅

/-- The merge integrity kind of a special rule name. -/
def specialRuleKind (ruleName : String) : MergeIntegrityTags.Kind :=
  if ruleName = TagTransformOp.unionItagRule then .union else .intersect

def decodeSpecialTagTransform (module : Module) (tagTransformOp : Operation)
    (ruleName actionName : String) (rulesBuilder : InferenceRulesBuilder) :
    Checked InferenceRulesBuilder := do
  check (tagTransformOp.inputs.length = 1) "Special tag transform op has more than one input."
  let input ← TagTransformOp.getTransformedValue tagTransformOp
  match input with
  | .operationResult address _ =>
    let rulesBuilder ← rulesBuilder.markOperationAsAction address actionName
    match module.operationAt address with
    | none => .error "Special tag_transform_op is not referring to a MergeOp"
    | some mergeOp =>
      check (IsMergeOp mergeOp) "Special tag_transform_op is not referring to a MergeOp"
      addInferenceRuleForMerge mergeOp (specialRuleKind ruleName) actionName rulesBuilder
  | _ => .error "Argument of a special tag_transform_op is not an operation result."

def decodeTagTransform (sqlPolicyRules : FlatHashMap String SqlPolicyRule)
    (tagTransformOp : Operation) (ruleName actionName : String)
    (rulesBuilder : InferenceRulesBuilder) : Checked InferenceRulesBuilder := do
  let rulesBuilder ← rulesBuilder.markOperationAsAction tagTransformOp.address actionName
  match sqlPolicyRules.lookup ruleName with
  | none => .error ("No sql policy rule found for '" ++ ruleName ++ "'.")
  | some sqlPolicyRule =>
    addInferenceRuleForTagTransform sqlPolicyRule tagTransformOp actionName rulesBuilder

/-- The loop body over the operations of the module. -/
def decodeOperation (sqlPolicyRules : FlatHashMap String SqlPolicyRule) (module : Module)
    (state : DecoderState) (operation : Operation) : Checked DecoderState :=
  if IsTagTransformOp operation then do
    let ruleName ← TagTransformOp.getRuleName operation
    let count := (state.ruleCounts.lookup ruleName).getD 0
    let actionName := ruleName ++ "_" ++ toString count
    let ruleCounts := state.ruleCounts.insertOrAssign ruleName (count + 1)
    let rulesBuilder ←
      if TagTransformOp.IsSpecialRule ruleName then
        decodeSpecialTagTransform module operation ruleName actionName state.rulesBuilder
      else
        decodeTagTransform sqlPolicyRules operation ruleName actionName state.rulesBuilder
    return { rulesBuilder, ruleCounts }
  else
    return state

def decodeSqlPolicyRules (expr : ExpressionArena) (module : Module) (seedTags : List String) :
    Checked InferenceRules := do
  let rulesBuilder ← InferenceRulesBuilder.ofSeedTags seedTags
  let sqlPolicyRules ← expr.sqlPolicyRules.foldlM addSqlPolicyRule ∅
  let state ← module.operations.foldlM (decodeOperation sqlPolicyRules module) { rulesBuilder }
  return state.rulesBuilder.build

/-- The rules that decoding yields, for evaluation. -/
def decodedRules (expr : ExpressionArena) (module : Module) : InferenceRules :=
  match decodeSqlPolicyRules expr module [] with
  | .ok rules => rules
  | .error _ => {}

theorem decodedRules_of_isOk {expr : ExpressionArena} {module : Module}
    (h : (decodeSqlPolicyRules expr module []).isOk = true) :
    decodeSqlPolicyRules expr module [] = .ok (decodedRules expr module) := by
  unfold decodedRules
  cases hdecode : decodeSqlPolicyRules expr module [] with
  | ok rules => rfl
  | error message =>
    rw [hdecode] at h
    cases h

end Raksha.Sql
