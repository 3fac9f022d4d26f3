import Raksha.PolicyEngine.FactsFile
import Raksha.PolicyEngine.LoweredTags
import Raksha.Sql.DecodeExpressionArena

/-!
# The driver of the SQL frontend

`frontends/sql/driver.cc` with `backends/policy_engine/souffle/souffle_policy_checker.cc`: an
arena is decoded and lowered to facts, the facts and the policy go through files, and the program
of `sql_policy_verifier_interface.dl` decides on what it reads there. Beside it stand the tags that
`sql_ir.proto` gives the expressions of an arena, which are computed in the order of the arena.
-/

namespace Raksha.Ir
open Raksha.Common

/-- `storage.name()`. -/
def IRContext.storageName (context : IRContext) (storage : Address) : String :=
  match context.storages.entries.find? fun entry => entry.2 = storage with
  | none => ""
  | some entry => entry.1

end Raksha.Ir

namespace Raksha.Souffle

/-- `hasError`: every violation is reported. -/
def Evaluation.HasError (e : Evaluation) (message : Symbol) : Prop :=
  ∃ path policy violation, e.ViolatesPolicy path policy violation ∧
    message = path ++ " violates policy " ++ policy ++ ": " ++ violation

end Raksha.Souffle

namespace Raksha.PolicyEngine
open Raksha.Ir

/-- What the program of a `SqlPolicyRulePolicy` is run on: the facts of the module and the string of
the policy are written to files, and the program loads the files. The visitor starts without
names. -/
def policyEvaluation (ord : Souffle.Symbol → ℕ) (hord : Function.Injective ord)
    (reader : FactsReader) (floatToString : BitVec 64 → String) (storageName : Address → String)
    (module : Module) (policyString : String) : Souffle.Evaluation where
  program := Souffle.sqlPolicyVerifierInterface
  facts :=
    { isOperation :=
        reader.isOperation (dumpFacts floatToString (lowerModule storageName {} module).1)
      isSqlPolicyRule := reader.isSqlPolicyRule policyString }
  ord := ord
  ord_injective := hord

/-- `SoufflePolicyChecker::IsModulePolicyCompliant`: both relations that are read back are
empty. -/
def SoufflePolicyChecker.IsModulePolicyCompliant (e : Souffle.Evaluation) : Prop :=
  (∀ path policy message, ¬ e.ViolatesPolicy path policy message) ∧ ∀ message, ¬ e.HasError message

theorem SoufflePolicyChecker.isModulePolicyCompliant_iff (e : Souffle.Evaluation) :
    IsModulePolicyCompliant e ↔ ¬ ∃ path policy message, e.ViolatesPolicy path policy message := by
  constructor
  · rintro ⟨hviolations, -⟩ ⟨path, policy, message, hviolates⟩
    exact hviolations path policy message hviolates
  · intro hnone
    refine ⟨fun path policy message hviolates => hnone ⟨path, policy, message, hviolates⟩, ?_⟩
    rintro message ⟨path, policy, violation, hviolates, -⟩
    exact hnone ⟨path, policy, violation, hviolates⟩

end Raksha.PolicyEngine

namespace Raksha.Sql
open Raksha.Common Raksha.Ir

/-- `BuildTopLevelBlock` and `global_module`. The address of an operation is its place in the
block, so the addresses of a block that is built differ. -/
def DecoderContext.buildTopLevelBlock (context : DecoderContext) : Checked Module :=
  if h : (context.operations.map Operation.address).Nodup then
    .ok { blocks := [⟨context.operations⟩], distinct := by simpa using h }
  else
    .error "two operations of the block have one address"

namespace Decode
open Raksha.PolicyEngine

open Classical in
/-- `verify`. -/
noncomputable def verify (ord : Souffle.Symbol → ℕ) (hord : Function.Injective ord)
    (reader : FactsReader) (floatToString : BitVec 64 → String) (order : IterationOrder)
    (arena : List IdExpressionPair) (policyString : String) : Checked Bool := do
  let decoderContext ← DecoderContext.create IRContext.empty
  let (_, decoderContext) ← decodeExpressionArena order arena decoderContext
  let module ← decoderContext.buildTopLevelBlock
  return decide (SoufflePolicyChecker.IsModulePolicyCompliant (policyEvaluation ord hord reader
    floatToString decoderContext.irContext.storageName module policyString))

/-- The strings of the expression that are written to the file need no escapes. -/
def Expression.Unescaped : Expression → Prop
  | .exprVariantNotSet => True
  | .sourceTableColumn column => PolicyEngine.Unescaped column.columnPath
  | .literal text => PolicyEngine.Unescaped text.literalStr
  | .mergeOperation _ => True
  | .tagTransform transform => PolicyEngine.Unescaped transform.transformRuleName ∧
      ∀ entry ∈ transform.tagPreconditions.entries, PolicyEngine.Unescaped entry.1

def UnescapedArena (arena : List IdExpressionPair) : Prop :=
  ∀ pair ∈ arena, pair.expression.Unescaped

/-! ### The tags of expressions -/

structure ExpressionTags where
  confidentiality : Finset String := ∅
  integrity : Finset String := ∅
deriving DecidableEq

/-- Some tag transform of the arena applies the rule to the expression with the id. -/
def AppliesRule (arena : List IdExpressionPair) (ruleName : String) (id : UInt64) : Prop :=
  ∃ pair ∈ arena, match pair.expression with
    | .tagTransform transform =>
      transform.transformRuleName = ruleName ∧ transform.transformedNode = id
    | _ => False

instance (arena : List IdExpressionPair) (ruleName : String) (id : UInt64) :
    Decidable (AppliesRule arena ruleName id) :=
  @List.decidableBEx _ _ (fun pair => by split <;> infer_instance) arena

/-- All confidentiality tags of all inputs. The integrity tags of the direct inputs are dropped
unless a tag transform asks for their union or their intersection. -/
def mergeTags (arena : List IdExpressionPair) (tags : UInt64 → ExpressionTags) (id : UInt64)
    (merge : MergeOperation) : ExpressionTags :=
  let direct := merge.inputs.toFinset.biUnion fun input => (tags input).integrity
  let union := if AppliesRule arena TagTransformOp.unionItagRule id then direct else ∅
  let intersection :=
    if AppliesRule arena TagTransformOp.intersectItagRule id then
      direct.filter fun tag => merge.inputs.all fun input => tag ∈ (tags input).integrity
    else ∅
  { confidentiality := (merge.inputs ++ merge.controlInputs).toFinset.biUnion fun input =>
      (tags input).confidentiality
    integrity := union ∪ intersection }

/-- The expression that the transform names for the precondition has the required tag. -/
def TagTransform.Meets (tags : UInt64 → ExpressionTags) (transform : TagTransform)
    (precondition : Souffle.SqlPolicyRulePrecondition) : Prop :=
  ∃ id ∈ transform.tagPreconditions.lookup precondition.preconditionName,
    precondition.requiredTag ∈ (tags id).integrity

instance (tags : UInt64 → ExpressionTags) (transform : TagTransform) :
    DecidablePred (transform.Meets tags) := fun precondition =>
  match h : transform.tagPreconditions.lookup precondition.preconditionName with
  | none => isFalse (by rintro ⟨id, hid, -⟩; rw [h] at hid; cases hid)
  | some id => decidable_of_iff (precondition.requiredTag ∈ (tags id).integrity)
      (by simp [TagTransform.Meets, h])

/-- The rules of the name of the transform whose preconditions are met. -/
def TagTransform.metRules (policy : Finset Souffle.SqlPolicyRule)
    (tags : UInt64 → ExpressionTags) (transform : TagTransform) : Finset Souffle.SqlPolicyRule :=
  policy.filter fun rule => rule.policyRuleName = transform.transformRuleName ∧
    ∀ precondition ∈ rule.preconditions, transform.Meets tags precondition

def addedTags (rules : Finset Souffle.SqlPolicyRule) : ExpressionTags where
  confidentiality := rules.biUnion fun rule =>
    match rule.result with
    | .addConfidentialityTag tag => {tag}
    | _ => ∅
  integrity := rules.biUnion fun rule =>
    match rule.result with
    | .addIntegrityTag tag => {tag}
    | _ => ∅

def removedTags (rules : Finset Souffle.SqlPolicyRule) : Finset String :=
  rules.biUnion fun rule =>
    match rule.result with
    | .removeConfidentialityTag tag => {tag}
    | _ => ∅

/-- The tags of the transformed expression, changed as the rule says when its preconditions are
met. -/
def transformTags (policy : Finset Souffle.SqlPolicyRule) (tags : UInt64 → ExpressionTags)
    (transform : TagTransform) : ExpressionTags :=
  let before := tags transform.transformedNode
  let rules := transform.metRules policy tags
  let added := addedTags rules
  { confidentiality := before.confidentiality \ removedTags rules ∪ added.confidentiality
    integrity := before.integrity ∪ added.integrity }

def expressionTags (policy : Finset Souffle.SqlPolicyRule) (arena : List IdExpressionPair)
    (tags : UInt64 → ExpressionTags) (pair : IdExpressionPair) : ExpressionTags :=
  match pair.expression with
  | .mergeOperation merge => mergeTags arena tags pair.id merge
  | .tagTransform transform => transformTags policy tags transform
  | _ => {}

/-- The tags of the expressions that are read so far. A merge depends on the tag transforms of
the whole arena. -/
def tagsUpTo (policy : Finset Souffle.SqlPolicyRule) (arena : List IdExpressionPair)
    (pairs : List IdExpressionPair) : UInt64 → ExpressionTags :=
  pairs.foldl (fun tags pair =>
    Function.update tags pair.id (expressionTags policy arena tags pair)) fun _ => {}

def arenaTags (policy : Finset Souffle.SqlPolicyRule) (arena : List IdExpressionPair) :
    UInt64 → ExpressionTags :=
  tagsUpTo policy arena arena

end Decode

end Raksha.Sql
