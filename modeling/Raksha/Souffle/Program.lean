import Raksha.Souffle.Operations

/-!
# Programs and their input facts

An interface file of `analysis/souffle` includes some of the rule files. `taint.dl` and the files
that it includes are part of every program; the others are listed here. A rule file adds rules to
the relations of the files below it, so a relation depends on the files of the program.
-/

namespace Raksha.Souffle

inductive SourceFile
  | sqlOutput
  | tagTransforms
  | sensitivityAnalysis
  | epsilonAnalysis
  | arcsJsCheckAndClaim
  | arcsJsInputAndOutput
  | arcsJsMakePublic
  | arcsJsOpaque
  | arcsJsUserConsentToDowngrade
deriving DecidableEq

/-- The files besides `taint.dl` that a program includes. -/
abbrev Program : Type := Finset SourceFile

def sqlPolicyVerifierInterface : Program := {.sqlOutput, .tagTransforms}

def dpPolicyVerifierInterface : Program := {.sqlOutput, .sensitivityAnalysis, .epsilonAnalysis}

def policyVerifierInterface : Program :=
  {.sqlOutput, .tagTransforms, .sensitivityAnalysis, .epsilonAnalysis, .arcsJsCheckAndClaim,
    .arcsJsInputAndOutput, .arcsJsMakePublic, .arcsJsOpaque, .arcsJsUserConsentToDowngrade}

/-! ### The records of `tag_transforms.dl` and `epsilon_analysis.dl` -/

structure SqlPolicyRulePrecondition where
  preconditionName : Symbol
  requiredTag : IntegrityTag
deriving DecidableEq

inductive SqlPolicyRuleResult
  | addIntegrityTag (tag : IntegrityTag)
  | removeConfidentialityTag (tag : Tag)
  | addConfidentialityTag (tag : Tag)
deriving DecidableEq

structure SqlPolicyRule where
  policyRuleName : Symbol
  result : SqlPolicyRuleResult
  preconditions : List SqlPolicyRulePrecondition
deriving DecidableEq

inductive DPParameterValue
  | epsilonValue (value : ℤ)
  | deltaValue (value : ℤ)
deriving DecidableEq

/-- The relations that no rule derives, or that have facts besides their rules. -/
structure Facts where
  isOperation : Finset Operation := ∅
  isSqlPolicyRule : Finset SqlPolicyRule := ∅
  isDPParameter : Finset DPParameterValue := ∅
  edge : Finset (AccessPath × AccessPath) := ∅
  claimNotEdge : Finset (Principal × AccessPath × AccessPath) := ∅
  hasAppliedIntegrityTag : Finset (AccessPath × Principal × IntegrityTag) := ∅
  removeIntegrityTag : Finset (AccessPath × Principal × IntegrityTag) := ∅
  saysRemoveTag : Finset (Principal × AccessPath × Principal × Tag) := ∅
  saysHasTag : Finset (Principal × AccessPath × Principal × Tag) := ∅
  saysOwnsAccessPath : Finset (Principal × Principal × AccessPath) := ∅
  saysOwnsTag : Finset (Principal × Principal × Tag) := ∅
  saysIsGlobalEpsilon : Finset (Principal × ℤ) := ∅
  saysIsGlobalDelta : Finset (Principal × ℤ) := ∅

/-- A program with its input. Souffle gives every symbol an ordinal number of its own. -/
structure Evaluation where
  program : Program
  facts : Facts
  ord : Symbol → ℕ
  ord_injective : Function.Injective ord

/-- Some ordinal numbers of symbols. -/
def symbolOrdinal (symbol : Symbol) : ℕ :=
  Encodable.encode (symbol.toList.map Char.toNat)

theorem symbolOrdinal_injective : Function.Injective symbolOrdinal := by
  have hchar : Function.Injective Char.toNat := fun c d h => Char.ext (UInt32.toNat_inj.mp h)
  intro s t h
  exact String.toList_inj.mp (hchar.list_map (Encodable.encode_injective h))

/-! ### Operators and attributes that the rules name -/

def sqlActor : Principal := "sql"
def tagTransformOperator : Operator := "sql.tag_transform"
def mergeOperator : Operator := "sql.merge"
def sqlOutputOperator : Operator := "sql.sql_output"
def ruleNameAttr : Symbol := "rule_name"
def controlInputStartIndexNameAttr : Symbol := "control_input_start_index"
def intersectItagRuleName : Symbol := "##raksha_internal#intersect_itag_rule"
def unionItagRuleName : Symbol := "##raksha_internal#union_itag_rule"

def arcsJsConnectInput : Operator := "arcsjs.connect_input"
def arcsJsConnectOutput : Operator := "arcsjs.connect_output"
def arcsJsWrapOpaque : Operator := "arcsjs.wrap_opaque"
def arcsJsUnwrapOpaque : Operator := "arcsjs.unwrap_opaque"
def arcsJsUserConsentToDowngrade : Operator := "arcsjs.user_consent_to_downgrade"
def arcsJsMakePublic : Operator := "arcsjs.make_public"
def arcsJsClaim : Operator := "arcsjs.claim"
def arcsJsCheck : Operator := "arcsjs.check"
def arcsJsCheckNot : Operator := "arcsjs.check_not"
def arcsJsPublicTag : Tag := "public"

/-- The operators to which the default edges do not apply. -/
inductive HasSpecialEdgeRules (program : Program) : Operator → Prop
  | tagTransform : .tagTransforms ∈ program → HasSpecialEdgeRules program tagTransformOperator
  | connectInput : .arcsJsInputAndOutput ∈ program →
      HasSpecialEdgeRules program arcsJsConnectInput
  | connectOutput : .arcsJsInputAndOutput ∈ program →
      HasSpecialEdgeRules program arcsJsConnectOutput
  | wrapOpaque : .arcsJsOpaque ∈ program → HasSpecialEdgeRules program arcsJsWrapOpaque
  | unwrapOpaque : .arcsJsOpaque ∈ program → HasSpecialEdgeRules program arcsJsUnwrapOpaque
  | userConsentToDowngrade : .arcsJsUserConsentToDowngrade ∈ program →
      HasSpecialEdgeRules program arcsJsUserConsentToDowngrade

section

variable (isOperation : Finset Operation)

/-- An operation with the given operator. -/
def IsOperationOf (operator : Operator) (op : Operation) : Prop :=
  op ∈ isOperation ∧ OperationHasOperator isOperation op operator

/-- The attribute of the operation with the given name is the string. -/
def HasStringAttribute (op : Operation) (name str : Symbol) : Prop :=
  OperationHasAttribute isOperation op ⟨name, .stringAttributePayload str⟩

def HasNumberAttribute (op : Operation) (name : Symbol) (num : ℤ) : Prop :=
  OperationHasAttribute isOperation op ⟨name, .numberAttributePayload num⟩

def IsTagTransformOperation (op : Operation) : Prop :=
  OperationHasActor isOperation op sqlActor ∧
    OperationHasOperator isOperation op tagTransformOperator

def TagTransformHasRuleName (op : Operation) (ruleName : Symbol) : Prop :=
  IsTagTransformOperation isOperation op ∧
    HasStringAttribute isOperation op ruleNameAttr ruleName

/-- The body that `arcsJsConnectInputOperationHasParticle`, `...HasStore` and `...HasHandleName`
share with the relations about `connect_output`. -/
def ArcsJsConnectOperation (operator : Operator) (op : Operation) (particle store : AccessPath)
    (name : Symbol) : Prop :=
  IsOperationOf isOperation operator op ∧
    OperationHasOperandAtIndex isOperation op particle 0 ∧
    OperationHasOperandAtIndex isOperation op store 1 ∧
    (∃ result, OperationHasResult isOperation op result) ∧
    HasStringAttribute isOperation op "name" name

def ArcsJsConnectInputOperationHasParticle (op : Operation) (particle : AccessPath) : Prop :=
  ∃ store name, ArcsJsConnectOperation isOperation arcsJsConnectInput op particle store name

def ArcsJsConnectInputOperationHasStore (op : Operation) (store : AccessPath) : Prop :=
  ∃ particle name, ArcsJsConnectOperation isOperation arcsJsConnectInput op particle store name

def ArcsJsConnectInputOperationHasHandleName (op : Operation) (name : Symbol) : Prop :=
  ∃ particle store, ArcsJsConnectOperation isOperation arcsJsConnectInput op particle store name

def ArcsJsConnectOutputOperationHasParticle (op : Operation) (particle : AccessPath) : Prop :=
  ∃ store name, ArcsJsConnectOperation isOperation arcsJsConnectOutput op particle store name

def ArcsJsConnectOutputOperationHasStore (op : Operation) (store : AccessPath) : Prop :=
  ∃ particle name, ArcsJsConnectOperation isOperation arcsJsConnectOutput op particle store name

def ArcsJsConnectOutputOperationHasHandleName (op : Operation) (name : Symbol) : Prop :=
  ∃ particle store, ArcsJsConnectOperation isOperation arcsJsConnectOutput op particle store name

/-- The body that the four relations about `user_consent_to_downgrade` share. -/
def ArcsJsUserConsentOperation (op : Operation) (downgradeFrom downgradeTo : Tag)
    (dataInput intentInput : AccessPath) : Prop :=
  IsOperationOf isOperation arcsJsUserConsentToDowngrade op ∧
    OperationHasOperandAtIndex isOperation op dataInput 0 ∧
    OperationHasOperandAtIndex isOperation op intentInput 1 ∧
    HasStringAttribute isOperation op "downgrade_from" downgradeFrom ∧
    HasStringAttribute isOperation op "downgrade_to" downgradeTo

def ArcsJsUserConsentHasDowngradeFromTag (op : Operation) (tag : Tag) : Prop :=
  ∃ toTag data intent, ArcsJsUserConsentOperation isOperation op tag toTag data intent

def ArcsJsUserConsentHasDowngradeToTag (op : Operation) (tag : Tag) : Prop :=
  ∃ fromTag data intent, ArcsJsUserConsentOperation isOperation op fromTag tag data intent

def ArcsJsUserConsentHasData (op : Operation) (dataInput : AccessPath) : Prop :=
  ∃ fromTag toTag intent, ArcsJsUserConsentOperation isOperation op fromTag toTag dataInput intent

def ArcsJsUserConsentHasIntent (op : Operation) (intentInput : AccessPath) : Prop :=
  ∃ fromTag toTag data, ArcsJsUserConsentOperation isOperation op fromTag toTag data intentInput

/-- The body that `arcsJsClaimOperationHasTag` and `...HasArgument` share with the relations about
`check` and `check_not`. -/
def ArcsJsTagOperation (operator : Operator) (op : Operation) (tag : Tag)
    (argument : AccessPath) : Prop :=
  IsOperationOf isOperation operator op ∧
    OperationHasOperandAtIndex isOperation op argument 0 ∧
    HasStringAttribute isOperation op "tag" tag

def ArcsJsOperationHasTag (operator : Operator) (op : Operation) (tag : Tag) : Prop :=
  ∃ argument, ArcsJsTagOperation isOperation operator op tag argument

def ArcsJsOperationHasArgument (operator : Operator) (op : Operation)
    (argument : AccessPath) : Prop :=
  ∃ tag, ArcsJsTagOperation isOperation operator op tag argument

end

end Raksha.Souffle
