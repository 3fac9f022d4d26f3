import Raksha.Souffle.ConfidentialityTags
import Raksha.Souffle.SensitivityAnalysis

/-!
# Violations of policy

The relation `violatesPolicy`, with the rules that the files of a program add to it.
-/

namespace Raksha.Souffle

def sqlPolicyName : Symbol := "sql"
def arcsJsConstructionPolicy : Symbol := "arcsjs.construction"
def arcsJsDataLeakPolicy : Symbol := "arcsjs.data_leak"
def arcsJsCheckTagPolicy : Symbol := "arcsjs.check_tag"
def arcsJsUserDowngradePolicy : Symbol := "arcsjs.user_consent_to_downgrade"
def sensitivityAnalysisPolicy : Symbol := "sql.sensitivity_analysis"

namespace Evaluation

variable (e : Evaluation)

/-- `count : { operationHasOperandAtIndex(op, _, _) }`. -/
noncomputable def operandCount (op : Operation) : ℕ :=
  {x : AccessPath × ℤ | OperationHasOperandAtIndex e.facts.isOperation op x.1 x.2}.ncard

def SqlOutputHasConfidentialTag (op : Operation) (tag : Tag) : Prop :=
  IsSqlOutput e.facts.isOperation op ∧ ∃ result,
    OperationHasResult e.facts.isOperation op result ∧ e.IsTag tag ∧
    e.MayHaveTag result sqlActor tag ∧ ¬ e.IsConditionalTag tag

/-! ### ArcsJS operations -/

def ArcsJsMakePublicOperationHasArgument (op : Operation) (argument : AccessPath) : Prop :=
  IsOperationOf e.facts.isOperation arcsJsMakePublic op ∧
    OperationHasOperandAtIndex e.facts.isOperation op argument 0

def PolicyConformingMakePublic (op : Operation) : Prop :=
  IsOperationOf e.facts.isOperation arcsJsMakePublic op ∧
    (∃ argument, e.ArcsJsMakePublicOperationHasArgument op argument) ∧ e.operandCount op = 1

def ArcsJsMakePublicHasConfidentialTag (op : Operation) (argument : AccessPath) (tag : Tag) :
    Prop :=
  e.ArcsJsMakePublicOperationHasArgument op argument ∧ e.IsTag tag ∧ tag ≠ arcsJsPublicTag ∧
    (∃ owner, e.MayHaveTag argument owner tag) ∧ ¬ e.IsConditionalTag tag

/-- A `connect_input` or `connect_output` operation with both operands and a name. -/
def PolicyConformingConnect (operator : Operator) (op : Operation) : Prop :=
  IsOperationOf e.facts.isOperation operator op ∧
    (∃ particle store name,
      ArcsJsConnectOperation e.facts.isOperation operator op particle store name) ∧
    e.operandCount op = 2

/-- A `claim`, `check` or `check_not` operation with an argument and a tag. -/
def PolicyConformingTagOperation (operator : Operator) (op : Operation) : Prop :=
  IsOperationOf e.facts.isOperation operator op ∧
    (∃ argument, ArcsJsOperationHasArgument e.facts.isOperation operator op argument) ∧
    (∃ tag, ArcsJsOperationHasTag e.facts.isOperation operator op tag) ∧ e.operandCount op = 1

/-- A `wrap_opaque` or `unwrap_opaque` operation with one operand. -/
def PolicyArcsJsConformingOpaque (operator : Operator) (op : Operation) : Prop :=
  IsOperationOf e.facts.isOperation operator op ∧ e.operandCount op = 1

def ArcsJsUserConsentValid (op : Operation) : Prop :=
  IsOperationOf e.facts.isOperation arcsJsUserConsentToDowngrade op ∧
    (∃ dataInput, ArcsJsUserConsentHasData e.facts.isOperation op dataInput) ∧
    (∃ intentInput, ArcsJsUserConsentHasIntent e.facts.isOperation op intentInput) ∧
    ∃ downgradeFrom downgradeTo,
      ArcsJsUserConsentHasDowngradeFromTag e.facts.isOperation op downgradeFrom ∧
      ArcsJsUserConsentHasDowngradeToTag e.facts.isOperation op downgradeTo ∧
      downgradeFrom ≠ downgradeTo

inductive ViolatesPolicy : AccessPath → Symbol → Symbol → Prop
  -- sql_output.dl
  | sqlOutput {op : Operation} {tag : Tag} : .sqlOutput ∈ e.program →
      e.SqlOutputHasConfidentialTag op tag →
      ViolatesPolicy "violates" sqlPolicyName ("Output has confidential tag: " ++ tag)
  -- epsilon_analysis.dl
  | sensitivityAnalysis {value : AccessPath} : .epsilonAnalysis ∈ e.program →
      e.LacksLocalEpsilon value ∨ e.ExceedsGlobalEpsilon value ∨ e.ExceedsGlobalDelta value ∨
        e.IsUnrestrictedJoin value →
      ViolatesPolicy value sensitivityAnalysisPolicy ("Failed with value: " ++ value)
  -- arcsjs_make_public.dl
  | malformedMakePublic {op : Operation} {path : AccessPath} : .arcsJsMakePublic ∈ e.program →
      IsOperationOf e.facts.isOperation arcsJsMakePublic op →
      ¬ e.PolicyConformingMakePublic op → OperationHasResult e.facts.isOperation op path →
      ViolatesPolicy path arcsJsConstructionPolicy ("Malformed make_public operation at " ++ path)
  | dataLeak {op : Operation} {path : AccessPath} {tag : Tag} : .arcsJsMakePublic ∈ e.program →
      e.ArcsJsMakePublicHasConfidentialTag op path tag →
      ViolatesPolicy path arcsJsDataLeakPolicy
        ("May leak data labelled '" ++ tag ++ ("' at " ++ path))
  -- arcsjs_opaque.dl
  | deeplyNested {op : Operation} {source result : AccessPath} {index : ℤ} {owner : Principal}
      {tag : Tag} : .arcsJsOpaque ∈ e.program →
      IsOperationOf e.facts.isOperation arcsJsWrapOpaque op →
      OperationHasOperandAtIndex e.facts.isOperation op source index →
      e.MayHaveTag source owner tag → arcsJsMaxTagLength ≤ tag.utf8ByteSize →
      OperationHasResult e.facts.isOperation op result →
      ViolatesPolicy result arcsJsConstructionPolicy
        ("Deeply nesting opaques is not supported. Performed at " ++ result)
  | malformedWrapOpaque {op : Operation} {result : AccessPath} : .arcsJsOpaque ∈ e.program →
      IsOperationOf e.facts.isOperation arcsJsWrapOpaque op →
      ¬ e.PolicyArcsJsConformingOpaque arcsJsWrapOpaque op →
      OperationHasResult e.facts.isOperation op result →
      ViolatesPolicy result arcsJsConstructionPolicy
        ("Malformed wrap_opaque operation at " ++ result)
  | malformedUnwrapOpaque {op : Operation} {result : AccessPath} : .arcsJsOpaque ∈ e.program →
      IsOperationOf e.facts.isOperation arcsJsUnwrapOpaque op →
      ¬ e.PolicyArcsJsConformingOpaque arcsJsUnwrapOpaque op →
      OperationHasResult e.facts.isOperation op result →
      ViolatesPolicy result arcsJsConstructionPolicy
        ("Malformed unwrap_opaque operation at " ++ result)
  -- arcsjs_input_and_output.dl
  | malformedInput {op : Operation} {result : AccessPath} :
      .arcsJsInputAndOutput ∈ e.program →
      IsOperationOf e.facts.isOperation arcsJsConnectInput op →
      ¬ e.PolicyConformingConnect arcsJsConnectInput op →
      OperationHasResult e.facts.isOperation op result →
      ViolatesPolicy result arcsJsConstructionPolicy ("Malformed input operation at " ++ result)
  | malformedOutput {op : Operation} {result : AccessPath} :
      .arcsJsInputAndOutput ∈ e.program →
      IsOperationOf e.facts.isOperation arcsJsConnectOutput op →
      ¬ e.PolicyConformingConnect arcsJsConnectOutput op →
      OperationHasResult e.facts.isOperation op result →
      ViolatesPolicy result arcsJsConstructionPolicy ("Malformed output operation at " ++ result)
  -- arcsjs_check_and_claim.dl
  | missingTag {op : Operation} {argument : AccessPath} {tag : Tag} :
      .arcsJsCheckAndClaim ∈ e.program →
      ArcsJsOperationHasTag e.facts.isOperation arcsJsCheck op tag →
      ArcsJsOperationHasArgument e.facts.isOperation arcsJsCheck op argument →
      (¬ ∃ owner, e.MayHaveTag argument owner tag) →
      ViolatesPolicy argument arcsJsCheckTagPolicy
        ("Expected tag '" ++ tag ++ ("' missing at " ++ argument))
  | unexpectedTag {op : Operation} {argument : AccessPath} {owner : Principal} {tag : Tag} :
      .arcsJsCheckAndClaim ∈ e.program →
      ArcsJsOperationHasTag e.facts.isOperation arcsJsCheckNot op tag →
      ArcsJsOperationHasArgument e.facts.isOperation arcsJsCheckNot op argument →
      e.MayHaveTag argument owner tag →
      ViolatesPolicy argument arcsJsCheckTagPolicy
        ("Unexpected tag '" ++ tag ++ ("' found at " ++ argument))
  | malformedClaim {op : Operation} {result : AccessPath} : .arcsJsCheckAndClaim ∈ e.program →
      IsOperationOf e.facts.isOperation arcsJsClaim op →
      ¬ e.PolicyConformingTagOperation arcsJsClaim op →
      OperationHasResult e.facts.isOperation op result →
      ViolatesPolicy result arcsJsConstructionPolicy ("Malformed claim at " ++ result)
  | malformedCheck {op : Operation} {result : AccessPath} : .arcsJsCheckAndClaim ∈ e.program →
      IsOperationOf e.facts.isOperation arcsJsCheck op →
      ¬ e.PolicyConformingTagOperation arcsJsCheck op →
      OperationHasResult e.facts.isOperation op result →
      ViolatesPolicy result arcsJsConstructionPolicy ("Malformed check at " ++ result)
  | malformedCheckNot {op : Operation} {result : AccessPath} : .arcsJsCheckAndClaim ∈ e.program →
      IsOperationOf e.facts.isOperation arcsJsCheckNot op →
      ¬ e.PolicyConformingTagOperation arcsJsCheckNot op →
      OperationHasResult e.facts.isOperation op result →
      ViolatesPolicy result arcsJsConstructionPolicy ("Malformed check_not at " ++ result)
  -- arcsjs_user_consent_to_downgrade.dl
  | invalidConsent {op : Operation} {path : AccessPath} :
      .arcsJsUserConsentToDowngrade ∈ e.program →
      IsOperationOf e.facts.isOperation arcsJsUserConsentToDowngrade op →
      ¬ e.ArcsJsUserConsentValid op → OperationHasResult e.facts.isOperation op path →
      ViolatesPolicy path arcsJsUserDowngradePolicy ("User consent considered invalid at " ++ path)

end Evaluation

end Raksha.Souffle
