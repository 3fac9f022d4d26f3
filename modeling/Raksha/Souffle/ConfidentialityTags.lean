import Raksha.Souffle.IntegrityTags

/-!
# Confidentiality tags

The relations `removeTag`, `hasTag` and `mayHaveTag` of `taint.dl` with the rules that the other
files add to them, the opaque tags of `arcsjs_opaque.dl`, which `mayHaveTag` depends on and which
depend on it, and the universe of tags.
-/

namespace Raksha.Souffle
open Datalog

/-- The member access path is the base followed by a dot and more. Souffle counts bytes and this
definition characters, which is the same for a prefix. -/
def StartsWithMember (base member : AccessPath) : Prop :=
  base.length + 1 < member.length ∧
    (base ++ ".").toList = member.toList.take (base.length + 1)

def arcsJsMaxTagLength : ℕ := 200

/-- `cat(ARCSJS_OPAQUE_PREFIX, tag)`. -/
def opaqueTag (tag : Tag) : Tag := "opaque_" ++ tag

section

variable (e : Evaluation)

inductive RemoveTag : AccessPath → Principal → Tag → Prop
  | declared {path : AccessPath} {owner : Principal} {tag : Tag} :
      (owner, path, owner, tag) ∈ e.facts.saysRemoveTag → RemoveTag path owner tag
  | tagTransform {op : Operation} {result : AccessPath} {ruleName : Symbol} {tag : Tag} :
      .tagTransforms ∈ e.program → IsTagTransformOperation e.facts.isOperation op →
      OperationHasResult e.facts.isOperation op result →
      TagTransformHasRuleName e.facts.isOperation op ruleName →
      e.AllTagTransformPreconditionsMet op →
      SqlPolicyRuleNameHasResult e.facts ruleName (.removeConfidentialityTag tag) →
      RemoveTag result sqlActor tag
  | userConsent {op : Operation} {result : AccessPath} {tag : Tag} :
      .arcsJsUserConsentToDowngrade ∈ e.program →
      ArcsJsUserConsentHasDowngradeFromTag e.facts.isOperation op tag →
      OperationHasResult e.facts.isOperation op result → RemoveTag result sqlActor tag

inductive HasTag : AccessPath → Principal → Tag → Prop
  | declared {path : AccessPath} {owner : Principal} {tag : Tag} :
      (owner, path, owner, tag) ∈ e.facts.saysHasTag → HasTag path owner tag
  | tagTransform {op : Operation} {result : AccessPath} {ruleName : Symbol} {tag : Tag} :
      .tagTransforms ∈ e.program → IsTagTransformOperation e.facts.isOperation op →
      OperationHasResult e.facts.isOperation op result →
      TagTransformHasRuleName e.facts.isOperation op ruleName →
      e.AllTagTransformPreconditionsMet op →
      SqlPolicyRuleNameHasResult e.facts ruleName (.addConfidentialityTag tag) →
      HasTag result sqlActor tag

def IsMemberOf (base member : AccessPath) : Prop :=
  e.IsAccessPath base ∧ e.IsAccessPath member ∧ StartsWithMember base member

end

inductive TagAtom
  | mayHaveTag (path : AccessPath) (owner : Principal) (tag : Tag)
  | arcsJsHasOpaqueConfiguration (conditionalTag tag : Tag)

open TagAtom in
inductive TagRule (e : Evaluation) : RuleSet TagAtom
  -- taint.dl
  | hasTag {tgt : AccessPath} {owner : Principal} {tag : Tag} : HasTag e tgt owner tag →
      TagRule e (mayHaveTag tgt owner tag) []
  | propagated {src tgt : AccessPath} {owner : Principal} {tag : Tag} :
      e.ResolvedEdge owner src tgt → ¬ RemoveTag e tgt owner tag →
      TagRule e (mayHaveTag tgt owner tag) [mayHaveTag src owner tag]
  | member {base member : AccessPath} {owner : Principal} {tag : Tag} :
      e.IsAccessPath base → e.IsAccessPath member → IsMemberOf e base member →
      TagRule e (mayHaveTag base owner tag) [mayHaveTag member owner tag]
  -- arcsjs_check_and_claim.dl
  | claimed {op : Operation} {argument : AccessPath} {tag : Tag} :
      .arcsJsCheckAndClaim ∈ e.program →
      ArcsJsOperationHasTag e.facts.isOperation arcsJsClaim op tag → tag ≠ arcsJsPublicTag →
      ArcsJsOperationHasArgument e.facts.isOperation arcsJsClaim op argument →
      TagRule e (mayHaveTag argument sqlActor tag) []
  -- arcsjs_opaque.dl
  | opaqueConfiguration {op : Operation} {source : AccessPath} {index : ℤ} {owner : Principal}
      {tag : Tag} : .arcsJsOpaque ∈ e.program →
      IsOperationOf e.facts.isOperation arcsJsWrapOpaque op →
      OperationHasOperandAtIndex e.facts.isOperation op source index →
      tag.utf8ByteSize < arcsJsMaxTagLength →
      TagRule e (arcsJsHasOpaqueConfiguration (opaqueTag tag) tag) [mayHaveTag source owner tag]
  | wrapOpaque {op : Operation} {source result : AccessPath} {index : ℤ} {owner : Principal}
      {tag newTag : Tag} : .arcsJsOpaque ∈ e.program →
      IsOperationOf e.facts.isOperation arcsJsWrapOpaque op →
      OperationHasOperandAtIndex e.facts.isOperation op source index →
      OperationHasResult e.facts.isOperation op result →
      TagRule e (mayHaveTag result owner newTag)
        [mayHaveTag source owner tag, arcsJsHasOpaqueConfiguration newTag tag]
  | unwrapOpaque {op : Operation} {node result : AccessPath} {index : ℤ} {owner : Principal}
      {tag newTag : Tag} : .arcsJsOpaque ∈ e.program →
      IsOperationOf e.facts.isOperation arcsJsUnwrapOpaque op →
      OperationHasOperandAtIndex e.facts.isOperation op node index →
      OperationHasResult e.facts.isOperation op result →
      TagRule e (mayHaveTag result owner tag)
        [mayHaveTag node owner newTag, arcsJsHasOpaqueConfiguration newTag tag]
  -- arcsjs_user_consent_to_downgrade.dl
  | downgraded {op : Operation} {result : AccessPath} {tag : Tag} :
      .arcsJsUserConsentToDowngrade ∈ e.program →
      ArcsJsUserConsentHasDowngradeToTag e.facts.isOperation op tag → tag ≠ arcsJsPublicTag →
      OperationHasResult e.facts.isOperation op result →
      TagRule e (mayHaveTag result sqlActor tag) []

namespace Evaluation

variable (e : Evaluation)

def MayHaveTag (path : AccessPath) (owner : Principal) (tag : Tag) : Prop :=
  Derivable (TagRule e) (.mayHaveTag path owner tag)

def ArcsJsHasOpaqueConfiguration (conditionalTag tag : Tag) : Prop :=
  Derivable (TagRule e) (.arcsJsHasOpaqueConfiguration conditionalTag tag)

/-- `isConditionalTag`: the only rule is in `arcsjs_opaque.dl`. -/
def IsConditionalTag (tag : Tag) : Prop :=
  .arcsJsOpaque ∈ e.program ∧ ∃ wrapped, e.ArcsJsHasOpaqueConfiguration tag wrapped

inductive IsTag : Tag → Prop
  | saysHasTag {speaker owner : Principal} {path : AccessPath} {tag : Tag} :
      (speaker, path, owner, tag) ∈ e.facts.saysHasTag → IsTag tag
  | addConfidentialityTag {ruleName : Symbol} {tag : Tag} : .tagTransforms ∈ e.program →
      SqlPolicyRuleNameHasResult e.facts ruleName (.addConfidentialityTag tag) → IsTag tag
  | removeConfidentialityTag {ruleName : Symbol} {tag : Tag} : .tagTransforms ∈ e.program →
      SqlPolicyRuleNameHasResult e.facts ruleName (.removeConfidentialityTag tag) → IsTag tag
  | claimed {op : Operation} {tag : Tag} : .arcsJsCheckAndClaim ∈ e.program →
      ArcsJsOperationHasTag e.facts.isOperation arcsJsClaim op tag → tag ≠ arcsJsPublicTag →
      IsTag tag
  | checked {op : Operation} {tag : Tag} : .arcsJsCheckAndClaim ∈ e.program →
      ArcsJsOperationHasTag e.facts.isOperation arcsJsCheck op tag → tag ≠ arcsJsPublicTag →
      IsTag tag
  | checkedNot {op : Operation} {tag : Tag} : .arcsJsCheckAndClaim ∈ e.program →
      ArcsJsOperationHasTag e.facts.isOperation arcsJsCheckNot op tag → tag ≠ arcsJsPublicTag →
      IsTag tag
  | wrapped {newTag tag : Tag} : .arcsJsOpaque ∈ e.program →
      e.ArcsJsHasOpaqueConfiguration newTag tag → IsTag newTag
  | downgradeFrom {op : Operation} {tag : Tag} : .arcsJsUserConsentToDowngrade ∈ e.program →
      ArcsJsUserConsentHasDowngradeFromTag e.facts.isOperation op tag → IsTag tag
  | downgradeTo {op : Operation} {tag : Tag} : .arcsJsUserConsentToDowngrade ∈ e.program →
      ArcsJsUserConsentHasDowngradeToTag e.facts.isOperation op tag → IsTag tag

variable {e}

/-- The tag of the atom is in the universe of tags. -/
def TagInUniverse (e : Evaluation) : TagAtom → Prop
  | .mayHaveTag _ _ tag => e.IsTag tag
  | .arcsJsHasOpaqueConfiguration _ tag => e.IsTag tag

theorem tagInUniverse_of_derivable {atom : TagAtom} (h : Derivable (TagRule e) atom) :
    TagInUniverse e atom := by
  induction h with
  | intro hrule hpremises ih =>
    cases hrule with
    | hasTag hhas =>
      cases hhas with
      | declared hsays => exact .saysHasTag hsays
      | tagTransform hfile _ _ _ _ hadds => exact .addConfidentialityTag hfile hadds
    | propagated =>
      have htag := ih _ (List.mem_singleton.mpr rfl)
      exact htag
    | member =>
      have htag := ih _ (List.mem_singleton.mpr rfl)
      exact htag
    | claimed hfile htag hne => exact .claimed hfile htag hne
    | opaqueConfiguration =>
      have htag := ih _ (List.mem_singleton.mpr rfl)
      exact htag
    | wrapOpaque hfile =>
      exact .wrapped hfile (hpremises _ (List.mem_cons_of_mem _ (List.mem_singleton.mpr rfl)))
    | unwrapOpaque =>
      have htag := ih _ (List.mem_cons_of_mem _ (List.mem_singleton.mpr rfl))
      exact htag
    | downgraded hfile htag => exact .downgradeTo hfile htag

/-- Every tag that an access path may have is in the universe of tags. -/
theorem MayHaveTag.isTag {path : AccessPath} {owner : Principal} {tag : Tag}
    (h : e.MayHaveTag path owner tag) : e.IsTag tag :=
  tagInUniverse_of_derivable h

/-- Programs without the ArcsJS files: the ways in which an access path gets a tag. -/
inductive ConfidentialitySource (e : Evaluation) (path : AccessPath) (owner : Principal)
    (tag : Tag) : Prop
  | hasTag : HasTag e path owner tag → ConfidentialitySource e path owner tag
  | propagated {src : AccessPath} : e.ResolvedEdge owner src path →
      e.MayHaveTag src owner tag → ¬ RemoveTag e path owner tag →
      ConfidentialitySource e path owner tag
  | member {member : AccessPath} : IsMemberOf e path member → e.MayHaveTag member owner tag →
      ConfidentialitySource e path owner tag

theorem mayHaveTag_iff (hprogram : e.program = sqlPolicyVerifierInterface) (path : AccessPath)
    (owner : Principal) (tag : Tag) :
    e.MayHaveTag path owner tag ↔ ConfidentialitySource e path owner tag := by
  have hclaim : .arcsJsCheckAndClaim ∉ e.program := by rw [hprogram]; decide
  have hopaque : .arcsJsOpaque ∉ e.program := by rw [hprogram]; decide
  have hconsent : .arcsJsUserConsentToDowngrade ∉ e.program := by rw [hprogram]; decide
  constructor
  · intro h
    obtain ⟨premises, hrule, hpremises⟩ := (derivable_iff _).mp h
    cases hrule with
    | hasTag hhas => exact .hasTag hhas
    | propagated hedge hkept =>
      exact .propagated hedge (hpremises _ (List.mem_singleton.mpr rfl)) hkept
    | member _ _ hmember =>
      exact .member hmember (hpremises _ (List.mem_singleton.mpr rfl))
    | claimed hfile => exact absurd hfile hclaim
    | wrapOpaque hfile => exact absurd hfile hopaque
    | unwrapOpaque hfile => exact absurd hfile hopaque
    | downgraded hfile => exact absurd hfile hconsent
  · intro h
    cases h with
    | hasTag hhas => exact .fact (.hasTag hhas)
    | propagated hedge hmay hkept => exact .step (.propagated hedge hkept) hmay
    | member hmember hmay => exact .step (.member hmember.1 hmember.2.1 hmember) hmay

end Evaluation

end Raksha.Souffle
