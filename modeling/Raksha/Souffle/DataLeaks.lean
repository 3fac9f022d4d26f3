import Raksha.Souffle.OpaqueTags

/-!
# Data leaks

A claimed tag is followed along the data flow to an operation that makes its argument public.
`unwrap_opaque` passes on what an opaque tag wraps and no other tag, and a tag that some
`wrap_opaque` generates is ignored everywhere.
-/

namespace Raksha.Souffle
open Datalog

section

variable (e : Evaluation)

/-- One step along default edges and the edges of the connecting operators. -/
inductive DataStep : AccessPath → AccessPath → Prop
  | operand {op : Operation} {src tgt : AccessPath} : op ∈ e.facts.isOperation →
      ¬ HasSpecialEdgeRules e.program op.operator → src ∈ op.operandList → tgt ∈ op.resultList →
      DataStep src tgt
  | inputStore {op : Operation} {store result : AccessPath} :
      ArcsJsConnectInputOperationHasStore e.facts.isOperation op store →
      result ∈ op.resultList → DataStep store result
  | inputParticle {op : Operation} {particle result : AccessPath} :
      ArcsJsConnectInputOperationHasParticle e.facts.isOperation op particle →
      result ∈ op.resultList → DataStep result particle
  | outputParticle {op : Operation} {particle result : AccessPath} :
      ArcsJsConnectOutputOperationHasParticle e.facts.isOperation op particle →
      result ∈ op.resultList → DataStep particle result
  | outputStore {op : Operation} {store result : AccessPath} :
      ArcsJsConnectOutputOperationHasStore e.facts.isOperation op store →
      result ∈ op.resultList → DataStep result store

/-- One step from the operand to the result of an `unwrap_opaque`. -/
def UnwrapStep (src tgt : AccessPath) : Prop :=
  ∃ op ∈ e.facts.isOperation, op.operator = arcsJsUnwrapOpaque ∧ src ∈ op.operandList ∧
    tgt ∈ op.resultList

/-- Not the result of an operation that may remove a tag. -/
def KeepsTags (value : AccessPath) : Prop :=
  ∀ op ∈ e.facts.isOperation, value ∈ op.resultList →
    op.operator ≠ arcsJsUserConsentToDowngrade ∧ op.operator ≠ tagTransformOperator

/-- Some `wrap_opaque` generates `opaqueTag tag`, as it wraps a value with the short tag. -/
def IsWrapped (tag : Tag) : Prop :=
  ∃ op ∈ e.facts.isOperation, op.operator = arcsJsWrapOpaque ∧ ∃ source ∈ op.operandList,
    (∃ owner, e.MayHaveTag source owner tag) ∧ tag.utf8ByteSize < arcsJsMaxTagLength

/-- One step of a value and the tag it carries. -/
inductive CarriesTag : AccessPath × Tag → AccessPath × Tag → Prop
  | data {src tgt : AccessPath} {tag : Tag} : DataStep e src tgt → KeepsTags e tgt →
      CarriesTag (src, tag) (tgt, tag)
  | unwrap {src tgt : AccessPath} {tag : Tag} : UnwrapStep e src tgt → KeepsTags e tgt →
      IsWrapped e tag → CarriesTag (src, opaqueTag tag) (tgt, tag)

/-- The program has the ArcsJS rules, the operations are the ones of one actor, and no principal
removes tags. -/
structure ArcsJsPlain : Prop where
  checkAndClaim : .arcsJsCheckAndClaim ∈ e.program
  inputAndOutput : .arcsJsInputAndOutput ∈ e.program
  makePublic : .arcsJsMakePublic ∈ e.program
  opaqueRules : .arcsJsOpaque ∈ e.program
  actor : ∀ op ∈ e.facts.isOperation, op.actor = sqlActor
  saysRemoveTag : e.facts.saysRemoveTag = ∅

end

namespace Evaluation

variable {e : Evaluation}

theorem KeepsTags.not_removeTag (h : ArcsJsPlain e) {value : AccessPath}
    (hkeeps : KeepsTags e value) (owner : Principal) (tag : Tag) :
    ¬ RemoveTag e value owner tag := by
  intro hremove
  cases hremove with
  | declared hsays =>
    rw [h.saysRemoveTag] at hsays
    exact absurd hsays (Finset.notMem_empty _)
  | tagTransform _ htransform hresult =>
    obtain ⟨hop, hmem⟩ := (operationHasResult_iff _ _).mp hresult
    exact (hkeeps _ hop hmem).2 htransform.2.2
  | userConsent _ hfrom hresult =>
    obtain ⟨hop, hmem⟩ := (operationHasResult_iff _ _).mp hresult
    obtain ⟨toTag, data, intent, hconsent, -⟩ := hfrom
    exact (hkeeps _ hop hmem).1 hconsent.2.2

theorem operandAtIndex_of_mem {isOperation : Finset Operation} {op : Operation}
    (hop : op ∈ isOperation) {x : AccessPath} (hx : x ∈ op.operandList) :
    ∃ index, OperationHasOperandAtIndex isOperation op x index :=
  (operationHasOperand_iff op x).mpr ⟨hop, hx⟩

theorem DataStep.resolvedEdge (h : ArcsJsPlain e) {src tgt : AccessPath}
    (hstep : DataStep e src tgt) : e.ResolvedEdge sqlActor src tgt := by
  have hresult : ∀ {op : Operation} {value : AccessPath}, op ∈ e.facts.isOperation →
      value ∈ op.resultList → OperationHasResult e.facts.isOperation op value :=
    fun hop hvalue => (operationHasResult_iff _ _).mpr ⟨hop, hvalue⟩
  cases hstep with
  | operand hop hdefault hsrc htgt =>
    obtain ⟨index, hindex⟩ := operandAtIndex_of_mem hop hsrc
    exact .fact (.operandEdge hop ⟨hop, h.actor _ hop⟩ ⟨hop, rfl⟩ hindex (hresult hop htgt)
      hdefault)
  | inputStore hstore htgt =>
    have hop := hstore.choose_spec.choose_spec.1.1
    exact .fact (.inputStore h.inputAndOutput hstore (hresult hop htgt))
  | inputParticle hparticle htgt =>
    have hop := hparticle.choose_spec.choose_spec.1.1
    exact .fact (.inputParticle h.inputAndOutput hparticle (hresult hop htgt))
  | outputParticle hparticle htgt =>
    have hop := hparticle.choose_spec.choose_spec.1.1
    exact .fact (.outputParticle h.inputAndOutput hparticle (hresult hop htgt))
  | outputStore hstore htgt =>
    have hop := hstore.choose_spec.choose_spec.1.1
    exact .fact (.outputStore h.inputAndOutput hstore (hresult hop htgt))

theorem IsWrapped.hasOpaqueConfiguration (h : ArcsJsPlain e) {tag : Tag}
    (hwrapped : IsWrapped e tag) : e.ArcsJsHasOpaqueConfiguration (opaqueTag tag) tag := by
  obtain ⟨op, hop, hoperator, source, hsource, ⟨owner, hmay⟩, hlength⟩ := hwrapped
  obtain ⟨index, hindex⟩ := operandAtIndex_of_mem hop hsource
  exact .step (.opaqueConfiguration h.opaqueRules ⟨hop, hop, hoperator⟩ hindex hlength) hmay

theorem isConditionalTag_iff (h : ArcsJsPlain e) (tag : Tag) :
    e.IsConditionalTag tag ↔ ∃ wrapped, IsWrapped e wrapped ∧ tag = opaqueTag wrapped := by
  refine ⟨?_, ?_⟩
  · rintro ⟨-, wrapped, hconfiguration⟩
    obtain ⟨premises, hrule, hpremises⟩ := (derivable_iff _).mp hconfiguration
    cases hrule with
    | opaqueConfiguration _ hop hoperand hlength =>
      obtain ⟨-, i, -, hget⟩ := (operationHasOperandAtIndex_iff _ _ _).mp hoperand
      exact ⟨wrapped, ⟨_, hop.1, hop.2.2, _, List.mem_of_getElem? hget,
        ⟨_, hpremises _ (List.mem_singleton.mpr rfl)⟩, hlength⟩, rfl⟩
  · rintro ⟨wrapped, hwrapped, rfl⟩
    exact ⟨h.opaqueRules, wrapped, IsWrapped.hasOpaqueConfiguration h hwrapped⟩

theorem CarriesTag.mayHaveTag (h : ArcsJsPlain e) {src tgt : AccessPath × Tag}
    (hstep : CarriesTag e src tgt) (hmay : e.MayHaveTag src.1 sqlActor src.2) :
    e.MayHaveTag tgt.1 sqlActor tgt.2 := by
  cases hstep with
  | data hdata hkeeps =>
    exact .step (.propagated (DataStep.resolvedEdge h hdata)
      (KeepsTags.not_removeTag h hkeeps _ _)) hmay
  | unwrap hunwrap _ hwrapped =>
    obtain ⟨op, hop, hoperator, hsrc, htgt⟩ := hunwrap
    obtain ⟨index, hindex⟩ := operandAtIndex_of_mem hop hsrc
    exact .step₂ (.unwrapOpaque h.opaqueRules ⟨hop, hop, hoperator⟩ hindex
      ((operationHasResult_iff _ _).mpr ⟨hop, htgt⟩)) hmay
      (IsWrapped.hasOpaqueConfiguration h hwrapped)

theorem mayHaveTag_of_carried (h : ArcsJsPlain e) {src tgt : AccessPath × Tag}
    (hpath : Relation.ReflTransGen (CarriesTag e) src tgt)
    (hmay : e.MayHaveTag src.1 sqlActor src.2) : e.MayHaveTag tgt.1 sqlActor tgt.2 := by
  induction hpath with
  | refl => exact hmay
  | tail _ hstep ih => exact CarriesTag.mayHaveTag h hstep ih

/-! ### Leaks -/

/-- The operation claims the tag on the value. -/
def Claims (e : Evaluation) (op : Operation) (value : AccessPath) (tag : Tag) : Prop :=
  ArcsJsTagOperation e.facts.isOperation arcsJsClaim op tag value ∧ tag ≠ arcsJsPublicTag

def LeaksAt (e : Evaluation) (argument : AccessPath) : Prop :=
  ∃ message, e.ViolatesPolicy argument arcsJsDataLeakPolicy message

/-- A claimed tag that is carried to an argument that is made public is reported, if it is not a
generated one there. A path without `unwrap_opaque` carries the claimed tag itself. -/
theorem claimedTag_leaks (h : ArcsJsPlain e) {claim makePublic : Operation}
    {value argument : AccessPath} {claimed tag : Tag} (hclaim : e.Claims claim value claimed)
    (hpath : Relation.ReflTransGen (CarriesTag e) (value, claimed) (argument, tag))
    (hargument : e.ArcsJsMakePublicOperationHasArgument makePublic argument)
    (hpublic : tag ≠ arcsJsPublicTag)
    (hgenerated : ∀ wrapped, IsWrapped e wrapped → tag ≠ opaqueTag wrapped) :
    e.LeaksAt argument := by
  have hstart : e.MayHaveTag value sqlActor claimed :=
    .fact (.claimed h.checkAndClaim ⟨value, hclaim.1⟩ hclaim.2 ⟨claimed, hclaim.1⟩)
  have hmay : e.MayHaveTag argument sqlActor tag := mayHaveTag_of_carried h hpath hstart
  refine ⟨_, .dataLeak h.makePublic
    ⟨hargument, MayHaveTag.isTag hmay, hpublic, ⟨sqlActor, hmay⟩, ?_⟩⟩
  rw [isConditionalTag_iff h]
  rintro ⟨wrapped, hwrapped, heq⟩
  exact hgenerated wrapped hwrapped heq

/-- Every claimed tag on a path of the given kind to a public argument is reported. -/
def ReportsAllClaims (e : Evaluation) : Prop :=
  ∀ claim makePublic value argument claimed, e.Claims claim value claimed → KeepsTags e value →
    Relation.ReflTransGen (fun src tgt => (DataStep e src tgt ∨ UnwrapStep e src tgt) ∧
      KeepsTags e tgt) value argument →
    e.ArcsJsMakePublicOperationHasArgument makePublic argument → e.LeaksAt argument

def ownOperation (operator : Operator) (result operand : AccessPath)
    (attributes : List Attribute) : Operation where
  actor := sqlActor
  operator := operator
  resultList := [result]
  operandList := [operand]
  attributes := attributes

def claimOperation (tag : Tag) (result operand : AccessPath) : Operation :=
  ownOperation arcsJsClaim result operand [⟨"tag", .stringAttributePayload tag⟩]

def arcsJsEvaluation (isOperation : Finset Operation) : Evaluation where
  program := policyVerifierInterface
  facts := { isOperation := isOperation }
  ord := symbolOrdinal
  ord_injective := symbolOrdinal_injective

/-- The tag is lost in an `unwrap_opaque` of a value that was never wrapped. -/
def unwrappedUnopened : Evaluation :=
  arcsJsEvaluation {claimOperation "private" "c" "v", ownOperation arcsJsUnwrapOpaque "u" "v" [],
    ownOperation arcsJsMakePublic "p" "u" []}

/-- The tag has the name of the one that wraps the tag of another value. -/
def claimedGenerated : Evaluation :=
  arcsJsEvaluation {claimOperation "opaque_a" "c" "v", claimOperation "a" "d" "w",
    ownOperation arcsJsWrapOpaque "o" "w" [], ownOperation arcsJsMakePublic "p" "v" []}

/-- Operations with the operators of the two examples and paths of one letter. -/
def IsSmall (op : Operation) : Prop :=
  op.operator ∈ [arcsJsClaim, arcsJsWrapOpaque, arcsJsUnwrapOpaque, arcsJsMakePublic] ∧
    (∀ x ∈ op.operandList, x.length = 1) ∧ ∀ x ∈ op.resultList, x.length = 1

instance (op : Operation) : Decidable (IsSmall op) :=
  inferInstanceAs (Decidable (_ ∧ _ ∧ _))

theorem IsSmall.operator_ne {op : Operation} (h : IsSmall op) : ∀ operator ∈
    [tagTransformOperator, arcsJsConnectInput, arcsJsConnectOutput, arcsJsUserConsentToDowngrade],
    op.operator ≠ operator := by
  have hdisjoint : ∀ operator ∈ [tagTransformOperator, arcsJsConnectInput, arcsJsConnectOutput,
      arcsJsUserConsentToDowngrade], operator ∉ [arcsJsClaim, arcsJsWrapOpaque,
      arcsJsUnwrapOpaque, arcsJsMakePublic] := by decide
  intro operator hoperator heq
  exact hdisjoint operator hoperator (heq ▸ h.1)

section

variable {isOperation : Finset Operation} (hsmall : ∀ op ∈ isOperation, IsSmall op)
include hsmall

theorem resolvedEdge_small {owner : Principal} {src tgt : AccessPath}
    (h : (arcsJsEvaluation isOperation).ResolvedEdge owner src tgt) :
    ∃ op ∈ isOperation, ¬ HasSpecialEdgeRules policyVerifierInterface op.operator ∧
      tgt ∈ op.resultList := by
  obtain ⟨premises, hrule, -⟩ := (derivable_iff _).mp h
  cases hrule with
  | edge hedge _ => exact absurd hedge (Finset.notMem_empty _)
  | operandEdge hop _ hoperator _ htgt hdefault =>
    rw [← hoperator.2] at hdefault
    exact ⟨_, hop, hdefault, ((operationHasResult_iff _ _).mp htgt).2⟩
  | arbitraryComputationEdge hop htgt hdefault _ hoperator =>
    rw [← hoperator.2] at hdefault
    exact ⟨_, hop, hdefault, ((operationHasResult_iff _ _).mp htgt).2⟩
  | tagTransform _ hop => exact absurd hop.2.2 ((hsmall _ hop.2.1).operator_ne _ (by simp))
  | inputStore _ hstore =>
    obtain ⟨particle, name, hop, -⟩ := hstore
    exact absurd hop.2.2 ((hsmall _ hop.1).operator_ne _ (by simp))
  | inputParticle _ hparticle =>
    obtain ⟨store, name, hop, -⟩ := hparticle
    exact absurd hop.2.2 ((hsmall _ hop.1).operator_ne _ (by simp))
  | outputStore _ hstore =>
    obtain ⟨particle, name, hop, -⟩ := hstore
    exact absurd hop.2.2 ((hsmall _ hop.1).operator_ne _ (by simp))
  | outputParticle _ hparticle =>
    obtain ⟨store, name, hop, -⟩ := hparticle
    exact absurd hop.2.2 ((hsmall _ hop.1).operator_ne _ (by simp))
  | userConsent _ hdata =>
    obtain ⟨fromTag, toTag, intent, hop, -⟩ := hdata
    exact absurd hop.2.2 ((hsmall _ hop.1).operator_ne _ (by simp))

theorem mayHaveTag_small {path : AccessPath} {owner : Principal} {tag : Tag}
    (h : (arcsJsEvaluation isOperation).MayHaveTag path owner tag) :
    path.length = 1 ∧
      ((∃ op ∈ isOperation, ¬ HasSpecialEdgeRules policyVerifierInterface op.operator ∧
          path ∈ op.resultList) ∨
        (∃ op, (arcsJsEvaluation isOperation).Claims op path tag) ∨
        (∃ op ∈ isOperation, op.operator = arcsJsWrapOpaque ∧ path ∈ op.resultList) ∨
        ∃ op ∈ isOperation, op.operator = arcsJsUnwrapOpaque ∧ path ∈ op.resultList ∧
          ∃ newTag, (arcsJsEvaluation isOperation).ArcsJsHasOpaqueConfiguration newTag tag) := by
  unfold MayHaveTag at h
  generalize hatom : TagAtom.mayHaveTag path owner tag = atom at h
  induction h generalizing path owner tag with
  | intro hrule hpremises ih =>
    subst hatom
    cases hrule with
    | hasTag hhas =>
      cases hhas with
      | declared hsays => exact absurd hsays (Finset.notMem_empty _)
      | tagTransform _ _ _ _ _ hadds =>
        obtain ⟨rule, hrule, -⟩ := hadds
        exact absurd hrule (Finset.notMem_empty _)
    | propagated hedge =>
      obtain ⟨op, hop, hdefault, hresult⟩ := resolvedEdge_small hsmall hedge
      exact ⟨(hsmall op hop).2.2 _ hresult, .inl ⟨op, hop, hdefault, hresult⟩⟩
    | member _ _ hmember =>
      obtain ⟨hlength, -⟩ := ih _ (List.mem_singleton.mpr rfl) rfl
      have hlonger := hmember.2.2.1
      omega
    | claimed _ htag hne hargument =>
      obtain ⟨other, hop, hoperand, -⟩ := hargument
      obtain ⟨argument, -, -, hattr⟩ := htag
      obtain ⟨-, i, -, hget⟩ := (operationHasOperandAtIndex_iff _ _ _).mp hoperand
      exact ⟨(hsmall _ hop.1).2.1 _ (List.mem_of_getElem? hget),
        .inr (.inl ⟨_, ⟨hop, hoperand, hattr⟩, hne⟩)⟩
    | wrapOpaque _ hop _ hresult =>
      have hmem := ((operationHasResult_iff _ _).mp hresult).2
      exact ⟨(hsmall _ hop.1).2.2 _ hmem, .inr (.inr (.inl ⟨_, hop.1, hop.2.2, hmem⟩))⟩
    | unwrapOpaque _ hop _ hresult =>
      have hmem := ((operationHasResult_iff _ _).mp hresult).2
      exact ⟨(hsmall _ hop.1).2.2 _ hmem, .inr (.inr (.inr ⟨_, hop.1, hop.2.2, hmem, _,
        hpremises _ (List.mem_cons_of_mem _ (List.mem_singleton.mpr rfl))⟩))⟩
    | downgraded _ htag =>
      obtain ⟨fromTag, data, intent, hop, -⟩ := htag
      exact absurd hop.2.2 ((hsmall _ hop.1).operator_ne _ (by simp))

end

theorem LeaksAt.exists_tag {argument : AccessPath} (h : e.LeaksAt argument) :
    ∃ owner tag, e.MayHaveTag argument owner tag ∧ ¬ e.IsConditionalTag tag := by
  obtain ⟨message, hviolates⟩ := h
  generalize hpolicy : arcsJsDataLeakPolicy = policy at hviolates
  cases hviolates with
  | dataLeak _ hleak =>
    obtain ⟨-, -, -, ⟨owner, hmay⟩, hconditional⟩ := hleak
    exact ⟨owner, _, hmay, hconditional⟩
  | _ => exact absurd hpolicy (by decide)

theorem arcsJsPlain_arcsJsEvaluation {isOperation : Finset Operation}
    (hactor : ∀ op ∈ isOperation, op.actor = sqlActor) :
    ArcsJsPlain (arcsJsEvaluation isOperation) where
  checkAndClaim := show _ ∈ policyVerifierInterface by decide
  inputAndOutput := show _ ∈ policyVerifierInterface by decide
  makePublic := show _ ∈ policyVerifierInterface by decide
  opaqueRules := show _ ∈ policyVerifierInterface by decide
  actor := hactor
  saysRemoveTag := rfl

theorem claims_claimOperation {isOperation : Finset Operation} {tag : Tag}
    {result operand : AccessPath} (hop : claimOperation tag result operand ∈ isOperation)
    (hpublic : tag ≠ arcsJsPublicTag) :
    (arcsJsEvaluation isOperation).Claims (claimOperation tag result operand) operand tag :=
  ⟨⟨⟨hop, hop, rfl⟩, (operationHasOperandAtIndex_iff _ _ _).mpr ⟨hop, 0, rfl, rfl⟩,
    (operationHasAttribute_iff _ _).mpr ⟨hop, List.mem_singleton_self _⟩⟩, hpublic⟩

theorem hasArgument_makePublic {isOperation : Finset Operation} {result operand : AccessPath}
    (hop : ownOperation arcsJsMakePublic result operand [] ∈ isOperation) :
    (arcsJsEvaluation isOperation).ArcsJsMakePublicOperationHasArgument
      (ownOperation arcsJsMakePublic result operand []) operand :=
  ⟨⟨hop, hop, rfl⟩, (operationHasOperandAtIndex_iff _ _ _).mpr ⟨hop, 0, rfl, rfl⟩⟩

theorem keepsTags_small {isOperation : Finset Operation} (hsmall : ∀ op ∈ isOperation, IsSmall op)
    (value : AccessPath) : KeepsTags (arcsJsEvaluation isOperation) value :=
  fun _ hop _ => ⟨(hsmall _ hop).operator_ne _ (by simp), (hsmall _ hop).operator_ne _ (by simp)⟩

theorem exists_claim_of_claims {op : Operation} {value : AccessPath} {tag : Tag}
    (h : e.Claims op value tag) : op ∈ e.facts.isOperation ∧ op.operator = arcsJsClaim ∧
      value ∈ op.operandList ∧ ⟨"tag", .stringAttributePayload tag⟩ ∈ op.attributes := by
  obtain ⟨⟨hop, hoperand, hattr⟩, -⟩ := h
  obtain ⟨-, i, -, hget⟩ := (operationHasOperandAtIndex_iff _ _ _).mp hoperand
  exact ⟨hop.1, hop.2.2, List.mem_of_getElem? hget, ((operationHasAttribute_iff _ _).mp hattr).2⟩

theorem isWrapped_of_claims {isOperation : Finset Operation} {tag : Tag}
    (claimed operand wrapped : AccessPath)
    (hclaim : claimOperation tag claimed operand ∈ isOperation) (hpublic : tag ≠ arcsJsPublicTag)
    (hlength : tag.utf8ByteSize < arcsJsMaxTagLength)
    (hwrap : ownOperation arcsJsWrapOpaque wrapped operand [] ∈ isOperation) :
    IsWrapped (arcsJsEvaluation isOperation) tag := by
  have hclaims := claims_claimOperation hclaim hpublic
  have hmay : (arcsJsEvaluation isOperation).MayHaveTag operand sqlActor tag :=
    .fact (.claimed (show _ ∈ policyVerifierInterface by decide) ⟨operand, hclaims.1⟩ hpublic
      ⟨tag, hclaims.1⟩)
  exact ⟨_, hwrap, rfl, operand, List.mem_singleton_self _, ⟨sqlActor, hmay⟩, hlength⟩

theorem not_leaksAt_unwrappedUnopened : ¬ unwrappedUnopened.LeaksAt "u" := by
  intro hleaks
  obtain ⟨owner, tag, hmay, -⟩ := hleaks.exists_tag
  have hunwrap : ∀ op ∈ unwrappedUnopened.facts.isOperation, "u" ∈ op.resultList →
      op.operator = arcsJsUnwrapOpaque := by decide
  have hwrap : ∀ op ∈ unwrappedUnopened.facts.isOperation, op.operator ≠ arcsJsWrapOpaque := by
    decide
  have hclaimed : ∀ op ∈ unwrappedUnopened.facts.isOperation, op.operator = arcsJsClaim →
      "u" ∉ op.operandList := by decide
  obtain ⟨-, ⟨op, hop, hdefault, hresult⟩ | ⟨op, hclaim⟩ | ⟨op, hop, hoperator, -⟩ |
    ⟨-, -, -, -, newTag, hconfiguration⟩⟩ := mayHaveTag_small (by decide) hmay
  · rw [hunwrap op hop hresult] at hdefault
    exact hdefault (.unwrapOpaque (by decide))
  · obtain ⟨hop, hoperator, hoperand, -⟩ := exists_claim_of_claims hclaim
    exact hclaimed op hop hoperator hoperand
  · exact hwrap op hop hoperator
  · have hplain : ArcsJsPlain unwrappedUnopened := arcsJsPlain_arcsJsEvaluation (by decide)
    obtain ⟨-, ⟨op, hop, hoperator, -⟩, -⟩ :=
      (isConditionalTag_iff hplain newTag).mp ⟨hplain.opaqueRules, tag, hconfiguration⟩
    exact hwrap op hop hoperator

theorem not_leaksAt_claimedGenerated : ¬ claimedGenerated.LeaksAt "v" := by
  intro hleaks
  obtain ⟨owner, tag, hmay, hconditional⟩ := hleaks.exists_tag
  have hresults : ∀ op ∈ claimedGenerated.facts.isOperation, "v" ∉ op.resultList := by decide
  have hclaimed : ∀ op ∈ claimedGenerated.facts.isOperation, op.operator = arcsJsClaim →
      "v" ∈ op.operandList → op.attributes = [⟨"tag", .stringAttributePayload "opaque_a"⟩] := by
    decide
  obtain ⟨-, ⟨op, hop, -, hresult⟩ | ⟨op, hclaim⟩ | ⟨op, hop, -, hresult⟩ |
    ⟨op, hop, -, hresult, -⟩⟩ := mayHaveTag_small (by decide) hmay
  · exact hresults op hop hresult
  · obtain ⟨hop, hoperator, hoperand, hattr⟩ := exists_claim_of_claims hclaim
    rw [hclaimed op hop hoperator hoperand, List.mem_singleton, Attribute.mk.injEq,
      AttributePayload.stringAttributePayload.injEq] at hattr
    have hplain : ArcsJsPlain claimedGenerated := arcsJsPlain_arcsJsEvaluation (by decide)
    have hwrapped : IsWrapped claimedGenerated "a" :=
      isWrapped_of_claims "d" "w" "o" (by decide) (by decide) (by decide) (by decide)
    exact hconditional ((isConditionalTag_iff hplain tag).mpr ⟨"a", hwrapped, hattr.2⟩)
  · exact hresults op hop hresult
  · exact hresults op hop hresult

/-- A claimed tag gets lost in an `unwrap_opaque`, and behind the name of a generated tag. -/
theorem claims_unreported :
    (ArcsJsPlain unwrappedUnopened ∧ ¬ unwrappedUnopened.ReportsAllClaims) ∧
      ArcsJsPlain claimedGenerated ∧ ¬ claimedGenerated.ReportsAllClaims := by
  refine ⟨⟨arcsJsPlain_arcsJsEvaluation (by decide), ?_⟩,
    arcsJsPlain_arcsJsEvaluation (by decide), ?_⟩
  · intro hreports
    refine not_leaksAt_unwrappedUnopened (hreports (claimOperation "private" "c" "v")
      (ownOperation arcsJsMakePublic "p" "u" []) "v" "u" "private"
      (claims_claimOperation (by decide) (by decide)) (keepsTags_small (by decide) _) ?_
      (hasArgument_makePublic (by decide)))
    have hop : ownOperation arcsJsUnwrapOpaque "u" "v" [] ∈
        unwrappedUnopened.facts.isOperation := by decide
    exact .single ⟨.inr ⟨_, hop, rfl, List.mem_cons_self .., List.mem_cons_self ..⟩,
      keepsTags_small (by decide) _⟩
  · intro hreports
    exact not_leaksAt_claimedGenerated (hreports (claimOperation "opaque_a" "c" "v")
      (ownOperation arcsJsMakePublic "p" "v" []) "v" "v" "opaque_a"
      (claims_claimOperation (by decide) (by decide)) (keepsTags_small (by decide) _) .refl
      (hasArgument_makePublic (by decide)))

/-- A tag that goes through a wrapping and an unwrapping, and one that goes straight. -/
def wrappedAndUnwrapped : Evaluation :=
  arcsJsEvaluation {claimOperation "opaque_a" "c" "v", claimOperation "a" "d" "w",
    ownOperation arcsJsWrapOpaque "o" "w" [], ownOperation arcsJsUnwrapOpaque "u" "v" [],
    ownOperation arcsJsMakePublic "p" "u" []}

theorem wrappedAndUnwrapped_leaks : wrappedAndUnwrapped.LeaksAt "u" := by
  have hplain : ArcsJsPlain wrappedAndUnwrapped := arcsJsPlain_arcsJsEvaluation (by decide)
  have hclaim : wrappedAndUnwrapped.Claims (claimOperation "opaque_a" "c" "v") "v" "opaque_a" :=
    claims_claimOperation (by decide) (by decide)
  have hpublic : wrappedAndUnwrapped.ArcsJsMakePublicOperationHasArgument
      (ownOperation arcsJsMakePublic "p" "u" []) "u" := hasArgument_makePublic (by decide)
  have hunwrap : ownOperation arcsJsUnwrapOpaque "u" "v" [] ∈
      wrappedAndUnwrapped.facts.isOperation := by decide
  have hwrapped : IsWrapped wrappedAndUnwrapped "a" :=
    isWrapped_of_claims "d" "w" "o" (by decide) (by decide) (by decide) (by decide)
  have hstep : CarriesTag wrappedAndUnwrapped ("v", opaqueTag "a") ("u", "a") :=
    .unwrap ⟨_, hunwrap, rfl, List.mem_cons_self .., List.mem_cons_self ..⟩
      (keepsTags_small (by decide) _) hwrapped
  refine claimedTag_leaks hplain hclaim (.single hstep) hpublic (by decide) ?_
  intro wrapped _ heq
  have hlength := congrArg String.utf8ByteSize heq
  rw [utf8ByteSize_opaqueTag] at hlength
  have ha : "a".utf8ByteSize = 1 := by decide
  omega

end Evaluation

end Raksha.Souffle
