import Raksha.Lib.InformationFlow
import Raksha.Souffle.OpaqueTags

/-!
# Noninterference

The purpose of the rules for confidentiality tags: an access path without a tag shows nothing of the
data that has it, except what a rule that removes the tag releases. The operations run in any
order and any number of times. What they compute is a parameter; an operation reads all that
lies below its operands in memory.
-/

namespace Raksha.Souffle
open Datalog InformationFlow

/-- An operation runs, or data moves along an edge of the input. -/
inductive Event
  | operation (op : Operation)
  | edge (src tgt : AccessPath)
deriving DecidableEq

section

variable {M : Type*}

open Classical in
/-- What lies at the path and at its members. -/
noncomputable def below (env : AccessPath → M) (base path : AccessPath) : Option M :=
  if path = base ∨ StartsWithMember base path then some (env path) else none

/-- What the operations compute from their operands, and what an edge makes of its target. -/
structure Computation (M : Type*) where
  operation : Operation → List (AccessPath → Option M) → AccessPath → M
  edge : AccessPath → AccessPath → (AccessPath → Option M) → M → M

namespace Computation

def writes : Event → Set AccessPath
  | .operation op => {x | x ∈ op.resultList}
  | .edge _ tgt => {tgt}

noncomputable def compute (c : Computation M) :
    Event → (AccessPath → M) → AccessPath → M
  | .operation op, env, x => c.operation op (op.operandList.map (below env)) x
  | .edge src tgt, env, _ => c.edge src tgt (below env src) (env tgt)

noncomputable def machine (c : Computation M) : Machine Event AccessPath M where
  writes := writes
  compute := c.compute

/-- A tag transform passes on what it makes of its first operand; the others are preconditions. -/
def ReadsFirstOperand (c : Computation M) : Prop :=
  ∀ op, op.operator = tagTransformOperator → ∀ args args' x, args.head? = args'.head? →
    c.operation op args x = c.operation op args' x

/-- The same is computed for these access paths. -/
structure AgreesOn (c c' : Computation M) (paths : Set AccessPath) : Prop where
  operation : ∀ op args, ∀ x ∈ paths, c.operation op args x = c'.operation op args x
  edge : ∀ src, ∀ tgt ∈ paths, c.edge src tgt = c'.edge src tgt

end Computation

end

theorem HasSpecialEdgeRules.tagTransform_or {program : Program} {operator : Operator}
    (h : HasSpecialEdgeRules program operator) :
    operator = tagTransformOperator ∧ .tagTransforms ∈ program ∨
      operator ∈ [arcsJsConnectInput, arcsJsConnectOutput, arcsJsWrapOpaque, arcsJsUnwrapOpaque,
        arcsJsUserConsentToDowngrade] := by
  cases h with
  | tagTransform hfile => exact .inl ⟨rfl, hfile⟩
  | connectInput => exact .inr (by simp)
  | connectOutput => exact .inr (by simp)
  | wrapOpaque => exact .inr (by simp)
  | unwrapOpaque => exact .inr (by simp)
  | userConsentToDowngrade => exact .inr (by simp)

theorem HasSpecialEdgeRules.tagTransforms_mem {program : Program}
    (h : HasSpecialEdgeRules program tagTransformOperator) : .tagTransforms ∈ program := by
  rcases h.tagTransform_or with ⟨-, hfile⟩ | harcs
  · exact hfile
  · exact absurd harcs (by decide)

namespace Evaluation

section

variable (e : Evaluation) (tags : Set Tag)

/-- The access paths that have none of the tags. -/
def untagged : Set AccessPath := {path | ∀ tag ∈ tags, ¬ e.MayHaveTag path sqlActor tag}

/-- The access paths of an event from which the rules remove one of the tags. -/
def released (event : Event) : Set AccessPath :=
  {path | path ∈ Computation.writes event ∧ ∃ tag ∈ tags, RemoveTag e path sqlActor tag}

/-- The events of the input. The rules of ArcsJS operations do not follow the operands. -/
def IsEvent : Event → Prop
  | .operation op => op ∈ e.facts.isOperation ∧ op.actor = sqlActor ∧
      (HasSpecialEdgeRules e.program op.operator → op.operator = tagTransformOperator)
  | .edge src tgt => (src, tgt) ∈ e.facts.edge ∧ (sqlActor, src, tgt) ∉ e.facts.claimNotEdge ∧
      e.IsPrincipal sqlActor

end

variable {e : Evaluation} {tags : Set Tag}

theorem source_mem_untagged {src tgt : AccessPath} (hedge : e.ResolvedEdge sqlActor src tgt)
    (hkept : ¬ ∃ tag ∈ tags, RemoveTag e tgt sqlActor tag) (htgt : tgt ∈ e.untagged tags) :
    src ∈ e.untagged tags := by
  intro tag htag hsrc
  have hremove : ¬ RemoveTag e tgt sqlActor tag := fun hremove => hkept ⟨tag, htag, hremove⟩
  exact htgt tag htag (.step (.propagated hedge hremove) hsrc)

theorem member_mem_untagged {base member : AccessPath} (hbase : e.IsAccessPath base)
    (hmember : StartsWithMember base member) (huntagged : base ∈ e.untagged tags) :
    member ∈ e.untagged tags := by
  intro tag htag hmay
  have hpath : e.IsAccessPath member := (tagAtomMeaning hmay).2.2.1
  exact huntagged tag htag (.step (.member hbase hpath ⟨hbase, hpath, hmember⟩) hmay)

theorem below_eq {M : Type*} {env env' : AccessPath → M}
    (henv : Set.EqOn env env' (e.untagged tags)) {base : AccessPath} (hbase : e.IsAccessPath base)
    (huntagged : base ∈ e.untagged tags) : below env base = below env' base := by
  funext path
  by_cases hpath : path = base ∨ StartsWithMember base path
  · have hmem : path ∈ e.untagged tags := by
      rcases hpath with rfl | hmember
      · exact huntagged
      · exact member_mem_untagged hbase hmember huntagged
    rw [below, below, if_pos hpath, if_pos hpath, henv hmem]
  · rw [below, below, if_neg hpath, if_neg hpath]

/-- What an operation reads is untagged where its result is and nothing is released. -/
theorem operand_mem_untagged {op : Operation} (hevent : e.IsEvent (.operation op))
    {src tgt : AccessPath} {index : ℕ} (hsrc : op.operandList[index]? = some src)
    (hindex : op.operator = tagTransformOperator → index = 0) (htgt : tgt ∈ op.resultList)
    (hkept : ¬ ∃ tag ∈ tags, RemoveTag e tgt sqlActor tag) (huntagged : tgt ∈ e.untagged tags) :
    src ∈ e.untagged tags := by
  obtain ⟨hop, hactor, hspecial⟩ := hevent
  have hoperand : OperationHasOperandAtIndex e.facts.isOperation op src index :=
    (operationHasOperandAtIndex_iff _ _ _).mpr ⟨hop, index, rfl, hsrc⟩
  have hresult : OperationHasResult e.facts.isOperation op tgt :=
    (operationHasResult_iff _ _).mpr ⟨hop, htgt⟩
  have hedge : e.ResolvedEdge sqlActor src tgt := by
    by_cases hrules : HasSpecialEdgeRules e.program op.operator
    · have hoperator := hspecial hrules
      rw [hoperator] at hrules
      have hfirst : (index : ℤ) = 0 := by rw [hindex hoperator, Nat.cast_zero]
      rw [hfirst] at hoperand
      exact .fact (.tagTransform hrules.tagTransforms_mem
        ⟨⟨hop, hactor⟩, hop, hoperator⟩ hoperand hresult)
    · exact .fact (.operandEdge hop ⟨hop, hactor⟩ ⟨hop, rfl⟩ hoperand hresult hrules)
  exact source_mem_untagged hedge hkept huntagged

theorem below_operand_eq {M : Type*} {env env' : AccessPath → M}
    (henv : Set.EqOn env env' (e.untagged tags)) {op : Operation} (hop : op ∈ e.facts.isOperation)
    {x : AccessPath} (hx : x ∈ op.operandList) (huntagged : x ∈ e.untagged tags) :
    below env x = below env' x := by
  obtain ⟨index, hindex⟩ := (operationHasOperand_iff op x).mpr ⟨hop, hx⟩
  exact below_eq henv (.operand hindex) huntagged

section

variable {M : Type*} {c c' : Computation M}

theorem operation_eq (hfirst : c.ReadsFirstOperand) (hagree : c.AgreesOn c' (e.untagged tags))
    {op : Operation} (hevent : e.IsEvent (.operation op)) {x : AccessPath} (hx : x ∈ op.resultList)
    (huntagged : x ∈ e.untagged tags) (hkept : ¬ ∃ tag ∈ tags, RemoveTag e x sqlActor tag)
    {env env' : AccessPath → M} (henv : Set.EqOn env env' (e.untagged tags)) :
    c.operation op (op.operandList.map (below env)) x =
      c'.operation op (op.operandList.map (below env')) x := by
  rw [← hagree.operation op _ x huntagged]
  have hoperand : ∀ (index : ℕ) src, op.operandList[index]? = some src →
      (op.operator = tagTransformOperator → index = 0) → below env src = below env' src := by
    intro index src hsrc hindex
    exact below_operand_eq henv hevent.1 (List.mem_of_getElem? hsrc)
      (operand_mem_untagged hevent hsrc hindex hx hkept huntagged)
  by_cases hoperator : op.operator = tagTransformOperator
  · refine hfirst op hoperator _ _ x ?_
    rw [List.head?_map, List.head?_map, List.head?_eq_getElem?]
    cases hsrc : op.operandList[0]? with
    | none => rfl
    | some src => exact congrArg some (hoperand 0 src hsrc fun _ => rfl)
  · have hargs : op.operandList.map (below env) = op.operandList.map (below env') := by
      refine List.map_congr_left fun src hsrc => ?_
      obtain ⟨index, hindex⟩ := List.mem_iff_getElem?.mp hsrc
      exact hoperand index src hindex fun htransform => absurd htransform hoperator
    rw [hargs]

theorem shields (hfirst : c.ReadsFirstOperand) (hagree : c.AgreesOn c' (e.untagged tags))
    {event : Event} (hevent : e.IsEvent event) :
    c.machine.Shields c'.machine (e.untagged tags) (e.released tags) event where
  writes := rfl
  compute := by
    intro x hwrite huntagged hrelease env env' henv
    have hkept : ¬ ∃ tag ∈ tags, RemoveTag e x sqlActor tag :=
      fun hremove => hrelease ⟨hwrite, hremove⟩
    cases event with
    | operation op => exact operation_eq hfirst hagree hevent hwrite huntagged hkept henv
    | edge src tgt =>
      obtain rfl : x = tgt := hwrite
      obtain ⟨hedge, hclaim, hprincipal⟩ := hevent
      have hresolved : e.ResolvedEdge sqlActor src x := .step (.edge hedge hclaim) hprincipal
      have hsrc := source_mem_untagged hresolved hkept huntagged
      change c.edge src x (below env src) (env x) = c'.edge src x (below env' src) (env' x)
      rw [below_eq henv (.source hresolved) hsrc, henv huntagged, hagree.edge src x huntagged]

theorem output_mem_untagged (hfile : .sqlOutput ∈ e.program) (hplain : .arcsJsOpaque ∉ e.program)
    (hcompliant : ∀ path message, ¬ e.ViolatesPolicy path sqlPolicyName message) {op : Operation}
    (hop : IsSqlOutput e.facts.isOperation op) {x : AccessPath} (hx : x ∈ op.resultList) :
    x ∈ e.untagged tags := by
  intro tag _ hmay
  have hresult : OperationHasResult e.facts.isOperation op x :=
    (operationHasResult_iff _ _).mpr ⟨hop.1, hx⟩
  have hconditional : ¬ e.IsConditionalTag tag := fun h => hplain h.1
  exact hcompliant _ _ (.sqlOutput hfile ⟨hop, x, hresult, hmay.isTag, hmay, hconditional⟩)

/-- An operation that counts the records of secret data and releases the count. -/
def countOperation : Operation := ⟨sqlActor, "sql.count", ["count"], ["secret"], []⟩

def countEvaluation : Evaluation where
  program := sqlPolicyVerifierInterface
  facts :=
    { isOperation := {countOperation}
      saysHasTag := {(sqlActor, "secret", sqlActor, "t")}
      saysRemoveTag := {(sqlActor, "count", sqlActor, "t")} }
  ord := symbolOrdinal
  ord_injective := symbolOrdinal_injective

def counting : Computation (List ℕ) where
  operation _ args _ := [((args.head?.bind fun arg => arg "secret").getD []).length]
  edge _ _ _ old := old

end

end Evaluation

end Raksha.Souffle
