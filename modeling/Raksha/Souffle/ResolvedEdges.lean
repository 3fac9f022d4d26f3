import Raksha.Lib.Datalog
import Raksha.Lib.OrderedEnumeration
import Raksha.Souffle.Program

/-!
# Data flow edges

The resolved edges of `dataflow_graph.dl`, `taint.dl` and the files that add edges, together with
the principals and the owners of access paths, which depend on them; then the access paths and
the numbering of the predecessors of an access path.
-/

namespace Raksha.Souffle
open Datalog

inductive EdgeAtom
  | isPrincipal (principal : Principal)
  | ownsAccessPath (owner : Principal) (path : AccessPath)
  | resolvedEdge (owner : Principal) (src tgt : AccessPath)

def arbitraryComputation : AccessPath := "ArbitraryComputation"

def OwnsTag (facts : Facts) (owner : Principal) (tag : Tag) : Prop :=
  ∃ speaker, (speaker, owner, tag) ∈ facts.saysOwnsTag

/-- The rules for `isPrincipal`, `ownsAccessPath` and `resolvedEdge`. -/
inductive EdgeRule (program : Program) (facts : Facts) : RuleSet EdgeAtom
  -- operations.dl
  | actor {op : Operation} : op ∈ facts.isOperation →
      EdgeRule program facts (.isPrincipal op.actor) []
  -- authorization_logic.dl
  | tagOwner {owner : Principal} {tag : Tag} : OwnsTag facts owner tag →
      EdgeRule program facts (.isPrincipal owner) []
  | pathOwner {owner : Principal} {path : AccessPath} :
      EdgeRule program facts (.isPrincipal owner) [.ownsAccessPath owner path]
  -- dataflow_graph.dl
  | edge {principal : Principal} {src tgt : AccessPath} : (src, tgt) ∈ facts.edge →
      (principal, src, tgt) ∉ facts.claimNotEdge →
      EdgeRule program facts (.resolvedEdge principal src tgt) [.isPrincipal principal]
  -- taint.dl
  | operandEdge {op : Operation} {owner : Principal} {operator : Operator}
      {src tgt : AccessPath} {index : ℤ} : op ∈ facts.isOperation →
      OperationHasActor facts.isOperation op owner →
      OperationHasOperator facts.isOperation op operator →
      OperationHasOperandAtIndex facts.isOperation op src index →
      OperationHasResult facts.isOperation op tgt → ¬ HasSpecialEdgeRules program operator →
      EdgeRule program facts (.resolvedEdge owner src tgt) []
  | arbitraryComputationEdge {op : Operation} {owner : Principal} {operator : Operator}
      {tgt : AccessPath} : op ∈ facts.isOperation →
      OperationHasResult facts.isOperation op tgt → ¬ HasSpecialEdgeRules program operator →
      OperationHasActor facts.isOperation op owner →
      OperationHasOperator facts.isOperation op operator →
      EdgeRule program facts (.resolvedEdge owner arbitraryComputation tgt) []
  | ownsAccessPath {principal : Principal} {path : AccessPath} :
      (principal, principal, path) ∈ facts.saysOwnsAccessPath →
      EdgeRule program facts (.ownsAccessPath principal path) []
  | ownsTarget {principal : Principal} {src tgt : AccessPath} :
      EdgeRule program facts (.ownsAccessPath principal tgt)
        [.resolvedEdge principal src tgt, .ownsAccessPath principal src]
  | appliedIntegrityTag {path : AccessPath} {principal : Principal} {tag : IntegrityTag} :
      (path, principal, tag) ∈ facts.hasAppliedIntegrityTag →
      EdgeRule program facts (.isPrincipal principal) []
  | saysHasTag {principal owner : Principal} {path : AccessPath} {tag : Tag} :
      (principal, path, owner, tag) ∈ facts.saysHasTag →
      EdgeRule program facts (.isPrincipal principal) []
  -- tag_transforms.dl
  | tagTransform {op : Operation} {input output : AccessPath} : .tagTransforms ∈ program →
      IsTagTransformOperation facts.isOperation op →
      OperationHasOperandAtIndex facts.isOperation op input 0 →
      OperationHasResult facts.isOperation op output →
      EdgeRule program facts (.resolvedEdge sqlActor input output) []
  -- arcsjs_input_and_output.dl
  | inputStore {op : Operation} {store result : AccessPath} : .arcsJsInputAndOutput ∈ program →
      ArcsJsConnectInputOperationHasStore facts.isOperation op store →
      OperationHasResult facts.isOperation op result →
      EdgeRule program facts (.resolvedEdge sqlActor store result) []
  | inputParticle {op : Operation} {particle result : AccessPath} :
      .arcsJsInputAndOutput ∈ program →
      ArcsJsConnectInputOperationHasParticle facts.isOperation op particle →
      OperationHasResult facts.isOperation op result →
      EdgeRule program facts (.resolvedEdge sqlActor result particle) []
  | outputStore {op : Operation} {store result : AccessPath} : .arcsJsInputAndOutput ∈ program →
      ArcsJsConnectOutputOperationHasStore facts.isOperation op store →
      OperationHasResult facts.isOperation op result →
      EdgeRule program facts (.resolvedEdge sqlActor result store) []
  | outputParticle {op : Operation} {particle result : AccessPath} :
      .arcsJsInputAndOutput ∈ program →
      ArcsJsConnectOutputOperationHasParticle facts.isOperation op particle →
      OperationHasResult facts.isOperation op result →
      EdgeRule program facts (.resolvedEdge sqlActor particle result) []
  -- arcsjs_user_consent_to_downgrade.dl
  | userConsent {op : Operation} {dataInput dataOutput : AccessPath} :
      .arcsJsUserConsentToDowngrade ∈ program →
      ArcsJsUserConsentHasData facts.isOperation op dataInput →
      OperationHasResult facts.isOperation op dataOutput →
      EdgeRule program facts (.resolvedEdge sqlActor dataInput dataOutput) []

namespace Evaluation

variable (e : Evaluation)

def IsPrincipal (principal : Principal) : Prop :=
  Derivable (EdgeRule e.program e.facts) (.isPrincipal principal)

def ResolvedEdge (owner : Principal) (src tgt : AccessPath) : Prop :=
  Derivable (EdgeRule e.program e.facts) (.resolvedEdge owner src tgt)

/-- `isAccessPath`, with the rules of `dataflow_graph.dl`, `operations.dl` and `taint.dl`. -/
inductive IsAccessPath : AccessPath → Prop
  | source {owner : Principal} {src tgt : AccessPath} : e.ResolvedEdge owner src tgt →
      IsAccessPath src
  | target {owner : Principal} {src tgt : AccessPath} : e.ResolvedEdge owner src tgt →
      IsAccessPath tgt
  | result {op : Operation} {result : AccessPath} :
      OperationHasResult e.facts.isOperation op result → IsAccessPath result
  | operand {op : Operation} {operand : AccessPath} {index : ℤ} :
      OperationHasOperandAtIndex e.facts.isOperation op operand index → IsAccessPath operand
  | arbitraryComputation : IsAccessPath Souffle.arbitraryComputation
  | saysHasTag {speaker owner : Principal} {path : AccessPath} {tag : Tag} :
      (speaker, path, owner, tag) ∈ e.facts.saysHasTag → IsAccessPath path

/-- `ord(src)` is the least ordinal number among the candidates. -/
def MinOrd (candidate : AccessPath → Prop) (src : AccessPath) : Prop :=
  ∃ other, candidate other ∧ e.ord src = e.ord other ∧
    ∀ c, candidate c → e.ord other ≤ e.ord c

inductive OrderedPredecessors : AccessPath → Principal → AccessPath → ℕ → Prop
  | first {dst src : AccessPath} {owner : Principal} : e.ResolvedEdge owner src dst →
      e.MinOrd (e.ResolvedEdge owner · dst) src → OrderedPredecessors dst owner src 0
  | next {dst prevSrc src ap : AccessPath} {owner : Principal} {prevOrd : ℕ} :
      OrderedPredecessors dst owner prevSrc prevOrd → e.ResolvedEdge owner src ap →
      e.MinOrd (fun candidate =>
        e.ResolvedEdge owner candidate dst ∧ e.ord candidate > e.ord prevSrc) src →
      OrderedPredecessors dst owner src (prevOrd + 1)

def NumPredecessors (ap : AccessPath) (owner : Principal) (num : ℕ) : Prop :=
  ∃ src maxOrd, e.OrderedPredecessors ap owner src maxOrd ∧
    IsGreatest {n | ∃ src, e.OrderedPredecessors ap owner src n} maxOrd ∧ num = maxOrd + 1

/-! ### The numbering of predecessors -/

def predecessors (ap : AccessPath) (owner : Principal) : Set AccessPath :=
  {src | e.ResolvedEdge owner src ap}

variable {e}

theorem minOrd_iff (candidate : AccessPath → Prop) (src : AccessPath) :
    e.MinOrd candidate src ↔ OrderedEnumeration.IsLeastRanked e.ord candidate src := by
  constructor
  · rintro ⟨other, hother, hord, hmin⟩
    cases e.ord_injective hord
    exact ⟨hother, hmin⟩
  · rintro ⟨hsrc, hmin⟩
    exact ⟨src, hsrc, rfl, hmin⟩

theorem orderedPredecessors_iff (ap : AccessPath) (owner : Principal) (src : AccessPath)
    (n : ℕ) : e.OrderedPredecessors ap owner src n ↔
      OrderedEnumeration.Numbered e.ord (e.predecessors ap owner) src n := by
  constructor
  · intro h
    induction h with
    | first _ hmin => exact .zero ((minOrd_iff _ _).mp hmin)
    | next _ _ hmin ih => exact .succ ih ((minOrd_iff _ _).mp hmin)
  · intro h
    induction h with
    | zero hleast => exact .first hleast.1 ((minOrd_iff _ _).mpr hleast)
    | succ _ hleast ih => exact .next ih hleast.1.1 ((minOrd_iff _ _).mpr hleast)

/-- The symbols that occur in the input as operands or as sources of edges. -/
def sourceSymbols (facts : Facts) : Finset AccessPath :=
  insert arbitraryComputation ((facts.isOperation.biUnion fun op =>
    op.operandList.toFinset ∪ op.resultList.toFinset) ∪ facts.edge.image Prod.fst)

theorem mem_sourceSymbols_operand {facts : Facts} {op : Operation} {x : AccessPath} {index : ℤ}
    (h : OperationHasOperandAtIndex facts.isOperation op x index) : x ∈ sourceSymbols facts := by
  obtain ⟨hop, i, -, hget⟩ := (operationHasOperandAtIndex_iff _ _ _).mp h
  simp only [sourceSymbols, Finset.mem_insert, Finset.mem_union, Finset.mem_biUnion,
    List.mem_toFinset]
  exact Or.inr (Or.inl ⟨op, hop, Or.inl (List.mem_of_getElem? hget)⟩)

theorem mem_sourceSymbols_result {facts : Facts} {op : Operation} {x : AccessPath}
    (h : OperationHasResult facts.isOperation op x) : x ∈ sourceSymbols facts := by
  obtain ⟨hop, hmem⟩ := (operationHasResult_iff _ _).mp h
  simp only [sourceSymbols, Finset.mem_insert, Finset.mem_union, Finset.mem_biUnion,
    List.mem_toFinset]
  exact Or.inr (Or.inl ⟨op, hop, Or.inr hmem⟩)

theorem ResolvedEdge.source_mem {owner : Principal} {src tgt : AccessPath}
    (h : e.ResolvedEdge owner src tgt) : src ∈ sourceSymbols e.facts := by
  obtain ⟨premises, hrule, -⟩ := (derivable_iff _).mp h
  cases hrule with
  | edge hedge _ =>
    simp only [sourceSymbols, Finset.mem_insert, Finset.mem_union, Finset.mem_image]
    exact Or.inr (Or.inr ⟨_, hedge, rfl⟩)
  | operandEdge _ _ _ hoperand _ _ => exact mem_sourceSymbols_operand hoperand
  | arbitraryComputationEdge => exact Finset.mem_insert_self _ _
  | tagTransform _ _ hoperand _ => exact mem_sourceSymbols_operand hoperand
  | inputStore _ hstore _ =>
    obtain ⟨particle, name, -, -, hoperand, -⟩ := hstore
    exact mem_sourceSymbols_operand hoperand
  | inputParticle _ _ hresult => exact mem_sourceSymbols_result hresult
  | outputStore _ _ hresult => exact mem_sourceSymbols_result hresult
  | outputParticle _ hparticle _ =>
    obtain ⟨store, name, -, hoperand, -⟩ := hparticle
    exact mem_sourceSymbols_operand hoperand
  | userConsent _ hdata _ =>
    obtain ⟨fromTag, toTag, intent, -, hoperand, -⟩ := hdata
    exact mem_sourceSymbols_operand hoperand

/-- The symbols that occur in the input as access paths. -/
def pathSymbols (facts : Facts) : Finset AccessPath :=
  sourceSymbols facts ∪ (facts.edge.image Prod.snd ∪ facts.saysHasTag.image fun claim => claim.2.1)

theorem sourceSymbols_subset (facts : Facts) : sourceSymbols facts ⊆ pathSymbols facts :=
  Finset.subset_union_left

theorem ResolvedEdge.target_mem {owner : Principal} {src tgt : AccessPath}
    (h : e.ResolvedEdge owner src tgt) : tgt ∈ pathSymbols e.facts := by
  have hresult : ∀ op, OperationHasResult e.facts.isOperation op tgt →
      tgt ∈ pathSymbols e.facts :=
    fun op hop => sourceSymbols_subset _ (mem_sourceSymbols_result hop)
  have hoperand : ∀ op index, OperationHasOperandAtIndex e.facts.isOperation op tgt index →
      tgt ∈ pathSymbols e.facts :=
    fun op index hop => sourceSymbols_subset _ (mem_sourceSymbols_operand hop)
  obtain ⟨premises, hrule, -⟩ := (derivable_iff _).mp h
  cases hrule with
  | edge hedge _ =>
    refine Finset.mem_union_right _ (Finset.mem_union_left _ ?_)
    exact Finset.mem_image.mpr ⟨_, hedge, rfl⟩
  | operandEdge _ _ _ _ htgt _ => exact hresult _ htgt
  | arbitraryComputationEdge _ htgt => exact hresult _ htgt
  | tagTransform _ _ _ htgt => exact hresult _ htgt
  | inputStore _ _ htgt => exact hresult _ htgt
  | inputParticle _ hparticle _ =>
    obtain ⟨store, name, -, htgt, -⟩ := hparticle
    exact hoperand _ _ htgt
  | outputStore _ hstore _ =>
    obtain ⟨particle, name, -, -, htgt, -⟩ := hstore
    exact hoperand _ _ htgt
  | outputParticle _ _ htgt => exact hresult _ htgt
  | userConsent _ _ htgt => exact hresult _ htgt

theorem IsAccessPath.mem_pathSymbols {path : AccessPath} (h : e.IsAccessPath path) :
    path ∈ pathSymbols e.facts := by
  cases h with
  | source hedge => exact sourceSymbols_subset _ hedge.source_mem
  | target hedge => exact hedge.target_mem
  | result hresult => exact sourceSymbols_subset _ (mem_sourceSymbols_result hresult)
  | operand hoperand => exact sourceSymbols_subset _ (mem_sourceSymbols_operand hoperand)
  | arbitraryComputation => exact sourceSymbols_subset _ (Finset.mem_insert_self ..)
  | saysHasTag hclaim =>
    refine Finset.mem_union_right _ (Finset.mem_union_right _ ?_)
    exact Finset.mem_image.mpr ⟨_, hclaim, rfl⟩

theorem predecessors_finite (ap : AccessPath) (owner : Principal) :
    (e.predecessors ap owner).Finite :=
  (sourceSymbols e.facts).finite_toSet.subset fun _ h => ResolvedEdge.source_mem h

end Evaluation

end Raksha.Souffle
