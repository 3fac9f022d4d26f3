import Raksha.Lib.Inevitability
import Raksha.Souffle.IntegrityTags

/-!
# Integrity tags and backward walks

An access path has an integrity tag exactly when every walk back along the resolved edges meets
an access path that introduces the tag before it meets one without predecessors or one that
removes the tag. The recursion through cycles is well-founded in the derivations.
-/

namespace Raksha.Souffle
open Datalog Inevitability

/-- No tag transform names one of the special rules for integrity tags. -/
def NoSpecialItagRules (facts : Facts) : Prop :=
  ∀ op ruleName, TagTransformHasRuleName facts.isOperation op ruleName →
    ¬ IsSpecialITagPropagationRule ruleName

namespace Evaluation

variable (e : Evaluation)

/-- The tag is applied to the node, or the node is the result of a tag transform whose
preconditions are all met and whose rule adds the tag. -/
def Introduces (owner : Principal) (tag : IntegrityTag) (node : AccessPath) : Prop :=
  (node, owner, tag) ∈ e.facts.hasAppliedIntegrityTag ∨
  owner = sqlActor ∧ ∃ op ruleName, OperationHasResult e.facts.isOperation op node ∧
    TagTransformHasRuleName e.facts.isOperation op ruleName ∧
    SqlPolicyRuleNameHasResult e.facts ruleName (.addIntegrityTag tag) ∧
    e.AllTagTransformPreconditionsMet op

/-- A step of a backward walk. -/
def Preceded (owner : Principal) (node pred : AccessPath) : Prop := e.ResolvedEdge owner pred node

def Removes (owner : Principal) (tag : IntegrityTag) (node : AccessPath) : Prop :=
  (node, owner, tag) ∈ e.facts.removeIntegrityTag

variable {e}

theorem not_isModifiedPropagationMergeOp (hspecial : NoSpecialItagRules e.facts)
    (mergeOp : Operation) (ruleName : Symbol) :
    ¬ IsModifiedPropagationMergeOp e.facts mergeOp ruleName := by
  rintro ⟨op, x, -, hname, hrule, -⟩
  exact hspecial op ruleName hname hrule

/-- What a derived atom says about walks. -/
def WalkMeaning (e : Evaluation) : IntegrityAtom → Prop
  | .predecessorsUpToOrderNumHaveIntegrityTag path owner tag orderNum =>
    ∀ m ≤ orderNum, ∀ pred, e.OrderedPredecessors path owner pred m →
      Inevitable (e.Preceded owner) (e.Introduces owner tag) (e.Removes owner tag) pred
  | .mustHaveIntegrityTag path owner tag =>
    Inevitable (e.Preceded owner) (e.Introduces owner tag) (e.Removes owner tag) path
  | _ => True

theorem walkMeaning_of_derivable (hspecial : NoSpecialItagRules e.facts) {atom : IntegrityAtom}
    (h : Derivable (IntegrityRule e) atom) : WalkMeaning e atom := by
  induction h with
  | intro hrule hpremises ih =>
    cases hrule with
    | firstPredecessor hpred =>
      have hmust := ih _ (List.mem_singleton.mpr rfl)
      intro m hm pred hpred'
      cases Nat.le_zero.mp hm
      rw [hpred'.unique hpred]
      exact hmust
    | @nextPredecessor _ _ _ _ ordNum hpred =>
      rw [List.forall_mem_cons, List.forall_mem_singleton] at ih
      intro m hm pred hpred'
      rcases Nat.lt_or_ge ordNum m with hlt | hle
      · have heq : m = ordNum + 1 := by omega
        subst heq
        rw [hpred'.unique hpred]
        exact ih.2
      · exact ih.1 m hle pred hpred'
    | applied happlied => exact .goal (Or.inl happlied)
    | propagated _ _ _ hnum _ hkept =>
      have hall := ih _ (List.mem_singleton.mpr rfl)
      obtain ⟨src, maxOrd, hsrc, -, -⟩ := id hnum
      refine .next hkept ⟨src, ((orderedPredecessors_iff _ _ _ _).mp hsrc).mem⟩ ?_
      intro pred hedge
      obtain ⟨m, hm, hordered⟩ := hnum.covers hedge
      exact hall m hm pred hordered
    | addIntegrityTag _ _ hresult hname hadds =>
      exact .goal (Or.inr ⟨rfl, _, _, hresult, hname, hadds,
        hpremises _ (List.mem_singleton.mpr rfl)⟩)
    | union _ hmodified _ _ =>
      exact absurd hmodified (not_isModifiedPropagationMergeOp hspecial _ _)
    | intersect _ hmodified _ _ _ =>
      exact absurd hmodified (not_isModifiedPropagationMergeOp hspecial _ _)
    | noPrecondition => trivial
    | nextPrecondition => trivial
    | allPreconditions => trivial
    | firstDirectOperand => trivial
    | nextDirectOperand => trivial

theorem mustHave_of_introduces {owner : Principal} {tag : IntegrityTag} {node : AccessPath}
    (h : e.Introduces owner tag node) : e.MustHaveIntegrityTag node owner tag := by
  rcases h with happlied | ⟨rfl, op, ruleName, hresult, hname, hadds, hmet⟩
  · exact (mustHaveIntegrityTag_iff _ _ _).mpr (.applied happlied)
  · obtain ⟨premises, hrule, -⟩ := (derivable_iff _).mp hmet
    cases hrule with
    | allPreconditions hfile =>
      exact (mustHaveIntegrityTag_iff _ _ _).mpr (.addIntegrityTag hfile rfl hresult hname hadds
        hmet)

theorem mustHave_of_inevitable {owner : Principal} {tag : IntegrityTag} {node : AccessPath}
    (h : Inevitable (e.Preceded owner) (e.Introduces owner tag) (e.Removes owner tag) node) :
    e.MustHaveIntegrityTag node owner tag := by
  induction h with
  | goal hgoal => exact mustHave_of_introduces hgoal
  | next hkept hex _ ih =>
    obtain ⟨pred, hedge⟩ := hex
    have hpred := ih pred hedge
    exact (mustHaveIntegrityTag_iff _ _ _).mpr (.propagated (mustHave_isIntegrityTag hpred)
      (mustHave_isPrincipal hpred) ⟨pred, hedge⟩ ih hkept)

/-- Integrity tags are not forged: an access path has one exactly when every backward walk from
it meets an introducing node before a node without predecessors or a removing one. -/
theorem mustHaveIntegrityTag_iff_walks (e : Evaluation) (hspecial : NoSpecialItagRules e.facts)
    (v : AccessPath) (owner : Principal) (tag : IntegrityTag) :
    e.MustHaveIntegrityTag v owner tag ↔
      AllWalksReach (e.Preceded owner) (e.Introduces owner tag) (e.Removes owner tag) v := by
  rw [← inevitable_iff]
  constructor
  · intro hmust
    exact walkMeaning_of_derivable hspecial hmust
  · exact mustHave_of_inevitable

/-- A cycle of three access paths, one of which has an applied tag. -/
def integritySimpleCycle : Evaluation where
  program := sqlPolicyVerifierInterface
  facts :=
    { edge := {("a", "b"), ("b", "c"), ("c", "a")}
      hasAppliedIntegrityTag := {("a", "defaultOwner", "integ1")} }
  ord := symbolOrdinal
  ord_injective := symbolOrdinal_injective

theorem integritySimpleCycle_noSpecialItagRules :
    NoSpecialItagRules integritySimpleCycle.facts := by
  rintro op ruleName ⟨⟨⟨hop, -⟩, -⟩, -⟩ -
  exact absurd hop (Finset.notMem_empty op)

theorem integritySimpleCycle_preceded {owner : Principal} {node pred : AccessPath}
    (h : integritySimpleCycle.Preceded owner node pred) :
    (pred, node) ∈ integritySimpleCycle.facts.edge := by
  obtain ⟨premises, hrule, -⟩ := (derivable_iff _).mp h
  have hnone : ∀ op, op ∉ integritySimpleCycle.facts.isOperation := Finset.notMem_empty
  cases hrule with
  | edge hmem _ => exact hmem
  | operandEdge hop => exact absurd hop (hnone _)
  | arbitraryComputationEdge hop => exact absurd hop (hnone _)
  | tagTransform _ htransform => exact absurd htransform.1.1 (hnone _)
  | inputStore hfile => exact absurd hfile (by decide)
  | inputParticle hfile => exact absurd hfile (by decide)
  | outputStore hfile => exact absurd hfile (by decide)
  | outputParticle hfile => exact absurd hfile (by decide)
  | userConsent hfile => exact absurd hfile (by decide)

/-- The tag flows around the cycle. -/
theorem integritySimpleCycle_mustHave :
    integritySimpleCycle.MustHaveIntegrityTag "c" "defaultOwner" "integ1" := by
  have hprincipal : integritySimpleCycle.IsPrincipal "defaultOwner" :=
    .fact (.appliedIntegrityTag (show ("a", "defaultOwner", "integ1") ∈ _ by decide))
  have hedge : ∀ src tgt, (src, tgt) ∈ integritySimpleCycle.facts.edge →
      integritySimpleCycle.Preceded "defaultOwner" tgt src := by
    intro src tgt hmem
    exact .step (.edge hmem (Finset.notMem_empty _)) hprincipal
  have hkept : ∀ node, ¬ integritySimpleCycle.Removes "defaultOwner" "integ1" node :=
    fun _ => Finset.notMem_empty _
  refine (mustHaveIntegrityTag_iff_walks integritySimpleCycle
    integritySimpleCycle_noSpecialItagRules "c" "defaultOwner" "integ1").mpr ?_
  refine (inevitable_iff _).mp (.next (hkept _) ⟨"b", hedge _ _ (by decide)⟩ ?_)
  intro pred hpred
  have hb : pred = "b" := by simpa [integritySimpleCycle] using integritySimpleCycle_preceded hpred
  subst hb
  refine .next (hkept _) ⟨"a", hedge _ _ (by decide)⟩ ?_
  intro pred hpred
  have ha : pred = "a" := by simpa [integritySimpleCycle] using integritySimpleCycle_preceded hpred
  subst ha
  exact .goal (Or.inl (by decide))

end Evaluation

end Raksha.Souffle
