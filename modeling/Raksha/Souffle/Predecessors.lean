import Raksha.Souffle.IntegrityTags

/-!
# The numbers of the predecessors

`orderedPredecessors` numbers the predecessors of an access path for an owner from 0 on, without
a gap and without a number that is used twice, in any finite graph.
-/

namespace Raksha.Souffle
open Datalog

/-- Facts with the given resolved edges and no others. -/
def edgeFacts (edges : Finset (Principal × AccessPath × AccessPath)) : Facts where
  edge := edges.image Prod.snd
  saysOwnsTag := edges.image fun edge => (edge.1, edge.1, "")
  claimNotEdge := (edges.image Prod.fst ×ˢ edges.image Prod.snd) \ edges

def edgeEvaluation (edges : Finset (Principal × AccessPath × AccessPath)) : Evaluation where
  program := ∅
  facts := edgeFacts edges
  ord := symbolOrdinal
  ord_injective := symbolOrdinal_injective

/-- What the rules derive from the facts of a relation. -/
def EdgeMeaning (edges : Finset (Principal × AccessPath × AccessPath)) : EdgeAtom → Prop
  | .isPrincipal principal => principal ∈ edges.image Prod.fst
  | .ownsAccessPath _ _ => False
  | .resolvedEdge owner src tgt => (owner, src, tgt) ∈ edges

theorem edgeMeaning_model (edges : Finset (Principal × AccessPath × AccessPath)) :
    Model (EdgeRule ∅ (edgeFacts edges)) (EdgeMeaning edges) := by
  have hoperation : ∀ op, op ∉ (edgeFacts edges).isOperation := fun _ => Finset.notMem_empty _
  intro head premises hrule hpremises
  cases hrule with
  | actor hop => exact absurd hop (hoperation _)
  | tagOwner howns =>
    obtain ⟨speaker, hmem⟩ := howns
    obtain ⟨edge, hedge, heq⟩ := Finset.mem_image.mp hmem
    simp only [Prod.mk.injEq] at heq
    exact Finset.mem_image.mpr ⟨edge, hedge, heq.2.1⟩
  | pathOwner => exact (hpremises _ (List.mem_singleton.mpr rfl)).elim
  | edge hedge hclaim =>
    have howner := hpremises _ (List.mem_singleton.mpr rfl)
    by_contra hnot
    exact hclaim (Finset.mem_sdiff.mpr ⟨Finset.mem_product.mpr ⟨howner, hedge⟩, hnot⟩)
  | operandEdge hop => exact absurd hop (hoperation _)
  | arbitraryComputationEdge hop => exact absurd hop (hoperation _)
  | ownsAccessPath hsays => exact absurd hsays (Finset.notMem_empty _)
  | ownsTarget => exact (hpremises _ (List.mem_cons_of_mem _ (List.mem_singleton.mpr rfl))).elim
  | appliedIntegrityTag happlied => exact absurd happlied (Finset.notMem_empty _)
  | saysHasTag hsays => exact absurd hsays (Finset.notMem_empty _)
  | tagTransform hfile => exact absurd hfile (Finset.notMem_empty _)
  | inputStore hfile => exact absurd hfile (Finset.notMem_empty _)
  | inputParticle hfile => exact absurd hfile (Finset.notMem_empty _)
  | outputStore hfile => exact absurd hfile (Finset.notMem_empty _)
  | outputParticle hfile => exact absurd hfile (Finset.notMem_empty _)
  | userConsent hfile => exact absurd hfile (Finset.notMem_empty _)

theorem edgeEvaluation_resolvedEdge (edges : Finset (Principal × AccessPath × AccessPath))
    (owner : Principal) (src tgt : AccessPath) :
    (edgeEvaluation edges).ResolvedEdge owner src tgt ↔ (owner, src, tgt) ∈ edges := by
  refine ⟨fun h => h.least (edgeMeaning_model edges), ?_⟩
  intro hmem
  have htag : (owner, owner, "") ∈ (edgeFacts edges).saysOwnsTag :=
    Finset.mem_image.mpr ⟨_, hmem, rfl⟩
  refine .step (.edge (Finset.mem_image.mpr ⟨_, hmem, rfl⟩) ?_) (.fact (.tagOwner ⟨owner, htag⟩))
  intro hclaim
  exact (Finset.mem_sdiff.mp hclaim).2 hmem

namespace Evaluation

variable (e : Evaluation)

/-- The number of predecessors is one more than the greatest order number. -/
theorem numPredecessors_iff (ap : AccessPath) (owner : Principal)
    (hne : (e.predecessors ap owner).Nonempty) (num : ℕ) :
    e.NumPredecessors ap owner num ↔ num = (e.predecessors ap owner).ncard := by
  have hfin := predecessors_finite (e := e) ap owner
  simp only [NumPredecessors, orderedPredecessors_iff]
  refine ⟨?_, ?_⟩
  · rintro ⟨src, maxOrd, -, hmax, rfl⟩
    exact (OrderedEnumeration.ncard_eq hfin e.ord_injective hmax).symm
  · rintro rfl
    obtain ⟨n, hn⟩ := OrderedEnumeration.exists_isGreatest hfin e.ord_injective hne
    obtain ⟨src, hsrc⟩ := hn.1
    exact ⟨src, n, hsrc, hn, OrderedEnumeration.ncard_eq hfin e.ord_injective hn⟩

/-- The order numbers are a bijection between the predecessors and the numbers below their
count, so that checking the numbers one after the other checks all predecessors. -/
theorem orderedPredecessors_bijection (ap : AccessPath) (owner : Principal) (n : ℕ)
    (hcard : (e.predecessors ap owner).ncard = n) (hpos : 1 ≤ n) :
    (∀ pred k, e.OrderedPredecessors ap owner pred k → e.ResolvedEdge owner pred ap ∧ k < n) ∧
    (∀ pred, e.ResolvedEdge owner pred ap → ∃! k, e.OrderedPredecessors ap owner pred k) ∧
    (∀ k < n, ∃! pred, e.OrderedPredecessors ap owner pred k) ∧
    (∀ m, e.NumPredecessors ap owner m ↔ m = n) ∧
    ∀ tag, Derivable (IntegrityRule e)
        (.predecessorsUpToOrderNumHaveIntegrityTag ap owner tag (n - 1)) ↔
      ∀ pred, e.ResolvedEdge owner pred ap → e.MustHaveIntegrityTag pred owner tag := by
  have hfin := predecessors_finite (e := e) ap owner
  have hne : (e.predecessors ap owner).Nonempty := by
    rw [← Set.ncard_pos hfin]
    omega
  have hnum := numPredecessors_iff e ap owner hne
  rw [hcard] at hnum
  have hused : ∀ k, (∃ pred, e.OrderedPredecessors ap owner pred k) ↔ k < n := by
    intro k
    simp only [orderedPredecessors_iff, ← hcard]
    exact OrderedEnumeration.exists_numbered_iff hfin e.ord_injective k
  refine ⟨?_, ?_, ?_, hnum, ?_⟩
  · intro pred k h
    exact ⟨((orderedPredecessors_iff _ _ _ _).mp h).mem, (hused k).mp ⟨pred, h⟩⟩
  · intro pred hpred
    simp only [orderedPredecessors_iff]
    obtain ⟨k, hk⟩ :
        ∃ k, OrderedEnumeration.Numbered e.ord (e.predecessors ap owner) pred k :=
      OrderedEnumeration.exists_numbered hfin hpred
    exact ⟨k, hk, fun m hm => hm.number_unique e.ord_injective hk⟩
  · intro k hk
    obtain ⟨pred, hpred⟩ := (hused k).mpr hk
    exact ⟨pred, hpred, fun q hq => hq.unique hpred⟩
  · intro tag
    have hall := allPredecessors_iff (e := e) ap owner tag
    simp only [hnum, exists_eq_left] at hall
    refine ⟨fun h => (hall.mp ⟨hpos, h⟩).2, ?_⟩
    intro h
    exact (hall.mpr ⟨hne, h⟩).2

/-- Two owners with the same predecessor of a shared node. -/
def sharedEdges : Finset (Principal × AccessPath × AccessPath) :=
  {("sql", "p", "v"), ("sql", "q", "v"), ("sql", "q", "w"), ("other", "q", "v")}

theorem sharedEdges_bijection :
    (edgeEvaluation sharedEdges).NumPredecessors "v" "sql" 2 := by
  have hset : (edgeEvaluation sharedEdges).predecessors "v" "sql" = {"p", "q"} := by
    ext pred
    simp [predecessors, edgeEvaluation_resolvedEdge, sharedEdges]
  have hcard : ((edgeEvaluation sharedEdges).predecessors "v" "sql").ncard = 2 := by
    rw [hset]
    exact Set.ncard_pair (by decide)
  exact ((orderedPredecessors_bijection (edgeEvaluation sharedEdges) "v" "sql" 2 hcard
    (by decide)).2.2.2.1 2).mpr rfl

end Evaluation

end Raksha.Souffle
