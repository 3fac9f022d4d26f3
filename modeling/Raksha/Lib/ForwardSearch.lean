import Mathlib.Data.Finset.Union
import Mathlib.Data.Finset.Card
import Mathlib.Logic.Relation

/-!
# Forward search

The nodes of a finite graph that are reached from given ones, computed in rounds. An edge leads
from each of its sources to each of its targets.
-/

namespace ForwardSearch

structure FlowGraph (Node Edge : Type*) where
  edges : Finset Edge
  sources : Edge → List Node
  targets : Edge → List Node

variable {Node Edge : Type*} (graph : FlowGraph Node Edge)

def FlowGraph.Leads (src tgt : Node) : Prop :=
  ∃ edge ∈ graph.edges, src ∈ graph.sources edge ∧ tgt ∈ graph.targets edge

variable [DecidableEq Node]

/-- The edges with a source that is found. -/
def FlowGraph.entered (found : Finset Node) : Finset Edge :=
  graph.edges.filter fun edge => ∃ src ∈ graph.sources edge, src ∈ found

def FlowGraph.advance (found : Finset Node) : Finset Node :=
  found ∪ (graph.entered found).biUnion fun edge => (graph.targets edge).toFinset

/-- Each round that finds something enters a new edge, so there are no more rounds than edges. -/
def FlowGraph.search (start : Finset Node) : Finset Node := graph.advance^[graph.edges.card] start

variable {graph} {found start : Finset Node}

theorem mem_entered (edge : Edge) : edge ∈ graph.entered found ↔
    edge ∈ graph.edges ∧ ∃ src ∈ graph.sources edge, src ∈ found := Finset.mem_filter

theorem mem_advance (x : Node) :
    x ∈ graph.advance found ↔ x ∈ found ∨ ∃ src ∈ found, graph.Leads src x := by
  rw [FlowGraph.advance, Finset.mem_union, Finset.mem_biUnion]
  refine or_congr_right ⟨?_, ?_⟩
  · rintro ⟨edge, hedge, htarget⟩
    obtain ⟨hmem, src, hsource, hfound⟩ := (mem_entered edge).mp hedge
    exact ⟨src, hfound, edge, hmem, hsource, List.mem_toFinset.mp htarget⟩
  · rintro ⟨src, hfound, edge, hmem, hsource, htarget⟩
    exact ⟨edge, (mem_entered edge).mpr ⟨hmem, src, hsource, hfound⟩,
      List.mem_toFinset.mpr htarget⟩

theorem subset_advance : found ⊆ graph.advance found := Finset.subset_union_left

theorem entered_mono {found' : Finset Node} (h : found ⊆ found') :
    graph.entered found ⊆ graph.entered found' := by
  intro edge hedge
  obtain ⟨hmem, src, hsource, hfound⟩ := (mem_entered edge).mp hedge
  exact (mem_entered edge).mpr ⟨hmem, src, hsource, h hfound⟩

/-- A round that enters no new edge is the last. -/
theorem advance_advance (h : graph.entered (graph.advance found) = graph.entered found) :
    graph.advance (graph.advance found) = graph.advance found := by
  rw [FlowGraph.advance, h]
  exact Finset.union_eq_left.mpr Finset.subset_union_right

theorem advance_iterate (graph : FlowGraph Node Edge) (n : ℕ) (start : Finset Node) :
    n + 1 ≤ (graph.entered (graph.advance^[n] start)).card ∨
      graph.advance (graph.advance^[n] start) = graph.advance^[n] start := by
  induction n with
  | zero =>
    rcases (graph.entered start).eq_empty_or_nonempty with hempty | hnonempty
    · refine .inr ?_
      rw [Function.iterate_zero_apply, FlowGraph.advance, hempty, Finset.biUnion_empty,
        Finset.union_empty]
    · exact .inl (Finset.card_pos.mpr hnonempty)
  | succ n ih =>
    rw [Function.iterate_succ_apply']
    rcases ih with hcard | hstable
    · by_cases hsame : graph.entered (graph.advance (graph.advance^[n] start)) =
          graph.entered (graph.advance^[n] start)
      · exact .inr (advance_advance hsame)
      · have hsubset : graph.advance^[n] start ⊆ graph.advance (graph.advance^[n] start) :=
          subset_advance
        have hgrows := (entered_mono hsubset).ssubset_of_ne (Ne.symm hsame)
        have hlt := Finset.card_lt_card hgrows
        exact .inl (by omega)
    · exact .inr (by rw [hstable, hstable])

theorem advance_search (start : Finset Node) :
    graph.advance (graph.search start) = graph.search start := by
  rcases advance_iterate graph graph.edges.card start with hcard | hstable
  · have hle := Finset.card_le_card
      (Finset.filter_subset (fun edge => ∃ src ∈ graph.sources edge,
        src ∈ graph.advance^[graph.edges.card] start) graph.edges)
    exact absurd (hcard.trans hle) (by omega)
  · exact hstable

theorem exists_start_of_mem_iterate {n : ℕ} {x : Node} (h : x ∈ graph.advance^[n] start) :
    ∃ src ∈ start, Relation.ReflTransGen graph.Leads src x := by
  induction n generalizing x with
  | zero => exact ⟨x, h, .refl⟩
  | succ n ih =>
    rw [Function.iterate_succ_apply'] at h
    rcases (mem_advance x).mp h with h | ⟨mid, hmid, hleads⟩
    · exact ih h
    · obtain ⟨src, hsrc, hpath⟩ := ih hmid
      exact ⟨src, hsrc, hpath.tail hleads⟩

theorem subset_iterate (n : ℕ) : start ⊆ graph.advance^[n] start := by
  induction n with
  | zero => exact Finset.Subset.refl start
  | succ n ih =>
    rw [Function.iterate_succ_apply']
    exact ih.trans subset_advance

/-- The search finds what is reached, and nothing else. -/
theorem mem_search (x : Node) :
    x ∈ graph.search start ↔ ∃ src ∈ start, Relation.ReflTransGen graph.Leads src x := by
  refine ⟨exists_start_of_mem_iterate, ?_⟩
  rintro ⟨src, hsrc, hpath⟩
  induction hpath with
  | refl => exact subset_iterate _ hsrc
  | tail _ hleads ih =>
    rw [← advance_search]
    exact (mem_advance _).mpr (.inr ⟨_, ih, hleads⟩)

end ForwardSearch
