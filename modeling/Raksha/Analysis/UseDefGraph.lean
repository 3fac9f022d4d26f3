import Raksha.Analysis.ModuleGraph

/-!
# Uses and definitions

The graph of a module has the operations, their inputs and their results as nodes. Its edges lead
from every value to the operations that use it and from every operation to its results.
-/

namespace Raksha.Analysis
open Raksha.Common Raksha.Ir

/-- The node is an operation of the module, an input or a result of one. -/
def IsModuleNode (module : Module) (node : Node) : Prop :=
  (∃ op ∈ module.operations, node = .operation op.address) ∨
    ∃ v, (module.IsOperand v ∨ module.IsResult v) ∧ node = .value v

/-- The results of an operation with their indices. -/
def indexedResults (op : Operation) : List (ℕ × Value) :=
  (List.range op.numberOfOutputs).map fun i => (i, op.getOutputValue i)

structure IsUseDefGraph (graph : ModuleGraph) (module : Module) : Prop where
  nodes : graph.getNodes.Nodup ∧ ∀ node, node ∈ graph.getNodes ↔ IsModuleNode module node
  uses : ∀ v, .value v ∈ graph.getNodes → ∃ uses, graph.getUses v = .ok uses ∧ uses.Nodup ∧
    ∀ i a, (i, a) ∈ uses ↔ ∃ op ∈ module.operations, op.address = a ∧ op.inputs[i]? = some v
  results : ∀ op ∈ module.operations, ∃ results, graph.getResults op.address = .ok results ∧
    results.Perm (indexedResults op)
  outEdges : ∀ node ∈ graph.getNodes, ∃ edges, graph.getOutEdges node = .ok edges ∧ edges.Nodup
  producers : ∀ v node node' edges edges', graph.getOutEdges node = .ok edges →
    graph.getOutEdges node' = .ok edges' → ∀ e ∈ edges, ∀ e' ∈ edges',
    e.target = .value v → e'.target = .value v → e = e'

/-! ### Nodes -/

variable (module : Module)

theorem mem_getNodes (graph : ModuleGraph) (node : Node) :
    node ∈ graph.getNodes ↔ node ∈ graph.adjacencyList := AList.mem_keys.symm

theorem mem_nodes_ofModule (node : Node) :
    node ∈ (ModuleGraph.ofModule module).getNodes ↔ IsModuleNode module node := by
  rw [mem_getNodes, IsModuleNode]
  cases node with
  | value v =>
    rw [ModuleGraph.value_mem]
    simp
  | operation address =>
    rw [ModuleGraph.operation_mem]
    simp [eq_comm]

theorem getNodes_nodup (graph : ModuleGraph) : graph.getNodes.Nodup :=
  graph.adjacencyList.keys_nodup

/-! ### Edges -/

/-- A checked map that tells its arguments apart keeps a list free of duplicates. -/
theorem Checked.mapM_nodup {α β : Type} {f : α → Checked β} {l : List α} {l' : List β}
    (hinj : ∀ a a' b, f a = .ok b → f a' = .ok b → a = a') (h : l.mapM f = .ok l')
    (hnodup : l.Nodup) : l'.Nodup := by
  have hall := Checked.mapM_eq_ok h
  clear h
  induction hall with
  | nil => exact .nil
  | @cons a b l l' hfirst hrest ih =>
    obtain ⟨hfresh, hnodup⟩ := List.nodup_cons.mp hnodup
    refine List.nodup_cons.mpr ⟨?_, ih hnodup⟩
    intro hmem
    obtain ⟨k, hk⟩ := List.getElem?_of_mem hmem
    obtain ⟨a', ha', hsame⟩ := forall₂_left hrest hk
    exact hfresh (hinj a a' b hfirst hsame ▸ List.mem_of_getElem? ha')

theorem materializeOperation_inj (e e' : ℕ × Node) (b : ℕ × Address)
    (h : ModuleGraph.materializeOperation e = .ok b)
    (h' : ModuleGraph.materializeOperation e' = .ok b) : e = e' := by
  obtain ⟨i, v | a⟩ := e
  · cases h
  · obtain ⟨i', v' | a'⟩ := e'
    · cases h'
    · cases h
      cases h'
      rfl

theorem getAdjacentNodes_ofModule {node : Node} {targets : IndexedNodeSet}
    (h : (ModuleGraph.ofModule module).getAdjacentNodes node = .ok targets) :
    targets = (AdjacencyList.compute module).edges node := by
  unfold ModuleGraph.getAdjacentNodes at h
  split at h
  · next targets' hlookup =>
    cases h
    change (AdjacencyList.compute module).lookup node = some targets at hlookup
    rw [AdjacencyList.edges, hlookup, Option.getD_some]
  · cases h

theorem getUses_nodup {v : Value} {uses : List (ℕ × Address)}
    (h : (ModuleGraph.ofModule module).getUses v = .ok uses) : uses.Nodup := by
  simp only [ModuleGraph.getUses, Checked.bind_eq_ok] at h
  obtain ⟨targets, htargets, huses⟩ := h
  refine Checked.mapM_nodup materializeOperation_inj huses ?_
  rw [getAdjacentNodes_ofModule module htargets]
  exact AdjacencyList.edges_nodup_compute module _

theorem getResults_perm {op : Operation} (hop : op ∈ module.operations) :
    ∃ results, (ModuleGraph.ofModule module).getResults op.address = .ok results ∧
      results.Perm (indexedResults op) := by
  obtain ⟨results, hresults, hnodup, hmem⟩ := ModuleGraph.getResults_ofModule module hop
  refine ⟨results, hresults, (List.perm_ext_iff_of_nodup (.of_map _ hnodup) ?_).mpr ?_⟩
  · refine List.nodup_range.map ?_
    intro i j heq
    exact congrArg Prod.fst heq
  · rintro ⟨i, v⟩
    rw [hmem, indexedResults, List.mem_map]
    constructor
    · rintro ⟨hi, rfl⟩
      exact ⟨i, List.mem_range.mpr hi, rfl⟩
    · rintro ⟨j, hj, heq⟩
      cases heq
      exact ⟨List.mem_range.mp hj, rfl⟩

theorem getOutEdges_ofModule {node : Node} {edges : List Edge}
    (h : (ModuleGraph.ofModule module).getOutEdges node = .ok edges) :
    edges = ((AdjacencyList.compute module).edges node).map (ModuleGraph.materializeEdge node) := by
  simp only [ModuleGraph.getOutEdges, Checked.bind_eq_ok, Checked.pure_eq_ok] at h
  obtain ⟨targets, htargets, rfl⟩ := h
  rw [getAdjacentNodes_ofModule module htargets]

theorem getOutEdges_of_mem {node : Node} (h : node ∈ (ModuleGraph.ofModule module).getNodes) :
    ∃ edges, (ModuleGraph.ofModule module).getOutEdges node = .ok edges ∧ edges.Nodup := by
  have hadjacent := ModuleGraph.getAdjacentNodes_of_mem _ ((mem_getNodes _ node).mp h)
  refine ⟨_, by rw [ModuleGraph.getOutEdges, hadjacent]; rfl, ?_⟩
  refine (AdjacencyList.edges_nodup_compute module node).map ?_
  intro e e' heq
  exact Prod.ext (congrArg Edge.index heq) (congrArg Edge.target heq)

/-- An edge into a value comes from the operation that computes it, at the index of the value. -/
theorem source_of_value {node : Node} {edges : List Edge}
    (h : (ModuleGraph.ofModule module).getOutEdges node = .ok edges) {e : Edge} (he : e ∈ edges)
    {v : Value} (hv : e.target = .value v) : ∃ a, e.source = .operation a ∧
      v = .operationResult a e.index := by
  rw [getOutEdges_ofModule module h] at he
  obtain ⟨target, htarget, rfl⟩ := List.mem_map.mp he
  obtain ⟨op, -, ⟨u, -, -, hop⟩ | ⟨-, hnode, hresult⟩⟩ :=
    (AdjacencyList.edges_compute module node target).mp htarget
  · cases hop.symm.trans hv
  · cases hresult.symm.trans hv
    exact ⟨op.address, hnode, rfl⟩

theorem moduleGraph_isUseDefGraph : IsUseDefGraph (.ofModule module) module where
  nodes := ⟨getNodes_nodup _, mem_nodes_ofModule module⟩
  uses := by
    intro v hv
    rw [mem_nodes_ofModule] at hv
    have hnode : module.IsOperand v ∨ module.IsResult v := by
      rcases hv with ⟨op, -, heq⟩ | ⟨u, hu, heq⟩
      · cases heq
      · cases heq
        exact hu
    obtain ⟨uses, huses, hmem⟩ := ModuleGraph.getUses_ofModule module hnode
    refine ⟨uses, huses, getUses_nodup module huses, ?_⟩
    intro i a
    rw [hmem]
    refine exists_congr fun op => and_congr_right fun _ => ?_
    rw [and_comm, eq_comm]
  results := fun op hop => getResults_perm module hop
  outEdges := fun node hnode => getOutEdges_of_mem module hnode
  producers := by
    intro v node node' edges edges' hedges hedges' e he e' he' hv hv'
    obtain ⟨a, hsource, hresult⟩ := source_of_value module hedges he hv
    obtain ⟨a', hsource', hresult'⟩ := source_of_value module hedges' he' hv'
    obtain ⟨hsame, hindex⟩ := Value.operationResult.inj (hresult.symm.trans hresult')
    calc e = ⟨e.source, e.index, e.target⟩ := rfl
      _ = ⟨e'.source, e'.index, e'.target⟩ := by rw [hsource, hsource', hsame, hindex, hv, hv']

end Raksha.Analysis
