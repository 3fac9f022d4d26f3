import Raksha.Ir.Module

/-!
# The dataflow graph of a module

`analysis/common/module_graph.cc`: an adjacency list over values and operations. The visitor
adds an edge from each input to the operation that uses it, and from each operation to its
outputs; looking up a node that is not in the graph fails a check.
-/

namespace Raksha.Analysis
open Raksha.Common Raksha.Ir

/-- `ModuleGraph::Node`. -/
inductive Node
  | value (v : Value)
  | operation (address : Address)
deriving DecidableEq, Repr

abbrev IndexedNodeSet : Type := List (ℕ × Node)

abbrev AdjacencyList : Type := FlatHashMap Node IndexedNodeSet

namespace AdjacencyList

/-- `adjacency_list_.insert({node, {}})`. -/
def addNode (graph : AdjacencyList) (node : Node) : AdjacencyList := (graph.tryInsert node []).1

/-- Inserts the source if it is new and adds the edge to its entry. -/
def addEdge (graph : AdjacencyList) (source : Node) (edge : ℕ × Node) : AdjacencyList :=
  let entry := ((graph.addNode source).lookup source).getD []
  (graph.addNode source).insertOrAssign source (entry.insert edge)

def addInput (operation : Operation) (graph : AdjacencyList) (input : Value × ℕ) :
    AdjacencyList :=
  graph.addEdge (.value input.1) (input.2, .operation operation.address)

def addOutput (operation : Operation) (graph : AdjacencyList) (index : ℕ) : AdjacencyList :=
  let outputNode := Node.value (operation.getOutputValue index)
  (graph.addNode outputNode).addEdge (.operation operation.address) (index, outputNode)

/-- `AdjacencyListComputingVisitor::PreVisit`. -/
def preVisit (graph : AdjacencyList) (operation : Operation) : AdjacencyList :=
  (List.range operation.numberOfOutputs).foldl (addOutput operation)
    (operation.inputs.zipIdx.foldl (addInput operation)
      (graph.addNode (.operation operation.address)))

def compute (module : Module) : AdjacencyList := module.operations.foldl preVisit ∅

/-- The out edges of a node, none when the node is missing. -/
def edges (graph : AdjacencyList) (source : Node) : IndexedNodeSet :=
  (graph.lookup source).getD []

/-! ### Nodes and edges of the computed graph -/

theorem foldl_collects {α β : Type} (f : β → α → β) (R : β → Prop) (P : α → Prop)
    (h : ∀ b a, R (f b a) ↔ R b ∨ P a) (l : List α) (b : β) :
    R (l.foldl f b) ↔ R b ∨ ∃ a ∈ l, P a := by
  induction l generalizing b with
  | nil => simp
  | cons a l ih =>
    simp only [List.foldl_cons, ih, h, List.mem_cons, exists_eq_or_imp, or_assoc]

theorem mem_addNode (graph : AdjacencyList) (node n : Node) :
    n ∈ graph.addNode node ↔ n ∈ graph ∨ n = node := by
  simp only [FlatHashMap.mem_iff_lookup, addNode, FlatHashMap.lookup_tryInsert]
  split <;> simp [*]

theorem edges_addNode (graph : AdjacencyList) (node n : Node) :
    (graph.addNode node).edges n = graph.edges n := by
  simp only [edges, addNode, FlatHashMap.lookup_tryInsert]
  split
  · next h => rw [h, Option.getD_some]
  · rfl

theorem mem_addEdge (graph : AdjacencyList) (source n : Node) (edge : ℕ × Node) :
    n ∈ graph.addEdge source edge ↔ n ∈ graph ∨ n = source := by
  simp only [addEdge, FlatHashMap.insertOrAssign, AList.mem_insert, mem_addNode]
  tauto

theorem edges_addEdge (graph : AdjacencyList) (source n : Node) (edge e : ℕ × Node) :
    e ∈ (graph.addEdge source edge).edges n ↔ e ∈ graph.edges n ∨ (n = source ∧ e = edge) := by
  have hsource : ((graph.addNode source).lookup source).getD [] = graph.edges source :=
    edges_addNode graph source source
  unfold addEdge
  rw [hsource]
  by_cases hn : n = source
  · subst hn
    simp only [edges, FlatHashMap.lookup_insertOrAssign, if_true, Option.getD_some,
      List.mem_insert_iff, true_and]
    tauto
  · have hedges : edges ((graph.addNode source).insertOrAssign source
        ((graph.edges source).insert edge)) n = graph.edges n := by
      rw [← edges_addNode graph source n]
      simp only [edges, FlatHashMap.lookup_insertOrAssign, hn, if_false]
    rw [hedges]
    simp [hn]

theorem mem_addInput (operation : Operation) (graph : AdjacencyList) (input : Value × ℕ)
    (n : Node) : n ∈ graph.addInput operation input ↔ n ∈ graph ∨ n = .value input.1 := by
  simp only [addInput, mem_addEdge]

theorem edges_addInput (operation : Operation) (graph : AdjacencyList) (input : Value × ℕ)
    (n : Node) (e : ℕ × Node) : e ∈ (graph.addInput operation input).edges n ↔
      e ∈ graph.edges n ∨ (n = .value input.1 ∧ e = (input.2, .operation operation.address)) := by
  simp only [addInput, edges_addEdge]

theorem mem_addOutput (operation : Operation) (graph : AdjacencyList) (index : ℕ) (n : Node) :
    n ∈ graph.addOutput operation index ↔ n ∈ graph ∨
      (n = .value (operation.getOutputValue index) ∨ n = .operation operation.address) := by
  simp only [addOutput, mem_addEdge, mem_addNode, or_assoc]

theorem edges_addOutput (operation : Operation) (graph : AdjacencyList) (index : ℕ)
    (n : Node) (e : ℕ × Node) : e ∈ (graph.addOutput operation index).edges n ↔
      e ∈ graph.edges n ∨ (n = .operation operation.address ∧
        e = (index, .value (operation.getOutputValue index))) := by
  simp only [addOutput, edges_addEdge, edges_addNode]

theorem mem_preVisit (graph : AdjacencyList) (operation : Operation) (n : Node) :
    n ∈ graph.preVisit operation ↔ n ∈ graph ∨ (n = .operation operation.address ∨
      (∃ v ∈ operation.inputs, n = .value v) ∨
      ∃ i < operation.numberOfOutputs, n = .value (operation.getOutputValue i)) := by
  unfold preVisit
  rw [foldl_collects (addOutput operation) (fun g => n ∈ g) _
    (fun g i => mem_addOutput operation g i n)]
  rw [foldl_collects (addInput operation) (fun g => n ∈ g) _
    (fun g i => mem_addInput operation g i n), mem_addNode]
  have hinputs : (∃ a ∈ operation.inputs.zipIdx, n = .value a.1) ↔
      ∃ v ∈ operation.inputs, n = .value v := by
    constructor
    · rintro ⟨a, ha, rfl⟩
      exact ⟨a.1, List.fst_mem_of_mem_zipIdx ha, rfl⟩
    · rintro ⟨v, hv, rfl⟩
      obtain ⟨i, hi, rfl⟩ := List.getElem_of_mem hv
      exact ⟨(operation.inputs[i], i), by simp [List.mk_mem_zipIdx_iff_getElem?], rfl⟩
  simp only [hinputs, List.mem_range]
  constructor
  · rintro (((hg | hop) | hin) | ⟨i, hi, hout | hop⟩)
    · exact Or.inl hg
    · exact Or.inr (Or.inl hop)
    · exact Or.inr (Or.inr (Or.inl hin))
    · exact Or.inr (Or.inr (Or.inr ⟨i, hi, hout⟩))
    · exact Or.inr (Or.inl hop)
  · rintro (hg | hop | hin | ⟨i, hi, hout⟩)
    · exact Or.inl (Or.inl (Or.inl hg))
    · exact Or.inl (Or.inl (Or.inr hop))
    · exact Or.inl (Or.inr hin)
    · exact Or.inr ⟨i, hi, Or.inl hout⟩

theorem edges_preVisit (graph : AdjacencyList) (operation : Operation) (n : Node)
    (e : ℕ × Node) : e ∈ (graph.preVisit operation).edges n ↔ e ∈ graph.edges n ∨
      ((∃ v, operation.inputs[e.1]? = some v ∧ n = .value v ∧
          e.2 = .operation operation.address) ∨
        (e.1 < operation.numberOfOutputs ∧ n = .operation operation.address ∧
          e.2 = .value (operation.getOutputValue e.1))) := by
  obtain ⟨k, target⟩ := e
  unfold preVisit
  rw [foldl_collects (addOutput operation) (fun g => (k, target) ∈ g.edges n) _
    (fun g i => edges_addOutput operation g i n (k, target))]
  rw [foldl_collects (addInput operation) (fun g => (k, target) ∈ g.edges n) _
    (fun g i => edges_addInput operation g i n (k, target)), edges_addNode, or_assoc]
  refine or_congr_right (or_congr ?_ ?_)
  · constructor
    · rintro ⟨⟨v, i⟩, hmem, rfl, heq⟩
      cases heq
      exact ⟨v, List.mk_mem_zipIdx_iff_getElem?.mp hmem, rfl, rfl⟩
    · rintro ⟨v, hv, rfl, rfl⟩
      exact ⟨(v, k), List.mk_mem_zipIdx_iff_getElem?.mpr hv, rfl, rfl⟩
  · constructor
    · rintro ⟨i, hi, rfl, heq⟩
      cases heq
      exact ⟨List.mem_range.mp hi, rfl, rfl⟩
    · rintro ⟨hi, rfl, htarget⟩
      exact ⟨k, List.mem_range.mpr hi, rfl, by rw [← htarget]⟩

theorem mem_compute (module : Module) (n : Node) : n ∈ compute module ↔
    ∃ op ∈ module.operations, n = .operation op.address ∨ (∃ v ∈ op.inputs, n = .value v) ∨
      ∃ i < op.numberOfOutputs, n = .value (op.getOutputValue i) := by
  unfold compute
  rw [foldl_collects preVisit (fun g => n ∈ g) _ (fun g op => mem_preVisit g op n)]
  simp

theorem edges_compute (module : Module) (n : Node) (e : ℕ × Node) :
    e ∈ (compute module).edges n ↔ ∃ op ∈ module.operations,
      (∃ v, op.inputs[e.1]? = some v ∧ n = .value v ∧ e.2 = .operation op.address) ∨
      (e.1 < op.numberOfOutputs ∧ n = .operation op.address ∧
        e.2 = .value (op.getOutputValue e.1)) := by
  unfold compute
  rw [foldl_collects preVisit (fun g => e ∈ g.edges n) _ (fun g op => edges_preVisit g op n e)]
  simp [edges]

theorem edges_nodup_addEdge (graph : AdjacencyList) (source : Node) (edge : ℕ × Node)
    (h : ∀ n, (graph.edges n).Nodup) : ∀ n, ((graph.addEdge source edge).edges n).Nodup := by
  intro n
  have hsource : ((graph.addNode source).lookup source).getD [] = graph.edges source :=
    edges_addNode graph source source
  unfold addEdge
  rw [hsource]
  simp only [edges, FlatHashMap.lookup_insertOrAssign]
  split
  · exact (h source).insert
  · have hn := h n
    rw [← edges_addNode graph source n] at hn
    exact hn

theorem edges_nodup_compute (module : Module) : ∀ n, ((compute module).edges n).Nodup := by
  have hvisit : ∀ (graph : AdjacencyList) (operation : Operation),
      (∀ n, (graph.edges n).Nodup) → ∀ n, ((graph.preVisit operation).edges n).Nodup := by
    intro graph operation h
    refine List.foldlRecOn (motive := fun g : AdjacencyList => ∀ n, (g.edges n).Nodup) _ _
      (List.foldlRecOn (motive := fun g : AdjacencyList => ∀ n, (g.edges n).Nodup) _ _ ?_ ?_) ?_
    · intro n
      rw [edges_addNode]
      exact h n
    · intro g hg input _
      exact edges_nodup_addEdge g _ _ hg
    · intro g hg i _
      refine edges_nodup_addEdge _ _ _ ?_
      intro n
      rw [edges_addNode]
      exact hg n
  refine List.foldlRecOn (motive := fun g : AdjacencyList => ∀ n, (g.edges n).Nodup) _ _ ?_ ?_
  · intro n
    exact List.nodup_nil
  · intro g hg op _
    exact hvisit g op hg

end AdjacencyList

/-! ### Queries on the graph -/

/-- `ModuleGraph::Edge`. -/
structure Edge where
  source : Node
  index : ℕ
  target : Node
deriving DecidableEq, Repr

structure ModuleGraph where
  adjacencyList : AdjacencyList

namespace ModuleGraph

def ofModule (module : Module) : ModuleGraph := ⟨AdjacencyList.compute module⟩

def getNodes (graph : ModuleGraph) : List Node := graph.adjacencyList.keys

def getAdjacentNodes (graph : ModuleGraph) (source : Node) : Checked IndexedNodeSet :=
  match graph.adjacencyList.lookup source with
  | some targets => .ok targets
  | none => .error "GetOutEdges: source not found in graph."

def materializeEdge (source : Node) (target : ℕ × Node) : Edge := ⟨source, target.1, target.2⟩

def getOutEdges (graph : ModuleGraph) (source : Node) : Checked (List Edge) := do
  return (← graph.getAdjacentNodes source).map (materializeEdge source)

def materializeOperation : ℕ × Node → Checked (ℕ × Address)
  | (index, .operation address) => .ok (index, address)
  | (_, .value _) => .error "ModuleGraph has an unexpected edge."

def materializeValue : ℕ × Node → Checked (ℕ × Value)
  | (index, .value v) => .ok (index, v)
  | (_, .operation _) => .error "ModuleGraph has an unexpected edge."

def getUses (graph : ModuleGraph) (v : Value) : Checked (List (ℕ × Address)) := do
  (← graph.getAdjacentNodes (.value v)).mapM materializeOperation

def getResults (graph : ModuleGraph) (operation : Address) : Checked (List (ℕ × Value)) := do
  (← graph.getAdjacentNodes (.operation operation)).mapM materializeValue

theorem getAdjacentNodes_of_mem (graph : ModuleGraph) {source : Node}
    (h : source ∈ graph.adjacencyList) :
    graph.getAdjacentNodes source = .ok (graph.adjacencyList.edges source) := by
  obtain ⟨targets, htargets⟩ :=
    Option.ne_none_iff_exists'.mp ((FlatHashMap.mem_iff_lookup _ _).mp h)
  simp only [getAdjacentNodes, AdjacencyList.edges, htargets, Option.getD_some]

theorem value_mem (module : Module) (v : Value) :
    Node.value v ∈ (ofModule module).adjacencyList ↔ module.IsOperand v ∨ module.IsResult v := by
  change _ ∈ AdjacencyList.compute module ↔ _
  rw [AdjacencyList.mem_compute]
  unfold Module.IsOperand Module.IsResult
  constructor
  · rintro ⟨op, hop, hn | ⟨u, hu, hn⟩ | ⟨i, hi, hn⟩⟩
    · cases hn
    · cases hn
      exact Or.inl ⟨op, hop, hu⟩
    · cases hn
      exact Or.inr ⟨op, hop, i, hi, rfl⟩
  · rintro (⟨op, hop, hv⟩ | ⟨op, hop, i, hi, rfl⟩)
    · exact ⟨op, hop, Or.inr (Or.inl ⟨v, hv, rfl⟩)⟩
    · exact ⟨op, hop, Or.inr (Or.inr ⟨i, hi, rfl⟩)⟩

theorem operation_mem (module : Module) (address : Address) :
    Node.operation address ∈ (ofModule module).adjacencyList ↔
      ∃ op ∈ module.operations, op.address = address := by
  change _ ∈ AdjacencyList.compute module ↔ _
  rw [AdjacencyList.mem_compute]
  constructor
  · rintro ⟨op, hop, hn | ⟨u, -, hn⟩ | ⟨i, -, hn⟩⟩
    · cases hn
      exact ⟨op, hop, rfl⟩
    · cases hn
    · cases hn
  · rintro ⟨op, hop, rfl⟩
    exact ⟨op, hop, Or.inl rfl⟩

/-- The uses of a value of the module are the operations that read it, by input index. -/
theorem getUses_ofModule (module : Module) {v : Value}
    (h : module.IsOperand v ∨ module.IsResult v) :
    ∃ uses, (ofModule module).getUses v = .ok uses ∧ ∀ i a, (i, a) ∈ uses ↔
      ∃ op ∈ module.operations, op.inputs[i]? = some v ∧ a = op.address := by
  have hmem := (value_mem module v).mpr h
  have hedge : ∀ e ∈ (AdjacencyList.compute module).edges (.value v),
      ∃ op ∈ module.operations, op.inputs[e.1]? = some v ∧ e.2 = .operation op.address := by
    intro e he
    obtain ⟨op, hop, ⟨u, hu, hn, htarget⟩ | ⟨-, hn, -⟩⟩ :=
      (AdjacencyList.edges_compute module _ e).mp he
    · cases hn
      exact ⟨op, hop, hu, htarget⟩
    · cases hn
  let address : ℕ × Node → ℕ × Address := fun e => (e.1, match e.2 with
    | .operation a => a
    | .value _ => 0)
  refine ⟨((AdjacencyList.compute module).edges (.value v)).map address, ?_, ?_⟩
  · simp only [getUses, getAdjacentNodes_of_mem _ hmem]
    refine Checked.mapM_of_forall _ address _ ?_
    intro e he
    obtain ⟨op, -, -, htarget⟩ := hedge e he
    obtain ⟨i, n⟩ := e
    cases htarget
    rfl
  · intro i a
    simp only [List.mem_map]
    constructor
    · rintro ⟨e, he, heq⟩
      obtain ⟨op, hop, hin, htarget⟩ := hedge e he
      obtain ⟨k, n⟩ := e
      cases htarget
      cases heq
      exact ⟨op, hop, hin, rfl⟩
    · rintro ⟨op, hop, hin, rfl⟩
      refine ⟨(i, .operation op.address), ?_, rfl⟩
      exact (AdjacencyList.edges_compute module _ _).mpr
        ⟨op, hop, Or.inl ⟨v, hin, rfl, rfl⟩⟩

/-- The results of an operation of the module are its output values, each once. -/
theorem getResults_ofModule (module : Module) {op : Operation} (h : op ∈ module.operations) :
    ∃ results, (ofModule module).getResults op.address = .ok results ∧
      (results.map Prod.snd).Nodup ∧
      ∀ i v, (i, v) ∈ results ↔ i < op.numberOfOutputs ∧ v = op.getOutputValue i := by
  have hmem := (operation_mem module op.address).mpr ⟨op, h, rfl⟩
  have hedge : ∀ e ∈ (AdjacencyList.compute module).edges (.operation op.address),
      e.1 < op.numberOfOutputs ∧ e.2 = .value (op.getOutputValue e.1) := by
    intro e he
    obtain ⟨op', hop', ⟨u, -, hn, -⟩ | ⟨hi, hn, htarget⟩⟩ :=
      (AdjacencyList.edges_compute module _ e).mp he
    · cases hn
    · rw [Node.operation.injEq] at hn
      have heq := module.address_injective h hop' hn
      subst heq
      exact ⟨hi, htarget⟩
  let output : ℕ × Node → ℕ × Value := fun e => (e.1, op.getOutputValue e.1)
  refine ⟨((AdjacencyList.compute module).edges (.operation op.address)).map output, ?_, ?_, ?_⟩
  · simp only [getResults, getAdjacentNodes_of_mem _ hmem]
    refine Checked.mapM_of_forall _ output _ ?_
    intro e he
    obtain ⟨-, htarget⟩ := hedge e he
    obtain ⟨i, n⟩ := e
    simp only at htarget
    subst htarget
    rfl
  · rw [List.map_map]
    refine (AdjacencyList.edges_nodup_compute module _).map_on ?_
    intro e he e' he' heq
    have hi : e.1 = e'.1 := (Operation.getOutputValue_inj.mp heq).2
    refine Prod.ext hi ?_
    rw [(hedge e he).2, (hedge e' he').2, hi]
  · intro i v
    simp only [List.mem_map]
    constructor
    · rintro ⟨e, he, heq⟩
      cases heq
      exact ⟨(hedge e he).1, rfl⟩
    · rintro ⟨hi, rfl⟩
      refine ⟨(i, .value (op.getOutputValue i)), ?_, rfl⟩
      exact (AdjacencyList.edges_compute module _ _).mpr ⟨op, h, Or.inr ⟨hi, rfl, rfl⟩⟩

end ModuleGraph

end Raksha.Analysis
