import Raksha.Common.Utils
import Raksha.Lib.ChaoticIteration

/-!
# The worklist iterator

`WorklistFixpointIterator::ComputeFixpoint` (`analysis/common/worklist_fixpoint_iterator.h`)
over any graph and any abstract semantics. The worklist is a hash set whose order is
unspecified, so a step visits any pending node.
-/

namespace Raksha.Analysis.WorklistFixpointIterator
open Raksha.Common

/-- The graph parameter. -/
structure Graph (Node Edge : Type) where
  getOutEdges : Node → List Edge
  getEdgeTarget : Edge → Node

/-- The `AbstractSemantics` parameter. -/
structure AbstractSemantics (Node Edge S : Type) where
  getEntryNodes : List Node
  getInitialState : Node → S
  applyNodeTransformer : Node → S → S
  applyEdgeTransformer : Edge → S → S
  combineStates : S → S → S
  areStatesEqual : S → S → Bool

structure IterationState (Node S : Type) where
  nodeStates : FlatHashMap Node S
  worklist : Finset Node

section Iterator

variable {Node Edge S : Type} [DecidableEq Node]

def initializeNode (semantics : AbstractSemantics Node Edge S) (state : IterationState Node S)
    (entry : Node) : IterationState Node S where
  nodeStates := state.nodeStates.insertOrAssign entry (semantics.getInitialState entry)
  worklist := insert entry state.worklist

def initializeStates (semantics : AbstractSemantics Node Edge S) : IterationState Node S :=
  semantics.getEntryNodes.foldl (initializeNode semantics) ⟨∅, ∅⟩

/-- Propagates the output of a node along one of its out edges. -/
def propagate (graph : Graph Node Edge) (semantics : AbstractSemantics Node Edge S)
    (nodeStateOut : S) (state : IterationState Node S) (edge : Edge) : IterationState Node S :=
  let edgeOut := semantics.applyEdgeTransformer edge nodeStateOut
  let target := graph.getEdgeTarget edge
  let findResult := state.nodeStates.lookup target
  let firstVisit := findResult.isNone
  let targetOldStateIn := findResult.getD (semantics.getInitialState target)
  let targetNewStateIn := semantics.combineStates edgeOut targetOldStateIn
  if firstVisit || !semantics.areStatesEqual targetNewStateIn targetOldStateIn then
    { nodeStates := state.nodeStates.insertOrAssign target targetNewStateIn
      worklist := insert target state.worklist }
  else
    state

/-- The loop body for the selected node, which is removed from the worklist. -/
def visitNode (graph : Graph Node Edge) (semantics : AbstractSemantics Node Edge S)
    (node : Node) (state : IterationState Node S) : Checked (IterationState Node S) :=
  match state.nodeStates.lookup node with
  | none => .error "Node in worklist without a corresponding state."
  | some nodeStateIn =>
    -- the output is computed before any edge is propagated, also along a self-loop
    let nodeStateOut := semantics.applyNodeTransformer node nodeStateIn
    .ok ((graph.getOutEdges node).foldl (propagate graph semantics nodeStateOut)
      { state with worklist := state.worklist.erase node })

/-- One iteration of the loop: a pending node is visited. -/
def Step (graph : Graph Node Edge) (semantics : AbstractSemantics Node Edge S)
    (state state' : IterationState Node S) : Prop :=
  ∃ node ∈ state.worklist, visitNode graph semantics node state = .ok state'

def Reachable (graph : Graph Node Edge) (semantics : AbstractSemantics Node Edge S)
    (state : IterationState Node S) : Prop :=
  Relation.ReflTransGen (Step graph semantics) (initializeStates semantics) state

def ComputeFixpoint (graph : Graph Node Edge) (semantics : AbstractSemantics Node Edge S)
    (nodeStates : FlatHashMap Node S) : Prop :=
  ∃ state, Reachable graph semantics state ∧ state.worklist = ∅ ∧ state.nodeStates = nodeStates

/-- A run of the loop that never ends. -/
def Diverges (graph : Graph Node Edge) (semantics : AbstractSemantics Node Edge S) : Prop :=
  ∃ run : ℕ → IterationState Node S, run 0 = initializeStates semantics ∧
    ∀ n, Step graph semantics (run n) (run (n + 1))

/-- `ComputeFixpoint` aborts in its check. -/
def Aborts (graph : Graph Node Edge) (semantics : AbstractSemantics Node Edge S) : Prop :=
  ∃ state node message, Reachable graph semantics state ∧ node ∈ state.worklist ∧
    visitNode graph semantics node state = .error message

/-- The nodes that edges lead to from the entry nodes. -/
inductive ReachableNode (graph : Graph Node Edge) (semantics : AbstractSemantics Node Edge S) :
    Node → Prop
  | entry {node : Node} : node ∈ semantics.getEntryNodes → ReachableNode graph semantics node
  | target {node : Node} {edge : Edge} : ReachableNode graph semantics node →
      edge ∈ graph.getOutEdges node →
      ReachableNode graph semantics (graph.getEdgeTarget edge)

end Iterator

section Order

variable {Node Edge S : Type}

/-- The states are a join semilattice without infinite ascents. -/
structure IsJoinSemilattice (semantics : AbstractSemantics Node Edge S) : Prop where
  assoc : ∀ a b c, semantics.combineStates (semantics.combineStates a b) c =
    semantics.combineStates a (semantics.combineStates b c)
  comm : ∀ a b, semantics.combineStates a b = semantics.combineStates b a
  idem : ∀ a, semantics.combineStates a a = a
  areStatesEqual : ∀ a b, semantics.areStatesEqual a b = true ↔ a = b
  ascending : ¬ ∃ chain : ℕ → S, ∀ n,
    semantics.combineStates (chain n) (chain (n + 1)) = chain (n + 1) ∧
      chain n ≠ chain (n + 1)

/-- The order of the join. -/
abbrev IsJoinSemilattice.semilatticeSup {semantics : AbstractSemantics Node Edge S}
    (h : IsJoinSemilattice semantics) : SemilatticeSup S :=
  @SemilatticeSup.mk' S ⟨semantics.combineStates⟩ h.comm h.assoc h.idem

theorem IsJoinSemilattice.wellFoundedGT {semantics : AbstractSemantics Node Edge S}
    (h : IsJoinSemilattice semantics) :
    @WellFoundedGT S h.semilatticeSup.toPartialOrder.toLT := by
  let order := h.semilatticeSup
  refine ⟨(RelEmbedding.wellFounded_iff_isEmpty).mpr ⟨fun chain => h.ascending ?_⟩⟩
  refine ⟨chain, fun n => ?_⟩
  have hlt : chain n < chain (n + 1) := chain.map_rel_iff.mpr (Nat.lt_succ_self n)
  exact ⟨sup_eq_right.mpr hlt.le, hlt.ne⟩

/-- A state once the node is visited, the bottom before. -/
def height (state : Option S) : WithBot S :=
  match state with
  | none => ⊥
  | some s => s

theorem height_inj {a b : Option S} : height a = height b ↔ a = b := by
  cases a <;> cases b <;> simp [height]

end Order

/-! ### The iterator as a chaotic iteration -/

section Refinement

open ChaoticIteration

variable {Node Edge S : Type} [DecidableEq Node] [SemilatticeSup S]

/-- What the edges to `v` contribute to its state, its initial state included. -/
def contribution (graph : Graph Node Edge) (semantics : AbstractSemantics Node Edge S)
    (nodeStateOut : S) (v : Node) (edges : List Edge) : WithBot S :=
  edges.foldr (fun edge sum => if graph.getEdgeTarget edge = v then
    (semantics.applyEdgeTransformer edge nodeStateOut : WithBot S) ⊔ sum else sum)
    (semantics.getInitialState v : WithBot S)

theorem contribution_cons (graph : Graph Node Edge)
    (semantics : AbstractSemantics Node Edge S) (nodeStateOut : S) (v : Node) (edge : Edge)
    (edges : List Edge) :
    contribution graph semantics nodeStateOut v (edge :: edges) =
      if graph.getEdgeTarget edge = v then
        (semantics.applyEdgeTransformer edge nodeStateOut : WithBot S) ⊔
          contribution graph semantics nodeStateOut v edges
      else contribution graph semantics nodeStateOut v edges := rfl

theorem initialState_le_contribution (graph : Graph Node Edge)
    (semantics : AbstractSemantics Node Edge S) (nodeStateOut : S) (v : Node)
    (edges : List Edge) :
    (semantics.getInitialState v : WithBot S) ≤
      contribution graph semantics nodeStateOut v edges := by
  induction edges with
  | nil => exact le_rfl
  | cons edge edges ih =>
    rw [contribution_cons]
    split
    · exact ih.trans le_sup_right
    · exact ih

theorem edge_le_contribution (graph : Graph Node Edge)
    (semantics : AbstractSemantics Node Edge S) (nodeStateOut : S) {edges : List Edge}
    {edge : Edge} (h : edge ∈ edges) :
    (semantics.applyEdgeTransformer edge nodeStateOut : WithBot S) ≤
      contribution graph semantics nodeStateOut (graph.getEdgeTarget edge) edges := by
  induction edges with
  | nil => cases h
  | cons first edges ih =>
    rw [contribution_cons]
    rcases List.mem_cons.mp h with rfl | hrest
    · rw [if_pos rfl]
      exact le_sup_left
    · split
      · exact (ih hrest).trans le_sup_right
      · exact ih hrest

def graphSystem (graph : Graph Node Edge) (semantics : AbstractSemantics Node Edge S) :
    System Node Node (WithBot S) where
  inputs node := {node}
  results node := {v | ∃ edge ∈ graph.getOutEdges node, graph.getEdgeTarget edge = v}
  sources := ∅
  transfer node ρ := match ρ node with
    | ⊥ => none
    | (nodeStateIn : S) => some fun v => contribution graph semantics
        (semantics.applyNodeTransformer node nodeStateIn) v (graph.getOutEdges node)
  local_transfer := by
    intro node ρ ρ' h
    rw [h node rfl]

/-- The states and the worklist of the loop. -/
def IterationState.config (state : IterationState Node S) : Config Node Node (WithBot S) where
  states v := (state.nodeStates.lookup v).map WithBot.some
  worklist := state.worklist

theorem IterationState.current_config (state : IterationState Node S) (v : Node) :
    state.config.current v = height (state.nodeStates.lookup v) := by
  simp only [Config.current, config]
  cases state.nodeStates.lookup v <;> rfl

/-- The operations of the semantics are those of the lattice. -/
structure Joins (semantics : AbstractSemantics Node Edge S) : Prop where
  combineStates : ∀ a b, semantics.combineStates a b = a ⊔ b
  areStatesEqual : ∀ a b, semantics.areStatesEqual a b = true ↔ a = b

/-- Every state is above the initial state of its node. -/
def AboveInitial (semantics : AbstractSemantics Node Edge S) (state : IterationState Node S) :
    Prop :=
  ∀ v s, state.nodeStates.lookup v = some s → semantics.getInitialState v ≤ s

/-- What propagating along some edges does to the states and the worklist. -/
structure Propagated (graph : Graph Node Edge) (semantics : AbstractSemantics Node Edge S)
    (nodeStateOut : S) (edges : List Edge) (state state' : IterationState Node S) : Prop where
  le : ∀ v, height (state.nodeStates.lookup v) ≤ height (state'.nodeStates.lookup v)
  joined : ∀ v, height (state'.nodeStates.lookup v) ⊔ semantics.getInitialState v =
    height (state.nodeStates.lookup v) ⊔ contribution graph semantics nodeStateOut v edges
  visited : ∀ edge ∈ edges, state'.nodeStates.lookup (graph.getEdgeTarget edge) ≠ none
  frame : ∀ v, (∀ edge ∈ edges, graph.getEdgeTarget edge ≠ v) →
    state'.nodeStates.lookup v = state.nodeStates.lookup v
  above : AboveInitial semantics state → AboveInitial semantics state'
  worklist : ∀ v, v ∈ state'.worklist ↔ v ∈ state.worklist ∨
    state'.nodeStates.lookup v ≠ state.nodeStates.lookup v

variable {graph : Graph Node Edge} {semantics : AbstractSemantics Node Edge S}

theorem lookup_propagate (graph : Graph Node Edge) (hjoins : Joins semantics) (nodeStateOut : S)
    (state : IterationState Node S) (edge : Edge) (v : Node) :
    (propagate graph semantics nodeStateOut state edge).nodeStates.lookup v =
      if graph.getEdgeTarget edge = v then
        some (semantics.applyEdgeTransformer edge nodeStateOut ⊔
          (state.nodeStates.lookup v).getD (semantics.getInitialState v))
      else state.nodeStates.lookup v := by
  simp only [propagate, hjoins.combineStates]
  split
  · next hchange =>
    rw [FlatHashMap.lookup_insertOrAssign]
    simp only [eq_comm (a := v)]
    split
    · next hv => rw [hv]
    · rfl
  · next hsame =>
    simp only [Bool.or_eq_true, Bool.not_eq_true', not_or, Bool.not_eq_true,
      Bool.not_eq_false, hjoins.areStatesEqual] at hsame
    obtain ⟨hvisited, heq⟩ := hsame
    split
    · next hv =>
      subst hv
      rw [heq]
      obtain ⟨old, hold⟩ := Option.isSome_iff_exists.mp (by simpa using hvisited)
      rw [hold, Option.getD_some]
    · rfl

theorem mem_worklist_propagate (hjoins : Joins semantics) (nodeStateOut : S)
    (state : IterationState Node S) (edge : Edge) (v : Node) :
    v ∈ (propagate graph semantics nodeStateOut state edge).worklist ↔
      v ∈ state.worklist ∨
        (propagate graph semantics nodeStateOut state edge).nodeStates.lookup v ≠
          state.nodeStates.lookup v := by
  simp only [propagate, hjoins.combineStates]
  split
  · next hchange =>
    rw [Finset.mem_insert, FlatHashMap.lookup_insertOrAssign, or_comm]
    refine or_congr_right ?_
    split
    · next hv =>
      subst hv
      refine iff_of_true rfl ?_
      intro heq
      cases hold : state.nodeStates.lookup (graph.getEdgeTarget edge) with
      | none =>
        rw [hold] at heq
        cases heq
      | some old =>
        simp only [hold, Option.getD_some, Option.some.injEq] at heq
        simp [hold, (hjoins.areStatesEqual _ _).mpr heq] at hchange
    · next hv => simp [hv]
  · simp

theorem propagated_nil (nodeStateOut : S) (state : IterationState Node S) :
    Propagated graph semantics nodeStateOut [] state state where
  le v := le_rfl
  joined v := rfl
  visited := by simp
  frame v _ := rfl
  above h := h
  worklist v := by simp

theorem propagated_cons (hjoins : Joins semantics) {nodeStateOut : S} {edge : Edge}
    {edges : List Edge} {state state' : IterationState Node S}
    (h : Propagated graph semantics nodeStateOut edges
      (propagate graph semantics nodeStateOut state edge) state') :
    Propagated graph semantics nodeStateOut (edge :: edges) state state' := by
  have hlookup := lookup_propagate graph hjoins nodeStateOut state edge
  have hrise : ∀ v, height (state.nodeStates.lookup v) ≤
      height ((propagate graph semantics nodeStateOut state edge).nodeStates.lookup v) := by
    intro v
    rw [hlookup v]
    split
    · cases state.nodeStates.lookup v with
      | none => exact bot_le
      | some old => exact WithBot.coe_le_coe.mpr le_sup_right
    · exact le_rfl
  refine ⟨fun v => (hrise v).trans (h.le v), ?_, ?_, ?_, ?_, ?_⟩
  · intro v
    have hinit := initialState_le_contribution graph semantics nodeStateOut v edges
    rw [h.joined v, hlookup v, contribution_cons]
    split
    · cases state.nodeStates.lookup v with
      | none =>
        simp only [height, Option.getD_none, WithBot.coe_sup, bot_sup_eq]
        rw [sup_assoc, sup_eq_right.mpr hinit]
      | some old =>
        simp only [height, Option.getD_some, WithBot.coe_sup]
        rw [sup_assoc, sup_left_comm]
    · rfl
  · intro e he
    rcases List.mem_cons.mp he with rfl | hrest
    · intro hnone
      have hle := h.le (graph.getEdgeTarget e)
      rw [hnone, hlookup, if_pos rfl] at hle
      exact WithBot.coe_ne_bot (le_bot_iff.mp hle)
    · exact h.visited e hrest
  · intro v hv
    rw [h.frame v fun e he => hv e (List.mem_cons_of_mem _ he), hlookup v,
      if_neg (hv edge (List.mem_cons_self ..))]
  · intro habove
    refine h.above fun v s hs => ?_
    rw [hlookup v] at hs
    split at hs
    · rw [Option.some.injEq] at hs
      subst hs
      refine le_sup_of_le_right ?_
      cases hold : state.nodeStates.lookup v with
      | none => exact le_rfl
      | some old => exact habove v old hold
    · exact habove v s hs
  · intro v
    rw [h.worklist v, mem_worklist_propagate hjoins, or_assoc]
    refine or_congr_right ⟨?_, ?_⟩
    · rintro hchange heq
      -- states only grow, so an intermediate change is never undone
      have hmid := le_antisymm (h.le v) (heq ▸ hrise v)
      rw [height_inj] at hmid
      rcases hchange with hfirst | hsecond
      · exact hfirst (hmid.trans heq)
      · exact hsecond hmid.symm
    · intro hne
      by_contra hcontra
      push Not at hcontra
      exact hne (hcontra.2.trans hcontra.1)

theorem propagated_foldl (graph : Graph Node Edge) (hjoins : Joins semantics) (nodeStateOut : S)
    (edges : List Edge) (state : IterationState Node S) :
    Propagated graph semantics nodeStateOut edges state
      (edges.foldl (propagate graph semantics nodeStateOut) state) := by
  induction edges generalizing state with
  | nil => exact propagated_nil nodeStateOut state
  | cons edge edges ih => exact propagated_cons hjoins (ih _)

theorem AboveInitial.height_sup {state : IterationState Node S} (h : AboveInitial semantics state)
    {v : Node} (hv : state.nodeStates.lookup v ≠ none) :
    height (state.nodeStates.lookup v) ⊔ semantics.getInitialState v =
      height (state.nodeStates.lookup v) := by
  obtain ⟨s, hs⟩ := Option.ne_none_iff_exists'.mp hv
  rw [hs]
  exact sup_eq_left.mpr (WithBot.coe_le_coe.mpr (h v s hs))

/-- Propagating the output of a pending node is a visit of the system. -/
theorem Propagated.visit {node : Node} {nodeStateIn : S} {state state' : IterationState Node S}
    (hnode : node ∈ state.worklist) (hstate : state.nodeStates.lookup node = some nodeStateIn)
    (habove : AboveInitial semantics state)
    (h : Propagated graph semantics (semantics.applyNodeTransformer node nodeStateIn)
      (graph.getOutEdges node) { state with worklist := state.worklist.erase node } state') :
    Visit (graphSystem graph semantics) state.config node
      (fun v => contribution graph semantics (semantics.applyNodeTransformer node nodeStateIn) v
        (graph.getOutEdges node)) state'.config := by
  refine ⟨hnode, ?_, ?_, ?_, ?_⟩
  · simp only [graphSystem, state.current_config, hstate, height]
  · rintro v ⟨edge, hedge, rfl⟩
    have hvisited := h.visited edge hedge
    have hjoined := h.joined (graph.getEdgeTarget edge)
    rw [(h.above habove).height_sup hvisited] at hjoined
    rw [state.current_config, ← hjoined]
    obtain ⟨s, hs⟩ := Option.ne_none_iff_exists'.mp hvisited
    simp only [IterationState.config, hs, Option.map_some, height]
  · intro v hv
    have hframe := h.frame v fun edge hedge heq => hv ⟨edge, hedge, heq⟩
    simp only [IterationState.config, hframe]
  · intro p
    have hinputs : (∃ v ∈ (graphSystem graph semantics).inputs p,
        state'.config.states v ≠ state.config.states v) ↔
        state'.nodeStates.lookup p ≠ state.nodeStates.lookup p := by
      simp only [graphSystem, Set.mem_singleton_iff, exists_eq_left, IterationState.config, ne_eq,
        Option.map_inj_right WithBot.coe_injective]
    rw [hinputs]
    refine (h.worklist p).trans (or_congr_left ?_)
    rw [Finset.mem_erase, and_comm]
    rfl

/-- A visit of a node with a state succeeds and is a visit of the system. -/
theorem visitNode_spec (graph : Graph Node Edge) (hjoins : Joins semantics) {node : Node}
    {state : IterationState Node S} (hnode : node ∈ state.worklist)
    (hstate : state.nodeStates.lookup node ≠ none) (habove : AboveInitial semantics state) :
    ∃ state' y, visitNode graph semantics node state = .ok state' ∧
      AboveInitial semantics state' ∧
      Visit (graphSystem graph semantics) state.config node y state'.config := by
  obtain ⟨nodeStateIn, hin⟩ := Option.ne_none_iff_exists'.mp hstate
  have hpropagated := propagated_foldl graph hjoins
    (semantics.applyNodeTransformer node nodeStateIn) (graph.getOutEdges node)
    { state with worklist := state.worklist.erase node }
  refine ⟨_, _, ?_, hpropagated.above habove, hpropagated.visit hnode hin habove⟩
  simp only [visitNode, hin]

def entryStates (semantics : AbstractSemantics Node Edge S) (v : Node) : Option (WithBot S) :=
  if v ∈ semantics.getEntryNodes then some (semantics.getInitialState v) else none

omit [SemilatticeSup S] in
theorem foldl_initializeNode (semantics : AbstractSemantics Node Edge S) (entries : List Node)
    (state : IterationState Node S) (v : Node) :
    ((entries.foldl (initializeNode semantics) state).nodeStates.lookup v =
      if v ∈ entries then some (semantics.getInitialState v) else state.nodeStates.lookup v) ∧
    (v ∈ (entries.foldl (initializeNode semantics) state).worklist ↔
      v ∈ entries ∨ v ∈ state.worklist) := by
  induction entries generalizing state with
  | nil => simp
  | cons entry entries ih =>
    obtain ⟨hlookup, hworklist⟩ := ih (initializeNode semantics state entry)
    refine ⟨?_, ?_⟩
    · rw [List.foldl_cons, hlookup, initializeNode, FlatHashMap.lookup_insertOrAssign]
      by_cases hv : v = entry
      · simp [hv]
      · simp [hv]
    · rw [List.foldl_cons, hworklist, initializeNode, Finset.mem_insert, List.mem_cons,
        or_left_comm, or_assoc]

omit [SemilatticeSup S] in
theorem lookup_initializeStates (semantics : AbstractSemantics Node Edge S) (v : Node) :
    (initializeStates semantics).nodeStates.lookup v =
      if v ∈ semantics.getEntryNodes then some (semantics.getInitialState v) else none :=
  (foldl_initializeNode semantics semantics.getEntryNodes ⟨∅, ∅⟩ v).1

omit [SemilatticeSup S] in
theorem mem_worklist_initializeStates (semantics : AbstractSemantics Node Edge S) (v : Node) :
    v ∈ (initializeStates semantics).worklist ↔ v ∈ semantics.getEntryNodes := by
  rw [initializeStates, (foldl_initializeNode semantics semantics.getEntryNodes ⟨∅, ∅⟩ v).2]
  simp

theorem initial_initializeStates :
    Initial (graphSystem graph semantics) (entryStates semantics)
      (initializeStates semantics).config := by
  refine ⟨?_, ?_⟩
  · funext v
    simp only [IterationState.config, lookup_initializeStates, entryStates]
    split <;> rfl
  · intro v
    have hmem : v ∈ (initializeStates semantics).config.worklist ↔ v ∈ semantics.getEntryNodes :=
      mem_worklist_initializeStates semantics v
    rw [hmem]
    simp [graphSystem, entryStates]

theorem reached_iff (v : Node) :
    ChaoticIteration.Reached (graphSystem graph semantics) {v | entryStates semantics v ≠ none} v ↔
      ReachableNode graph semantics v := by
  refine ⟨?_, ?_⟩
  · intro h
    induction h with
    | entry hv =>
      refine .entry ?_
      by_contra hnot
      exact hv (if_neg hnot)
    | source hsource => cases hsource
    | result hu _ hv ih =>
      obtain ⟨edge, hedge, rfl⟩ := hv
      cases hu
      exact .target ih hedge
  · intro h
    induction h with
    | entry hv =>
      refine .entry ?_
      simp [entryStates, hv]
    | target _ hedge ih => exact .result rfl ih ⟨_, hedge, rfl⟩

/-- What holds of the state at every iteration. -/
structure LoopInvariant (graph : Graph Node Edge) (semantics : AbstractSemantics Node Edge S)
    (state : IterationState Node S) : Prop where
  above : AboveInitial semantics state
  visited : ∀ v ∈ state.worklist, state.nodeStates.lookup v ≠ none
  run : Run (graphSystem graph semantics) (fun _ _ => True) (initializeStates semantics).config
    state.config

theorem loopInvariant_initializeStates : LoopInvariant graph semantics
    (initializeStates semantics) := by
  refine ⟨?_, ?_, .refl⟩
  · intro v s hs
    rw [lookup_initializeStates] at hs
    split at hs
    · rw [Option.some.injEq] at hs
      exact hs.le
    · cases hs
  · intro v hv
    rw [lookup_initializeStates, if_pos ((mem_worklist_initializeStates semantics v).mp hv)]
    exact Option.some_ne_none _

omit [SemilatticeSup S] in
theorem IterationState.states_ne_none (state : IterationState Node S) (v : Node) :
    state.config.states v ≠ none ↔ state.nodeStates.lookup v ≠ none := by
  simp [config]

/-- A pending node can be visited, and the visit preserves the invariant. -/
theorem LoopInvariant.visitNode (hjoins : Joins semantics) {state : IterationState Node S}
    (h : LoopInvariant graph semantics state) {node : Node} (hnode : node ∈ state.worklist) :
    ∃ state' y, visitNode graph semantics node state = .ok state' ∧
      LoopInvariant graph semantics state' ∧
      Visit (graphSystem graph semantics) state.config node y state'.config := by
  obtain ⟨state', y, hvisit, habove, hstep⟩ :=
    visitNode_spec graph hjoins hnode (h.visited node hnode) h.above
  refine ⟨state', y, hvisit, ⟨habove, ?_, h.run.visit trivial hstep⟩, hstep⟩
  intro v hv
  rw [← state'.states_ne_none]
  rcases (hstep.worklist v).mp hv with ⟨hold, -⟩ | ⟨u, hu, hchange⟩
  · exact hstep.states_ne_none ((state.states_ne_none v).mpr (h.visited v hold))
  · cases hu
    intro hnone
    have hstate : state.config.states v ≠ none := by
      intro heq
      exact hchange (hnone.trans heq.symm)
    exact hstep.states_ne_none hstate hnone

theorem Reachable.loopInvariant (hjoins : Joins semantics) {state : IterationState Node S}
    (h : Reachable graph semantics state) : LoopInvariant graph semantics state := by
  induction h with
  | refl => exact loopInvariant_initializeStates
  | tail _ hstep ih =>
    obtain ⟨node, hnode, hvisit⟩ := hstep
    obtain ⟨next, y, hnext, hinv, -⟩ := ih.visitNode hjoins hnode
    cases hvisit.symm.trans hnext
    exact hinv

theorem LoopInvariant.reachableNode {state : IterationState Node S}
    (h : LoopInvariant graph semantics state) {v : Node}
    (hv : state.nodeStates.lookup v ≠ none) : ReachableNode graph semantics v := by
  rw [← state.states_ne_none] at hv
  exact (reached_iff v).mp ((h.run.domainInvariant initial_initializeStates).states v hv)

theorem step_wellFounded [WellFoundedGT S] (hjoins : Joins semantics)
    (hfinite : {v | ReachableNode graph semantics v}.Finite) :
    WellFounded fun state' state : IterationState Node S =>
      Reachable graph semantics state ∧ Step graph semantics state state' := by
  refine Subrelation.wf ?_ (InvImage.wf IterationState.config
    (visit_wellFounded_of_ascending (graphSystem graph semantics) hfinite.toFinset))
  rintro state' state ⟨hreach, node, hnode, hvisit⟩
  have hinv := hreach.loopInvariant hjoins
  obtain ⟨next, y, hnext, -, hstep⟩ := hinv.visitNode hjoins hnode
  cases hvisit.symm.trans hnext
  refine ⟨node, y, ?_, hstep⟩
  rintro v ⟨edge, hedge, rfl⟩
  exact hfinite.mem_toFinset.mpr (.target (hinv.reachableNode (hinv.visited node hnode)) hedge)

theorem exists_computeFixpoint [WellFoundedGT S] (hjoins : Joins semantics)
    (hfinite : {v | ReachableNode graph semantics v}.Finite) :
    ∃ nodeStates, ComputeFixpoint graph semantics nodeStates := by
  suffices ∀ state, Reachable graph semantics state →
      ∃ nodeStates, ComputeFixpoint graph semantics nodeStates from this _ .refl
  intro state
  induction state using (step_wellFounded hjoins hfinite).induction with
  | _ state ih =>
    intro hreach
    rcases state.worklist.eq_empty_or_nonempty with hempty | ⟨node, hnode⟩
    · exact ⟨state.nodeStates, state, hreach, hempty, rfl⟩
    · obtain ⟨next, y, hnext, -⟩ := (hreach.loopInvariant hjoins).visitNode hjoins hnode
      have hstep : Step graph semantics state next := ⟨node, hnode, hnext⟩
      exact ih next ⟨hreach, hstep⟩ (hreach.tail hstep)

end Refinement

section Correctness

variable {Node Edge S : Type} [DecidableEq Node]

/-- The properties of a returned map. -/
structure IsPostFixpoint (graph : Graph Node Edge) (semantics : AbstractSemantics Node Edge S)
    (nodeStates : FlatHashMap Node S) : Prop where
  domain : ∀ v, v ∈ nodeStates ↔ ReachableNode graph semantics v
  initial : ∀ v s, nodeStates.lookup v = some s →
    semantics.combineStates (semantics.getInitialState v) s = s
  edges : ∀ v s, nodeStates.lookup v = some s → ∀ edge ∈ graph.getOutEdges v,
    ∃ t, nodeStates.lookup (graph.getEdgeTarget edge) = some t ∧
      semantics.combineStates
        (semantics.applyEdgeTransformer edge (semantics.applyNodeTransformer v s)) t = t

theorem ComputeFixpoint.isPostFixpoint [SemilatticeSup S] {graph : Graph Node Edge}
    {semantics : AbstractSemantics Node Edge S} (hjoins : Joins semantics)
    {nodeStates : FlatHashMap Node S} (h : ComputeFixpoint graph semantics nodeStates) :
    IsPostFixpoint graph semantics nodeStates := by
  obtain ⟨state, hreach, hempty, rfl⟩ := h
  have hinv := hreach.loopInvariant hjoins
  refine ⟨?_, ?_, ?_⟩
  · intro v
    rw [FlatHashMap.mem_iff_lookup, ← state.states_ne_none, ← reached_iff]
    exact hinv.run.states_ne_none_iff initial_initializeStates hempty v
  · intro v s hs
    rw [hjoins.combineStates]
    exact sup_eq_right.mpr (hinv.above v s hs)
  · intro v s hs edge hedge
    have hdue : ChaoticIteration.Due (graphSystem graph semantics) state.config v := by
      refine Or.inr ⟨v, rfl, (state.states_ne_none v).mpr ?_⟩
      rw [hs]
      exact Option.some_ne_none s
    obtain ⟨y, htransfer, hbelow⟩ := hinv.run.settled initial_initializeStates hempty hdue
    simp only [graphSystem, state.current_config, hs, height, Option.some.injEq] at htransfer
    subst htransfer
    obtain ⟨hstated, hle⟩ := hbelow _ ⟨edge, hedge, rfl⟩
    obtain ⟨t, ht⟩ := Option.ne_none_iff_exists'.mp ((state.states_ne_none _).mp hstated)
    refine ⟨t, ht, ?_⟩
    rw [state.current_config, ht] at hle
    rw [hjoins.combineStates]
    have hedgeOut := (edge_le_contribution graph semantics _ hedge).trans hle
    exact sup_eq_right.mpr (WithBot.coe_le_coe.mp hedgeOut)

/-- Over a join semilattice without infinite ascents the iterator terminates without an abort,
for any transformers and any worklist order, in a state that no edge raises. -/
theorem computeFixpoint_correct (graph : Graph Node Edge)
    (semantics : AbstractSemantics Node Edge S) (h : IsJoinSemilattice semantics)
    (hfinite : {v | ReachableNode graph semantics v}.Finite) :
    ¬ Diverges graph semantics ∧ ¬ Aborts graph semantics ∧
      (∃ nodeStates, ComputeFixpoint graph semantics nodeStates) ∧
      ∀ nodeStates, ComputeFixpoint graph semantics nodeStates →
        IsPostFixpoint graph semantics nodeStates := by
  let order := h.semilatticeSup
  have hascending : WellFoundedGT S := h.wellFoundedGT
  have hjoins : Joins semantics := ⟨fun _ _ => rfl, h.areStatesEqual⟩
  refine ⟨?_, ?_, exists_computeFixpoint hjoins hfinite, ?_⟩
  · rintro ⟨run, hstart, hsteps⟩
    have hreach : ∀ n, Reachable graph semantics (run n) := by
      intro n
      induction n with
      | zero => exact hstart ▸ .refl
      | succ n ih => exact ih.tail (hsteps n)
    exact (wellFounded_iff_isEmpty_descending_chain.mp (step_wellFounded hjoins hfinite)).false
      ⟨run, fun n => ⟨hreach n, hsteps n⟩⟩
  · rintro ⟨state, node, message, hreach, hnode, hvisit⟩
    obtain ⟨next, y, hnext, -⟩ := (hreach.loopInvariant hjoins).visitNode hjoins hnode
    cases hvisit.symm.trans hnext
  · intro nodeStates hresult
    exact hresult.isPostFixpoint hjoins

/-- A node with a self-loop and two parallel edges, and states that are not propagated
monotonically. -/
def loopGraph : Graph Bool (Fin 3) where
  getOutEdges node := if node then [] else [0, 1, 2]
  getEdgeTarget edge := edge ≠ 0

def flippingSemantics : AbstractSemantics Bool (Fin 3) Bool where
  getEntryNodes := [false]
  getInitialState _ := false
  applyNodeTransformer _ state := !state
  applyEdgeTransformer edge state := state && edge ≠ 1
  combineStates a b := a || b
  areStatesEqual a b := a == b

theorem loopGraph_correct : ∃ nodeStates, ComputeFixpoint loopGraph flippingSemantics nodeStates ∧
    IsPostFixpoint loopGraph flippingSemantics nodeStates := by
  have hlattice : IsJoinSemilattice flippingSemantics := by
    refine ⟨by decide, by decide, by decide, by decide, ?_⟩
    rintro ⟨chain, hchain⟩
    have hstep : ∀ a b : Bool, (a || b) = b ∧ a ≠ b → a = false ∧ b = true := by decide
    have hfirst := hstep _ _ (hchain 0)
    have hsecond := hstep _ _ (hchain 1)
    exact Bool.false_ne_true (hsecond.1.symm.trans hfirst.2)
  obtain ⟨-, -, ⟨nodeStates, hresult⟩, hcorrect⟩ :=
    computeFixpoint_correct loopGraph flippingSemantics hlattice (Set.toFinite _)
  exact ⟨nodeStates, hresult, hcorrect nodeStates hresult⟩

end Correctness

end Raksha.Analysis.WorklistFixpointIterator
