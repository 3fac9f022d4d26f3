import Raksha.Analysis.ModuleGraph
import Raksha.Lib.ChaoticIteration

/-!
# The fixpoint iterator

`ModuleFixpointIterator::ComputeFixpoint` (`analysis/common/module_fixpoint_iterator.h`) over
any abstract semantics. The graph, the results of an operation and the worklist are hash
containers whose order is unspecified: the nodes and results are taken in any order, and a
step visits any pending operation.
-/

namespace Raksha.Analysis
open Raksha.Common Raksha.Ir

/-- The operations that the iterator needs of its states, with their order. -/
class AbstractState (S : Type) extends SemilatticeSup S, OrderBot S where
  join : S → S → S
  isEquivalentTo : S → S → Bool
  join_eq_sup : ∀ a b, join a b = a ⊔ b
  isEquivalentTo_iff : ∀ a b, isEquivalentTo a b = true ↔ a = b

/-- The `AbstractSemantics` parameter of the iterator. -/
structure AbstractSemantics (S : Type) where
  getInitialState : Value → S
  applyOperationTransformer : Operation → List S → Checked (List S)

abbrev ValueStateMap (S : Type) : Type := FlatHashMap Value S

structure IterationState (S : Type) where
  valueStates : ValueStateMap S
  worklist : Finset Address

variable {S : Type}

/-- `worklist.insert(operation)` for all uses of a value. -/
def insertUses (graph : ModuleGraph) (v : Value) (worklist : Finset Address) :
    Checked (Finset Address) := do
  let uses ← graph.getUses v
  return uses.foldl (fun worklist use => insert use.2 worklist) worklist

def initializeNode (semantics : AbstractSemantics S) (module : Module) (graph : ModuleGraph)
    (state : IterationState S) (node : Node) : Checked (IterationState S) := do
  match node with
  | .value v =>
    if v.isOperationResult then
      return state
    else
      let (valueStates, success) := state.valueStates.tryInsert v (semantics.getInitialState v)
      check (success = true) "Duplicate entry nodes during fixpoint iteration."
      let worklist ← insertUses graph v state.worklist
      return { valueStates, worklist }
  | .operation address =>
    match module.operationAt address with
    | none => .error "Check failed: operation_node"
    | some operation =>
      if operation.inputs = [] then
        return { state with worklist := insert address state.worklist }
      else
        return state

def initializeStates (semantics : AbstractSemantics S) (module : Module) (nodes : List Node) :
    Checked (IterationState S) :=
  nodes.foldlM (initializeNode semantics module (.ofModule module)) ⟨∅, ∅⟩

variable [AbstractState S]

/-- `get_current_state`: the state and whether this is the first visit. -/
def getCurrentState (valueStates : ValueStateMap S) (v : Value) : S × Bool :=
  match valueStates.lookup v with
  | none => (⊥, true)
  | some state => (state, false)

/-- Joins one output into its result and schedules the uses of a changed result. -/
def pushOutput (graph : ModuleGraph) (operationOutputs : List S) (state : IterationState S)
    (result : ℕ × Value) : Checked (IterationState S) :=
  match operationOutputs[result.1]? with
  | none => .error "Edge index in module graph is out of bounds."
  | some edgeOut => do
    let (targetOldState, firstVisit) := getCurrentState state.valueStates result.2
    let targetNewState := AbstractState.join targetOldState edgeOut
    if firstVisit || !AbstractState.isEquivalentTo targetNewState targetOldState then
      let worklist ← insertUses graph result.2 state.worklist
      return { valueStates := state.valueStates.insertOrAssign result.2 targetNewState, worklist }
    else
      return state

/-- An iteration order of the hash set of results. -/
structure ResultOrder where
  order : List (ℕ × Value) → List (ℕ × Value)
  perm : ∀ results, (order results).Perm results

/-- The loop body for the selected operation, which is removed from the worklist. -/
def visitOperation (semantics : AbstractSemantics S) (module : Module) (operation : Operation)
    (resultOrder : ResultOrder) (state : IterationState S) : Checked (IterationState S) := do
  let operationInputs := operation.inputs.map fun v => (getCurrentState state.valueStates v).1
  let operationOutputs ← semantics.applyOperationTransformer operation operationInputs
  check (operationOutputs.length = operation.numberOfOutputs)
    "Transformer for an operation returns insufficient outputs."
  let results ← (ModuleGraph.ofModule module).getResults operation.address
  (resultOrder.order results).foldlM (pushOutput (.ofModule module) operationOutputs)
    { state with worklist := state.worklist.erase operation.address }

/-- One iteration of the loop: a pending operation is visited. -/
structure Iteration (semantics : AbstractSemantics S) (module : Module)
    (operation : Operation) (state : IterationState S) (outcome : Checked (IterationState S)) :
    Prop where
  owned : operation ∈ module.operations
  selected : operation.address ∈ state.worklist
  visited : ∃ resultOrder, visitOperation semantics module operation resultOrder state = outcome

/-- A condition on the visited operation and the states at its visit. -/
abbrev Guard (S : Type) : Type := Operation → (Value → S) → Prop

/-- The state of every value, `⊥` for values without an entry. -/
def currentStates (valueStates : ValueStateMap S) (v : Value) : S :=
  (getCurrentState valueStates v).1

/-- A successful iteration that satisfies the guard. -/
def StepUnder (guard : Guard S) (semantics : AbstractSemantics S) (module : Module)
    (state state' : IterationState S) : Prop :=
  ∃ operation, guard operation (currentStates state.valueStates) ∧
    Iteration semantics module operation state (.ok state')

/-- The states that guarded runs reach, for any order of nodes, operations and results. -/
def ReachableUnder (guard : Guard S) (semantics : AbstractSemantics S) (module : Module)
    (state : IterationState S) : Prop :=
  ∃ nodes init, nodes.Perm (ModuleGraph.ofModule module).getNodes ∧
    initializeStates semantics module nodes = .ok init ∧
    Relation.ReflTransGen (StepUnder guard semantics module) init state

/-- A guarded run returns the map. -/
def ComputeFixpointUnder (guard : Guard S) (semantics : AbstractSemantics S) (module : Module)
    (valueStates : ValueStateMap S) : Prop :=
  ∃ state, ReachableUnder guard semantics module state ∧ state.worklist = ∅ ∧
    state.valueStates = valueStates

def Reachable (semantics : AbstractSemantics S) (module : Module) :
    IterationState S → Prop :=
  ReachableUnder (fun _ _ => True) semantics module

def ComputeFixpoint (semantics : AbstractSemantics S) (module : Module) :
    ValueStateMap S → Prop :=
  ComputeFixpointUnder (fun _ _ => True) semantics module

/-- `ComputeFixpoint` aborts in a failing check. -/
def ComputeFixpointAborts (semantics : AbstractSemantics S) (module : Module) : Prop :=
  (∃ nodes message, nodes.Perm (ModuleGraph.ofModule module).getNodes ∧
    initializeStates semantics module nodes = .error message) ∨
  ∃ state operation message, Reachable semantics module state ∧
    Iteration semantics module operation state (.error message)

/-! ### The iterator as a chaotic iteration -/

open ChaoticIteration

/-- The outputs of an operation as states of its results. -/
def outputStates (outputs : List S) : Value → S
  | .operationResult _ i => outputs.getD i ⊥
  | _ => ⊥

def moduleSystem (semantics : AbstractSemantics S) (module : Module) : System Value Address S where
  inputs a := {v | ∃ op ∈ module.operations, op.address = a ∧ v ∈ op.inputs}
  results a := {v | ∃ op ∈ module.operations, op.address = a ∧
    ∃ i < op.numberOfOutputs, v = op.getOutputValue i}
  sources := {a | ∃ op ∈ module.operations, op.address = a ∧ op.inputs = []}
  transfer a ρ := (module.operationAt a).bind fun op =>
    match semantics.applyOperationTransformer op (op.inputs.map ρ) with
    | .error _ => none
    | .ok outputs =>
      if outputs.length = op.numberOfOutputs then some (outputStates outputs) else none
  local_transfer := by
    intro a ρ ρ' h
    cases hop : module.operationAt a with
    | none => rfl
    | some op =>
      obtain ⟨hmem, haddr⟩ := (module.operationAt_eq_some a op).mp hop
      have hinputs : op.inputs.map ρ = op.inputs.map ρ' :=
        List.map_congr_left fun v hv => h v ⟨op, hmem, haddr, hv⟩
      simp only [Option.bind_some, hinputs]

/-- The states and the worklist of the loop. -/
def IterationState.config (state : IterationState S) : Config Value Address S where
  states v := state.valueStates.lookup v
  worklist := state.worklist

omit [AbstractState S] in
theorem insertUses_eq_ok (module : Module) (v : Value) (worklist : Finset Address)
    (h : module.IsOperand v ∨ module.IsResult v) :
    ∃ worklist', insertUses (.ofModule module) v worklist = .ok worklist' ∧ ∀ p,
      p ∈ worklist' ↔ p ∈ worklist ∨ ∃ op ∈ module.operations, op.address = p ∧ v ∈ op.inputs := by
  obtain ⟨uses, huses, hmem⟩ := ModuleGraph.getUses_ofModule module h
  refine ⟨uses.foldl (fun worklist use => insert use.2 worklist) worklist, ?_, ?_⟩
  · simp only [insertUses, huses]
    rfl
  · intro p
    rw [AdjacencyList.foldl_collects
      (fun (worklist : Finset Address) (use : ℕ × Address) => insert use.2 worklist)
      (fun worklist => p ∈ worklist) (fun use => p = use.2)
      (fun worklist use => by rw [Finset.mem_insert]; exact or_comm)]
    refine or_congr_right ⟨?_, ?_⟩
    · rintro ⟨⟨i, a⟩, huse, hp⟩
      obtain ⟨op, hop, hin, haddr⟩ := (hmem i a).mp huse
      subst hp haddr
      exact ⟨op, hop, rfl, List.mem_of_getElem? hin⟩
    · rintro ⟨op, hop, rfl, hv⟩
      obtain ⟨i, hi, hiv⟩ := List.getElem_of_mem hv
      refine ⟨(i, op.address), (hmem i op.address).mpr ⟨op, hop, ?_, rfl⟩, rfl⟩
      rw [List.getElem?_eq_getElem hi, hiv]

theorem currentStates_eq (valueStates : ValueStateMap S) (v : Value) :
    currentStates valueStates v = (valueStates.lookup v).getD ⊥ := by
  unfold currentStates getCurrentState
  cases valueStates.lookup v <;> rfl

theorem getCurrentState_fst (state : IterationState S) (v : Value) :
    (getCurrentState state.valueStates v).1 = state.config.current v :=
  currentStates_eq state.valueStates v

theorem currentStates_eq_current (state : IterationState S) :
    currentStates state.valueStates = state.config.current :=
  funext (getCurrentState_fst state)

theorem getCurrentState_snd (state : IterationState S) (v : Value) :
    (getCurrentState state.valueStates v).2 = true ↔ state.config.states v = none := by
  simp only [getCurrentState, IterationState.config]
  cases state.valueStates.lookup v <;> simp

theorem pushOutput_eq_ok (module : Module) (outputs : List S) (state : IterationState S)
    (i : ℕ) (v : Value) (hv : module.IsResult v) (out : S) (hout : outputs[i]? = some out) :
    ∃ state', pushOutput (.ofModule module) outputs state (i, v) = .ok state' ∧
      (∀ u, state'.config.states u =
        if u = v then some (state.config.current v ⊔ out) else state.config.states u) ∧
      ∀ p, p ∈ state'.worklist ↔ p ∈ state.worklist ∨
        (state'.config.states v ≠ state.config.states v ∧
          ∃ op ∈ module.operations, op.address = p ∧ v ∈ op.inputs) := by
  have hcur := getCurrentState_fst state v
  have hfirst := getCurrentState_snd state v
  obtain ⟨⟨old, first⟩, hget⟩ : ∃ x, getCurrentState state.valueStates v = x := ⟨_, rfl⟩
  rw [hget] at hcur hfirst
  simp only at hcur hfirst
  subst hcur
  simp only [pushOutput, hout, hget, AbstractState.join_eq_sup]
  by_cases hchange : (first || !AbstractState.isEquivalentTo (state.config.current v ⊔ out)
      (state.config.current v)) = true
  · obtain ⟨worklist, hworklist, hmem⟩ :=
      insertUses_eq_ok module v state.worklist (Or.inr hv)
    refine ⟨⟨state.valueStates.insertOrAssign v (state.config.current v ⊔ out), worklist⟩,
      ?_, ?_, ?_⟩
    · simp only [hchange, if_true, hworklist]
      rfl
    · intro u
      exact FlatHashMap.lookup_insertOrAssign state.valueStates v u _
    · intro p
      have hne : some (state.config.current v ⊔ out) ≠ state.config.states v := by
        intro heq
        rcases Bool.or_eq_true_iff.mp hchange with hf | hne
        · rw [hfirst.mp hf] at heq
          cases heq
        · rw [Bool.not_eq_true', ← Bool.not_eq_true, AbstractState.isEquivalentTo_iff] at hne
          exact hne (Config.current_of_some heq.symm).symm
      rw [hmem p]
      refine or_congr_right ⟨fun h => ⟨?_, h⟩, And.right⟩
      have hlookup := FlatHashMap.lookup_insertOrAssign state.valueStates v v
        (state.config.current v ⊔ out)
      rw [if_pos rfl] at hlookup
      change (state.valueStates.insertOrAssign v _).lookup v ≠ _
      rwa [hlookup]
  · simp only [Bool.or_eq_true, Bool.not_eq_true', not_or, Bool.not_eq_false,
      AbstractState.isEquivalentTo_iff] at hchange
    obtain ⟨s, hs⟩ := Option.ne_none_iff_exists'.mp fun hnone => hchange.1 (hfirst.mpr hnone)
    have hstates : state.config.states v = some (state.config.current v ⊔ out) := by
      rw [hchange.2, Config.current_of_some hs, hs]
    refine ⟨state, ?_, ?_, ?_⟩
    · have hfalse : (first || !AbstractState.isEquivalentTo (state.config.current v ⊔ out)
          (state.config.current v)) = false := by
        simp only [Bool.or_eq_false_iff, Bool.not_eq_false', AbstractState.isEquivalentTo_iff]
        exact ⟨Bool.eq_false_iff.mpr hchange.1, hchange.2⟩
      simp only [hfalse, Bool.false_eq_true, if_false]
      rfl
    · intro u
      split
      · next h => rw [h, hstates]
      · rfl
    · intro p
      simp

/-- Pushing all outputs: each target is joined once, and the uses of changed targets are
added to the worklist. -/
theorem foldlM_pushOutput (module : Module) (op : Operation) (hop : op ∈ module.operations)
    (outputs : List S) (hlen : outputs.length = op.numberOfOutputs)
    (results : List (ℕ × Value)) (hnodup : (results.map Prod.snd).Nodup)
    (hresults : ∀ r ∈ results, r.1 < op.numberOfOutputs ∧ r.2 = op.getOutputValue r.1)
    (state : IterationState S) :
    ∃ state', results.foldlM (pushOutput (.ofModule module) outputs) state = .ok state' ∧
      (∀ r ∈ results, state'.config.states r.2 =
        some (state.config.current r.2 ⊔ outputs.getD r.1 ⊥)) ∧
      (∀ v, v ∉ results.map Prod.snd → state'.config.states v = state.config.states v) ∧
      ∀ p, p ∈ state'.worklist ↔ p ∈ state.worklist ∨ ∃ v,
        state'.config.states v ≠ state.config.states v ∧
        ∃ op ∈ module.operations, op.address = p ∧ v ∈ op.inputs := by
  induction results generalizing state with
  | nil => exact ⟨state, rfl, by simp, fun _ _ => rfl, by simp⟩
  | cons r results ih =>
    obtain ⟨hr, hrest⟩ := List.nodup_cons.mp hnodup
    obtain ⟨hi, hv⟩ := hresults r (List.mem_cons_self ..)
    have hout : outputs[r.1]? = some (outputs.getD r.1 ⊥) := by
      rw [List.getD_eq_getElem?_getD, List.getElem?_eq_getElem (hlen ▸ hi), Option.getD_some]
    have hresult : module.IsResult r.2 := ⟨op, hop, r.1, hi, hv⟩
    obtain ⟨mid, hmid, hmidStates, hmidWork⟩ :=
      pushOutput_eq_ok module outputs state r.1 r.2 hresult _ hout
    obtain ⟨state', hfold, hin, hframe, hwork⟩ :=
      ih hrest (fun q hq => hresults q (List.mem_cons_of_mem _ hq)) mid
    have hkept : state'.config.states r.2 = mid.config.states r.2 := hframe r.2 hr
    have hcurrent : ∀ v, v ≠ r.2 → mid.config.states v = state.config.states v := by
      intro v hne
      rw [hmidStates v, if_neg hne]
    refine ⟨state', ?_, ?_, ?_, ?_⟩
    · simp only [List.foldlM_cons, hmid]
      exact hfold
    · intro q hq
      rcases List.mem_cons.mp hq with rfl | hmem
      · rw [hkept, hmidStates q.2, if_pos rfl]
      · have hne : q.2 ≠ r.2 := fun heq => hr (heq ▸ List.mem_map_of_mem hmem)
        rw [hin q hmem, Config.current_congr (hcurrent q.2 hne)]
    · intro v hv'
      rw [List.map_cons, List.mem_cons, not_or] at hv'
      rw [hframe v hv'.2, hcurrent v hv'.1]
    · intro p
      rw [hwork p, hmidWork p, or_assoc]
      refine or_congr_right ⟨?_, ?_⟩
      · rintro (⟨hne, huse⟩ | ⟨v, hne, huse⟩)
        · exact ⟨r.2, hkept ▸ hne, huse⟩
        · refine ⟨v, ?_, huse⟩
          by_cases heq : v = r.2
          · exact absurd (heq ▸ hkept) hne
          · rwa [← hcurrent v heq]
      · rintro ⟨v, hne, huse⟩
        by_cases heq : v = r.2
        · subst heq
          exact Or.inl ⟨hkept ▸ hne, huse⟩
        · refine Or.inr ⟨v, ?_, huse⟩
          rwa [hcurrent v heq]

theorem moduleSystem_transfer (semantics : AbstractSemantics S) (module : Module)
    {op : Operation} (hop : op ∈ module.operations) (ρ : Value → S) (y : Value → S) :
    (moduleSystem semantics module).transfer op.address ρ = some y ↔ ∃ outputs,
      semantics.applyOperationTransformer op (op.inputs.map ρ) = .ok outputs ∧
      outputs.length = op.numberOfOutputs ∧ y = outputStates outputs := by
  simp only [moduleSystem, module.operationAt_address hop, Option.bind_some]
  cases semantics.applyOperationTransformer op (op.inputs.map ρ) with
  | error message => simp
  | ok outputs =>
    by_cases hlen : outputs.length = op.numberOfOutputs
    · simp [hlen, eq_comm]
    · simp [hlen]

theorem visitOperation_visit (semantics : AbstractSemantics S) (module : Module)
    {op : Operation} (hop : op ∈ module.operations) (resultOrder : ResultOrder)
    {state state' : IterationState S} (hmem : op.address ∈ state.worklist)
    (h : visitOperation semantics module op resultOrder state = .ok state') :
    ∃ y, Visit (moduleSystem semantics module) state.config op.address y state'.config := by
  have hinputs : (op.inputs.map fun v => (getCurrentState state.valueStates v).1) =
      op.inputs.map state.config.current :=
    List.map_congr_left fun v _ => getCurrentState_fst state v
  simp only [visitOperation, hinputs, Checked.bind_eq_ok, check_eq_ok, exists_const] at h
  obtain ⟨outputs, happly, hlen, results, hget, hfold⟩ := h
  obtain ⟨results', hget', hnodup, hresults⟩ := ModuleGraph.getResults_ofModule module hop
  rw [hget] at hget'
  cases hget'
  have hperm := resultOrder.perm results
  have hmemPerm : ∀ r, r ∈ resultOrder.order results ↔ r ∈ results := fun r => hperm.mem_iff
  have hy := (moduleSystem_transfer semantics module hop _ _).mpr ⟨outputs, happly, hlen, rfl⟩
  obtain ⟨state₁, hfold₁, hin, hframe, hwork⟩ := foldlM_pushOutput module op hop outputs hlen
    (resultOrder.order results) ((hperm.map Prod.snd).nodup_iff.mpr hnodup)
    (fun r hr => (hresults r.1 r.2).mp ((hmemPerm r).mp hr))
    { state with worklist := state.worklist.erase op.address }
  rw [hfold₁] at hfold
  cases hfold
  refine ⟨outputStates outputs, hmem, hy, ?_, ?_, ?_⟩
  · rintro v ⟨op', hop', haddr, i, hi, rfl⟩
    have heq := module.address_injective hop' hop haddr
    subst heq
    exact hin (i, op'.getOutputValue i) ((hmemPerm _).mpr ((hresults _ _).mpr ⟨hi, rfl⟩))
  · intro v hv
    refine hframe v ?_
    intro hmap
    obtain ⟨r, hr, rfl⟩ := List.mem_map.mp hmap
    have hri := (hresults r.1 r.2).mp ((hmemPerm r).mp hr)
    exact hv ⟨op, hop, rfl, r.1, hri.1, hri.2⟩
  · intro p
    change p ∈ state'.worklist ↔ _
    rw [hwork p]
    change p ∈ state.worklist.erase op.address ∨ _ ↔ _
    rw [Finset.mem_erase, and_comm]
    refine or_congr_right ⟨?_, ?_⟩
    · rintro ⟨v, hne, huse⟩
      exact ⟨v, huse, hne⟩
    · rintro ⟨v, huse, hne⟩
      exact ⟨v, hne, huse⟩

/-! ### The initial states -/

/-- The states of the values that no operation computes. -/
def entryStates (semantics : AbstractSemantics S) (module : Module) (v : Value) : Option S :=
  if module.IsOperand v ∧ v.isOperationResult = false then some (semantics.getInitialState v)
  else none

/-- What the initialization of further nodes makes of a state. -/
structure Initializes (semantics : AbstractSemantics S) (module : Module) (nodes : List Node)
    (state init : IterationState S) : Prop where
  valueStates : ∀ v, init.valueStates.lookup v =
    if Node.value v ∈ nodes ∧ v.isOperationResult = false then
      some (semantics.getInitialState v) else state.valueStates.lookup v
  worklist : ∀ p, p ∈ init.worklist ↔ p ∈ state.worklist ∨
    (Node.operation p ∈ nodes ∧ ∃ op ∈ module.operations, op.address = p ∧ op.inputs = []) ∨
    ∃ v, Node.value v ∈ nodes ∧ v.isOperationResult = false ∧
      ∃ op ∈ module.operations, op.address = p ∧ v ∈ op.inputs

section

omit [AbstractState S]

variable {semantics : AbstractSemantics S} {module : Module} {state mid init : IterationState S}

theorem Initializes.nil : Initializes semantics module [] state state where
  valueStates v := by simp
  worklist p := by simp

theorem Initializes.cons {n : Node} {nodes : List Node}
    (h : Initializes semantics module [n] state mid)
    (h' : Initializes semantics module nodes mid init) :
    Initializes semantics module (n :: nodes) state init where
  valueStates v := by
    rw [h'.valueStates v, h.valueStates v]
    by_cases hin : Node.value v ∈ nodes ∧ v.isOperationResult = false
    · rw [if_pos hin, if_pos ⟨List.mem_cons_of_mem _ hin.1, hin.2⟩]
    · rw [if_neg hin]
      by_cases heq : Node.value v ∈ [n] ∧ v.isOperationResult = false
      · rw [if_pos heq, if_pos ⟨List.mem_singleton.mp heq.1 ▸ List.mem_cons_self .., heq.2⟩]
      · rw [if_neg heq, if_neg]
        rintro ⟨hmem, hres⟩
        rcases List.mem_cons.mp hmem with heq' | hmem'
        · exact heq ⟨List.mem_singleton.mpr heq', hres⟩
        · exact hin ⟨hmem', hres⟩
  worklist p := by
    rw [h'.worklist p, h.worklist p]
    simp only [List.mem_cons, List.not_mem_nil, or_false, or_and_right, exists_or]
    rw [or_assoc, or_or_or_comm]

variable (semantics state)

theorem initializeNode_value {v : Value}
    (hnode : .value v ∈ (ModuleGraph.ofModule module).adjacencyList)
    (hfresh : v.isOperationResult = false → v ∉ state.valueStates) :
    ∃ init, initializeNode semantics module (.ofModule module) state (.value v) = .ok init ∧
      Initializes semantics module [.value v] state init := by
  by_cases hres : v.isOperationResult = true
  · refine ⟨state, ?_, ?_, ?_⟩
    · simp only [initializeNode, hres, if_true]
      rfl
    · intro u
      rw [if_neg]
      rintro ⟨hmem, hu⟩
      cases List.mem_singleton.mp hmem
      rw [hres] at hu
      cases hu
    · intro p
      simp [hres]
  · have hres' : v.isOperationResult = false := Bool.eq_false_iff.mpr hres
    obtain ⟨worklist, hworklist, hmem⟩ := insertUses_eq_ok module v state.worklist
      ((ModuleGraph.value_mem module v).mp hnode)
    refine ⟨⟨state.valueStates.insertOrAssign v (semantics.getInitialState v), worklist⟩,
      ?_, ?_, ?_⟩
    · simp only [initializeNode, hres', Bool.false_eq_true, if_false,
        FlatHashMap.tryInsert_of_notMem _ _ _ (hfresh hres'), hworklist]
      rfl
    · intro u
      simp only [FlatHashMap.lookup_insertOrAssign, List.mem_singleton, Node.value.injEq]
      by_cases huv : u = v
      · subst huv
        simp [hres']
      · simp [huv]
    · intro p
      simp only [hmem p, List.mem_singleton, reduceCtorEq, false_and, Node.value.injEq, false_or,
        exists_eq_left, hres', true_and]

theorem initializeNode_operation {op : Operation} (hop : op ∈ module.operations) :
    ∃ init, initializeNode semantics module (.ofModule module) state (.operation op.address) =
        .ok init ∧ Initializes semantics module [.operation op.address] state init := by
  have hat := module.operationAt_address hop
  by_cases hinputs : op.inputs = []
  · refine ⟨{ state with worklist := insert op.address state.worklist }, ?_, ?_, ?_⟩
    · simp only [initializeNode, hat, hinputs, if_true]
      rfl
    · intro v
      simp
    · intro p
      simp only [Finset.mem_insert, List.mem_singleton, Node.operation.injEq, reduceCtorEq,
        false_and, exists_false, or_false]
      constructor
      · rintro (rfl | hp)
        · exact Or.inr ⟨rfl, op, hop, rfl, hinputs⟩
        · exact Or.inl hp
      · rintro (hp | ⟨rfl, -⟩)
        · exact Or.inr hp
        · exact Or.inl rfl
  · refine ⟨state, ?_, ?_, ?_⟩
    · simp only [initializeNode, hat, hinputs, if_false]
      rfl
    · intro v
      simp
    · intro p
      simp only [List.mem_singleton, Node.operation.injEq, reduceCtorEq, false_and, exists_false,
        or_false]
      constructor
      · exact Or.inl
      · rintro (hp | ⟨rfl, op', hop', haddr, hnil⟩)
        · exact hp
        · rw [module.address_injective hop' hop haddr] at hnil
          exact absurd hnil hinputs

theorem initializeNode_eq_ok {node : Node}
    (hnode : node ∈ (ModuleGraph.ofModule module).adjacencyList)
    (hfresh : ∀ v, node = .value v → v.isOperationResult = false → v ∉ state.valueStates) :
    ∃ init, initializeNode semantics module (.ofModule module) state node = .ok init ∧
      Initializes semantics module [node] state init := by
  cases node with
  | value v => exact initializeNode_value semantics state hnode (hfresh v rfl)
  | operation address =>
    obtain ⟨op, hop, rfl⟩ := (ModuleGraph.operation_mem module address).mp hnode
    exact initializeNode_operation semantics state hop

theorem foldlM_initializeNode {nodes : List Node} (hnodup : nodes.Nodup)
    (hgraph : ∀ n ∈ nodes, n ∈ (ModuleGraph.ofModule module).adjacencyList)
    (hfresh : ∀ v, Node.value v ∈ nodes → v.isOperationResult = false → v ∉ state.valueStates) :
    ∃ init, nodes.foldlM (initializeNode semantics module (.ofModule module)) state = .ok init ∧
      Initializes semantics module nodes state init := by
  induction nodes generalizing state with
  | nil => exact ⟨state, rfl, .nil⟩
  | cons n nodes ih =>
    obtain ⟨hn, hnodes⟩ := List.nodup_cons.mp hnodup
    obtain ⟨mid, hmid, hfirst⟩ := initializeNode_eq_ok semantics state
      (hgraph n (List.mem_cons_self ..)) fun v hv => hfresh v (hv ▸ List.mem_cons_self ..)
    obtain ⟨init, hinit, hrest⟩ := ih mid hnodes (fun m hm => hgraph m (List.mem_cons_of_mem _ hm))
      (by
        intro v hv hres
        have hne : Node.value v ∉ [n] := fun hmem => hn (List.mem_singleton.mp hmem ▸ hv)
        rw [← FlatHashMap.lookup_eq_none_iff, hfirst.valueStates v, if_neg (fun h => hne h.1),
          FlatHashMap.lookup_eq_none_iff]
        exact hfresh v (List.mem_cons_of_mem _ hv) hres)
    refine ⟨init, ?_, hfirst.cons hrest⟩
    simp only [List.foldlM_cons, hmid]
    exact hinit

end

omit [AbstractState S] in
theorem initializeStates_eq_ok (semantics : AbstractSemantics S) (module : Module)
    (nodes : List Node) (hperm : nodes.Perm (ModuleGraph.ofModule module).getNodes) :
    ∃ init, initializeStates semantics module nodes = .ok init ∧
      (∀ v, init.valueStates.lookup v = entryStates semantics module v) ∧
      ∀ p, p ∈ init.worklist ↔
        (∃ op ∈ module.operations, op.address = p ∧ op.inputs = []) ∨
        ∃ v, entryStates semantics module v ≠ none ∧
          ∃ op ∈ module.operations, op.address = p ∧ v ∈ op.inputs := by
  have hnodup : nodes.Nodup :=
    hperm.nodup_iff.mpr (AList.keys_nodup (ModuleGraph.ofModule module).adjacencyList)
  have hmem : ∀ n, n ∈ nodes ↔ n ∈ (ModuleGraph.ofModule module).adjacencyList :=
    fun n => hperm.mem_iff
  obtain ⟨init, hinit, hstates, hwork⟩ :=
    foldlM_initializeNode semantics ⟨∅, ∅⟩ hnodup (fun n hn => (hmem n).mp hn)
      (fun v _ _ => by simp)
  have hentry : ∀ v, (Node.value v ∈ nodes ∧ v.isOperationResult = false) ↔
      (module.IsOperand v ∧ v.isOperationResult = false) := by
    intro v
    rw [hmem, ModuleGraph.value_mem]
    refine and_congr_left fun hres => ⟨?_, Or.inl⟩
    rintro (hv | ⟨op, -, i, -, rfl⟩)
    · exact hv
    · cases hres
  refine ⟨init, hinit, ?_, ?_⟩
  · intro v
    rw [hstates v]
    unfold entryStates
    by_cases h : module.IsOperand v ∧ v.isOperationResult = false
    · rw [if_pos h, if_pos ((hentry v).mpr h)]
    · rw [if_neg h, if_neg (fun h' => h ((hentry v).mp h'))]
      exact AList.lookup_empty v
  · intro p
    have hnone : ∀ v, entryStates semantics module v ≠ none ↔
        (Node.value v ∈ nodes ∧ v.isOperationResult = false) := by
      intro v
      rw [hentry v]
      unfold entryStates
      split <;> simp [*]
    rw [hwork p]
    simp only [Finset.notMem_empty, false_or, hnone, and_assoc]
    refine or_congr_left ⟨And.right, ?_⟩
    rintro ⟨op, hop, rfl, hnil⟩
    exact ⟨(hmem _).mpr ((ModuleGraph.operation_mem module _).mpr ⟨op, hop, rfl⟩),
      op, hop, rfl, hnil⟩

end Raksha.Analysis
