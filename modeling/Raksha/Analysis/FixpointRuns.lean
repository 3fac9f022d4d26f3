import Raksha.Analysis.ModuleFixpointIterator

/-!
# Runs of the fixpoint iterator

What the results on chaotic iteration say about `ComputeFixpoint` on a module: the returned map
is a post-fixpoint on the reached values, closed families of states are invariant, checks fail
only in the transformer, and states of falling rank make every run finite.
-/

namespace Raksha.Analysis
open Raksha.Common Raksha.Ir ChaoticIteration

variable {S : Type} [AbstractState S]

/-! ### Runs -/

section Runs

variable {semantics : AbstractSemantics S} {module : Module} {guard : Guard S}

/-- The guard as a condition on addresses. -/
def addressGuard (guard : Guard S) (module : Module) (a : Address) (ρ : Value → S) : Prop :=
  ∀ op ∈ module.operations, op.address = a → guard op ρ

theorem StepUnder.visit {state state' : IterationState S}
    (h : StepUnder guard semantics module state state') :
    ∃ a y, addressGuard guard module a state.config.current ∧
      Visit (moduleSystem semantics module) state.config a y state'.config := by
  obtain ⟨op, hguard, hop, hmem, resultOrder, hvisit⟩ := h
  obtain ⟨y, hy⟩ := visitOperation_visit semantics module hop resultOrder hmem hvisit
  refine ⟨op.address, y, ?_, hy⟩
  intro op' hop' haddr
  rw [module.address_injective hop' hop haddr, ← currentStates_eq_current]
  exact hguard

theorem ReachableUnder.run {state : IterationState S}
    (h : ReachableUnder guard semantics module state) :
    ∃ c₀, Initial (moduleSystem semantics module) (entryStates semantics module) c₀ ∧
      Run (moduleSystem semantics module) (addressGuard guard module) c₀ state.config := by
  obtain ⟨nodes, init, hperm, hinit, hsteps⟩ := h
  obtain ⟨init', hinit', hstates, hwork⟩ := initializeStates_eq_ok semantics module nodes hperm
  rw [hinit] at hinit'
  cases hinit'
  refine ⟨init.config, ⟨funext hstates, ?_⟩, ?_⟩
  · intro p
    refine (hwork p).trans (or_congr_right ⟨?_, ?_⟩)
    · rintro ⟨v, hne, op, hop, haddr, hv⟩
      exact ⟨v, ⟨op, hop, haddr, hv⟩, hne⟩
    · rintro ⟨v, ⟨op, hop, haddr, hv⟩, hne⟩
      exact ⟨v, hne, op, hop, haddr, hv⟩
  · induction hsteps with
    | refl => exact Run.refl
    | tail _ hstep ih =>
      obtain ⟨a, y, hguard, hvisit⟩ := hstep.visit
      exact Run.visit ih hguard hvisit

theorem ReachableUnder.reachable {state : IterationState S}
    (h : ReachableUnder guard semantics module state) : Reachable semantics module state := by
  obtain ⟨nodes, init, hperm, hinit, hsteps⟩ := h
  refine ⟨nodes, init, hperm, hinit, Relation.ReflTransGen.mono ?_ _ _ hsteps⟩
  rintro s s' ⟨op, -, hiter⟩
  exact ⟨op, trivial, hiter⟩

theorem ComputeFixpointUnder.computeFixpoint {valueStates : ValueStateMap S}
    (h : ComputeFixpointUnder guard semantics module valueStates) :
    ComputeFixpoint semantics module valueStates := by
  obtain ⟨state, hreach, hempty, hstates⟩ := h
  exact ⟨state, hreach.reachable, hempty, hstates⟩

theorem Reachable.worklist_owned {state : IterationState S}
    (h : Reachable semantics module state) {p : Address} (hp : p ∈ state.worklist) :
    ∃ op ∈ module.operations, op.address = p := by
  obtain ⟨c₀, hinit, hrun⟩ := h.run
  rcases (hrun.domainInvariant hinit).worklist p hp with ⟨op, hop, haddr, -⟩ | ⟨v, ⟨op, hop, haddr, -⟩, -⟩
  · exact ⟨op, hop, haddr⟩
  · exact ⟨op, hop, haddr⟩

theorem ComputeFixpoint.settled {valueStates : ValueStateMap S}
    (h : ComputeFixpoint semantics module valueStates) {op : Operation}
    (hop : op ∈ module.operations)
    (hdue : op.inputs = [] ∨ ∃ v ∈ op.inputs, valueStates.lookup v ≠ none) :
    ∃ outputs, semantics.applyOperationTransformer op
        (op.inputs.map (currentStates valueStates)) = .ok outputs ∧
      outputs.length = op.numberOfOutputs ∧
      ∀ i < op.numberOfOutputs, valueStates.lookup (op.getOutputValue i) ≠ none ∧
        outputs.getD i ⊥ ≤ currentStates valueStates (op.getOutputValue i) := by
  obtain ⟨state, hreach, hempty, rfl⟩ := h
  obtain ⟨c₀, hinit, hrun⟩ := hreach.run
  have hdue' : Due (moduleSystem semantics module) state.config op.address := by
    rcases hdue with hnil | ⟨v, hv, hne⟩
    · exact Or.inl ⟨op, hop, rfl, hnil⟩
    · exact Or.inr ⟨v, ⟨op, hop, rfl, hv⟩, hne⟩
  obtain ⟨y, hy, hle⟩ := hrun.settled hinit hempty hdue'
  obtain ⟨outputs, happly, hlen, rfl⟩ := (moduleSystem_transfer semantics module hop _ y).mp hy
  rw [currentStates_eq_current]
  exact ⟨outputs, happly, hlen, fun i hi => hle _ ⟨op, hop, rfl, i, hi, rfl⟩⟩

/-- Values that no operation of the module computes keep their initial state. -/
theorem ComputeFixpoint.entry {valueStates : ValueStateMap S}
    (h : ComputeFixpoint semantics module valueStates) {v : Value}
    (hv : ¬ module.IsResult v) : valueStates.lookup v = entryStates semantics module v := by
  obtain ⟨state, hreach, hempty, rfl⟩ := h
  obtain ⟨c₀, hinit, hrun⟩ := hreach.run
  refine hrun.entry_frame hinit ?_
  rintro a ⟨op, hop, -, i, hi, rfl⟩
  exact hv ⟨op, hop, i, hi, rfl⟩

end Runs

/-- The values that the iteration reaches: operands that no operation computes, and the results
of operations without inputs or with a reached input. -/
inductive Reached (module : Module) : Value → Prop
  | operand {v : Value} : module.IsOperand v → v.isOperationResult = false → Reached module v
  | source {op : Operation} {i : ℕ} : op ∈ module.operations → op.inputs = [] →
      i < op.numberOfOutputs → Reached module (op.getOutputValue i)
  | result {op : Operation} {u : Value} {i : ℕ} : op ∈ module.operations → u ∈ op.inputs →
      Reached module u → i < op.numberOfOutputs → Reached module (op.getOutputValue i)

theorem reached_iff (semantics : AbstractSemantics S) (module : Module) (v : Value) :
    ChaoticIteration.Reached (moduleSystem semantics module)
      {v | entryStates semantics module v ≠ none} v ↔ Reached module v := by
  have hentry : ∀ v, entryStates semantics module v ≠ none ↔
      module.IsOperand v ∧ v.isOperationResult = false := by
    intro v
    unfold entryStates
    split <;> simp [*]
  constructor
  · intro h
    induction h with
    | entry hv => exact Reached.operand ((hentry _).mp hv).1 ((hentry _).mp hv).2
    | source hsrc hv =>
      obtain ⟨op, hop, haddr, hnil⟩ := hsrc
      obtain ⟨op', hop', haddr', i, hi, rfl⟩ := hv
      have heq := module.address_injective hop' hop (haddr'.trans haddr.symm)
      subst heq
      exact Reached.source hop hnil hi
    | result hu _ hv ih =>
      obtain ⟨op, hop, haddr, hin⟩ := hu
      obtain ⟨op', hop', haddr', i, hi, rfl⟩ := hv
      have heq := module.address_injective hop' hop (haddr'.trans haddr.symm)
      subst heq
      exact Reached.result hop hin ih hi
  · intro h
    induction h with
    | operand hop hres => exact .entry ((hentry _).mpr ⟨hop, hres⟩)
    | source hop hnil hi => exact .source ⟨_, hop, rfl, hnil⟩ ⟨_, hop, rfl, _, hi, rfl⟩
    | result hop hu _ hi ih => exact .result ⟨_, hop, rfl, hu⟩ ih ⟨_, hop, rfl, _, hi, rfl⟩

/-- The values with an entry at the end are exactly the reached ones. -/
theorem ComputeFixpoint.lookup_ne_none_iff {semantics : AbstractSemantics S} {module : Module}
    {valueStates : ValueStateMap S} (h : ComputeFixpoint semantics module valueStates)
    (v : Value) : valueStates.lookup v ≠ none ↔ Reached module v := by
  obtain ⟨state, hreach, hempty, rfl⟩ := h
  obtain ⟨c₀, hinit, hrun⟩ := hreach.run
  rw [← reached_iff semantics module v]
  exact hrun.states_ne_none_iff hinit hempty v

/-- A family of states that the guarded runs of a module stay in. -/
theorem ReachableUnder.closed {semantics : AbstractSemantics S} {module : Module}
    {guard : Guard S} {I : Value → S → Prop} (hbot : ∀ v, I v ⊥)
    (hsup : ∀ v a b, I v a → I v b → I v (a ⊔ b))
    (hinitial : ∀ v, module.IsOperand v → v.isOperationResult = false →
      I v (semantics.getInitialState v))
    (hstep : ∀ op ∈ module.operations, ∀ ρ outputs, guard op ρ → (∀ v ∈ op.inputs, I v (ρ v)) →
      semantics.applyOperationTransformer op (op.inputs.map ρ) = .ok outputs →
      ∀ i < op.numberOfOutputs, I (op.getOutputValue i) (outputs.getD i ⊥))
    {state : IterationState S} (h : ReachableUnder guard semantics module state) (v : Value) :
    I v (currentStates state.valueStates v) := by
  obtain ⟨c₀, hinit, hrun⟩ := h.run
  rw [currentStates_eq_current]
  refine hrun.closed (I := I) ⟨hbot, hsup, ?_⟩ hinit ?_ v
  · rintro a ρ y hguard hin hy u ⟨op, hop, rfl, i, hi, rfl⟩
    obtain ⟨outputs, happly, -, rfl⟩ := (moduleSystem_transfer semantics module hop ρ y).mp hy
    exact hstep op hop ρ outputs (hguard op hop rfl)
      (fun v hv => hin v ⟨op, hop, rfl, hv⟩) happly i hi
  · intro u s hs
    unfold entryStates at hs
    split at hs
    · next hentry =>
      cases hs
      exact hinitial u hentry.1 hentry.2
    · cases hs

/-! ### Aborts -/

/-- A loop body aborts only when the transformer does or returns too few outputs. -/
theorem visitOperation_total (semantics : AbstractSemantics S) (module : Module)
    {op : Operation} (hop : op ∈ module.operations) (resultOrder : ResultOrder)
    (state : IterationState S)
    (htotal : ∃ outputs, semantics.applyOperationTransformer op
      (op.inputs.map (currentStates state.valueStates)) = .ok outputs ∧
      outputs.length = op.numberOfOutputs) :
    ∃ state', visitOperation semantics module op resultOrder state = .ok state' := by
  obtain ⟨outputs, happly, hlen⟩ := htotal
  obtain ⟨results, hget, hnodup, hresults⟩ := ModuleGraph.getResults_ofModule module hop
  have hperm := resultOrder.perm results
  obtain ⟨state', hfold, -, -, -⟩ := foldlM_pushOutput module op hop outputs hlen
    (resultOrder.order results) ((hperm.map Prod.snd).nodup_iff.mpr hnodup)
    (fun r hr => (hresults r.1 r.2).mp (hperm.mem_iff.mp hr))
    { state with worklist := state.worklist.erase op.address }
  refine ⟨state', ?_⟩
  change (semantics.applyOperationTransformer op _ >>= _) = _
  change semantics.applyOperationTransformer op
    (op.inputs.map fun v => (getCurrentState state.valueStates v).1) = _ at happly
  simp only [happly, Checked.bind_eq_ok, check_eq_ok, exists_const, hlen, hget, true_and,
    Except.ok.injEq, exists_eq_left']
  exact hfold

theorem not_computeFixpointAborts (semantics : AbstractSemantics S) (module : Module)
    (htotal : ∀ op ∈ module.operations, ∀ inputs : List S, inputs.length = op.inputs.length →
      ∃ outputs, semantics.applyOperationTransformer op inputs = .ok outputs ∧
        outputs.length = op.numberOfOutputs) :
    ¬ ComputeFixpointAborts semantics module := by
  rintro (⟨nodes, message, hperm, herror⟩ | ⟨state, op, message, -, hop, -, resultOrder, hvisit⟩)
  · obtain ⟨init, hinit, -⟩ := initializeStates_eq_ok semantics module nodes hperm
    rw [herror] at hinit
    cases hinit
  · obtain ⟨state', hok⟩ := visitOperation_total semantics module hop resultOrder state
      (htotal op hop _ (List.length_map _))
    rw [hvisit] at hok
    cases hok

/-! ### Termination -/

def resultValues (module : Module) : Finset Value :=
  (module.operations.flatMap fun op =>
    (List.range op.numberOfOutputs).map op.getOutputValue).toFinset

theorem mem_resultValues (module : Module) (v : Value) :
    v ∈ resultValues module ↔ module.IsResult v := by
  simp only [resultValues, List.mem_toFinset, List.mem_flatMap, List.mem_map, List.mem_range,
    Module.IsResult, eq_comm (a := v)]

theorem Reachable.progress {semantics : AbstractSemantics S} {module : Module}
    {state : IterationState S} (h : Reachable semantics module state)
    (hne : state.worklist ≠ ∅) :
    (∃ state', StepUnder (fun _ _ => True) semantics module state state') ∨
      ∃ op message, Iteration semantics module op state (.error message) := by
  obtain ⟨p, hp⟩ := Finset.nonempty_iff_ne_empty.mpr hne
  obtain ⟨op, hop, rfl⟩ := h.worklist_owned hp
  let resultOrder : ResultOrder := ⟨id, fun _ => List.Perm.refl _⟩
  cases hvisit : visitOperation semantics module op resultOrder state with
  | error message => exact Or.inr ⟨op, message, hop, hp, resultOrder, hvisit⟩
  | ok state' => exact Or.inl ⟨state', op, trivial, hop, hp, resultOrder, hvisit⟩

theorem Reachable.step {semantics : AbstractSemantics S} {module : Module}
    {state state' : IterationState S} (h : Reachable semantics module state)
    (hstep : StepUnder (fun _ _ => True) semantics module state state') :
    Reachable semantics module state' := by
  obtain ⟨nodes, init, hperm, hinit, hsteps⟩ := h
  exact ⟨nodes, init, hperm, hinit, hsteps.tail hstep⟩

section Rank

variable {semantics : AbstractSemantics S} {module : Module} {I : Value → S → Prop} {rank : S → ℕ}

/-- With states of falling rank, the iterations from reachable states are well-founded: a visit
lets the potential of the results fall, or leaves it and takes an operation off the worklist. -/
theorem step_wellFounded (hbot : ∀ v, I v ⊥)
    (hreach : ∀ state, Reachable semantics module state →
      ∀ v, I v (currentStates state.valueStates v)) (hrank : RankFalls rank I) :
    WellFounded fun state' state => Reachable semantics module state ∧
      StepUnder (fun _ _ => True) semantics module state state' := by
  have hvalues : ∀ a, ∀ v ∈ (moduleSystem semantics module).results a,
      v ∈ resultValues module := by
    rintro a v ⟨op, hop, -, i, hi, rfl⟩
    exact (mem_resultValues module _).mpr ⟨op, hop, i, hi, rfl⟩
  refine Subrelation.wf ?_ (InvImage.wf (IterationState.config (S := S))
    (visit_wellFounded hrank hvalues hbot))
  rintro state' state ⟨hstate, hstep⟩
  obtain ⟨a, y, -, hvisit⟩ := hstep.visit
  refine ⟨?_, ?_, a, y, hvisit⟩
  · rw [← currentStates_eq_current]
    exact hreach state hstate
  · rw [← currentStates_eq_current]
    exact hreach state' (hstate.step hstep)

/-- With states of falling rank, `ComputeFixpoint` returns a map or aborts. -/
theorem computeFixpoint_or_aborts (hbot : ∀ v, I v ⊥)
    (hreach : ∀ state, Reachable semantics module state →
      ∀ v, I v (currentStates state.valueStates v)) (hrank : RankFalls rank I) :
    (∃ valueStates, ComputeFixpoint semantics module valueStates) ∨
      ComputeFixpointAborts semantics module := by
  have hend : ∀ state, Reachable semantics module state →
      (∃ valueStates, ComputeFixpoint semantics module valueStates) ∨
        ComputeFixpointAborts semantics module := by
    intro state
    induction state using (step_wellFounded hbot hreach hrank).induction with
    | h state ih =>
      intro hstate
      by_cases hempty : state.worklist = ∅
      · exact Or.inl ⟨state.valueStates, state, hstate, hempty, rfl⟩
      · rcases hstate.progress hempty with ⟨state', hstep⟩ | ⟨op, message, habort⟩
        · exact ih state' ⟨hstate, hstep⟩ (hstate.step hstep)
        · exact Or.inr (Or.inr ⟨state, op, message, hstate, habort⟩)
  obtain ⟨init, hinit, -, -⟩ := initializeStates_eq_ok semantics module
    (ModuleGraph.ofModule module).getNodes (List.Perm.refl _)
  exact hend init ⟨_, init, List.Perm.refl _, hinit, Relation.ReflTransGen.refl⟩

end Rank

/-! ### Scheduled runs

A run along a given schedule of operations, for evaluation. -/

def inOrder : ResultOrder := ⟨id, fun _ => List.Perm.refl _⟩

def visitAddress (semantics : AbstractSemantics S) (module : Module) (state : IterationState S)
    (address : Address) : Checked (IterationState S) :=
  match module.operationAt address with
  | none => .error "the scheduled operation does not exist"
  | some operation => do
    check (address ∈ state.worklist) "the scheduled operation is not pending"
    visitOperation semantics module operation inOrder state

/-- The map that `ComputeFixpoint` returns when it follows the schedule. -/
def runSchedule (semantics : AbstractSemantics S) (module : Module) (schedule : List Address) :
    Checked (ValueStateMap S) := do
  let init ← initializeStates semantics module (ModuleGraph.ofModule module).getNodes
  let state ← schedule.foldlM (visitAddress semantics module) init
  check (state.worklist = ∅) "operations are still pending"
  return state.valueStates

theorem visitAddress_step {semantics : AbstractSemantics S} {module : Module}
    {state state' : IterationState S} {address : Address}
    (h : visitAddress semantics module state address = .ok state') :
    StepUnder (fun _ _ => True) semantics module state state' := by
  unfold visitAddress at h
  cases hat : module.operationAt address with
  | none =>
    rw [hat] at h
    cases h
  | some op =>
    obtain ⟨hop, rfl⟩ := (module.operationAt_eq_some _ _).mp hat
    rw [hat] at h
    simp only [Checked.bind_eq_ok, check_eq_ok, exists_const] at h
    exact ⟨op, trivial, hop, h.1, inOrder, h.2⟩

theorem runSchedule_returns {semantics : AbstractSemantics S} {module : Module}
    {schedule : List Address} {valueStates : ValueStateMap S}
    (h : runSchedule semantics module schedule = .ok valueStates) :
    ComputeFixpoint semantics module valueStates := by
  simp only [runSchedule, Checked.bind_eq_ok, check_eq_ok, exists_const, Checked.pure_eq_ok] at h
  obtain ⟨init, hinit, state, hfold, hempty, hstates⟩ := h
  have hsteps := Checked.foldlM_step
    (Relation.ReflTransGen (StepUnder (fun _ _ => True) semantics module))
    (fun _ => Relation.ReflTransGen.refl) (fun _ _ _ => Relation.ReflTransGen.trans)
    (visitAddress semantics module) schedule
    (fun _ _ _ _ hstep => Relation.ReflTransGen.single (visitAddress_step hstep)) hfold
  exact ⟨state, ⟨_, init, List.Perm.refl _, hinit, hsteps.1⟩, hempty, hstates⟩

end Raksha.Analysis
