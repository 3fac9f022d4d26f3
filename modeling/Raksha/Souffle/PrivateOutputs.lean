import Mathlib
import Raksha.Lib.PrivateRuns
import Raksha.Souffle.SensitivitySoundness

/-!
# Private outputs

The purpose of `epsilon_analysis.dl`: where no violation is reported, the outputs are
differentially private with the global epsilon in every initial input. The operations run one
after the other on an environment; an operation with an epsilon samples its results.
-/

namespace Raksha.Souffle
open Datalog PrivateRuns

namespace Evaluation

/-- A SQL program in single assignment form, with parameters that make sense. -/
structure PrivateProgram (e : Evaluation) : Prop where
  epsilonAnalysis : .epsilonAnalysis ∈ e.program
  sqlOnly : ∀ op ∈ e.facts.isOperation, op.operandList ≠ [] →
    IsSqlOperation e.facts.isOperation op ∨ IsDiffPrivacyMechanism e.facts.isOperation op
  singleAssignment : ∀ op ∈ e.facts.isOperation, ∀ other ∈ e.facts.isOperation,
    ∀ x ∈ op.resultList, x ∈ other.resultList → op = other
  anyUnassigned : ∀ op ∈ e.facts.isOperation, anyValue ∉ op.resultList
  kappaPositive : KappaPositive e.facts
  epsilonNonneg : ∀ op epsilon, e.DiffPrivacyMechanismHasEpsilon op epsilon → 0 ≤ epsilon

/-- Neither a score, nor a term of a sum, nor a sum of the rules wraps around. -/
structure InRange (e : Evaluation) : Prop where
  products : ProductsInRange e
  terms : ∀ op epsilon, e.DiffPrivacyMechanismHasEpsilon op epsilon →
    ∀ result ∈ op.resultList, e.FactorsInRange epsilon result
  sums : ∀ value, IsNumber (e.epsilonSum value)

section

variable (e : Evaluation)

def sqlOutputs : Set AccessPath :=
  {output | ∃ op, IsSqlOutput e.facts.isOperation op ∧ output ∈ op.resultList}

def Flows : AccessPath → AccessPath → Prop := FlowsThrough e.facts.isOperation fun _ => True

def LeadsToOutput (x : AccessPath) : Prop :=
  ∃ output ∈ e.sqlOutputs, Relation.ReflTransGen e.Flows x output

/-- Computed from the value without an epsilon. -/
def Exposed (value : AccessPath) : AccessPath → Prop :=
  Relation.ReflTransGen (FlowsThrough e.facts.isOperation fun op => ¬ e.CarriesEpsilon op) value

end

end Evaluation

/-! ### Runs -/

def assign {M : Type*} (op : Operation) (env results : AccessPath → M) (x : AccessPath) : M :=
  if x ∈ op.resultList then results x else env x

/-- What the operations compute, and what those with an epsilon sample. -/
structure Semantics (M : Type*) where
  compute : Operation → List M → AccessPath → M
  sample : Operation → List M → PMF (AccessPath → M)

namespace Semantics

variable {M : Type*}

open Classical in
noncomputable def step (sem : Semantics M) (e : Evaluation) (op : Operation)
    (env : AccessPath → M) : PMF (AccessPath → M) :=
  if e.CarriesEpsilon op then
    (sem.sample op (op.operandList.map env)).map (assign op env)
  else
    .pure (assign op env (sem.compute op (op.operandList.map env)))

/-- What a run shows: the values of the outputs. -/
noncomputable def observed (sem : Semantics M) (e : Evaluation) (schedule : List Operation)
    (env : AccessPath → M) : PMF (e.sqlOutputs → M) :=
  (runs (sem.step e) schedule env).map fun final output => final output

/-- The results move by the factors of the rules, and a mechanism is as private as its epsilon
says for operands at a distance. -/
structure Respects [PseudoMetricSpace M] (sem : Semantics M) (e : Evaluation) : Prop where
  factors : RespectsFactors e sem.compute
  epsilons : ∀ op epsilon, e.DiffPrivacyMechanismHasEpsilon op epsilon → ∀ bound : ℝ, 0 ≤ bound →
    ∀ args args' : List M, args.length = op.operandList.length → Within bound args args' →
      DifferentiallyPrivate (epsilon * bound) (sem.sample op args) (sem.sample op args')

end Semantics

/-- Operations that do not bring in data, each at most once. -/
structure Schedule (e : Evaluation) (schedule : List Operation) : Prop where
  nodup : schedule.Nodup
  mem : ∀ op ∈ schedule, op ∈ e.facts.isOperation
  notInput : ∀ op ∈ schedule, op.operator ∉ inputOperators

/-- Environments that differ in one value, by at most one unit. -/
structure Neighbours {M : Type*} [PseudoMetricSpace M] (value : AccessPath)
    (env env' : AccessPath → M) : Prop where
  same : ∀ x, x ≠ value → env x = env' x
  near : dist (env value) (env' value) ≤ 1

/-- The environments of two runs: scores bound the distances, and what has not seen the value
without an epsilon is the same. -/
structure Related {M : Type*} [PseudoMetricSpace M] (e : Evaluation) (value : AccessPath)
    (env env' : AccessPath → M) : Prop where
  scored : ∀ x score, e.LeadsToOutput x → e.DerivedScore x score → dist (env x) (env' x) ≤ score
  shielded : ∀ x, e.LeadsToOutput x → ¬ e.Exposed value x → env x = env' x

/-! ### Paths of data -/

theorem SqlPath.trans {isOperation : Finset Operation} {program : Program}
    {start mid stop : AccessPath} (hbefore : SqlPath isOperation program start mid)
    (hafter : SqlPath isOperation program mid stop) : SqlPath isOperation program start stop := by
  induction hafter with
  | sqlInput => exact hbefore
  | mechanismInput => exact hbefore
  | step _ hoperands hflatten hresult ih => exact .step (ih hbefore) hoperands hflatten hresult

namespace Evaluation

variable {e : Evaluation}

theorem LeadsToOutput.operand {op : Operation} {x result : AccessPath}
    (h : e.LeadsToOutput result) (hop : op ∈ e.facts.isOperation) (hresult : result ∈ op.resultList)
    (hx : x ∈ op.operandList) : e.LeadsToOutput x := by
  obtain ⟨output, houtput, hflows⟩ := h
  exact ⟨output, houtput, .head ⟨op, hop, trivial, hx, hresult⟩ hflows⟩

theorem Exposed.flows {value x : AccessPath} (h : e.Exposed value x) :
    Relation.ReflTransGen e.Flows value x := by
  refine Relation.ReflTransGen.mono ?_ value x h
  rintro src tgt ⟨op, hop, -, hsrc, htgt⟩
  exact ⟨op, hop, trivial, hsrc, htgt⟩

theorem finite_results (isOperation : Finset Operation) :
    {x | ∃ op ∈ isOperation, x ∈ op.resultList}.Finite := by
  refine (Set.Finite.biUnion isOperation.finite_toSet
    fun op _ => List.finite_toSet op.resultList).subset ?_
  rintro x ⟨op, hop, hx⟩
  exact Set.mem_biUnion (Finset.mem_coe.mpr hop) hx

theorem finite_epsilonBindings (value : AccessPath) : (e.epsilonBindings value).Finite := by
  refine (e.facts.isOperation.finite_toSet.prod ((finite_results e.facts.isOperation).prod
    ((finite_results e.facts.isOperation).prod finite_isNumber))).subset ?_
  rintro ⟨outputOp, output, result, epsilon⟩ ⟨houtputOp, houtput, -, hintermediate⟩
  obtain ⟨-, op, sensitivity, mechanismEpsilon, -, hresult, -, -, rfl⟩ := hintermediate
  obtain ⟨hoperation, houtput'⟩ := (operationHasResult_iff _ _).mp houtput
  obtain ⟨hop, hresult'⟩ := (operationHasResult_iff _ _).mp hresult
  exact ⟨hoperation, ⟨outputOp, hoperation, houtput'⟩, ⟨op, hop, hresult'⟩,
    isNumber_wrapNumber _⟩

/-- Without wrapping around, a term of the sum is an epsilon times a score. -/
theorem InRange.binding_eq (h : e.InRange) {value : AccessPath}
    {b : Operation × AccessPath × AccessPath × ℤ} (hb : b ∈ e.epsilonBindings value) :
    ∃ op sensitivity epsilon, IsDiffPrivacyMechanism e.facts.isOperation op ∧
      b.2.2.1 ∈ op.resultList ∧ e.SqlValueSensitivity b.2.2.1 sensitivity ∧
      e.DiffPrivacyMechanismHasEpsilon op epsilon ∧ b.2.2.2 = epsilon * sensitivity := by
  obtain ⟨-, -, -, -, op, sensitivity, epsilon, hmechanism, hresult, hscore, hepsilon, heq⟩ := hb
  have hresult' := ((operationHasResult_iff _ _).mp hresult).2
  have hterm := (h.terms op epsilon hepsilon _ hresult' sensitivity
    (hscore.factorProduct h.products)).2
  rw [wrapNumber_of_isNumber hterm] at heq
  exact ⟨op, sensitivity, epsilon, hmechanism, hresult', hscore, hepsilon, heq⟩

namespace PrivateProgram

variable (h : e.PrivateProgram)
include h

theorem sqlPath_self {op : Operation} (hop : op ∈ e.facts.isOperation) {x : AccessPath}
    (hx : x ∈ op.operandList) : SqlPath e.facts.isOperation e.program x x := by
  refine .sqlInput ((isSqlInput_iff hop x).mpr ⟨?_, hx⟩)
  rcases h.sqlOnly op hop (List.ne_nil_of_mem hx) with hsql | hmechanism
  · exact .inl hsql
  · exact .inr ⟨h.epsilonAnalysis, hmechanism⟩

theorem sqlPath_of_flows {src tgt : AccessPath} (hflows : Relation.TransGen e.Flows src tgt) :
    SqlPath e.facts.isOperation e.program src tgt := by
  have hstep : ∀ {start mid stop : AccessPath}, SqlPath e.facts.isOperation e.program start mid →
      e.Flows mid stop → SqlPath e.facts.isOperation e.program start stop := by
    rintro start mid stop hpath ⟨op, hop, -, hmid, hstop⟩
    exact .step hpath ⟨hop, rfl⟩ ((flatten_iff hop mid).mpr hmid)
      ((operationHasResult_iff op stop).mpr ⟨hop, hstop⟩)
  induction hflows with
  | single hflow =>
    obtain ⟨op, hop, -, hsrc, -⟩ := id hflow
    exact hstep (h.sqlPath_self hop hsrc) hflow
  | tail _ hflow ih => exact hstep ih hflow

theorem not_base {op : Operation} (hop : op ∈ e.facts.isOperation)
    (hinput : op.operator ∉ inputOperators) {x : AccessPath} (hx : x ∈ op.resultList) :
    ¬ IsBaseOperand e x := by
  rintro (rfl | ⟨other, operator, hother, ⟨-, rfl⟩, hoperator, hresult⟩)
  · exact h.anyUnassigned op hop hx
  · have hresult' := ((operationHasResult_iff other x).mp hresult).2
    rw [h.singleAssignment op hop other hother x hx hresult'] at hinput
    exact hinput hoperator

/-- A score of a result comes from its only operation. -/
theorem scored_result (hrange : ProductsInRange e) {op : Operation}
    (hop : op ∈ e.facts.isOperation) (hinput : op.operator ∉ inputOperators) {x : AccessPath}
    (hx : x ∈ op.resultList) {score : ℤ} (hscored : e.DerivedScore x score) :
    ∃ input factor, HasFactor e op factor ∧ score = input * factor ∧ 1 ≤ input ∧
      ∀ operand ∈ op.operandList, ∃ least ≤ input,
        e.DerivedScore operand least := by
  rcases hscored with ⟨hbase, -⟩ | hscore
  · exact absurd hbase (h.not_base hop hinput hx)
  · obtain ⟨other, input, factor, hoperands, hvalue, hfactor, rfl⟩ := hscore.exists_operands hrange
    obtain rfl := h.singleAssignment op hop other hoperands.mem x hx hvalue
    obtain ⟨largest, -, hlargest⟩ := hoperands.attained
    have hproduct := Evaluation.DerivedScore.factorProduct hrange hlargest
    exact ⟨input, factor, hfactor, rfl, hproduct.one_le h.kappaPositive, hoperands.operands⟩

theorem exists_outputs_ne {op : Operation} (hop : op ∈ e.facts.isOperation)
    (hoperator : op.operator ≠ sqlOutputOperator) {x output : AccessPath}
    (hx : x ∈ op.resultList) (houtput : output ∈ e.sqlOutputs) : x ≠ output := by
  rintro rfl
  obtain ⟨other, ⟨hother, -, -, hother'⟩, hresult⟩ := houtput
  rw [h.singleAssignment op hop other hother x hx hresult] at hoperator
  exact hoperator hother'

/-! ### The bindings of the sum -/

/-- The terms of the sum that belong to a mechanism: an epsilon of it, times a score. -/
theorem binding_cases (hrange : e.InRange) {value : AccessPath} {op : Operation}
    (hop : op ∈ e.facts.isOperation) (hinput : op.operator ∉ inputOperators)
    {b : Operation × AccessPath × AccessPath × ℤ} (hb : b ∈ e.epsilonBindings value)
    (hresult : b.2.2.1 ∈ op.resultList) :
    ∃ epsilon input, e.DiffPrivacyMechanismHasEpsilon op epsilon ∧ b.2.2.2 = epsilon * input ∧
      1 ≤ input ∧ ∀ operand ∈ op.operandList, ∃ least ≤ input,
        e.DerivedScore operand least := by
  obtain ⟨mechanism, sensitivity, epsilon, hmechanism, hother, hscore, hepsilon, heq⟩ :=
    hrange.binding_eq hb
  obtain rfl := h.singleAssignment op hop mechanism hmechanism.1 _ hresult hother
  obtain ⟨input, factor, hfactor, rfl, hone, hoperands⟩ :=
    h.scored_result hrange.products hop hinput hresult (.inr hscore)
  rw [hasFactor_mechanism hmechanism hfactor, mul_one] at heq
  exact ⟨epsilon, input, hepsilon, heq, hone, hoperands⟩

/-- An exposed mechanism on the way to an output takes part in the sum. -/
theorem exists_binding (hcounted : e.AllMechanismsTakePart) {value : AccessPath}
    (hvalue : IsInitialInput e.facts.isOperation value) {op : Operation}
    (hop : op ∈ e.facts.isOperation) (hepsilon : e.CarriesEpsilon op) {x result : AccessPath}
    (hx : x ∈ op.operandList) (hexposed : e.Exposed value x) (hresult : result ∈ op.resultList)
    (hleads : e.LeadsToOutput result) : ∃ b ∈ e.epsilonBindings value, b.2.2.1 = result := by
  obtain ⟨epsilon, hepsilon⟩ := hepsilon
  obtain ⟨output, houtput, hflows⟩ := hleads
  have hbefore : SqlPath e.facts.isOperation e.program value result :=
    h.sqlPath_of_flows (.tail' hexposed.flows ⟨op, hop, trivial, hx, hresult⟩)
  have hresult' := (operationHasResult_iff op result).mpr ⟨hop, hresult⟩
  obtain ⟨score, -, hintermediate⟩ := hcounted value op epsilon result
    ⟨hvalue, hepsilon, hresult', hbefore⟩
  have hne : result ≠ output := by
    refine h.exists_outputs_ne hop ?_ hresult houtput
    rw [hepsilon.1.2.2]
    decide
  have hafter : SqlPath e.facts.isOperation e.program result output := by
    rcases Relation.reflTransGen_iff_eq_or_transGen.mp hflows with heq | hflows
    · exact absurd heq.symm hne
    · exact h.sqlPath_of_flows hflows
  obtain ⟨outputOp, houtputOp, houtput'⟩ := houtput
  exact ⟨(outputOp, output, result, epsilon * score), ⟨houtputOp,
    (operationHasResult_iff _ _).mpr ⟨houtputOp.1, houtput'⟩, hafter, hintermediate⟩, rfl⟩

end PrivateProgram

/-! ### The price of an operation -/

open Classical in
/-- A term of the sum for the operation. -/
noncomputable def price (e : Evaluation) (value : AccessPath) (op : Operation) : ℤ :=
  if h : ∃ b ∈ e.epsilonBindings value, b.2.2.1 ∈ op.resultList then h.choose.2.2.2 else 0

namespace PrivateProgram

theorem binding_nonneg (h : e.PrivateProgram) (hrange : e.InRange) {value : AccessPath}
    {b : Operation × AccessPath × AccessPath × ℤ} (hb : b ∈ e.epsilonBindings value) :
    0 ≤ b.2.2.2 := by
  obtain ⟨op, sensitivity, epsilon, -, -, hscore, hepsilon, heq⟩ := hrange.binding_eq hb
  have hone := (hscore.factorProduct hrange.products).one_le h.kappaPositive
  rw [heq]
  exact mul_nonneg (h.epsilonNonneg op epsilon hepsilon) (by omega)

theorem price_nonneg (h : e.PrivateProgram) (hrange : e.InRange) (value : AccessPath)
    (op : Operation) : 0 ≤ e.price value op := by
  rw [price]
  split
  · next hexists => exact h.binding_nonneg hrange hexists.choose_spec.1
  · exact le_refl 0

/-- The terms of different operations differ, so their sum is part of the whole. -/
theorem sum_price_le (h : e.PrivateProgram) (hrange : e.InRange) {schedule : List Operation}
    (hschedule : Schedule e schedule) (value : AccessPath) :
    (schedule.map (e.price value)).sum ≤ e.epsilonSum value := by
  classical
  have hfinite := finite_epsilonBindings (e := e) value
  let charged : Finset Operation :=
    schedule.toFinset.filter fun op => ∃ b ∈ e.epsilonBindings value, b.2.2.1 ∈ op.resultList
  have hcharged : ∀ op ∈ charged, op ∈ schedule ∧
      ∃ b ∈ e.epsilonBindings value, b.2.2.1 ∈ op.resultList ∧ e.price value op = b.2.2.2 := by
    intro op hop
    obtain ⟨hmem, hexists⟩ := Finset.mem_filter.mp hop
    refine ⟨List.mem_toFinset.mp hmem, hexists.choose, hexists.choose_spec.1,
      hexists.choose_spec.2, ?_⟩
    rw [price, dif_pos hexists]
  choose! hmem term hterm hresult hprice using hcharged
  have hinjective : Set.InjOn term charged := by
    intro op hop other hother heq
    refine h.singleAssignment op (hschedule.mem op (hmem op hop)) other
      (hschedule.mem other (hmem other hother)) _ (hresult op hop) ?_
    rw [heq]
    exact hresult other hother
  have hsubset : charged.image term ⊆ hfinite.toFinset := by
    intro b hb
    obtain ⟨op, hop, rfl⟩ := Finset.mem_image.mp hb
    exact hfinite.mem_toFinset.mpr (hterm op hop)
  have hzero : ∀ op ∈ schedule.toFinset, e.price value op ≠ 0 →
      ∃ b ∈ e.epsilonBindings value, b.2.2.1 ∈ op.resultList := by
    intro op _ hne
    by_contra hnone
    rw [price, dif_neg hnone] at hne
    exact hne rfl
  calc (schedule.map (e.price value)).sum
      = schedule.toFinset.sum (e.price value) := (List.sum_toFinset _ hschedule.nodup).symm
    _ = charged.sum (e.price value) := (Finset.sum_filter_of_ne hzero).symm
    _ = charged.sum fun op => (term op).2.2.2 := Finset.sum_congr rfl hprice
    _ = (charged.image term).sum fun b => b.2.2.2 :=
        (Finset.sum_image (f := fun b => b.2.2.2) hinjective).symm
    _ ≤ hfinite.toFinset.sum fun b => b.2.2.2 :=
        Finset.sum_le_sum_of_subset_of_nonneg hsubset fun b hb _ =>
          h.binding_nonneg hrange (hfinite.mem_toFinset.mp hb)
    _ = e.epsilonSum value := by
        rw [epsilonSum, finsum_set_coe_eq_finsum_mem (e.epsilonBindings value) (f := fun b => b.2.2.2),
          finsum_mem_eq_finite_toFinset_sum _ hfinite]

end PrivateProgram

theorem epsilonSum_le {value : AccessPath} (hsum : IsNumber (e.epsilonSum value))
    (hvalue : IsInitialInput e.facts.isOperation value) {epsilon : ℤ}
    (hepsilon : e.IsGlobalEpsilon epsilon) (hnonneg : 0 ≤ epsilon)
    (hsilent : ¬ e.ExceedsGlobalEpsilon value) : e.epsilonSum value ≤ epsilon := by
  by_cases hempty : IsEmpty (e.epsilonBindings value)
  · rw [epsilonSum, finsum_of_isEmpty]
    exact hnonneg
  · obtain ⟨⟨b, houtput, hresult, hafter, hbefore, -⟩⟩ := not_isEmpty_iff.mp hempty
    refine not_lt.mp fun hlt => hsilent ?_
    exact ⟨b.1, b.2.1, _, epsilon, houtput, hresult, hbefore.trans hafter,
      ⟨hvalue, (wrapNumber_of_isNumber hsum).symm⟩, hepsilon, hlt⟩

end Evaluation

/-! ### Steps and runs -/

namespace Related

variable {M : Type*} [PseudoMetricSpace M] {e : Evaluation} {value : AccessPath}
  {env env' : AccessPath → M}

theorem assign (hrelated : Related e value env env') {op : Operation}
    {results results' : AccessPath → M} (hnew : ∀ x ∈ op.resultList, e.LeadsToOutput x →
      (∀ score, e.DerivedScore x score →
          dist (results x) (results' x) ≤ score) ∧
        (¬ e.Exposed value x → results x = results' x)) :
    Related e value (assign op env results) (assign op env' results') where
  scored := by
    intro x score hleads hscored
    by_cases hx : x ∈ op.resultList
    · simpa only [Souffle.assign, if_pos hx] using (hnew x hx hleads).1 score hscored
    · simpa only [Souffle.assign, if_neg hx] using hrelated.scored x score hleads hscored
  shielded := by
    intro x hleads hexposed
    by_cases hx : x ∈ op.resultList
    · simpa only [Souffle.assign, if_pos hx] using (hnew x hx hleads).2 hexposed
    · simpa only [Souffle.assign, if_neg hx] using hrelated.shielded x hleads hexposed

theorem dist_operand_le (hrelated : Related e value env env') {x : AccessPath}
    (hleads : e.LeadsToOutput x) {input : ℤ}
    (h : ∃ least ≤ input, e.DerivedScore x least) :
    dist (env x) (env' x) ≤ input := by
  obtain ⟨least, hle, hscored⟩ := h
  exact (hrelated.scored x least hleads hscored).trans (Int.cast_le.mpr hle)

theorem map_eq (hrelated : Related e value env env') {l : List AccessPath}
    (hleads : ∀ x ∈ l, e.LeadsToOutput x) (hexposed : ∀ x ∈ l, ¬ e.Exposed value x) :
    l.map env = l.map env' :=
  List.map_congr_left fun x hx => hrelated.shielded x (hleads x hx) (hexposed x hx)

end Related

theorem Neighbours.related {M : Type*} [PseudoMetricSpace M] {e : Evaluation}
    (hkappa : KappaPositive e.facts) (hrange : ProductsInRange e) {value : AccessPath}
    {env env' : AccessPath → M} (h : Neighbours value env env') : Related e value env env' where
  scored := by
    intro x score _ hscored
    have hproduct := Evaluation.DerivedScore.factorProduct hrange hscored
    have hone : (1 : ℝ) ≤ score := by exact_mod_cast hproduct.one_le hkappa
    by_cases hx : x = value
    · rw [hx]
      exact h.near.trans hone
    · rw [h.same x hx, dist_self]
      exact zero_le_one.trans hone
  shielded := by
    intro x _ hexposed
    refine h.same x ?_
    rintro rfl
    exact hexposed .refl

namespace Evaluation.PrivateProgram

variable {e : Evaluation} (h : e.PrivateProgram) (hrange : e.InRange) {M : Type*}
  [PseudoMetricSpace M] {sem : Semantics M} {value : AccessPath} {env env' : AccessPath → M} {op : Operation}
include h hrange

/-- An operation without an epsilon keeps the environments related. -/
theorem related_compute (hsem : sem.Respects e) (hop : op ∈ e.facts.isOperation)
    (hinput : op.operator ∉ inputOperators) (hepsilon : ¬ e.CarriesEpsilon op)
    (hrelated : Related e value env env') :
    Related e value (assign op env (sem.compute op (op.operandList.map env)))
      (assign op env' (sem.compute op (op.operandList.map env'))) := by
  refine hrelated.assign ?_
  intro x hx hleads
  have hoperands : ∀ operand ∈ op.operandList, e.LeadsToOutput operand :=
    fun operand hoperand => hleads.operand hop hx hoperand
  constructor
  · intro score hscored
    obtain ⟨input, factor, hfactor, rfl, hone, hleast⟩ := h.scored_result hrange.products hop hinput hx hscored
    have hnonneg : (0 : ℝ) ≤ input := by exact_mod_cast zero_le_one.trans hone
    have hwithin : ∀ operand ∈ op.operandList, dist (env operand) (env' operand) ≤ input :=
      fun operand hoperand =>
        hrelated.dist_operand_le (hoperands operand hoperand) (hleast operand hoperand)
    rw [mul_comm input, Int.cast_mul]
    exact hsem.factors.dist_le hop hfactor hnonneg hwithin hx
  · intro hexposed
    rw [hrelated.map_eq hoperands]
    intro operand hoperand hexposed'
    exact hexposed (hexposed'.tail ⟨op, hop, hepsilon, hoperand, hx⟩)

/-- A mechanism on the way to an output samples the same at its price. -/
theorem lifted_sample (hsem : sem.Respects e) (hcounted : e.AllMechanismsTakePart)
    (hvalue : IsInitialInput e.facts.isOperation value) (hop : op ∈ e.facts.isOperation)
    (hinput : op.operator ∉ inputOperators) (hepsilon : e.CarriesEpsilon op)
    (hrelated : Related e value env env') {result : AccessPath} (hresult : result ∈ op.resultList)
    (hleads : e.LeadsToOutput result) :
    Lifted (e.price value op) Eq (sem.sample op (op.operandList.map env))
      (sem.sample op (op.operandList.map env')) := by
  have hoperands : ∀ operand ∈ op.operandList, e.LeadsToOutput operand :=
    fun operand hoperand => hleads.operand hop hresult hoperand
  by_cases hexposed : ∃ x ∈ op.operandList, e.Exposed value x
  · obtain ⟨x, hx, hexposed⟩ := hexposed
    obtain ⟨b, hb, hbresult⟩ :=
      h.exists_binding hcounted hvalue hop hepsilon hx hexposed hresult hleads
    have hexists : ∃ b ∈ e.epsilonBindings value, b.2.2.1 ∈ op.resultList := by
      rw [← hbresult] at hresult
      exact ⟨b, hb, hresult⟩
    obtain ⟨epsilon, input, hepsilon', heq, hone, hleast⟩ :=
      h.binding_cases hrange hop hinput hexists.choose_spec.1 hexists.choose_spec.2
    have hnonneg : (0 : ℝ) ≤ input := by exact_mod_cast zero_le_one.trans hone
    have hwithin : Within input (op.operandList.map env) (op.operandList.map env') :=
      within_map fun operand hoperand =>
        hrelated.dist_operand_le (hoperands operand hoperand) (hleast operand hoperand)
    rw [price, dif_pos hexists, heq, Int.cast_mul]
    exact (hsem.epsilons op epsilon hepsilon' input hnonneg _ _ (List.length_map ..)
      hwithin).lifted
  · rw [hrelated.map_eq hoperands fun x hx hx' => hexposed ⟨x, hx, hx'⟩]
    refine (DifferentiallyPrivate.refl _).lifted.mono ?_ fun _ _ heq => heq
    exact_mod_cast h.price_nonneg hrange value op

theorem lifted_step (hsem : sem.Respects e) (hcounted : e.AllMechanismsTakePart)
    (hvalue : IsInitialInput e.facts.isOperation value) (hop : op ∈ e.facts.isOperation)
    (hinput : op.operator ∉ inputOperators) (hrelated : Related e value env env') :
    Lifted (e.price value op) (Related e value) (sem.step e op env) (sem.step e op env') := by
  have hprice : (0 : ℝ) ≤ e.price value op := by exact_mod_cast h.price_nonneg hrange value op
  by_cases hepsilon : e.CarriesEpsilon op
  · rw [Semantics.step, Semantics.step, if_pos hepsilon, if_pos hepsilon]
    by_cases hleads : ∃ result ∈ op.resultList, e.LeadsToOutput result
    · obtain ⟨result, hresult, hleads⟩ := hleads
      refine (h.lifted_sample hrange hsem hcounted hvalue hop hinput hepsilon hrelated hresult hleads).map
        ?_
      rintro results _ rfl
      refine hrelated.assign fun x _ _ => ⟨fun score hscored => ?_, fun _ => rfl⟩
      rw [dist_self]
      have hproduct := Evaluation.DerivedScore.factorProduct hrange.products hscored
      exact_mod_cast zero_le_one.trans (hproduct.one_le h.kappaPositive)
    · -- nothing that the operation writes reaches an output
      refine ((Lifted.unrelated _ _).map ?_).mono hprice fun _ _ hrelated' => hrelated'
      intro results results' _
      exact hrelated.assign fun x hx hx' => absurd ⟨x, hx, hx'⟩ hleads
  · rw [Semantics.step, Semantics.step, if_neg hepsilon, if_neg hepsilon]
    exact (Lifted.pure (h.related_compute hrange hsem hop hinput hepsilon hrelated)).mono hprice
      fun _ _ hrelated' => hrelated'

omit hrange in
theorem output_not_exposed (hprotected : e.OutputsProtected)
    (hvalue : IsInitialInput e.facts.isOperation value) {output : AccessPath}
    (houtput : output ∈ e.sqlOutputs) : ¬ e.Exposed value output := by
  intro hexposed
  obtain ⟨op, ⟨hop, -, -, hoperator⟩, hresult⟩ := id houtput
  rcases Relation.reflTransGen_iff_eq_or_transGen.mp hexposed with heq | hchain
  · obtain ⟨inputOp, operator, -, ⟨hinputOp, rfl⟩, hinput, hvalue'⟩ := hvalue
    refine h.exists_outputs_ne hinputOp ?_ ((operationHasResult_iff _ _).mp hvalue').2 houtput
      heq.symm
    intro hsame
    rw [hsame] at hinput
    exact absurd hinput (by decide)
  · exact hprotected op hop hoperator output hresult value hvalue hchain

/-- Silence makes the outputs differentially private in every initial input, with the global
epsilon: if no chain passes the mechanisms by and no mechanism is dropped from the sum. -/
theorem silent_differentiallyPrivate (hprotected : e.OutputsProtected)
    (hcounted : e.AllMechanismsTakePart)
    (hsilent : ¬ ∃ path message, e.ViolatesPolicy path sensitivityAnalysisPolicy message)
    {epsilon : ℤ} (hepsilon : e.IsGlobalEpsilon epsilon) (hnonneg : 0 ≤ epsilon)
    (hsem : sem.Respects e) {schedule : List Operation} (hschedule : Schedule e schedule)
    (hvalue : IsInitialInput e.facts.isOperation value) (hneighbours : Neighbours value env env') :
    DifferentiallyPrivate epsilon (sem.observed e schedule env)
      (sem.observed e schedule env') := by
  have hexceeds : ¬ e.ExceedsGlobalEpsilon value := fun hexceeds =>
    hsilent ((violates_sensitivity_iff h.epsilonAnalysis).mpr ⟨value, .inr (.inl hexceeds)⟩)
  have hprice : ((schedule.map fun op => (e.price value op : ℝ)).sum : ℝ) ≤ epsilon := by
    have hsum := (h.sum_price_le hrange hschedule value).trans
      (epsilonSum_le (hrange.sums value) hvalue hepsilon hnonneg hexceeds)
    have hcast : (schedule.map fun op => (e.price value op : ℝ)).sum =
        ((schedule.map (e.price value)).sum : ℤ) := by
      rw [Int.cast_list_sum, List.map_map]
      rfl
    rw [hcast]
    exact_mod_cast hsum
  have hruns : Lifted (schedule.map fun op => (e.price value op : ℝ)).sum (Related e value)
      (runs (sem.step e) schedule env) (runs (sem.step e) schedule env') := by
    refine Lifted.runs ?_ (hneighbours.related h.kappaPositive hrange.products)
    intro op hop before after hrelated
    exact h.lifted_step hrange hsem hcounted hvalue (hschedule.mem op hop) (hschedule.notInput op hop)
      hrelated
  refine (hruns.mono hprice fun _ _ hrelated => hrelated).differentiallyPrivate ?_
  intro final final' hrelated
  funext output
  exact hrelated.shielded output ⟨output, output.2, .refl⟩
    (h.output_not_exposed hprotected hvalue output.2)

end Evaluation.PrivateProgram

/-! ### A noisy answer -/

def selectOperation : Operation where
  actor := sqlActor
  operator := "sql.select"
  resultList := ["f"]
  operandList := ["in1"]

def answerOperation : Operation where
  actor := sqlActor
  operator := sqlOutputOperator
  resultList := ["out"]
  operandList := ["p"]

def noisyAnswer : Evaluation where
  program := dpPolicyVerifierInterface
  facts :=
    { isOperation :=
        {Evaluation.rawInput, selectOperation, Evaluation.mechanismOn "f", answerOperation}
      isDPParameter := {.epsilonValue 3} }
  ord := symbolOrdinal
  ord_injective := symbolOrdinal_injective

theorem two_thirds_add : (2 / 3 + 1 / 3 : ENNReal) = 1 := by
  rw [ENNReal.div_add_div_same, two_add_one_eq_three]
  exact ENNReal.div_self (by norm_num) (by norm_num)

noncomputable def answerWeight (truth answer : Bool) : ENNReal :=
  (if answer = truth then 2 else 1 : ℕ) / (3 : ℕ)

theorem answerWeight_eq (truth answer : Bool) :
    answerWeight truth answer = if answer = truth then 2 / 3 else 1 / 3 := by
  rw [answerWeight]
  split
  · rw [Nat.cast_ofNat, Nat.cast_ofNat]
  · rw [Nat.cast_one, Nat.cast_ofNat]

theorem sum_answerWeight (truth : Bool) :
    Finset.sum Finset.univ (answerWeight truth) = 1 := by
  rw [Fintype.sum_bool, answerWeight_eq, answerWeight_eq]
  cases truth with
  | false => exact (add_comm _ _).trans two_thirds_add
  | true => exact two_thirds_add

/-- The truth with probability two thirds. -/
noncomputable def randomizedResponse (truth : Bool) : PMF Bool :=
  PMF.ofFintype (answerWeight truth) (sum_answerWeight truth)

noncomputable def noisySemantics : Semantics ℤ where
  compute _ args _ := args.headD 0
  sample _ args := (randomizedResponse (decide (1 ≤ args.headD 0))).map fun answer _ =>
    if answer then 1 else 0

theorem randomizedResponse_private (truth truth' : Bool) :
    DifferentiallyPrivate 3 (randomizedResponse truth) (randomizedResponse truth') := by
  rw [differentiallyPrivate_iff]
  intro answer
  have hfactor : 2 ≤ factor 3 := by
    have hexp := Real.add_one_le_exp (3 : ℝ)
    rw [factor, ← ENNReal.ofReal_ofNat]
    exact ENNReal.ofReal_le_ofReal (by linarith)
  have hthirds : (2 / 3 : ENNReal) = 2 * (1 / 3) := by rw [mul_one_div]
  have hless : (1 / 3 : ENNReal) ≤ 2 / 3 := ENNReal.div_le_div_right one_le_two 3
  have htruth : randomizedResponse truth answer ≤ 2 / 3 := by
    rw [randomizedResponse, PMF.ofFintype_apply, answerWeight_eq]
    split
    · exact le_refl _
    · exact hless
  have htruth' : 1 / 3 ≤ randomizedResponse truth' answer := by
    rw [randomizedResponse, PMF.ofFintype_apply, answerWeight_eq]
    split
    · exact hless
    · exact le_refl _
  calc randomizedResponse truth answer ≤ 2 * (1 / 3) := htruth.trans_eq hthirds
    _ ≤ factor 3 * randomizedResponse truth' answer := mul_le_mul' hfactor htruth'

theorem forall_noisyAnswer {P : Operation → Prop} (hinput : P Evaluation.rawInput)
    (hselect : P selectOperation) (hmechanism : P (Evaluation.mechanismOn "f"))
    (hanswer : P answerOperation) : ∀ op ∈ noisyAnswer.facts.isOperation, P op := by
  intro op hop
  simp only [noisyAnswer, Finset.mem_insert, Finset.mem_singleton] at hop
  rcases hop with rfl | rfl | rfl | rfl
  · exact hinput
  · exact hselect
  · exact hmechanism
  · exact hanswer

theorem kappaPositive_noisyAnswer : KappaPositive noisyAnswer.facts := by
  have hnone : ∀ op ∈ noisyAnswer.facts.isOperation, ∀ attr ∈ op.attributes,
      attr.attrName ≠ "kappa" := by decide
  intro op hop kappa hattr
  exact absurd rfl (hnone op hop _ ((operationHasAttribute_iff _ _).mp hattr).2)

theorem hasFactor_noisyAnswer {op : Operation} (hop : op ∈ noisyAnswer.facts.isOperation)
    {factor : ℤ} (h : HasFactor noisyAnswer op factor) : factor = 1 := by
  have hoperators : ∀ op ∈ noisyAnswer.facts.isOperation, op.operator ≠ sqlJoinOperator ∧
      op.operator ∉ ["sql.select_distinct", sqlGroupByOperator] := by decide
  obtain ⟨hjoin, htwo⟩ := hoperators op hop
  cases h with
  | join h => exact absurd h.2.1.2 hjoin
  | function h =>
    rcases listed_of_functionSensitivity h with ⟨rfl, -⟩ | ⟨-, hmem⟩
    · rfl
    · exact absurd hmem htwo
  | unscaled => rfl

theorem factorProduct_noisyAnswer {x : AccessPath} {product : ℤ}
    (h : FactorProduct noisyAnswer x product) : product = 1 := by
  induction h with
  | base => rfl
  | step hop _ _ hfactor _ ih => rw [ih, hasFactor_noisyAnswer hop.mem hfactor, mul_one]

theorem epsilon_noisyAnswer {op : Operation} {epsilon : ℤ}
    (h : noisyAnswer.DiffPrivacyMechanismHasEpsilon op epsilon) :
    op = Evaluation.mechanismOn "f" ∧ epsilon = 3 := by
  have hmechanisms : ∀ op ∈ noisyAnswer.facts.isOperation,
      op.operator = privacyMechanismOperator → op = Evaluation.mechanismOn "f" := by decide
  obtain rfl := hmechanisms op h.1.1 h.1.2.2
  have hattribute := List.mem_singleton.mp ((operationHasAttribute_iff _ _).mp h.2).2
  cases hattribute
  exact ⟨rfl, rfl⟩

theorem mechanism_mem_noisyAnswer :
    Evaluation.mechanismOn "f" ∈ noisyAnswer.facts.isOperation := by decide

theorem hasEpsilon_noisyAnswer :
    noisyAnswer.DiffPrivacyMechanismHasEpsilon (Evaluation.mechanismOn "f") 3 :=
  ⟨⟨mechanism_mem_noisyAnswer, mechanism_mem_noisyAnswer, rfl⟩,
    (operationHasAttribute_iff _ _).mpr ⟨mechanism_mem_noisyAnswer, List.mem_cons_self ..⟩⟩

theorem isInitialInput_noisyAnswer_iff (x : AccessPath) :
    IsInitialInput noisyAnswer.facts.isOperation x ↔ x = "in1" := by
  have hinputs : ∀ op ∈ noisyAnswer.facts.isOperation, op.operator ∈ inputOperators →
      op.resultList = ["in1"] := by decide
  constructor
  · rintro ⟨op, operator, hop, ⟨-, rfl⟩, hoperator, hresult⟩
    have hmem := ((operationHasResult_iff _ _).mp hresult).2
    rw [hinputs op hop hoperator] at hmem
    exact List.mem_singleton.mp hmem
  · rintro rfl
    have hinput : Evaluation.rawInput ∈ noisyAnswer.facts.isOperation := by decide
    exact ⟨Evaluation.rawInput, _, hinput, ⟨hinput, rfl⟩, List.mem_cons_self ..,
      (operationHasResult_iff _ _).mpr ⟨hinput, List.mem_cons_self ..⟩⟩

theorem noisyAnswer_program : noisyAnswer.PrivateProgram where
  epsilonAnalysis := by decide
  sqlOnly := by
    refine forall_noisyAnswer (fun h => absurd rfl h) (fun _ => .inl ?_) (fun _ => .inr ?_)
      fun _ => .inl ?_
    · exact ⟨by decide, _, ⟨by decide, rfl⟩, "sql.", List.mem_cons_self .., by decide⟩
    · exact hasEpsilon_noisyAnswer.1
    · exact ⟨by decide, _, ⟨by decide, rfl⟩, "sql.", List.mem_cons_self .., by decide⟩
  singleAssignment := by decide
  anyUnassigned := by decide
  kappaPositive := kappaPositive_noisyAnswer
  epsilonNonneg := by
    intro op epsilon h
    rw [(epsilon_noisyAnswer h).2]
    decide

theorem outputsProtected_noisyAnswer : noisyAnswer.OutputsProtected := by
  have hraw : ¬ RawOutput noisyAnswer.facts.isOperation := by decide
  exact not_not.mp fun hunprotected => hraw (Evaluation.rawOutput_iff.mpr hunprotected)

theorem productsInRange_noisyAnswer : ProductsInRange noisyAnswer := by
  intro x product hproduct
  rw [factorProduct_noisyAnswer hproduct]
  decide

theorem factorsInRange_noisyAnswer {op : Operation} {epsilon : ℤ}
    (hepsilon : noisyAnswer.DiffPrivacyMechanismHasEpsilon op epsilon) (result : AccessPath) :
    noisyAnswer.FactorsInRange epsilon result := by
  intro product hproduct
  rw [factorProduct_noisyAnswer hproduct, (epsilon_noisyAnswer hepsilon).2]
  decide

theorem takesPart_noisyAnswer : noisyAnswer.AllMechanismsTakePart := by
  have hbase : IsBaseOperand noisyAnswer "in1" := .inr ((isInitialInput_noisyAnswer_iff _).mpr rfl)
  have hselected : Counted noisyAnswer "f" := by
    refine @Counted.result _ selectOperation "f" (by decide) (by decide) (by decide)
      (fun h => absurd h (by decide)) ?_
    intro x hx hnot
    rw [List.mem_singleton.mp hx] at hnot
    exact absurd hbase hnot
  have hcounted : Counted noisyAnswer "p" := by
    refine @Counted.result _ (Evaluation.mechanismOn "f") "p" (by decide) (by decide) (by decide)
      (fun h => absurd h (by decide)) ?_
    intro x hx _
    rw [List.mem_singleton.mp hx]
    exact hselected
  intro value op epsilon result hpath
  refine hpath.takesPart kappaPositive_noisyAnswer ?_
    (factorsInRange_noisyAnswer hpath.hasEpsilon result)
  have hresult := ((operationHasResult_iff _ _).mp hpath.hasResult).2
  rw [(epsilon_noisyAnswer hpath.hasEpsilon).1] at hresult
  rw [List.mem_singleton.mp hresult]
  exact hcounted

theorem epsilonBindings_noisyAnswer (value : AccessPath) :
    noisyAnswer.epsilonBindings value ⊆ {(answerOperation, "out", "p", 3)} := by
  have houtputs : ∀ op ∈ noisyAnswer.facts.isOperation, op.operator = sqlOutputOperator →
      op = answerOperation := by decide
  rintro ⟨outputOp, output, result, epsilon⟩ ⟨houtputOp, houtput, -, hintermediate⟩
  obtain ⟨-, op, sensitivity, mechanismEpsilon, -, hresult, hscore, hepsilon, heq⟩ := hintermediate
  obtain rfl := houtputs outputOp houtputOp.1 houtputOp.2.2.2
  obtain ⟨rfl, rfl⟩ := epsilon_noisyAnswer hepsilon
  have houtput' := List.mem_singleton.mp ((operationHasResult_iff _ _).mp houtput).2
  have hresult' := List.mem_singleton.mp ((operationHasResult_iff _ _).mp hresult).2
  rw [factorProduct_noisyAnswer (hscore.factorProduct productsInRange_noisyAnswer)] at heq
  have hthree : epsilon = 3 := heq
  rw [hthree]
  exact congrArg₂ (fun output result => (answerOperation, output, result, (3 : ℤ))) houtput'
    hresult'

theorem epsilonSum_noisyAnswer (value : AccessPath) : noisyAnswer.epsilonSum value ≤ 3 ∧
    0 ≤ noisyAnswer.epsilonSum value := by
  rw [Evaluation.epsilonSum, finsum_set_coe_eq_finsum_mem (noisyAnswer.epsilonBindings value)
    (f := fun b => b.2.2.2)]
  rcases Set.subset_singleton_iff_eq.mp (epsilonBindings_noisyAnswer value) with hset | hset
  · rw [hset, finsum_mem_empty]
    decide
  · rw [hset, finsum_mem_singleton]
    decide

theorem isNumber_epsilonSum_noisyAnswer (value : AccessPath) :
    IsNumber (noisyAnswer.epsilonSum value) := by
  obtain ⟨hle, hnonneg⟩ := epsilonSum_noisyAnswer value
  exact ⟨by omega, by omega⟩

theorem noisyAnswer_silent : ¬ ∃ path message,
    noisyAnswer.ViolatesPolicy path sensitivityAnalysisPolicy message := by
  rw [Evaluation.violates_sensitivity_iff (by decide)]
  rintro ⟨value, hlacks | hepsilon | hdelta | hjoin⟩
  · obtain ⟨-, op, -, -, -, -, -, -, hnone | ⟨mechanism, hmechanism, hbare⟩⟩ := hlacks
    · exact hnone ⟨_, hasEpsilon_noisyAnswer.1⟩
    · have hmechanisms : ∀ op ∈ noisyAnswer.facts.isOperation,
          op.operator = privacyMechanismOperator → op = Evaluation.mechanismOn "f" := by decide
      rw [hmechanisms mechanism hmechanism.1 hmechanism.2.2] at hbare
      exact hbare ⟨3, hasEpsilon_noisyAnswer⟩
  · obtain ⟨op, output, epsilon, bound, -, -, -, ⟨-, hsum⟩, hbound, hlt⟩ := hepsilon
    rw [wrapNumber_of_isNumber (isNumber_epsilonSum_noisyAnswer value)] at hsum
    rcases hbound with hbound | ⟨speaker, hbound⟩
    · have hthree := DPParameterValue.epsilonValue.inj (Finset.mem_singleton.mp hbound)
      have hle := (epsilonSum_noisyAnswer value).1
      omega
    · exact absurd hbound (Finset.notMem_empty _)
  · obtain ⟨op, output, delta, bound, -, -, -, -, hbound | ⟨speaker, hbound⟩, -⟩ := hdelta
    · exact absurd (Finset.mem_singleton.mp hbound) (by simp)
    · exact absurd hbound (Finset.notMem_empty _)
  · have hnone : ∀ op ∈ noisyAnswer.facts.isOperation, op.operator ≠ sqlJoinOperator := by decide
    obtain ⟨op, -, -, hop, -, hoperator, -⟩ := hjoin
    exact hnone op hop.1 hoperator.2

theorem inRange_noisyAnswer : noisyAnswer.InRange where
  products := productsInRange_noisyAnswer
  terms := fun _ _ hepsilon result _ => factorsInRange_noisyAnswer hepsilon result
  sums := isNumber_epsilonSum_noisyAnswer

theorem noisySemantics_respects : noisySemantics.Respects noisyAnswer where
  factors := by
    intro op hop factor hfactor bound hbound args args' _ hwithin result _
    rw [hasFactor_noisyAnswer hop hfactor, Int.cast_one, one_mul]
    rcases hwithin with _ | ⟨hdist, -⟩
    · rw [dist_self]
      exact hbound
    · exact hdist
  epsilons := by
    intro op epsilon hepsilon bound hbound args args' hlength hwithin
    obtain ⟨rfl, rfl⟩ := epsilon_noisyAnswer hepsilon
    obtain ⟨a, rfl⟩ := List.length_eq_one_iff.mp hlength
    obtain ⟨b, l, hab, hl, rfl⟩ := List.forall₂_cons_left_iff.mp hwithin
    refine DifferentiallyPrivate.map ?_ _
    by_cases heq : a = b
    · subst heq
      refine (DifferentiallyPrivate.refl _).mono ?_
      positivity
    · have hone : 1 ≤ bound := by
        have hne : (1 : ℤ) ≤ |a - b| := Int.one_le_abs (sub_ne_zero.mpr heq)
        rw [Int.dist_eq'] at hab
        exact le_trans (by exact_mod_cast hne) hab
      refine (randomizedResponse_private _ _).mono ?_
      push_cast
      linarith

theorem noisyAnswer_differentiallyPrivate : DifferentiallyPrivate ((3 : ℤ) : ℝ)
    (noisySemantics.observed noisyAnswer
      [selectOperation, Evaluation.mechanismOn "f", answerOperation] fun _ => 0)
    (noisySemantics.observed noisyAnswer
      [selectOperation, Evaluation.mechanismOn "f", answerOperation]
      fun x => if x = "in1" then 1 else 0) :=
  noisyAnswer_program.silent_differentiallyPrivate inRange_noisyAnswer outputsProtected_noisyAnswer
    takesPart_noisyAnswer noisyAnswer_silent (.inl (Finset.mem_singleton_self _)) (by decide)
    noisySemantics_respects ⟨by decide, by decide, by decide⟩
    ((isInitialInput_noisyAnswer_iff "in1").mpr rfl)
    ⟨fun x hx => by rw [if_neg hx], by simp [Int.dist_eq']⟩

end Raksha.Souffle
