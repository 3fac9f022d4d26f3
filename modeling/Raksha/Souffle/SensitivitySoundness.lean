import Mathlib.Topology.MetricSpace.Pseudo.Basic
import Raksha.Souffle.MechanismBudgets

/-!
# Sound sensitivities

A score bounds how far a value moves while the initial inputs move by one unit. What the
operations compute is a parameter: an operation has to move its results at most by the factor
that the rules scale the score of its operands with.
-/

namespace Raksha.Souffle
open Datalog

variable {e : Evaluation}

/-- No product of the factors along a chain of operations wraps around. -/
def ProductsInRange (e : Evaluation) : Prop :=
  ∀ x product, FactorProduct e x product → IsNumber product

theorem OperandScore.factorProduct {R : AccessPath → ℤ → Prop}
    (hR : ∀ x score, R x score → FactorProduct e x score) {x : AccessPath} {score : ℤ}
    (h : OperandScore e R x score) : FactorProduct e x score := by
  rcases h with ⟨hbase, rfl⟩ | h
  · exact .base hbase
  · exact hR x score h

/-- Scores of operands that are products of factors make the score of a result one. -/
theorem OperandsScored.factorProduct {R : AccessPath → ℤ → Prop}
    (hR : ∀ x score, R x score → FactorProduct e x score) {op : Operation} {value : AccessPath}
    {input factor : ℤ} (h : OperandsScored e R op input) (hvalue : value ∈ op.resultList)
    (hfactor : HasFactor e op factor) : FactorProduct e value (input * factor) := by
  obtain ⟨x, hx, hlargest⟩ := h.attained
  exact .step (h.countsOperands fun x score hscore => (hR x score hscore).counted) hx hvalue hfactor
    (hlargest.factorProduct hR)

theorem Evaluation.SqlValueSensitivity.factorProduct (hrange : ProductsInRange e)
    {value : AccessPath} {score : ℤ} (h : e.SqlValueSensitivity value score) :
    FactorProduct e value score := by
  refine SqlValueSensitivity.induct (R := FactorProduct e) ?_ h
  intro op value input factor _ hscored hvalue hfactor
  have hproduct := hscored.factorProduct (fun _ _ h => h) hvalue hfactor
  rwa [wrapNumber_of_isNumber (hrange _ _ hproduct)]

/-- The scores that the rules see at an operand. -/
abbrev Evaluation.DerivedScore (e : Evaluation) : AccessPath → ℤ → Prop :=
  OperandScore e e.SqlValueSensitivity

theorem Evaluation.DerivedScore.factorProduct (hrange : ProductsInRange e) {x : AccessPath}
    {score : ℤ} (h : e.DerivedScore x score) : FactorProduct e x score :=
  OperandScore.factorProduct (fun _ _ hscore => hscore.factorProduct hrange) h

/-- A score comes from an operation and the scores of its operands. -/
theorem Evaluation.SqlValueSensitivity.exists_operands (hrange : ProductsInRange e)
    {value : AccessPath} {score : ℤ} (h : e.SqlValueSensitivity value score) :
    ∃ op input factor, OperandsScored e e.SqlValueSensitivity op input ∧ value ∈ op.resultList ∧
      HasFactor e op factor ∧ score = input * factor := by
  refine (SqlValueSensitivity.induct (R := fun value score => e.SqlValueSensitivity value score ∧
    ∃ op input factor, OperandsScored e e.SqlValueSensitivity op input ∧ value ∈ op.resultList ∧
      HasFactor e op factor ∧ score = input * factor) ?_ h).2
  intro op value input factor hscore hscored hvalue hfactor
  have hoperands : OperandsScored e e.SqlValueSensitivity op input :=
    hscored.mono fun _ _ h => h.1
  have hproduct := hoperands.factorProduct (fun _ _ h => h.factorProduct hrange) hvalue hfactor
  exact ⟨hscore, op, input, factor, hoperands, hvalue, hfactor,
    wrapNumber_of_isNumber (hrange _ _ hproduct)⟩

/-! ### Runs on two inputs -/

section

variable {M : Type*} [PseudoMetricSpace M]

def Within (bound : ℝ) : List M → List M → Prop := List.Forall₂ fun a b => dist a b ≤ bound

theorem within_map {bound : ℝ} {before after : AccessPath → M} {l : List AccessPath}
    (h : ∀ x ∈ l, dist (before x) (after x) ≤ bound) :
    Within bound (l.map before) (l.map after) := by
  rw [Within, List.forall₂_map_left_iff, List.forall₂_map_right_iff, List.forall₂_same]
  exact h

/-- Operands within a bound lead to results within the scaled bound. -/
def RespectsFactors (e : Evaluation) (compute : Operation → List M → AccessPath → M) : Prop :=
  ∀ op ∈ e.facts.isOperation, ∀ factor, HasFactor e op factor → ∀ bound : ℝ, 0 ≤ bound →
    ∀ args args' : List M, args.length = op.operandList.length → Within bound args args' →
      ∀ result ∈ op.resultList,
        dist (compute op args result) (compute op args' result) ≤ factor * bound

omit [PseudoMetricSpace M] in
/-- The results of the operations on operands are what they compute. -/
def Solves (e : Evaluation) (compute : Operation → List M → AccessPath → M)
    (value : AccessPath → M) : Prop :=
  ∀ op ∈ e.facts.isOperation, op.operandList ≠ [] → ∀ result ∈ op.resultList,
    value result = compute op (op.operandList.map value) result

variable {e : Evaluation} {compute : Operation → List M → AccessPath → M}

theorem RespectsFactors.dist_le (h : RespectsFactors e compute) {op : Operation} {factor : ℤ}
    (hop : op ∈ e.facts.isOperation) (hfactor : HasFactor e op factor) {bound : ℝ}
    (hbound : 0 ≤ bound) {before after : AccessPath → M}
    (hoperands : ∀ x ∈ op.operandList, dist (before x) (after x) ≤ bound) {result : AccessPath}
    (hresult : result ∈ op.resultList) :
    dist (compute op (op.operandList.map before) result)
      (compute op (op.operandList.map after) result) ≤ factor * bound :=
  h op hop factor hfactor bound hbound _ _ (List.length_map ..) (within_map hoperands) result
    hresult

/-- What an operation makes of operands within their scores is within the scaled score. -/
theorem RespectsFactors.dist_result_le (hrespects : RespectsFactors e compute)
    {before after : AccessPath → M} (hbefore : Solves e compute before)
    (hafter : Solves e compute after) {distance : ℝ} (hdistance : 0 ≤ distance)
    (hbase : ∀ x, IsBaseOperand e x → dist (before x) (after x) ≤ distance)
    {R : AccessPath → ℤ → Prop}
    (hR : ∀ x score, R x score → dist (before x) (after x) ≤ score * distance)
    {op : Operation} {value : AccessPath} {input factor : ℤ} (h : OperandsScored e R op input)
    (hvalue : value ∈ op.resultList) (hfactor : HasFactor e op factor) :
    dist (before value) (after value) ≤ ↑(input * factor) * distance := by
  have hscore : ∀ x score, OperandScore e R x score →
      dist (before x) (after x) ≤ score * distance := by
    rintro x score (⟨hx, rfl⟩ | hx)
    · rw [Int.cast_one, one_mul]
      exact hbase x hx
    · exact hR x score hx
  obtain ⟨largest, hlargest, hinput⟩ := h.attained
  have hnonneg : 0 ≤ (input : ℝ) * distance := dist_nonneg.trans (hscore largest input hinput)
  have hoperands : ∀ x ∈ op.operandList, dist (before x) (after x) ≤ input * distance := by
    intro x hx
    obtain ⟨operand, hle, hx⟩ := h.operands x hx
    refine (hscore x operand hx).trans (mul_le_mul_of_nonneg_right ?_ hdistance)
    exact Int.cast_le.mpr hle
  have hne : op.operandList ≠ [] := List.ne_nil_of_mem hlargest
  rw [hbefore op h.mem hne value hvalue, hafter op h.mem hne value hvalue]
  calc dist (compute op (op.operandList.map before) value)
        (compute op (op.operandList.map after) value)
      ≤ factor * (input * distance) := hrespects.dist_le h.mem hfactor hnonneg hoperands hvalue
    _ = ↑(input * factor) * distance := by
        push_cast
        ring

/-- Every derived score bounds how far the value moves, where no product of factors wraps
around. -/
theorem sqlValueSensitivity_sound (hrange : ProductsInRange e)
    (hrespects : RespectsFactors e compute) {before after : AccessPath → M}
    (hbefore : Solves e compute before) (hafter : Solves e compute after) {distance : ℝ}
    (hdistance : 0 ≤ distance)
    (hbase : ∀ x, IsBaseOperand e x → dist (before x) (after x) ≤ distance)
    {value : AccessPath} {score : ℤ} (h : e.SqlValueSensitivity value score) :
    dist (before value) (after value) ≤ score * distance := by
  refine (Evaluation.SqlValueSensitivity.induct (R := fun x score => FactorProduct e x score ∧
    dist (before x) (after x) ≤ score * distance) ?_ h).2
  intro op value input factor _ hscored hvalue hfactor
  have hproduct := hscored.factorProduct (fun _ _ h => h.1) hvalue hfactor
  rw [wrapNumber_of_isNumber (hrange _ _ hproduct)]
  exact ⟨hproduct, hrespects.dist_result_le hbefore hafter hdistance hbase (fun _ _ h => h.2)
    hscored hvalue hfactor⟩

end

open Evaluation

/-- A grouping counts its input twice. -/
def countTwice (op : Operation) (args : List ℝ) (_ : AccessPath) : ℝ :=
  if op.operator = sqlGroupByOperator then 2 * args.headD 0 else args.headD 0

def countedTwice (input : ℝ) (path : AccessPath) : ℝ :=
  if path = "g" ∨ path = "p" then 2 * input else input

theorem productsInRange_groupedMechanism : ProductsInRange groupedMechanism := by
  intro x product hproduct
  rw [factorProduct_groupedMechanism hproduct]
  split
  · decide
  · decide

theorem respectsFactors_countTwice : RespectsFactors groupedMechanism countTwice := by
  refine forall_groupedMechanism ?_ ?_ ?_
  · intro factor hfactor bound hbound args args' hlength hwithin result _
    obtain rfl := List.eq_nil_of_length_eq_zero hlength
    obtain rfl := List.forall₂_nil_left_iff.mp hwithin
    rw [dist_self]
    have hone := hfactor.one_le kappaPositive_groupedMechanism
    have hnonneg : (0 : ℝ) ≤ factor := by exact_mod_cast (by omega : (0 : ℤ) ≤ factor)
    exact mul_nonneg hnonneg hbound
  · intro factor hfactor bound hbound args args' hlength hwithin result _
    obtain ⟨a, rfl⟩ := List.length_eq_one_iff.mp hlength
    obtain ⟨b, l, hab, hl, rfl⟩ := List.forall₂_cons_left_iff.mp hwithin
    rw [hasFactor_groupBy rfl hfactor]
    have hdist : dist (2 * a) (2 * b) = 2 * dist a b := by
      rw [Real.dist_eq, Real.dist_eq, ← mul_sub, abs_mul, abs_two]
    calc dist (countTwice groupOperation [a] result) (countTwice groupOperation (b :: l) result)
        = dist (2 * a) (2 * b) := rfl
      _ ≤ ((2 : ℤ) : ℝ) * bound := by
        rw [hdist]
        push_cast
        linarith
  · intro factor hfactor bound hbound args args' hlength hwithin result _
    obtain ⟨a, rfl⟩ := List.length_eq_one_iff.mp hlength
    obtain ⟨b, l, hab, hl, rfl⟩ := List.forall₂_cons_left_iff.mp hwithin
    rw [hasFactor_mechanism ⟨by decide, by decide, rfl⟩ hfactor, Int.cast_one, one_mul]
    exact hab

theorem solves_countedTwice (input : ℝ) :
    Solves groupedMechanism countTwice (countedTwice input) := by
  refine forall_groupedMechanism ?_ ?_ ?_
  · intro hne
    exact absurd rfl hne
  · intro _ result hresult
    obtain rfl := List.mem_singleton.mp hresult
    simp [countedTwice, countTwice, groupOperation]
  · intro _ result hresult
    obtain rfl := List.mem_singleton.mp hresult
    have hoperator : (mechanismOn "g").operator ≠ sqlGroupByOperator := by decide
    rw [countTwice, if_neg hoperator]
    simp [countedTwice, mechanismOn]

theorem sqlValueSensitivity_groupedMechanism : groupedMechanism.SqlValueSensitivity "p" 2 := by
  obtain ⟨score, hscore, hproduct⟩ := exists_score_of_counted kappaPositive_groupedMechanism
    counted_groupedMechanism (productsInRange_groupedMechanism "p")
  have htwo : score = 2 := factorProduct_groupedMechanism hproduct
  rwa [htwo] at hscore

theorem groupedMechanism_sound : groupedMechanism.SqlValueSensitivity "p" 2 ∧
    dist (countedTwice 0 "p") (countedTwice 1 "p") ≤ ((2 : ℤ) : ℝ) * 1 := by
  refine ⟨sqlValueSensitivity_groupedMechanism, sqlValueSensitivity_sound
    productsInRange_groupedMechanism respectsFactors_countTwice (solves_countedTwice 0)
    (solves_countedTwice 1) zero_le_one ?_ sqlValueSensitivity_groupedMechanism⟩
  intro x hx
  rcases (isBaseOperand_groupedMechanism x).mp hx with rfl | rfl
  · simp [countedTwice, anyValue]
  · simp [countedTwice]

end Raksha.Souffle
