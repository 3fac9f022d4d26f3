import Raksha.Souffle.PrivacyPaths

/-!
# Counted mechanisms

A mechanism takes part in the sum of epsilons only if its result has a sensitivity score. The
values with a score are characterized by the operations behind them.
-/

namespace Raksha.Souffle
open Datalog

def KappaPositive (facts : Facts) : Prop :=
  ∀ op ∈ facts.isOperation, ∀ kappa,
    HasNumberAttribute facts.isOperation op "kappa" kappa → 1 ≤ kappa

section

variable (e : Evaluation)

/-- A SQL operation, or a mechanism where mechanisms count as such. -/
def TakesSqlInputs (op : Operation) : Prop :=
  IsSqlOperation e.facts.isOperation op ∨
    .epsilonAnalysis ∈ e.program ∧ IsDiffPrivacyMechanism e.facts.isOperation op

/-- An operand that needs no operation behind it. -/
def IsBaseOperand (x : AccessPath) : Prop :=
  x = anyValue ∨ IsInitialInput e.facts.isOperation x

/-- The result of an operation with operands all of which are counted; an operation on several
operands has to take SQL inputs. -/
inductive Counted : AccessPath → Prop
  | result {op : Operation} {value : AccessPath} : op ∈ e.facts.isOperation →
      value ∈ op.resultList → op.operandList ≠ [] →
      (1 < op.operandList.length → TakesSqlInputs e op) →
      (∀ x ∈ op.operandList, ¬ IsBaseOperand e x → Counted x) → Counted value

/-- An operation whose operands all have a score. -/
structure CountsOperands (op : Operation) : Prop where
  mem : op ∈ e.facts.isOperation
  sql : 1 < op.operandList.length → TakesSqlInputs e op
  operands : ∀ x ∈ op.operandList, ¬ IsBaseOperand e x → Counted e x

/-- The factors between the score of the operands and that of the results. -/
inductive HasFactor (op : Operation) : ℤ → Prop
  | join {score : ℤ} : SqlFunctionJoinSensitivity e.facts.isOperation e.program op score →
      HasFactor op score
  | function {score : ℤ} : SqlFunctionSensitivity e.facts.isOperation op.operator score →
      HasFactor op score
  | unscaled : (¬ ∃ score, SqlFunctionSensitivity e.facts.isOperation op.operator score) →
      (¬ ∃ score, SqlFunctionJoinSensitivity e.facts.isOperation e.program op score) →
      HasFactor op 1

/-- A product of the factors along a chain of operations that starts at a base operand. -/
inductive FactorProduct : AccessPath → ℤ → Prop
  | base {x : AccessPath} : IsBaseOperand e x → FactorProduct x 1
  | step {op : Operation} {x value : AccessPath} {product factor : ℤ} : CountsOperands e op →
      x ∈ op.operandList → value ∈ op.resultList → HasFactor e op factor →
      FactorProduct x product → FactorProduct value (product * factor)

end

variable {e : Evaluation}

theorem CountsOperands.counted {op : Operation} (h : CountsOperands e op) {x value : AccessPath}
    (hx : x ∈ op.operandList) (hvalue : value ∈ op.resultList) : Counted e value :=
  .result h.mem hvalue (List.ne_nil_of_mem hx) h.sql h.operands

theorem FactorProduct.counted {x : AccessPath} {product : ℤ} (h : FactorProduct e x product)
    (hx : ¬ IsBaseOperand e x) : Counted e x := by
  cases h with
  | base hbase => exact absurd hbase hx
  | step hop hoperand hvalue => exact hop.counted hoperand hvalue

namespace Evaluation

theorem one_le_of_joinSensitivity (hkappa : KappaPositive e.facts) {op : Operation} {score : ℤ}
    (h : SqlFunctionJoinSensitivity e.facts.isOperation e.program op score) : 1 ≤ score := by
  obtain ⟨-, -, hscore | ⟨-, rfl⟩⟩ := h
  · obtain ⟨-, -, result, mechanism, mechanismResult, -, hmechanism, -, hattr, -⟩ := hscore
    exact hkappa mechanism hmechanism.1 score hattr
  · exact le_refl 1

theorem one_le_of_functionSensitivity {isOperation : Finset Operation} {operator : Operator}
    {score : ℤ} (h : SqlFunctionSensitivity isOperation operator score) : 1 ≤ score := by
  cases h with
  | aggregation => exact le_refl 1
  | one => exact le_refl 1
  | two => exact one_le_two

end Evaluation

theorem HasFactor.one_le (hkappa : KappaPositive e.facts) {op : Operation} {factor : ℤ}
    (h : HasFactor e op factor) : 1 ≤ factor := by
  cases h with
  | join h => exact Evaluation.one_le_of_joinSensitivity hkappa h
  | function h => exact Evaluation.one_le_of_functionSensitivity h
  | unscaled => exact le_refl 1

theorem listed_of_functionSensitivity {isOperation : Finset Operation} {operator : Operator}
    {score : ℤ} (h : SqlFunctionSensitivity isOperation operator score) :
    score = 1 ∧ operator ∈ "sql.filter" :: "sql.where" :: "sql.select" :: "sql.column_access" ::
        "sql.output" :: "sql.order_by" :: "sql.function_call" :: aggregationOperators ∨
      score = 2 ∧ operator ∈ ["sql.select_distinct", sqlGroupByOperator] := by
  cases h with
  | aggregation hop hoperator =>
    refine .inl ⟨rfl, ?_⟩
    rw [← hoperator.2]
    rcases hop.2 with ⟨aggregation, ⟨-, rfl⟩, hmem⟩ | ⟨⟨-, hcall⟩, -⟩
    · simp only [List.mem_cons, hmem, or_true]
    · rw [hcall]
      decide
  | one hmem =>
    exact .inl ⟨rfl, List.mem_append_left aggregationOperators hmem⟩
  | two hmem => exact .inr ⟨rfl, hmem⟩

theorem hasFactor_mechanism {op : Operation} (hop : IsDiffPrivacyMechanism e.facts.isOperation op)
    {factor : ℤ} (hfactor : HasFactor e op factor) : factor = 1 := by
  have hoperator := hop.2.2
  cases hfactor with
  | join hjoin =>
    have hjoinOperator := hjoin.2.1.2
    rw [hoperator] at hjoinOperator
    exact absurd hjoinOperator (by decide)
  | function hfunction =>
    rw [hoperator] at hfunction
    rcases listed_of_functionSensitivity hfunction with ⟨-, hmem⟩ | ⟨-, hmem⟩
    · exact absurd hmem (by decide)
    · exact absurd hmem (by decide)
  | unscaled => rfl

theorem hasFactor_groupBy {op : Operation} (hop : op.operator = sqlGroupByOperator) {factor : ℤ}
    (h : HasFactor e op factor) : factor = 2 := by
  cases h with
  | join hjoin =>
    have hjoinOperator := hjoin.2.1.2
    rw [hop] at hjoinOperator
    exact absurd hjoinOperator (by decide)
  | function hfunction =>
    rw [hop] at hfunction
    rcases listed_of_functionSensitivity hfunction with ⟨-, hmem⟩ | ⟨htwo, -⟩
    · exact absurd hmem (by decide)
    · exact htwo
  | unscaled hnone _ =>
    rw [hop] at hnone
    exact absurd ⟨2, .two (by decide)⟩ hnone

theorem exists_hasFactor (op : Operation) : ∃ factor, HasFactor e op factor := by
  by_cases hfunction : ∃ score, SqlFunctionSensitivity e.facts.isOperation op.operator score
  · obtain ⟨score, hscore⟩ := hfunction
    exact ⟨score, .function hscore⟩
  · by_cases hjoin : ∃ score, SqlFunctionJoinSensitivity e.facts.isOperation e.program op score
    · obtain ⟨score, hscore⟩ := hjoin
      exact ⟨score, .join hscore⟩
    · exact ⟨1, .unscaled hfunction hjoin⟩

theorem FactorProduct.one_le (hkappa : KappaPositive e.facts) {x : AccessPath} {product : ℤ}
    (h : FactorProduct e x product) : 1 ≤ product := by
  induction h with
  | base => exact le_refl 1
  | step _ _ _ hfactor _ ih => exact one_le_mul_of_one_le_of_one_le ih (hfactor.one_le hkappa)

/-- The factors only grow a product, so one in range has all its parts in range. -/
theorem isNumber_of_mul {product factor : ℤ} (hproduct : 1 ≤ product) (hfactor : 1 ≤ factor)
    (h : IsNumber (product * factor)) : IsNumber product := by
  have hle : product * 1 ≤ product * factor := mul_le_mul_of_nonneg_left hfactor (by omega)
  rw [mul_one] at hle
  exact ⟨by omega, hle.trans_lt h.2⟩

theorem isSqlInput_iff {op : Operation} (hop : op ∈ e.facts.isOperation) (x : AccessPath) :
    IsSqlInput e.facts.isOperation e.program op x ↔ TakesSqlInputs e op ∧ x ∈ op.operandList := by
  refine ⟨?_, ?_⟩
  · intro h
    cases h with
    | sqlOperation hsql hlist hflatten =>
      rw [← hlist.2, flatten_iff hop] at hflatten
      exact ⟨.inl hsql, hflatten⟩
    | mechanism hfile hmechanism hlist hflatten =>
      rw [← hlist.2, flatten_iff hop] at hflatten
      exact ⟨.inr ⟨hfile, hmechanism⟩, hflatten⟩
  · rintro ⟨hsql | ⟨hfile, hmechanism⟩, hx⟩
    · exact .sqlOperation hsql ⟨hop, rfl⟩ ((flatten_iff hop x).mpr hx)
    · exact .mechanism hfile hmechanism ⟨hop, rfl⟩ ((flatten_iff hop x).mpr hx)

/-! ### What holds of all scores -/

section

variable (e : Evaluation) (R : AccessPath → ℤ → Prop)

/-- A score of an operand: a base operand has 1, others have what is derived. -/
def OperandScore (x : AccessPath) (score : ℤ) : Prop :=
  IsBaseOperand e x ∧ score = 1 ∨ R x score

/-- The operands have scores up to the given one, and one of them has it. -/
structure OperandsScored (op : Operation) (score : ℤ) : Prop where
  mem : op ∈ e.facts.isOperation
  sql : 1 < op.operandList.length → TakesSqlInputs e op
  operands : ∀ x ∈ op.operandList, ∃ operand ≤ score, OperandScore e R x operand
  attained : ∃ x ∈ op.operandList, OperandScore e R x score

/-- The same of the operands up to an index. -/
structure ScoredUpTo (op : Operation) (score : ℤ) (n : ℕ) : Prop where
  mem : op ∈ e.facts.isOperation
  bound : n < op.operandList.length
  sql : 1 ≤ n → TakesSqlInputs e op
  operands : ∀ i ≤ n, ∀ x, op.operandList[i]? = some x →
    ∃ operand ≤ score, OperandScore e R x operand
  attained : ∃ x ∈ op.operandList, OperandScore e R x score

end

variable {R : AccessPath → ℤ → Prop}

theorem OperandScore.mono {R' : AccessPath → ℤ → Prop} (hR : ∀ x score, R x score → R' x score)
    {x : AccessPath} {score : ℤ} (h : OperandScore e R x score) : OperandScore e R' x score :=
  h.imp_right (hR x score)

theorem OperandsScored.mono {R' : AccessPath → ℤ → Prop} (hR : ∀ x score, R x score → R' x score)
    {op : Operation} {score : ℤ} (h : OperandsScored e R op score) :
    OperandsScored e R' op score where
  mem := h.mem
  sql := h.sql
  operands := by
    intro x hx
    obtain ⟨operand, hle, hscore⟩ := h.operands x hx
    exact ⟨operand, hle, hscore.mono hR⟩
  attained := by
    obtain ⟨x, hx, hscore⟩ := h.attained
    exact ⟨x, hx, hscore.mono hR⟩

theorem ScoredUpTo.first {op : Operation} {x : AccessPath} {score : ℤ}
    (hop : op ∈ e.facts.isOperation) (hget : op.operandList[0]? = some x)
    (hx : OperandScore e R x score) : ScoredUpTo e R op score 0 where
  mem := hop
  bound := (List.getElem?_eq_some_iff.mp hget).1
  sql := fun h => absurd h (by decide)
  operands := by
    intro i hi y hy
    rw [Nat.le_zero.mp hi, hget] at hy
    cases hy
    exact ⟨score, le_refl _, hx⟩
  attained := ⟨x, List.mem_of_getElem? hget, hx⟩

theorem ScoredUpTo.next {op : Operation} {n : ℕ} {x : AccessPath} {before score : ℤ}
    (h : ScoredUpTo e R op before n) (hget : op.operandList[n + 1]? = some x)
    (hsql : TakesSqlInputs e op) (hx : OperandScore e R x score) :
    ScoredUpTo e R op (max before score) (n + 1) where
  mem := h.mem
  bound := (List.getElem?_eq_some_iff.mp hget).1
  sql := fun _ => hsql
  operands := by
    intro i hi y hy
    rcases Nat.le_succ_iff.mp hi with hle | rfl
    · obtain ⟨operand, hoperand, hy⟩ := h.operands i hle y hy
      exact ⟨operand, le_max_of_le_left hoperand, hy⟩
    · rw [Nat.succ_eq_add_one, hget] at hy
      cases hy
      exact ⟨score, le_max_right _ _, hx⟩
  attained := by
    rcases max_choice before score with hmax | hmax
    · rw [hmax]
      exact h.attained
    · rw [hmax]
      exact ⟨x, List.mem_of_getElem? hget, hx⟩

theorem ScoredUpTo.scored {op : Operation} {n : ℕ} {score : ℤ} (h : ScoredUpTo e R op score n)
    (hlast : op.operandList.length = n + 1) : OperandsScored e R op score where
  mem := h.mem
  sql := fun hseveral => h.sql (by omega)
  operands := by
    intro x hx
    obtain ⟨i, hget⟩ := List.mem_iff_getElem?.mp hx
    have hi := (List.getElem?_eq_some_iff.mp hget).1
    exact h.operands i (by omega) x hget
  attained := h.attained

namespace SensitivityAtom

/-- Scores are numbers; those of values are in `R`, and those at an index are the largest so
far. -/
def Meaning (e : Evaluation) (R : AccessPath → ℤ → Prop) : SensitivityAtom → Prop
  | sqlValueSensitivity value score => IsNumber score ∧ R value score
  | sqlOperationHasSensitivityScoreAtIndex op score index =>
      IsNumber score ∧ ∃ n : ℕ, index = n ∧ ScoredUpTo e R op score n

end SensitivityAtom

theorem sensitivityRule_meaning (hresult : ∀ {op : Operation} {value : AccessPath}
      {input factor : ℤ}, e.SqlValueSensitivity value (wrapNumber (input * factor)) →
      OperandsScored e R op input → value ∈ op.resultList → HasFactor e op factor →
      R value (wrapNumber (input * factor)))
    {head : SensitivityAtom} {premises : List SensitivityAtom}
    (hrule : SensitivityRule e head premises) (hhead : Derivable (SensitivityRule e) head)
    (h : ∀ p ∈ premises, p.Meaning e R) : head.Meaning e R := by
  cases hrule with
  | @scaled op value operator length input function hop hvalue hlength hoperator hfunction =>
    obtain ⟨-, n, hn, hscored⟩ := h _ (List.mem_singleton.mpr rfl)
    rw [((operationOperandListLength_iff _ _).mp hlength).2] at hn
    have hfactor : HasFactor e op function := by
      rw [← hoperator.2] at hfunction
      exact hfunction.elim .join .function
    exact ⟨isNumber_wrapNumber _, hresult hhead (hscored.scored (by omega))
      ((operationHasResult_iff _ _).mp hvalue).2 hfactor⟩
  | @unscaled op value operator length input hop hvalue hlength hoperator hfunction hjoin =>
    obtain ⟨hinput, n, hn, hscored⟩ := h _ (List.mem_singleton.mpr rfl)
    rw [((operationOperandListLength_iff _ _).mp hlength).2] at hn
    rw [← hoperator.2] at hfunction
    have hinput' : wrapNumber (input * 1) = input := by
      rw [mul_one, wrapNumber_of_isNumber hinput]
    refine ⟨hinput, ?_⟩
    rw [← hinput'] at hhead ⊢
    exact hresult hhead (hscored.scored (by omega)) ((operationHasResult_iff _ _).mp hvalue).2
      (.unscaled hfunction hjoin)
  | initial hop hoperand hbase =>
    obtain ⟨-, i, hi, hget⟩ := (operationHasOperandAtIndex_iff _ _ _).mp hoperand
    obtain rfl : i = 0 := by omega
    exact ⟨by decide, 0, rfl, .first hop hget (.inl ⟨hbase.symm, rfl⟩)⟩
  | first hop hoperand =>
    obtain ⟨hscore, hx⟩ := h _ (List.mem_singleton.mpr rfl)
    obtain ⟨-, i, hi, hget⟩ := (operationHasOperandAtIndex_iff _ _ _).mp hoperand
    obtain rfl : i = 0 := by omega
    exact ⟨hscore, 0, rfl, .first hop hget (.inr hx)⟩
  | next hop hoperand hinput =>
    rw [List.forall_mem_cons, List.forall_mem_singleton] at h
    obtain ⟨⟨hprev, n, rfl, hbefore⟩, hscore, hx⟩ := h
    obtain ⟨-, i, hi, hget⟩ := (operationHasOperandAtIndex_iff _ _ _).mp hoperand
    obtain rfl : i = n + 1 := by omega
    exact ⟨isNumber_max hprev hscore, n + 1, by simp,
      hbefore.next hget ((isSqlInput_iff hop _).mp hinput).1 (.inr hx)⟩
  | nextInitial hop hoperand hinput hbase =>
    obtain ⟨hprev, n, rfl, hbefore⟩ := h _ (List.mem_singleton.mpr rfl)
    obtain ⟨-, i, hi, hget⟩ := (operationHasOperandAtIndex_iff _ _ _).mp hoperand
    obtain rfl : i = n + 1 := by omega
    exact ⟨isNumber_max hprev (by decide), n + 1, by simp,
      hbefore.next hget ((isSqlInput_iff hop _).mp hinput).1 (.inl ⟨hbase, rfl⟩)⟩

namespace Evaluation

/-- Induction over scores: the score of a result is that of the largest operand, scaled. -/
theorem SqlValueSensitivity.induct (hresult : ∀ {op : Operation} {value : AccessPath}
      {input factor : ℤ}, e.SqlValueSensitivity value (wrapNumber (input * factor)) →
      OperandsScored e R op input → value ∈ op.resultList → HasFactor e op factor →
      R value (wrapNumber (input * factor)))
    {value : AccessPath} {score : ℤ} (h : e.SqlValueSensitivity value score) : R value score :=
  (Derivable.least_of_derivable (I := SensitivityAtom.Meaning e R)
    (fun _ _ hrule hhead hpremises => sensitivityRule_meaning hresult hrule hhead hpremises) h).2

end Evaluation

/-- An operation with scores on all operands counts them. -/
theorem OperandsScored.countsOperands
    (hR : ∀ x score, R x score → ¬ IsBaseOperand e x → Counted e x) {op : Operation} {score : ℤ}
    (h : OperandsScored e R op score) : CountsOperands e op where
  mem := h.mem
  sql := h.sql
  operands := by
    intro x hx hbase
    obtain ⟨operand, -, ⟨hbase', -⟩ | hscore⟩ := h.operands x hx
    · exact absurd hbase' hbase
    · exact hR x operand hscore hbase

namespace Evaluation

theorem SqlValueSensitivity.counted {value : AccessPath} {score : ℤ}
    (h : e.SqlValueSensitivity value score) : Counted e value := by
  refine SqlValueSensitivity.induct (R := fun value _ => Counted e value) ?_ h
  intro op value input factor _ hscored hvalue _
  obtain ⟨x, hx, -⟩ := hscored.attained
  exact (hscored.countsOperands fun _ _ h _ => h).counted hx hvalue

/-! ### Counted values have scores -/

/-- The score at an operand, once the operands before it have one. -/
theorem exists_scoreAtIndex {op : Operation} (h : CountsOperands e op)
    {Q : AccessPath → ℤ → Prop} (hbase : ∀ x, IsBaseOperand e x → Q x 1)
    (hscored : ∀ x ∈ op.operandList, ¬ IsBaseOperand e x →
      ∃ score, e.SqlValueSensitivity x score ∧ Q x score)
    (n : ℕ) (hn : n < op.operandList.length) :
    ∃ score, Derivable (SensitivityRule e) (.sqlOperationHasSensitivityScoreAtIndex op score n) ∧
      ∃ x ∈ op.operandList, Q x score := by
  have hget : op.operandList[n]? = some op.operandList[n] := List.getElem?_eq_getElem hn
  have hmem : op.operandList[n] ∈ op.operandList := List.getElem_mem hn
  induction n with
  | zero =>
    have hoperand := (operationHasOperandAtIndex_iff op _ 0).mpr ⟨h.mem, 0, rfl, hget⟩
    by_cases hx : IsBaseOperand e op.operandList[0]
    · exact ⟨1, .fact (.initial h.mem hoperand hx.symm), _, hmem, hbase _ hx⟩
    · obtain ⟨score, hscore, hQ⟩ := hscored _ hmem hx
      exact ⟨score, .step (.first h.mem hoperand) hscore, _, hmem, hQ⟩
  | succ n ih =>
    have hbefore : n < op.operandList.length := by omega
    obtain ⟨prev, hprev, hlargest⟩ := ih hbefore (List.getElem?_eq_getElem hbefore)
      (List.getElem_mem hbefore)
    have hoperand := (operationHasOperandAtIndex_iff op _ ((n : ℤ) + 1)).mpr
      ⟨h.mem, n + 1, by simp, hget⟩
    have hinput := (isSqlInput_iff h.mem _).mpr ⟨h.sql (by omega), hmem⟩
    have hmax : ∀ score, (∃ x ∈ op.operandList, Q x score) →
        ∃ x ∈ op.operandList, Q x (max prev score) := by
      intro score hscore
      rcases max_choice prev score with hmax | hmax
      · rwa [hmax]
      · rwa [hmax]
    rw [Nat.cast_add, Nat.cast_one]
    by_cases hx : IsBaseOperand e op.operandList[n + 1]
    · exact ⟨max prev 1, .step (.nextInitial h.mem hoperand hinput hx) hprev,
        hmax 1 ⟨_, hmem, hbase _ hx⟩⟩
    · obtain ⟨score, hscore, hQ⟩ := hscored _ hmem hx
      exact ⟨max prev score, .step₂ (.next h.mem hoperand hinput) hprev hscore,
        hmax score ⟨_, hmem, hQ⟩⟩

/-- A counted value has a score, which is a product of factors if none of them is too large. -/
theorem exists_score_of_counted (hkappa : KappaPositive e.facts) {value : AccessPath}
    (h : Counted e value) (hrange : ∀ product, FactorProduct e value product → IsNumber product) :
    ∃ score, e.SqlValueSensitivity value score ∧ FactorProduct e value score := by
  induction h with
  | @result op value hop hvalue hne hsql hcounted ih =>
    have hcounts : CountsOperands e op := ⟨hop, hsql, hcounted⟩
    obtain ⟨factor, hfactor⟩ := exists_hasFactor (e := e) op
    have hpos : 0 < op.operandList.length := List.length_pos_iff.mpr hne
    obtain ⟨input, hinput, x, hx, hproduct⟩ := exists_scoreAtIndex hcounts
      (Q := FactorProduct e) (fun _ => .base) (by
        intro x hx hbase
        refine ih x hx hbase fun product hproduct => ?_
        exact isNumber_of_mul (hproduct.one_le hkappa) (hfactor.one_le hkappa)
          (hrange _ (.step hcounts hx hvalue hfactor hproduct)))
      (op.operandList.length - 1) (by omega)
    rw [Nat.cast_sub hpos, Nat.cast_one] at hinput
    have hresult := (operationHasResult_iff op value).mpr ⟨hop, hvalue⟩
    have hlength := (operationOperandListLength_iff op _).mpr ⟨hop, rfl⟩
    have hscaled := FactorProduct.step hcounts hx hvalue hfactor hproduct
    refine ⟨_, ?_, hscaled⟩
    cases hfactor with
    | join hjoin =>
      rw [← wrapNumber_of_isNumber (hrange _ hscaled)]
      exact .step (.scaled hop hresult hlength ⟨hop, rfl⟩ (.inl hjoin)) hinput
    | function hfunction =>
      rw [← wrapNumber_of_isNumber (hrange _ hscaled)]
      exact .step (.scaled hop hresult hlength ⟨hop, rfl⟩ (.inr hfunction)) hinput
    | unscaled hfunction hjoin =>
      rw [mul_one]
      exact .step (.unscaled hop hresult hlength ⟨hop, rfl⟩ hfunction hjoin) hinput

/-! ### The budget of a mechanism -/

/-- A result of a mechanism with an epsilon on a path from an initial input. -/
structure MechanismOnPath (e : Evaluation) (value : AccessPath) (op : Operation) (epsilon : ℤ)
    (result : AccessPath) : Prop where
  initial : IsInitialInput e.facts.isOperation value
  hasEpsilon : e.DiffPrivacyMechanismHasEpsilon op epsilon
  hasResult : OperationHasResult e.facts.isOperation op result
  path : SqlPath e.facts.isOperation e.program value result

/-- The mechanism takes part in the sum of epsilons, with a factor of at least one. -/
def TakesPart (e : Evaluation) (value : AccessPath) (epsilon : ℤ) (result : AccessPath) : Prop :=
  ∃ score ≥ 1, e.EpsilonDiffPrivacyIntermediate value result (epsilon * score)

def AllMechanismsTakePart (e : Evaluation) : Prop :=
  ∀ value op epsilon result, e.MechanismOnPath value op epsilon result →
    e.TakesPart value epsilon result

/-- Neither a product of factors behind a value nor its multiple of an epsilon wraps around. -/
def FactorsInRange (e : Evaluation) (epsilon : ℤ) (value : AccessPath) : Prop :=
  ∀ product, FactorProduct e value product → IsNumber product ∧ IsNumber (epsilon * product)

-- past the range a score may vanish, or come back as a positive number by chance
example : wrapNumber (2 ^ 32 * 2 ^ 32) = 0 := by decide
example : wrapNumber (274177 * 67280421310721) = 1 := by decide

theorem TakesPart.counted {value : AccessPath} {epsilon : ℤ} {result : AccessPath}
    (h : e.TakesPart value epsilon result) : Counted e result := by
  obtain ⟨-, -, -, -, sensitivity, -, -, -, hscore, -⟩ := h
  exact SqlValueSensitivity.counted hscore

theorem MechanismOnPath.takesPart (hkappa : KappaPositive e.facts) {value : AccessPath}
    {op : Operation} {epsilon : ℤ} {result : AccessPath}
    (h : e.MechanismOnPath value op epsilon result) (hcounted : Counted e result)
    (hrange : e.FactorsInRange epsilon result) : e.TakesPart value epsilon result := by
  obtain ⟨score, hscore, hproduct⟩ :=
    exists_score_of_counted hkappa hcounted fun product hproduct => (hrange product hproduct).1
  refine ⟨score, hproduct.one_le hkappa, h.path, op, score, epsilon, h.hasEpsilon.1, h.hasResult,
    hscore, h.hasEpsilon, ?_⟩
  exact (wrapNumber_of_isNumber (hrange score hproduct).2).symm

/-- Mechanisms that take part have counted results; and if their results are counted and no
product behind them wraps around, no mechanism is dropped. -/
theorem mechanisms_takePart (hkappa : KappaPositive e.facts) :
    (e.AllMechanismsTakePart → ∀ value op epsilon result,
      e.MechanismOnPath value op epsilon result → Counted e result) ∧
    ((∀ value op epsilon result, e.MechanismOnPath value op epsilon result →
      Counted e result ∧ e.FactorsInRange epsilon result) → e.AllMechanismsTakePart) := by
  refine ⟨?_, ?_⟩
  · intro h value op epsilon result hpath
    exact (h value op epsilon result hpath).counted
  · intro h value op epsilon result hpath
    obtain ⟨hcounted, hrange⟩ := h value op epsilon result hpath
    exact hpath.takesPart hkappa hcounted hrange

/-- A filter with a literal is upstream of the mechanism. -/
def filterOperation : Operation where
  actor := sqlActor
  operator := "sql.filter"
  resultList := ["f"]
  operandList := ["in1", "lit"]

def literalOperation : Operation where
  actor := sqlActor
  operator := "sql.literal"
  resultList := ["lit"]
  operandList := []

def mechanismOn (operand : AccessPath) : Operation where
  actor := sqlActor
  operator := privacyMechanismOperator
  resultList := ["p"]
  operandList := [operand]
  attributes := [⟨"epsilon", .numberAttributePayload 3⟩]

def filteredByLiteral : Evaluation where
  program := dpPolicyVerifierInterface
  facts :=
    { isOperation := {rawInput, literalOperation, filterOperation, mechanismOn "f"}
      isDPParameter := {.epsilonValue 1} }
  ord := symbolOrdinal
  ord_injective := symbolOrdinal_injective

/-- No operation leads from a result back to itself. -/
def AcyclicOperands (e : Evaluation) : Prop :=
  ∀ x, ¬ Relation.TransGen (FlowsThrough e.facts.isOperation fun _ => True) x x

theorem acyclicOperands_of_rank (rank : AccessPath → ℕ) (hrank : ∀ op ∈ e.facts.isOperation,
    ∀ src ∈ op.operandList, ∀ tgt ∈ op.resultList, rank src < rank tgt) : AcyclicOperands e := by
  have hchain : ∀ src tgt, Relation.TransGen (FlowsThrough e.facts.isOperation fun _ => True)
      src tgt → rank src < rank tgt := by
    intro src tgt h
    induction h with
    | single hflow =>
      obtain ⟨op, hop, -, hsrc, htgt⟩ := hflow
      exact hrank op hop _ hsrc _ htgt
    | tail _ hflow ih =>
      obtain ⟨op, hop, -, hsrc, htgt⟩ := hflow
      exact ih.trans (hrank op hop _ hsrc _ htgt)
  exact fun x hcycle => Nat.lt_irrefl _ (hchain x x hcycle)

theorem mechanismOnPath_filteredByLiteral :
    filteredByLiteral.MechanismOnPath "in1" (mechanismOn "f") 3 "p" := by
  have hinput : rawInput ∈ filteredByLiteral.facts.isOperation := by decide
  have hfilter : filterOperation ∈ filteredByLiteral.facts.isOperation := by decide
  have hmechanism : mechanismOn "f" ∈ filteredByLiteral.facts.isOperation := by decide
  have hsql : IsSqlInput filteredByLiteral.facts.isOperation filteredByLiteral.program
      filterOperation "in1" :=
    (isSqlInput_iff hfilter _).mpr ⟨.inl ⟨hfilter, _, ⟨hfilter, rfl⟩, "sql.",
      List.mem_cons_self .., by decide⟩, List.mem_cons_self ..⟩
  have hpath : SqlPath filteredByLiteral.facts.isOperation filteredByLiteral.program "in1" "f" :=
    .step (.sqlInput hsql) ⟨hfilter, rfl⟩ ((flatten_iff hfilter _).mpr (List.mem_cons_self ..))
      ((operationHasResult_iff _ _).mpr ⟨hfilter, List.mem_cons_self ..⟩)
  exact
    { initial := ⟨rawInput, _, hinput, ⟨hinput, rfl⟩, List.mem_cons_self ..,
        (operationHasResult_iff _ _).mpr ⟨hinput, List.mem_cons_self ..⟩⟩
      hasEpsilon := ⟨⟨hmechanism, hmechanism, rfl⟩,
        (operationHasAttribute_iff _ _).mpr ⟨hmechanism, List.mem_cons_self ..⟩⟩
      hasResult := (operationHasResult_iff _ _).mpr ⟨hmechanism, List.mem_cons_self ..⟩
      path := .step hpath ⟨hmechanism, rfl⟩
        ((flatten_iff hmechanism _).mpr (List.mem_cons_self ..))
        ((operationHasResult_iff _ _).mpr ⟨hmechanism, List.mem_cons_self ..⟩) }

theorem kappaPositive_filteredByLiteral : KappaPositive filteredByLiteral.facts := by
  have hnone : ∀ op ∈ filteredByLiteral.facts.isOperation, ∀ attr ∈ op.attributes,
      attr.attrName ≠ "kappa" := by decide
  intro op hop kappa hattr
  exact absurd rfl (hnone op hop _ ((operationHasAttribute_iff _ _).mp hattr).2)

/-- The literal has no operand and so no score, which drops the filter and then the mechanism. -/
theorem not_counted_filteredByLiteral : ¬ Counted filteredByLiteral "p" := by
  have hmechanism : ∀ op ∈ filteredByLiteral.facts.isOperation, "p" ∈ op.resultList →
      "f" ∈ op.operandList := by decide
  have hfilter : ∀ op ∈ filteredByLiteral.facts.isOperation, "f" ∈ op.resultList →
      "lit" ∈ op.operandList := by decide
  have hliteral : ∀ op ∈ filteredByLiteral.facts.isOperation, "lit" ∈ op.resultList →
      op.operandList = [] := by decide
  have hinitial : ∀ op ∈ filteredByLiteral.facts.isOperation, op.operator ∈ inputOperators →
      "f" ∉ op.resultList ∧ "lit" ∉ op.resultList := by decide
  have hbase : ∀ x ∈ ["f", "lit"], ¬ IsBaseOperand filteredByLiteral x := by
    rintro x hx (rfl | ⟨op, operator, hop, ⟨-, rfl⟩, hoperator, hresult⟩)
    · exact absurd hx (by decide)
    · have hmem := ((operationHasResult_iff _ _).mp hresult).2
      obtain ⟨hf, hlit⟩ := hinitial op hop hoperator
      rcases List.mem_pair.mp hx with rfl | rfl
      · exact hf hmem
      · exact hlit hmem
  intro hcounted
  cases hcounted with
  | result hop hvalue _ _ hoperands =>
    cases hoperands "f" (hmechanism _ hop hvalue) (hbase _ (by decide)) with
    | result hop hvalue _ _ hoperands =>
      cases hoperands "lit" (hfilter _ hop hvalue) (hbase _ (by decide)) with
      | result hop hvalue hne => exact hne (hliteral _ hop hvalue)

theorem filteredByLiteral_drops : ¬ ∀ e : Evaluation, AcyclicOperands e → KappaPositive e.facts →
    e.AllMechanismsTakePart := by
  intro hall
  have hacyclic : AcyclicOperands filteredByLiteral :=
    acyclicOperands_of_rank (fun x => if x = "p" then 2 else if x = "f" then 1 else 0) (by decide)
  have hpart := hall filteredByLiteral hacyclic kappaPositive_filteredByLiteral _ _ _ _
    mechanismOnPath_filteredByLiteral
  exact not_counted_filteredByLiteral hpart.counted

/-- A mechanism on groups of the input is counted, with a factor of two. -/
def groupOperation : Operation where
  actor := sqlActor
  operator := sqlGroupByOperator
  resultList := ["g"]
  operandList := ["in1"]

def groupedMechanism : Evaluation where
  program := dpPolicyVerifierInterface
  facts :=
    { isOperation := {rawInput, groupOperation, mechanismOn "g"}
      isDPParameter := {.epsilonValue 1} }
  ord := symbolOrdinal
  ord_injective := symbolOrdinal_injective

theorem forall_groupedMechanism {P : Operation → Prop} (hinput : P rawInput)
    (hgroup : P groupOperation) (hmechanism : P (mechanismOn "g")) :
    ∀ op ∈ groupedMechanism.facts.isOperation, P op := by
  intro op hop
  simp only [groupedMechanism, Finset.mem_insert, Finset.mem_singleton] at hop
  rcases hop with rfl | rfl | rfl
  · exact hinput
  · exact hgroup
  · exact hmechanism

theorem isBaseOperand_groupedMechanism (x : AccessPath) :
    IsBaseOperand groupedMechanism x ↔ x = anyValue ∨ x = "in1" := by
  have hinputs : ∀ op ∈ groupedMechanism.facts.isOperation, op.operator ∈ inputOperators →
      op.resultList = ["in1"] := by decide
  refine or_congr_right ⟨?_, ?_⟩
  · rintro ⟨op, operator, hop, ⟨-, rfl⟩, hoperator, hresult⟩
    have hmem := ((operationHasResult_iff _ _).mp hresult).2
    rw [hinputs op hop hoperator] at hmem
    exact List.mem_singleton.mp hmem
  · rintro rfl
    have hinput : rawInput ∈ groupedMechanism.facts.isOperation := by decide
    exact ⟨rawInput, _, hinput, ⟨hinput, rfl⟩, List.mem_cons_self ..,
      (operationHasResult_iff _ _).mpr ⟨hinput, List.mem_cons_self ..⟩⟩

theorem factorProduct_groupedMechanism {x : AccessPath} {product : ℤ}
    (h : FactorProduct groupedMechanism x product) :
    product = if x = anyValue ∨ x = "in1" then 1 else 2 := by
  induction h with
  | base hbase => rw [if_pos ((isBaseOperand_groupedMechanism _).mp hbase)]
  | @step op x value product factor hop hx hvalue hfactor _ ih =>
    rw [ih]
    have hmem := hop.mem
    revert hmem hx hvalue hfactor
    refine fun hx hvalue hfactor hmem => forall_groupedMechanism (P := fun op =>
      x ∈ op.operandList → value ∈ op.resultList → HasFactor groupedMechanism op factor →
        (if x = anyValue ∨ x = "in1" then 1 else 2) * factor =
          if value = anyValue ∨ value = "in1" then 1 else 2) ?_ ?_ ?_ op hmem hx hvalue hfactor
    · intro hx
      exact absurd hx List.not_mem_nil
    · intro hx hvalue hfactor
      rw [List.mem_singleton.mp hx, List.mem_singleton.mp hvalue, hasFactor_groupBy rfl hfactor]
      decide
    · intro hx hvalue hfactor
      rw [List.mem_singleton.mp hx, List.mem_singleton.mp hvalue,
        hasFactor_mechanism ⟨by decide, by decide, rfl⟩ hfactor]
      decide

theorem counted_groupedMechanism : Counted groupedMechanism "p" := by
  have hgroup : Counted groupedMechanism "g" := by
    refine @Counted.result _ groupOperation "g" (by decide) (by decide) (by decide)
      (fun h => absurd h (by decide)) ?_
    intro x hx hbase
    rw [List.mem_singleton.mp hx, isBaseOperand_groupedMechanism] at hbase
    exact absurd (.inr rfl) hbase
  refine @Counted.result _ (mechanismOn "g") "p" (by decide) (by decide) (by decide)
    (fun h => absurd h (by decide)) ?_
  intro x hx _
  rw [List.mem_singleton.mp hx]
  exact hgroup

theorem kappaPositive_groupedMechanism : KappaPositive groupedMechanism.facts := by
  have hnone : ∀ op ∈ groupedMechanism.facts.isOperation, ∀ attr ∈ op.attributes,
      attr.attrName ≠ "kappa" := by decide
  intro op hop kappa hattr
  exact absurd rfl (hnone op hop _ ((operationHasAttribute_iff _ _).mp hattr).2)

theorem groupedMechanism_takesPart : groupedMechanism.AllMechanismsTakePart := by
  have hmechanisms : ∀ op ∈ groupedMechanism.facts.isOperation,
      op.operator = privacyMechanismOperator → op = mechanismOn "g" := by decide
  refine (mechanisms_takePart kappaPositive_groupedMechanism).2 ?_
  intro value op epsilon result hpath
  obtain rfl := hmechanisms op hpath.hasEpsilon.1.1 hpath.hasEpsilon.1.2.2
  have hattribute :=
    List.mem_singleton.mp ((operationHasAttribute_iff _ _).mp hpath.hasEpsilon.2).2
  cases hattribute
  obtain rfl := List.mem_singleton.mp ((operationHasResult_iff _ _).mp hpath.hasResult).2
  refine ⟨counted_groupedMechanism, fun product hproduct => ?_⟩
  rw [factorProduct_groupedMechanism hproduct]
  decide

end Evaluation

end Raksha.Souffle
