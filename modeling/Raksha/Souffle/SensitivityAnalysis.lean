import Mathlib.Algebra.BigOperators.Finprod
import Raksha.Souffle.ResolvedEdges

/-!
# Sensitivity and privacy budgets

`sensitivity_analysis.dl` and the relations of `epsilon_analysis.dl`: the paths of data from the
inputs of SQL operations, the sensitivity of values and the sums of the privacy parameters of the
mechanisms on these paths.
-/

namespace Raksha.Souffle
open Datalog

def privacyMechanismOperator : Operator := "privacy_mechanism"
def sqlJoinOperator : Operator := "sql.join"
def sqlGroupByOperator : Operator := "sql.group_by"
def sqlFunctionCallOperator : Operator := "sql.function_call"
def anyValue : AccessPath := "<<ANY>>"

/-- `isSqlOperationPrefix`. -/
def sqlOperationPrefixes : List Symbol := ["sql.", "googlesql."]

def aggregationOperators : List Operator :=
  ["sql.sum", "sql.count", "sql.max", "sql.min", "sql.average", "sql.median", "sql.stddev",
    "sql.percentile_cont", "sql.variance"]

def inputOperators : List Operator := ["core.input", "sql.input_table_column"]

/-! ### Numbers -/

/-- The analysis is built with `RAM_DOMAIN_SIZE=64`: a number has 64 bits and a sign. -/
def IsNumber (n : ℤ) : Prop := -2 ^ 63 ≤ n ∧ n < 2 ^ 63

instance (n : ℤ) : Decidable (IsNumber n) := inferInstanceAs (Decidable (_ ∧ _))

/-- Products and sums of numbers wrap around. -/
def wrapNumber (n : ℤ) : ℤ := n.bmod (2 ^ 64)

theorem isNumber_wrapNumber (n : ℤ) : IsNumber (wrapNumber n) := by
  have hlow := Int.le_bmod (x := n) (m := 2 ^ 64) (by decide)
  have hhigh := Int.bmod_lt (x := n) (m := 2 ^ 64) (by decide)
  unfold IsNumber wrapNumber
  omega

theorem wrapNumber_of_isNumber {n : ℤ} (h : IsNumber n) : wrapNumber n = n := by
  obtain ⟨hlow, hhigh⟩ := h
  exact Int.bmod_eq_of_le (by omega) (by omega)

theorem isNumber_max {m n : ℤ} (hm : IsNumber m) (hn : IsNumber n) : IsNumber (max m n) := by
  rcases max_choice m n with h | h
  · rwa [h]
  · rwa [h]

theorem finite_isNumber : {n | IsNumber n}.Finite := Set.finite_Ico _ _

section

variable (isOperation : Finset Operation)

def IsSqlOperation (op : Operation) : Prop :=
  op ∈ isOperation ∧ ∃ operator, OperationHasOperator isOperation op operator ∧
    ∃ start ∈ sqlOperationPrefixes, operator.toList.take start.length = start.toList

def IsAggregationOperation (op : Operation) : Prop :=
  IsSqlOperation isOperation op ∧
    ((∃ operator, OperationHasOperator isOperation op operator ∧
        operator ∈ aggregationOperators) ∨
      OperationHasOperator isOperation op sqlFunctionCallOperator ∧
        HasStringAttribute isOperation op "function_kind" "aggregate")

def IsInitialInput (ingressPoint : AccessPath) : Prop :=
  ∃ op operator, op ∈ isOperation ∧ OperationHasOperator isOperation op operator ∧
    operator ∈ inputOperators ∧ OperationHasResult isOperation op ingressPoint

def IntermediateFlatten (list sublist : List AccessPath) (element : AccessPath) : Prop :=
  ∃ op, OperationHasOperandList isOperation op list ∧
    OperationHasOperandListSuffix isOperation op (element :: sublist)

def Flatten (list : List AccessPath) (element : AccessPath) : Prop :=
  ∃ sublist, IntermediateFlatten isOperation list sublist element

def IsDiffPrivacyMechanism (op : Operation) : Prop :=
  op ∈ isOperation ∧ OperationHasOperator isOperation op privacyMechanismOperator

def IsSqlOutput (op : Operation) : Prop :=
  op ∈ isOperation ∧ OperationHasActor isOperation op sqlActor ∧
    OperationHasOperator isOperation op sqlOutputOperator

/-- `isSqlInput`, with the rule that `epsilon_analysis.dl` adds. -/
inductive IsSqlInput (program : Program) : Operation → AccessPath → Prop
  | sqlOperation {op : Operation} {inputs : List AccessPath} {x : AccessPath} :
      IsSqlOperation isOperation op → OperationHasOperandList isOperation op inputs →
      Flatten isOperation inputs x → IsSqlInput program op x
  | mechanism {op : Operation} {inputs : List AccessPath} {x : AccessPath} :
      .epsilonAnalysis ∈ program → IsDiffPrivacyMechanism isOperation op →
      OperationHasOperandList isOperation op inputs → Flatten isOperation inputs x →
      IsSqlInput program op x

inductive SqlPath (program : Program) : AccessPath → AccessPath → Prop
  | sqlInput {op : Operation} {x : AccessPath} : IsSqlInput isOperation program op x →
      SqlPath program x x
  | mechanismInput {op : Operation} {inputs : List AccessPath} {x : AccessPath} :
      IsDiffPrivacyMechanism isOperation op → OperationHasOperandList isOperation op inputs →
      Flatten isOperation inputs x → SqlPath program x x
  | step {start mid stop : AccessPath} {op : Operation} {inputs : List AccessPath} :
      SqlPath program start mid → OperationHasOperandList isOperation op inputs →
      Flatten isOperation inputs mid → OperationHasResult isOperation op stop →
      SqlPath program start stop

/-- `sqlFunctionSensitivity`. -/
inductive SqlFunctionSensitivity : Operator → ℤ → Prop
  | aggregation {op : Operation} {operator : Operator} : IsAggregationOperation isOperation op →
      OperationHasOperator isOperation op operator → SqlFunctionSensitivity operator 1
  | one {operator : Operator} : operator ∈ ["sql.filter", "sql.where", "sql.select",
      "sql.column_access", "sql.output", "sql.order_by", "sql.function_call"] →
      SqlFunctionSensitivity operator 1
  | two {operator : Operator} : operator ∈ ["sql.select_distinct", "sql.group_by"] →
      SqlFunctionSensitivity operator 2

def JoinOperationHasKappa (program : Program) (op : Operation) (kappa : ℤ) : Prop :=
  IsSqlOperation isOperation op ∧ OperationHasOperator isOperation op sqlJoinOperator ∧
    ∃ result mechanism mechanismResult, OperationHasResult isOperation op result ∧
      IsDiffPrivacyMechanism isOperation mechanism ∧
      OperationHasResult isOperation mechanism mechanismResult ∧
      HasNumberAttribute isOperation mechanism "kappa" kappa ∧
      SqlPath isOperation program result mechanismResult

def SqlFunctionJoinSensitivity (program : Program) (op : Operation) (score : ℤ) : Prop :=
  IsSqlOperation isOperation op ∧ OperationHasOperator isOperation op sqlJoinOperator ∧
    (JoinOperationHasKappa isOperation program op score ∨
      (¬ ∃ kappa, JoinOperationHasKappa isOperation program op kappa) ∧ score = 1)

end

inductive SensitivityAtom
  | sqlValueSensitivity (value : AccessPath) (score : ℤ)
  | sqlOperationHasSensitivityScoreAtIndex (op : Operation) (score index : ℤ)

open SensitivityAtom in
inductive SensitivityRule (e : Evaluation) : RuleSet SensitivityAtom
  | scaled {op : Operation} {value : AccessPath} {operator : Operator}
      {length input function : ℤ} : op ∈ e.facts.isOperation →
      OperationHasResult e.facts.isOperation op value →
      OperationOperandListLength e.facts.isOperation op length →
      OperationHasOperator e.facts.isOperation op operator →
      SqlFunctionJoinSensitivity e.facts.isOperation e.program op function ∨
        SqlFunctionSensitivity e.facts.isOperation operator function →
      SensitivityRule e (sqlValueSensitivity value (wrapNumber (input * function)))
        [sqlOperationHasSensitivityScoreAtIndex op input (length - 1)]
  | unscaled {op : Operation} {value : AccessPath} {operator : Operator}
      {length input : ℤ} : op ∈ e.facts.isOperation →
      OperationHasResult e.facts.isOperation op value →
      OperationOperandListLength e.facts.isOperation op length →
      OperationHasOperator e.facts.isOperation op operator →
      (¬ ∃ score, SqlFunctionSensitivity e.facts.isOperation operator score) →
      (¬ ∃ score, SqlFunctionJoinSensitivity e.facts.isOperation e.program op score) →
      SensitivityRule e (sqlValueSensitivity value input)
        [sqlOperationHasSensitivityScoreAtIndex op input (length - 1)]
  | initial {op : Operation} {x : AccessPath} : op ∈ e.facts.isOperation →
      OperationHasOperandAtIndex e.facts.isOperation op x 0 →
      IsInitialInput e.facts.isOperation x ∨ x = anyValue →
      SensitivityRule e (sqlOperationHasSensitivityScoreAtIndex op 1 0) []
  | first {op : Operation} {x : AccessPath} {score : ℤ} : op ∈ e.facts.isOperation →
      OperationHasOperandAtIndex e.facts.isOperation op x 0 →
      SensitivityRule e (sqlOperationHasSensitivityScoreAtIndex op score 0)
        [sqlValueSensitivity x score]
  | next {op : Operation} {x : AccessPath} {prevScore score prevIndex : ℤ} :
      op ∈ e.facts.isOperation →
      OperationHasOperandAtIndex e.facts.isOperation op x (prevIndex + 1) →
      IsSqlInput e.facts.isOperation e.program op x →
      SensitivityRule e
        (sqlOperationHasSensitivityScoreAtIndex op (max prevScore score) (prevIndex + 1))
        [sqlOperationHasSensitivityScoreAtIndex op prevScore prevIndex,
          sqlValueSensitivity x score]
  | nextInitial {op : Operation} {x : AccessPath} {prevScore prevIndex : ℤ} :
      op ∈ e.facts.isOperation →
      OperationHasOperandAtIndex e.facts.isOperation op x (prevIndex + 1) →
      IsSqlInput e.facts.isOperation e.program op x →
      x = anyValue ∨ IsInitialInput e.facts.isOperation x →
      SensitivityRule e
        (sqlOperationHasSensitivityScoreAtIndex op (max prevScore 1) (prevIndex + 1))
        [sqlOperationHasSensitivityScoreAtIndex op prevScore prevIndex]

namespace Evaluation

variable (e : Evaluation)

def SqlValueSensitivity (value : AccessPath) (score : ℤ) : Prop :=
  Derivable (SensitivityRule e) (.sqlValueSensitivity value score)

/-! ### `epsilon_analysis.dl` -/

def IsGlobalEpsilon (epsilon : ℤ) : Prop :=
  .epsilonValue epsilon ∈ e.facts.isDPParameter ∨
    ∃ speaker, (speaker, epsilon) ∈ e.facts.saysIsGlobalEpsilon

def IsGlobalDelta (delta : ℤ) : Prop :=
  .deltaValue delta ∈ e.facts.isDPParameter ∨
    ∃ speaker, (speaker, delta) ∈ e.facts.saysIsGlobalDelta

def DiffPrivacyMechanismHasEpsilon (op : Operation) (epsilon : ℤ) : Prop :=
  IsDiffPrivacyMechanism e.facts.isOperation op ∧
    HasNumberAttribute e.facts.isOperation op "epsilon" epsilon

def DiffPrivacyMechanismHasDelta (op : Operation) (delta : ℤ) : Prop :=
  IsDiffPrivacyMechanism e.facts.isOperation op ∧
    HasNumberAttribute e.facts.isOperation op "delta" delta

def EpsilonDiffPrivacyIntermediate (value sqlOutput : AccessPath) (epsilon : ℤ) : Prop :=
  SqlPath e.facts.isOperation e.program value sqlOutput ∧ ∃ op sensitivity mechanismEpsilon,
    IsDiffPrivacyMechanism e.facts.isOperation op ∧
    OperationHasResult e.facts.isOperation op sqlOutput ∧
    e.SqlValueSensitivity sqlOutput sensitivity ∧
    e.DiffPrivacyMechanismHasEpsilon op mechanismEpsilon ∧
    epsilon = wrapNumber (mechanismEpsilon * sensitivity)

/-- The bindings over which the epsilons of a value are summed. -/
def epsilonBindings (value : AccessPath) : Set (Operation × AccessPath × AccessPath × ℤ) :=
  {b | IsSqlOutput e.facts.isOperation b.1 ∧
    OperationHasResult e.facts.isOperation b.1 b.2.1 ∧
    SqlPath e.facts.isOperation e.program b.2.2.1 b.2.1 ∧
    e.EpsilonDiffPrivacyIntermediate value b.2.2.1 b.2.2.2}

/-- The sum of the epsilons of a value, before it wraps around. -/
noncomputable def epsilonSum (value : AccessPath) : ℤ :=
  finsum fun b : e.epsilonBindings value => b.1.2.2.2

def EpsilonDiffPrivacy (value : AccessPath) (epsilon : ℤ) : Prop :=
  IsInitialInput e.facts.isOperation value ∧ epsilon = wrapNumber (e.epsilonSum value)

def DeltaDiffPrivacyIntermediate (value sqlOutput : AccessPath) (delta : ℤ) : Prop :=
  SqlPath e.facts.isOperation e.program value sqlOutput ∧ ∃ op,
    IsDiffPrivacyMechanism e.facts.isOperation op ∧
    OperationHasResult e.facts.isOperation op sqlOutput ∧ e.DiffPrivacyMechanismHasDelta op delta

def deltaBindings (value : AccessPath) : Set (AccessPath × ℤ) :=
  {b | e.DeltaDiffPrivacyIntermediate value b.1 b.2}

def DeltaDiffPrivacy (value : AccessPath) (delta : ℤ) : Prop :=
  (∃ stop, SqlPath e.facts.isOperation e.program value stop) ∧
    delta = wrapNumber (finsum fun b : e.deltaBindings value => b.1.2)

/-- `joinOperationIsGroupingJoin`. The first alternative names its second start by a variable of
its own (`initital_input2`). -/
def JoinOperationIsGroupingJoin (op : Operation) : Prop :=
  IsSqlOperation e.facts.isOperation op ∧
    HasStringAttribute e.facts.isOperation op "join_type" "INNER" ∧
    OperationHasOperator e.facts.isOperation op sqlJoinOperator ∧
    ∃ input₁ input₂ groupBy₁ groupBy₂ initial₁ initial₂,
      OperationHasOperand e.facts.isOperation op input₁ ∧
      OperationHasOperand e.facts.isOperation op input₂ ∧ input₁ ≠ input₂ ∧
      IsSqlOperation e.facts.isOperation groupBy₁ ∧
      OperationHasOperator e.facts.isOperation groupBy₁ sqlGroupByOperator ∧
      OperationHasResult e.facts.isOperation groupBy₁ input₁ ∧
      IsSqlOperation e.facts.isOperation groupBy₂ ∧
      OperationHasOperator e.facts.isOperation groupBy₂ sqlGroupByOperator ∧
      OperationHasResult e.facts.isOperation groupBy₂ input₂ ∧
      IsInitialInput e.facts.isOperation initial₁ ∧
      IsInitialInput e.facts.isOperation initial₂ ∧
      (SqlPath e.facts.isOperation e.program initial₁ input₁ ∧
          (∃ other, SqlPath e.facts.isOperation e.program other input₂) ∨
        SqlPath e.facts.isOperation e.program initial₂ input₁ ∧
          SqlPath e.facts.isOperation e.program initial₁ input₂)

/-! ### The violations of a privacy policy -/

/-- A global epsilon is set, and there is no mechanism at all or one without an epsilon. -/
def LacksLocalEpsilon (value : AccessPath) : Prop :=
  IsInitialInput e.facts.isOperation value ∧ ∃ op sqlOutput epsilon,
    IsSqlOutput e.facts.isOperation op ∧ OperationHasResult e.facts.isOperation op sqlOutput ∧
    SqlPath e.facts.isOperation e.program value sqlOutput ∧ e.IsGlobalEpsilon epsilon ∧
    ((¬ ∃ mechanism, IsDiffPrivacyMechanism e.facts.isOperation mechanism) ∨
      ∃ mechanism, IsDiffPrivacyMechanism e.facts.isOperation mechanism ∧
        ¬ ∃ local_, e.DiffPrivacyMechanismHasEpsilon mechanism local_)

def ExceedsGlobalEpsilon (value : AccessPath) : Prop :=
  ∃ op sqlOutput epsilon globalEpsilon, IsSqlOutput e.facts.isOperation op ∧
    OperationHasResult e.facts.isOperation op sqlOutput ∧
    SqlPath e.facts.isOperation e.program value sqlOutput ∧ e.EpsilonDiffPrivacy value epsilon ∧
    e.IsGlobalEpsilon globalEpsilon ∧ globalEpsilon < epsilon

def ExceedsGlobalDelta (value : AccessPath) : Prop :=
  ∃ op sqlOutput delta globalDelta, IsSqlOutput e.facts.isOperation op ∧
    OperationHasResult e.facts.isOperation op sqlOutput ∧
    SqlPath e.facts.isOperation e.program value sqlOutput ∧ e.DeltaDiffPrivacy value delta ∧
    e.IsGlobalDelta globalDelta ∧ globalDelta < delta

def IsUnrestrictedJoin (value : AccessPath) : Prop :=
  ∃ op outputOp sqlOutput, IsSqlOperation e.facts.isOperation op ∧
    OperationHasResult e.facts.isOperation op value ∧
    OperationHasOperator e.facts.isOperation op sqlJoinOperator ∧
    (¬ ∃ kappa, JoinOperationHasKappa e.facts.isOperation e.program op kappa) ∧
    ¬ e.JoinOperationIsGroupingJoin op ∧
    SqlPath e.facts.isOperation e.program value sqlOutput ∧
    IsSqlOutput e.facts.isOperation outputOp ∧
    OperationHasResult e.facts.isOperation outputOp sqlOutput

end Evaluation

end Raksha.Souffle
