import Raksha.Lib.ForwardSearch
import Raksha.Souffle.ViolatesPolicy

/-!
# Protected paths

The privacy policy asks for a local epsilon per output path. The rules look for mechanisms in the
whole program instead, and for paths that start at an input of a SQL operation. Where their silence
protects the outputs is decided by searches over the operations.
-/

namespace Raksha.Souffle
open ForwardSearch

/-- Data flows from an operand to a result of an operation that satisfies `allowed`. -/
def FlowsThrough (isOperation : Finset Operation) (allowed : Operation → Prop)
    (src tgt : AccessPath) : Prop :=
  ∃ op ∈ isOperation, allowed op ∧ src ∈ op.operandList ∧ tgt ∈ op.resultList

@[simp] theorem flatten_iff {isOperation : Finset Operation} {op : Operation}
    (hop : op ∈ isOperation) (x : AccessPath) :
    Flatten isOperation op.operandList x ↔ x ∈ op.operandList := by
  simp only [Flatten, IntermediateFlatten]
  refine ⟨?_, ?_⟩
  · rintro ⟨sublist, other, ⟨-, hlist⟩, hsuffix⟩
    obtain ⟨l, ⟨-, rfl⟩, hsuffix⟩ := (hasSuffix_iff _ _).mp hsuffix
    have hmem : x ∈ other.operandList := hsuffix.subset (List.mem_cons_self ..)
    rwa [hlist] at hmem
  · intro hx
    obtain ⟨sublist, hsuffix⟩ := (exists_cons_suffix_iff _ _).mpr hx
    exact ⟨sublist, op, ⟨hop, rfl⟩, (hasSuffix_iff _ _).mpr ⟨_, ⟨hop, rfl⟩, hsuffix⟩⟩

/-! ### Searches over the operations -/

def isMechanism (op : Operation) : Bool := op.operator == privacyMechanismOperator

def hasNumber (name : Symbol) (op : Operation) : Bool :=
  op.attributes.any fun attr => attr.attrName == name &&
    match attr.attrPayload with
    | .numberAttributePayload _ => true
    | _ => false

def hasString (name str : Symbol) (op : Operation) : Bool :=
  op.attributes.any fun attr => attr.attrName == name &&
    match attr.attrPayload with
    | .stringAttributePayload payload => payload == str
    | _ => false

/-- A mechanism, or an operation with the operator of a SQL operation. -/
def takesSqlInputs (op : Operation) : Bool :=
  isMechanism op || sqlOperationPrefixes.any fun start =>
    op.operator.toList.take start.length == start.toList

/-- Everything but a mechanism with an epsilon. -/
def passesUnprotected (op : Operation) : Bool := !(isMechanism op && hasNumber "epsilon" op)

section

variable (isOperation : Finset Operation)

def dataFlow (allowed : Operation → Bool) : FlowGraph AccessPath Operation where
  edges := isOperation.filter fun op => allowed op
  sources := Operation.operandList
  targets := Operation.resultList

def initialInputs : Finset AccessPath :=
  (isOperation.filter fun op => op.operator ∈ inputOperators).biUnion fun op =>
    op.resultList.toFinset

def sqlInputs : Finset AccessPath :=
  (isOperation.filter fun op => takesSqlInputs op).biUnion fun op => op.operandList.toFinset

def reached (start : Finset AccessPath) : Finset AccessPath :=
  (dataFlow isOperation fun _ => true).search start

/-- What the operations other than mechanisms with an epsilon make of the initial inputs. -/
def rawValues : Finset AccessPath :=
  (dataFlow isOperation passesUnprotected).search (initialInputs isOperation)

/-- Such an operation reads a raw value and writes a result of an output. -/
def RawOutput : Prop :=
  ∃ op ∈ isOperation, passesUnprotected op ∧
    (∃ src ∈ op.operandList, src ∈ rawValues isOperation) ∧
    ∃ output ∈ op.resultList, ∃ outputOp ∈ isOperation,
      outputOp.operator = sqlOutputOperator ∧ output ∈ outputOp.resultList

/-- There is no mechanism at all, or there is one without an epsilon. -/
def MechanismsIncomplete : Prop :=
  (∀ op ∈ isOperation, ¬ isMechanism op) ∨
    ∃ op ∈ isOperation, isMechanism op ∧ ¬ hasNumber "epsilon" op

/-- Some of the values are inputs of SQL operations from which data reaches a SQL output. -/
def OutputReached (values : Finset AccessPath) : Prop :=
  ∃ op ∈ isOperation, op.actor = sqlActor ∧ op.operator = sqlOutputOperator ∧
    ∃ output ∈ op.resultList, output ∈ reached isOperation (values ∩ sqlInputs isOperation)

def groupedValues : Finset AccessPath :=
  (isOperation.filter fun op => op.operator = sqlGroupByOperator).biUnion fun op =>
    op.resultList.toFinset

/-- An inner join of two grouped values, the first of which comes from an initial input. -/
def GroupingJoin (op : Operation) : Prop :=
  op.operator = sqlJoinOperator ∧ hasString "join_type" "INNER" op ∧
    ∃ input₁ ∈ op.operandList, ∃ input₂ ∈ op.operandList, input₁ ≠ input₂ ∧
      input₁ ∈ groupedValues isOperation ∧ input₂ ∈ groupedValues isOperation ∧
      input₁ ∈ reached isOperation (initialInputs isOperation ∩ sqlInputs isOperation)

/-- A join that is no grouping join and leads to an output, with no kappa behind it. -/
def UnrestrictedJoin (op : Operation) : Prop :=
  op.operator = sqlJoinOperator ∧ ¬ GroupingJoin isOperation op ∧
    (∀ mechanism ∈ isOperation, isMechanism mechanism → hasNumber "kappa" mechanism →
      ∀ result ∈ mechanism.resultList,
        result ∉ reached isOperation (op.resultList.toFinset ∩ sqlInputs isOperation)) ∧
    OutputReached isOperation op.resultList.toFinset

/-- Mechanisms are missing, or a join may spread a value. -/
def Suspicious : Prop :=
  MechanismsIncomplete isOperation ∧ OutputReached isOperation (initialInputs isOperation) ∨
    ∃ op ∈ isOperation, UnrestrictedJoin isOperation op

instance : Decidable (RawOutput isOperation) :=
  inferInstanceAs (Decidable (∃ op ∈ isOperation, _ ∧ _))

instance : Decidable (MechanismsIncomplete isOperation) := inferInstanceAs (Decidable (_ ∨ _))

instance (values : Finset AccessPath) : Decidable (OutputReached isOperation values) :=
  inferInstanceAs (Decidable (∃ op ∈ isOperation, _ ∧ _))

instance (op : Operation) : Decidable (GroupingJoin isOperation op) :=
  inferInstanceAs (Decidable (_ ∧ _))

instance (op : Operation) : Decidable (UnrestrictedJoin isOperation op) :=
  inferInstanceAs (Decidable (_ ∧ _))

instance : Decidable (Suspicious isOperation) := inferInstanceAs (Decidable (_ ∨ _))

end

section

variable {isOperation : Finset Operation}

theorem leads_dataFlow_iff (allowed : Operation → Bool) (src tgt : AccessPath) :
    (dataFlow isOperation allowed).Leads src tgt ↔
      FlowsThrough isOperation (fun op => allowed op) src tgt := by
  refine ⟨?_, ?_⟩
  · rintro ⟨op, hop, hsrc, htgt⟩
    obtain ⟨hmem, hallowed⟩ := Finset.mem_filter.mp hop
    exact ⟨op, hmem, hallowed, hsrc, htgt⟩
  · rintro ⟨op, hop, hallowed, hsrc, htgt⟩
    exact ⟨op, Finset.mem_filter.mpr ⟨hop, hallowed⟩, hsrc, htgt⟩

theorem mem_initialInputs (x : AccessPath) :
    x ∈ initialInputs isOperation ↔ IsInitialInput isOperation x := by
  simp only [initialInputs, Finset.mem_biUnion, Finset.mem_filter, List.mem_toFinset,
    IsInitialInput, operationHasResult_iff]
  refine ⟨?_, ?_⟩
  · rintro ⟨op, ⟨hop, hoperator⟩, hresult⟩
    exact ⟨op, _, hop, ⟨hop, rfl⟩, hoperator, hop, hresult⟩
  · rintro ⟨op, operator, hop, ⟨-, rfl⟩, hoperator, -, hresult⟩
    exact ⟨op, ⟨hop, hoperator⟩, hresult⟩

theorem isMechanism_iff {op : Operation} (hop : op ∈ isOperation) :
    isMechanism op ↔ IsDiffPrivacyMechanism isOperation op := by
  rw [isMechanism, beq_iff_eq]
  exact ⟨fun hoperator => ⟨hop, hop, hoperator⟩, fun h => h.2.2⟩

theorem hasNumber_iff {op : Operation} (hop : op ∈ isOperation) (name : Symbol) :
    hasNumber name op ↔ ∃ n, HasNumberAttribute isOperation op name n := by
  simp only [hasNumber, List.any_eq_true, Bool.and_eq_true, beq_iff_eq]
  refine ⟨?_, ?_⟩
  · rintro ⟨⟨attrName, payload⟩, hmem, hname, hnumber⟩
    obtain rfl : attrName = name := hname
    cases payload with
    | numberAttributePayload n => exact ⟨n, (operationHasAttribute_iff _ _).mpr ⟨hop, hmem⟩⟩
    | stringAttributePayload => exact absurd hnumber (by simp)
    | floatAttributePayload => exact absurd hnumber (by simp)
  · rintro ⟨n, hattribute⟩
    exact ⟨_, ((operationHasAttribute_iff _ _).mp hattribute).2, rfl, rfl⟩

theorem hasString_iff {op : Operation} (hop : op ∈ isOperation) (name str : Symbol) :
    hasString name str op ↔ HasStringAttribute isOperation op name str := by
  simp only [hasString, List.any_eq_true, Bool.and_eq_true, beq_iff_eq]
  refine ⟨?_, ?_⟩
  · rintro ⟨⟨attrName, payload⟩, hmem, hname, hstring⟩
    obtain rfl : attrName = name := hname
    cases payload with
    | stringAttributePayload payload =>
      obtain rfl : payload = str := beq_iff_eq.mp hstring
      exact (operationHasAttribute_iff _ _).mpr ⟨hop, hmem⟩
    | numberAttributePayload => exact absurd hstring (by simp)
    | floatAttributePayload => exact absurd hstring (by simp)
  · intro hattribute
    exact ⟨_, ((operationHasAttribute_iff _ _).mp hattribute).2, rfl, beq_self_eq_true _⟩

theorem mem_groupedValues (x : AccessPath) : x ∈ groupedValues isOperation ↔
    ∃ op ∈ isOperation, op.operator = sqlGroupByOperator ∧ x ∈ op.resultList := by
  simp only [groupedValues, Finset.mem_biUnion, Finset.mem_filter, List.mem_toFinset, and_assoc]

theorem takesSqlInputs_iff {op : Operation} (hop : op ∈ isOperation) : takesSqlInputs op ↔
    IsSqlOperation isOperation op ∨ IsDiffPrivacyMechanism isOperation op := by
  rw [takesSqlInputs, Bool.or_eq_true, isMechanism_iff hop, List.any_eq_true, or_comm]
  simp only [beq_iff_eq]
  refine or_congr_left ⟨?_, ?_⟩
  · rintro ⟨start, hstart, hoperator⟩
    exact ⟨hop, _, ⟨hop, rfl⟩, start, hstart, hoperator⟩
  · rintro ⟨-, operator, ⟨-, rfl⟩, start, hstart, hoperator⟩
    exact ⟨start, hstart, hoperator⟩

theorem mem_sqlInputs (x : AccessPath) : x ∈ sqlInputs isOperation ↔
    ∃ op ∈ isOperation, (IsSqlOperation isOperation op ∨ IsDiffPrivacyMechanism isOperation op) ∧
      x ∈ op.operandList := by
  simp only [sqlInputs, Finset.mem_biUnion, Finset.mem_filter, List.mem_toFinset]
  refine ⟨?_, ?_⟩
  · rintro ⟨op, ⟨hop, htakes⟩, hx⟩
    exact ⟨op, hop, (takesSqlInputs_iff hop).mp htakes, hx⟩
  · rintro ⟨op, hop, htakes, hx⟩
    exact ⟨op, ⟨hop, (takesSqlInputs_iff hop).mpr htakes⟩, hx⟩

/-- A path starts at an input of a SQL operation or mechanism and follows the operations. -/
theorem sqlPath_iff {program : Program} (start stop : AccessPath) :
    SqlPath isOperation program start stop ↔ start ∈ sqlInputs isOperation ∧
      Relation.ReflTransGen (dataFlow isOperation fun _ => true).Leads start stop := by
  refine ⟨?_, ?_⟩
  · intro h
    induction h with
    | sqlInput hinput =>
      refine ⟨(mem_sqlInputs _).mpr ?_, .refl⟩
      cases hinput with
      | sqlOperation hsql hlist hflatten =>
        rw [← hlist.2, flatten_iff hlist.1] at hflatten
        exact ⟨_, hlist.1, .inl hsql, hflatten⟩
      | mechanism _ hmechanism hlist hflatten =>
        rw [← hlist.2, flatten_iff hlist.1] at hflatten
        exact ⟨_, hlist.1, .inr hmechanism, hflatten⟩
    | mechanismInput hmechanism hlist hflatten =>
      rw [← hlist.2, flatten_iff hlist.1] at hflatten
      exact ⟨(mem_sqlInputs _).mpr ⟨_, hlist.1, .inr hmechanism, hflatten⟩, .refl⟩
    | step _ hlist hflatten hresult ih =>
      rw [← hlist.2, flatten_iff hlist.1] at hflatten
      have htgt := ((operationHasResult_iff _ _).mp hresult).2
      exact ⟨ih.1, ih.2.tail ((leads_dataFlow_iff _ _ _).mpr ⟨_, hlist.1, rfl, hflatten, htgt⟩)⟩
  · rintro ⟨hstart, hflows⟩
    induction hflows with
    | refl =>
      obtain ⟨op, hop, hsql | hmechanism, hx⟩ := (mem_sqlInputs _).mp hstart
      · exact .sqlInput (.sqlOperation hsql ⟨hop, rfl⟩ ((flatten_iff hop _).mpr hx))
      · exact .mechanismInput hmechanism ⟨hop, rfl⟩ ((flatten_iff hop _).mpr hx)
    | tail _ hleads ih =>
      obtain ⟨op, hop, -, hsrc, htgt⟩ := (leads_dataFlow_iff _ _ _).mp hleads
      exact .step ih ⟨hop, rfl⟩ ((flatten_iff hop _).mpr hsrc)
        ((operationHasResult_iff _ _).mpr ⟨hop, htgt⟩)

/-- The rules see a path from one of the values to an output exactly if the search does. -/
theorem outputReached_iff (program : Program) (values : Finset AccessPath) :
    OutputReached isOperation values ↔ ∃ value ∈ values, ∃ op output,
      IsSqlOutput isOperation op ∧ OperationHasResult isOperation op output ∧
        SqlPath isOperation program value output := by
  simp only [OutputReached, reached, mem_search, Finset.mem_inter, sqlPath_iff]
  refine ⟨?_, ?_⟩
  · rintro ⟨op, hop, hactor, hoperator, output, houtput, value, ⟨hvalue, hinput⟩, hflows⟩
    exact ⟨value, hvalue, op, output, ⟨hop, ⟨hop, hactor⟩, hop, hoperator⟩,
      (operationHasResult_iff _ _).mpr ⟨hop, houtput⟩, hinput, hflows⟩
  · rintro ⟨value, hvalue, op, output, ⟨hop, ⟨-, hactor⟩, -, hoperator⟩, hresult, hinput, hflows⟩
    exact ⟨op, hop, hactor, hoperator, output, ((operationHasResult_iff _ _).mp hresult).2, value,
      ⟨hvalue, hinput⟩, hflows⟩

end

namespace Evaluation

variable (e : Evaluation)

def CarriesEpsilon (op : Operation) : Prop :=
  ∃ epsilon, e.DiffPrivacyMechanismHasEpsilon op epsilon

/-- A chain of operations without a mechanism that carries an epsilon. -/
def UnprotectedChain : AccessPath → AccessPath → Prop :=
  Relation.TransGen (FlowsThrough e.facts.isOperation fun op => ¬ e.CarriesEpsilon op)

/-- No unprotected chain leads from an initial input to an output. -/
def OutputsProtected : Prop :=
  ∀ op ∈ e.facts.isOperation, op.operator = sqlOutputOperator → ∀ output ∈ op.resultList,
    ∀ value, IsInitialInput e.facts.isOperation value → ¬ e.UnprotectedChain value output

/-- The outputs are protected if the rules report nothing. -/
def SilenceProtects : Prop :=
  (¬ ∃ value message, e.ViolatesPolicy value sensitivityAnalysisPolicy message) →
    e.OutputsProtected

/-- What a policy declares. -/
structure Declarations where
  isDPParameter : Finset DPParameterValue
  saysIsGlobalEpsilon : Finset (Principal × ℤ)
  saysIsGlobalDelta : Finset (Principal × ℤ)

/-- The same operations under another policy. -/
def declaring (declarations : Declarations) : Evaluation :=
  { e with facts :=
    { e.facts with
      isDPParameter := declarations.isDPParameter
      saysIsGlobalEpsilon := declarations.saysIsGlobalEpsilon
      saysIsGlobalDelta := declarations.saysIsGlobalDelta } }

/-- The global epsilon that no sum exceeds. -/
def largestEpsilon : Declarations where
  isDPParameter := {.epsilonValue (2 ^ 63 - 1)}
  saysIsGlobalEpsilon := ∅
  saysIsGlobalDelta := ∅

variable {e}

theorem violates_sensitivity_iff (hfile : .epsilonAnalysis ∈ e.program) :
    (∃ value message, e.ViolatesPolicy value sensitivityAnalysisPolicy message) ↔
      ∃ value, e.LacksLocalEpsilon value ∨ e.ExceedsGlobalEpsilon value ∨
        e.ExceedsGlobalDelta value ∨ e.IsUnrestrictedJoin value := by
  refine ⟨?_, ?_⟩
  · rintro ⟨value, message, h⟩
    generalize hpolicy : sensitivityAnalysisPolicy = policy at h
    cases h with
    | sensitivityAnalysis _ hviolates => exact ⟨value, hviolates⟩
    | _ => exact absurd hpolicy (by decide)
  · rintro ⟨value, hviolates⟩
    exact ⟨value, _, .sensitivityAnalysis hfile hviolates⟩

theorem carriesEpsilon_iff {op : Operation} (hop : op ∈ e.facts.isOperation) :
    e.CarriesEpsilon op ↔ isMechanism op ∧ hasNumber "epsilon" op := by
  rw [isMechanism_iff hop, hasNumber_iff hop]
  exact exists_and_left

theorem passesUnprotected_iff {op : Operation} (hop : op ∈ e.facts.isOperation) :
    passesUnprotected op ↔ ¬ e.CarriesEpsilon op := by
  rw [carriesEpsilon_iff hop, passesUnprotected, Bool.not_eq_true', ← Bool.not_eq_true,
    Bool.and_eq_true]

/-- The search for raw values finds the unprotected chains. -/
theorem rawOutput_iff : RawOutput e.facts.isOperation ↔ ¬ e.OutputsProtected := by
  have hflows : ∀ src tgt, (dataFlow e.facts.isOperation passesUnprotected).Leads src tgt ↔
      FlowsThrough e.facts.isOperation (fun op => ¬ e.CarriesEpsilon op) src tgt := by
    intro src tgt
    rw [leads_dataFlow_iff]
    exact exists_congr fun op => and_congr_right fun hop =>
      and_congr_left' (passesUnprotected_iff hop)
  have hleads : (dataFlow e.facts.isOperation passesUnprotected).Leads =
      FlowsThrough e.facts.isOperation fun op => ¬ e.CarriesEpsilon op :=
    funext fun src => funext fun tgt => propext (hflows src tgt)
  simp only [RawOutput, rawValues, mem_search, mem_initialInputs, hleads]
  refine ⟨?_, ?_⟩
  · rintro ⟨op, hop, hpasses, ⟨src, hsrc, value, hvalue, hchain⟩, output, houtput, outputOp,
      houtputOp, hoperator, hresult⟩ hprotected
    refine hprotected outputOp houtputOp hoperator output hresult value hvalue ?_
    exact .tail' hchain ⟨op, hop, (passesUnprotected_iff hop).mp hpasses, hsrc, houtput⟩
  · intro hunprotected
    simp only [OutputsProtected] at hunprotected
    push Not at hunprotected
    obtain ⟨outputOp, houtputOp, hoperator, output, hresult, value, hvalue, hchain⟩ := hunprotected
    obtain ⟨src, hchain, op, hop, hbare, hsrc, houtput⟩ := Relation.TransGen.tail'_iff.mp hchain
    exact ⟨op, hop, (passesUnprotected_iff hop).mpr hbare, ⟨src, hsrc, value, hvalue, hchain⟩,
      output, houtput, outputOp, houtputOp, hoperator, hresult⟩

theorem mechanismsIncomplete_iff : MechanismsIncomplete e.facts.isOperation ↔
    (¬ ∃ op, IsDiffPrivacyMechanism e.facts.isOperation op) ∨
      ∃ op, IsDiffPrivacyMechanism e.facts.isOperation op ∧ ¬ e.CarriesEpsilon op := by
  refine or_congr ⟨?_, ?_⟩ ⟨?_, ?_⟩
  · rintro hnone ⟨op, hmechanism⟩
    exact hnone op hmechanism.1 ((isMechanism_iff hmechanism.1).mpr hmechanism)
  · intro hnone op hop hmechanism
    exact hnone ⟨op, (isMechanism_iff hop).mp hmechanism⟩
  · rintro ⟨op, hop, hmechanism, hbare⟩
    refine ⟨op, (isMechanism_iff hop).mp hmechanism, ?_⟩
    rw [carriesEpsilon_iff hop]
    exact fun hcarries => hbare hcarries.2
  · rintro ⟨op, hmechanism, hbare⟩
    have hoperator := (isMechanism_iff hmechanism.1).mpr hmechanism
    rw [carriesEpsilon_iff hmechanism.1] at hbare
    exact ⟨op, hmechanism.1, hoperator, fun hnumber => hbare ⟨hoperator, hnumber⟩⟩

theorem exists_lacksLocalEpsilon_iff {epsilon : ℤ} (hepsilon : e.IsGlobalEpsilon epsilon) :
    (∃ value, e.LacksLocalEpsilon value) ↔ MechanismsIncomplete e.facts.isOperation ∧
      OutputReached e.facts.isOperation (initialInputs e.facts.isOperation) := by
  rw [mechanismsIncomplete_iff, outputReached_iff e.program]
  refine ⟨?_, ?_⟩
  · rintro ⟨value, hinput, op, output, _, houtput, hresult, hpath, -, hincomplete⟩
    exact ⟨hincomplete, value, (mem_initialInputs _).mpr hinput, op, output, houtput, hresult,
      hpath⟩
  · rintro ⟨hincomplete, value, hinput, op, output, houtput, hresult, hpath⟩
    exact ⟨value, (mem_initialInputs _).mp hinput, op, output, epsilon, houtput, hresult, hpath,
      hepsilon, hincomplete⟩

theorem isSqlOperation_join {op : Operation} (hop : op ∈ e.facts.isOperation)
    (hoperator : op.operator = sqlJoinOperator) : IsSqlOperation e.facts.isOperation op :=
  ⟨hop, _, ⟨hop, hoperator⟩, "sql.", List.mem_cons_self .., by decide⟩

theorem isSqlOperation_groupBy {op : Operation} (hop : op ∈ e.facts.isOperation)
    (hoperator : op.operator = sqlGroupByOperator) : IsSqlOperation e.facts.isOperation op :=
  ⟨hop, _, ⟨hop, hoperator⟩, "sql.", List.mem_cons_self .., by decide⟩

/-- The second grouped value is an operand of the join, so a path of length zero leads to it. -/
theorem groupingJoin_iff {op : Operation} (hop : op ∈ e.facts.isOperation) :
    GroupingJoin e.facts.isOperation op ↔ e.JoinOperationIsGroupingJoin op := by
  simp only [GroupingJoin, JoinOperationIsGroupingJoin, reached, mem_search, Finset.mem_inter,
    mem_initialInputs, mem_groupedValues, hasString_iff hop, operationHasOperand_iff,
    operationHasResult_iff]
  refine ⟨?_, ?_⟩
  · rintro ⟨hoperator, hinner, input₁, hinput₁, input₂, hinput₂, hne, ⟨groupBy₁, hgroup₁, hby₁,
      hresult₁⟩, ⟨groupBy₂, hgroup₂, hby₂, hresult₂⟩, value, ⟨hvalue, hsql⟩, hflows⟩
    have hjoin := isSqlOperation_join hop hoperator
    have hpath₂ : SqlPath e.facts.isOperation e.program input₂ input₂ :=
      .sqlInput (.sqlOperation hjoin ⟨hop, rfl⟩ ((flatten_iff hop _).mpr hinput₂))
    exact ⟨hjoin, hinner, ⟨hop, hoperator⟩, input₁, input₂, groupBy₁, groupBy₂, value, value,
      ⟨hop, hinput₁⟩, ⟨hop, hinput₂⟩, hne, isSqlOperation_groupBy hgroup₁ hby₁, ⟨hgroup₁, hby₁⟩,
      ⟨hgroup₁, hresult₁⟩, isSqlOperation_groupBy hgroup₂ hby₂, ⟨hgroup₂, hby₂⟩,
      ⟨hgroup₂, hresult₂⟩, hvalue, hvalue,
      .inl ⟨(sqlPath_iff _ _).mpr ⟨hsql, hflows⟩, input₂, hpath₂⟩⟩
  · rintro ⟨-, hinner, ⟨-, hoperator⟩, input₁, input₂, groupBy₁, groupBy₂, initial₁, initial₂,
      ⟨-, hinput₁⟩, ⟨-, hinput₂⟩, hne, -, ⟨hgroup₁, hby₁⟩, ⟨-, hresult₁⟩, -, ⟨hgroup₂, hby₂⟩,
      ⟨-, hresult₂⟩, hinitial₁, hinitial₂, hpaths⟩
    have hreached : ∃ value, IsInitialInput e.facts.isOperation value ∧
        SqlPath e.facts.isOperation e.program value input₁ := by
      rcases hpaths with ⟨hpath, -⟩ | ⟨hpath, -⟩
      · exact ⟨initial₁, hinitial₁, hpath⟩
      · exact ⟨initial₂, hinitial₂, hpath⟩
    obtain ⟨value, hvalue, hpath⟩ := hreached
    obtain ⟨hsql, hflows⟩ := (sqlPath_iff _ _).mp hpath
    exact ⟨hoperator, hinner, input₁, hinput₁, input₂, hinput₂, hne,
      ⟨groupBy₁, hgroup₁, hby₁, hresult₁⟩, ⟨groupBy₂, hgroup₂, hby₂, hresult₂⟩, value,
      ⟨hvalue, hsql⟩, hflows⟩

theorem exists_kappa_iff {op : Operation} (hop : op ∈ e.facts.isOperation)
    (hoperator : op.operator = sqlJoinOperator) :
    (∃ kappa, JoinOperationHasKappa e.facts.isOperation e.program op kappa) ↔
      ∃ mechanism ∈ e.facts.isOperation, isMechanism mechanism ∧ hasNumber "kappa" mechanism ∧
        ∃ result ∈ mechanism.resultList, result ∈ reached e.facts.isOperation
          (op.resultList.toFinset ∩ sqlInputs e.facts.isOperation) := by
  simp only [reached, mem_search, Finset.mem_inter, List.mem_toFinset]
  refine ⟨?_, ?_⟩
  · rintro ⟨kappa, -, -, value, mechanism, result, hvalue, hmechanism, hresult, hattribute, hpath⟩
    have hmem := hmechanism.1
    obtain ⟨hinput, hflows⟩ := (sqlPath_iff _ _).mp hpath
    exact ⟨mechanism, hmem, (isMechanism_iff hmem).mpr hmechanism,
      (hasNumber_iff hmem _).mpr ⟨kappa, hattribute⟩, result,
      ((operationHasResult_iff _ _).mp hresult).2, value,
      ⟨((operationHasResult_iff _ _).mp hvalue).2, hinput⟩, hflows⟩
  · rintro ⟨mechanism, hmem, hmechanism, hnumber, result, hresult, value, ⟨hvalue, hinput⟩, hflows⟩
    obtain ⟨kappa, hattribute⟩ := (hasNumber_iff hmem _).mp hnumber
    exact ⟨kappa, isSqlOperation_join hop hoperator, ⟨hop, hoperator⟩, value, mechanism, result,
      (operationHasResult_iff _ _).mpr ⟨hop, hvalue⟩, (isMechanism_iff hmem).mp hmechanism,
      (operationHasResult_iff _ _).mpr ⟨hmem, hresult⟩, hattribute,
      (sqlPath_iff _ _).mpr ⟨hinput, hflows⟩⟩

theorem exists_isUnrestrictedJoin_iff : (∃ value, e.IsUnrestrictedJoin value) ↔
    ∃ op ∈ e.facts.isOperation, UnrestrictedJoin e.facts.isOperation op := by
  refine ⟨?_, ?_⟩
  · rintro ⟨value, op, outputOp, output, -, hvalue, ⟨hop, hoperator⟩, hkappa, hgrouping, hpath,
      houtput, hresult⟩
    rw [exists_kappa_iff hop hoperator] at hkappa
    have hreached : ∃ value ∈ op.resultList.toFinset, ∃ outputOp output,
        IsSqlOutput e.facts.isOperation outputOp ∧
        OperationHasResult e.facts.isOperation outputOp output ∧
        SqlPath e.facts.isOperation e.program value output :=
      ⟨value, List.mem_toFinset.mpr ((operationHasResult_iff _ _).mp hvalue).2, outputOp, output,
        houtput, hresult, hpath⟩
    exact ⟨op, hop, hoperator, fun h => hgrouping ((groupingJoin_iff hop).mp h),
      fun mechanism hmem hmechanism hnumber result hresult hfound =>
        hkappa ⟨mechanism, hmem, hmechanism, hnumber, result, hresult, hfound⟩,
      (outputReached_iff _ _).mpr hreached⟩
  · rintro ⟨op, hop, hoperator, hgrouping, hkappa, houtput⟩
    obtain ⟨value, hvalue, outputOp, output, houtput, hresult, hpath⟩ :=
      (outputReached_iff e.program _).mp houtput
    refine ⟨value, op, outputOp, output, isSqlOperation_join hop hoperator,
      (operationHasResult_iff _ _).mpr ⟨hop, List.mem_toFinset.mp hvalue⟩, ⟨hop, hoperator⟩, ?_,
      fun h => hgrouping ((groupingJoin_iff hop).mpr h), hpath, houtput, hresult⟩
    rw [exists_kappa_iff hop hoperator]
    rintro ⟨mechanism, hmem, hmechanism, hnumber, result, hresult, hfound⟩
    exact hkappa mechanism hmem hmechanism hnumber result hresult hfound

/-- Suspicious operations are a violation under every global epsilon. -/
theorem violates_of_suspicious (h : Suspicious e.facts.isOperation)
    (hfile : .epsilonAnalysis ∈ e.program) {epsilon : ℤ} (hepsilon : e.IsGlobalEpsilon epsilon) :
    ∃ value message, e.ViolatesPolicy value sensitivityAnalysisPolicy message := by
  rw [violates_sensitivity_iff hfile]
  rcases h with hlacks | hjoin
  · obtain ⟨value, hlacks⟩ := (exists_lacksLocalEpsilon_iff hepsilon).mpr hlacks
    exact ⟨value, .inl hlacks⟩
  · obtain ⟨value, hjoin⟩ := exists_isUnrestrictedJoin_iff.mpr hjoin
    exact ⟨value, .inr (.inr (.inr hjoin))⟩

/-- Within the budgets, nothing else is a violation. -/
theorem suspicious_of_violates (hfile : .epsilonAnalysis ∈ e.program) {epsilon : ℤ}
    (hepsilon : e.IsGlobalEpsilon epsilon)
    (hbudgets : ∀ value, ¬ e.ExceedsGlobalEpsilon value ∧ ¬ e.ExceedsGlobalDelta value)
    (h : ∃ value message, e.ViolatesPolicy value sensitivityAnalysisPolicy message) :
    Suspicious e.facts.isOperation := by
  obtain ⟨value, hlacks | hexceeds | hexceeds | hjoin⟩ := (violates_sensitivity_iff hfile).mp h
  · exact .inl ((exists_lacksLocalEpsilon_iff hepsilon).mp ⟨value, hlacks⟩)
  · exact absurd hexceeds (hbudgets value).1
  · exact absurd hexceeds (hbudgets value).2
  · exact .inr (exists_isUnrestrictedJoin_iff.mp ⟨value, hjoin⟩)

/-- No sum of numbers is above the largest number. -/
theorem withinBudgets_largestEpsilon (value : AccessPath) :
    ¬ (e.declaring largestEpsilon).ExceedsGlobalEpsilon value ∧
      ¬ (e.declaring largestEpsilon).ExceedsGlobalDelta value := by
  refine ⟨?_, ?_⟩
  · rintro ⟨-, -, epsilon, bound, -, -, -, ⟨-, hsum⟩, hbound, hlt⟩
    have hnumber := isNumber_wrapNumber ((e.declaring largestEpsilon).epsilonSum value)
    rw [← hsum] at hnumber
    rcases hbound with hbound | ⟨speaker, hbound⟩
    · have heq := DPParameterValue.epsilonValue.inj (Finset.mem_singleton.mp hbound)
      have hle := hnumber.2
      omega
    · exact absurd hbound (Finset.notMem_empty _)
  · rintro ⟨-, -, delta, bound, -, -, -, -, hbound | ⟨speaker, hbound⟩, -⟩
    · exact absurd (Finset.mem_singleton.mp hbound) (by simp)
    · exact absurd hbound (Finset.notMem_empty _)

/-- Whatever is declared, silence of the rules protects the outputs of exactly those operations
where no raw value is found to flow into an output, or that are suspicious. -/
theorem silence_protects_iff (hfile : .epsilonAnalysis ∈ e.program) :
    (∀ declarations epsilon, (e.declaring declarations).IsGlobalEpsilon epsilon →
      (e.declaring declarations).SilenceProtects) ↔
      ¬ RawOutput e.facts.isOperation ∨ Suspicious e.facts.isOperation := by
  refine ⟨?_, ?_⟩
  · intro h
    have hepsilon : (e.declaring largestEpsilon).IsGlobalEpsilon (2 ^ 63 - 1) :=
      .inl (Finset.mem_singleton_self _)
    by_cases hviolates : ∃ value message,
        (e.declaring largestEpsilon).ViolatesPolicy value sensitivityAnalysisPolicy message
    · have hsuspicious : Suspicious (e.declaring largestEpsilon).facts.isOperation :=
        suspicious_of_violates hfile hepsilon withinBudgets_largestEpsilon hviolates
      exact .inr hsuspicious
    · have hprotected := h largestEpsilon _ hepsilon hviolates
      exact .inl fun hraw =>
        (rawOutput_iff (e := e.declaring largestEpsilon)).mp hraw hprotected
  · rintro (hraw | hsuspicious) declarations epsilon hepsilon hsilent
    · exact not_not.mp fun hunprotected =>
        hraw ((rawOutput_iff (e := e.declaring declarations)).mpr hunprotected)
    · have hreported := violates_of_suspicious (e := e.declaring declarations) hsuspicious hfile
        hepsilon
      exact absurd hreported hsilent

def rawInput : Operation where
  actor := "core"
  operator := "core.input"
  resultList := ["in1"]
  operandList := []

def rawOutput : Operation where
  actor := sqlActor
  operator := sqlOutputOperator
  resultList := ["out"]
  operandList := ["in1"]

def loneMechanism : Operation where
  actor := sqlActor
  operator := privacyMechanismOperator
  resultList := ["p"]
  operandList := [anyValue]
  attributes := [⟨"epsilon", .numberAttributePayload 1⟩]

/-- An input flows past the only mechanism into the output. -/
def bypassedMechanism : Evaluation where
  program := dpPolicyVerifierInterface
  facts :=
    { isOperation := {rawInput, rawOutput, loneMechanism}, isDPParameter := {.epsilonValue 1} }
  ord := symbolOrdinal
  ord_injective := symbolOrdinal_injective

@[simp] theorem mem_bypassedMechanism (op : Operation) :
    op ∈ bypassedMechanism.facts.isOperation ↔
      op = rawInput ∨ op = rawOutput ∨ op = loneMechanism := by
  simp [bypassedMechanism]

theorem isDiffPrivacyMechanism_bypassed_iff (op : Operation) :
    IsDiffPrivacyMechanism bypassedMechanism.facts.isOperation op ↔ op = loneMechanism := by
  simp only [IsDiffPrivacyMechanism, OperationHasOperator, mem_bypassedMechanism]
  refine ⟨?_, ?_⟩
  · rintro ⟨-, rfl | rfl | rfl, hoperator⟩
    · exact absurd hoperator (by decide)
    · exact absurd hoperator (by decide)
    · rfl
  · rintro rfl
    exact ⟨.inr (.inr rfl), .inr (.inr rfl), rfl⟩

theorem eq_of_isInitialInput_bypassed {value : AccessPath}
    (h : IsInitialInput bypassedMechanism.facts.isOperation value) : value = "in1" := by
  obtain ⟨op, operator, -, ⟨hop, rfl⟩, hoperator, hresult⟩ := h
  rw [operationHasResult_iff] at hresult
  rw [mem_bypassedMechanism] at hop
  obtain rfl | rfl | rfl := hop
  · exact List.mem_singleton.mp hresult.2
  · exact absurd hoperator (by decide)
  · exact absurd hoperator (by decide)

theorem sqlPath_bypassed {start stop : AccessPath} (h : SqlPath
    bypassedMechanism.facts.isOperation bypassedMechanism.program start stop)
    (hstart : start = "in1") : stop = "in1" ∨ stop = "out" := by
  induction h with
  | sqlInput _ => exact .inl hstart
  | mechanismInput _ _ _ => exact .inl hstart
  | step _ hoperands hflatten hresult ih =>
    obtain ⟨hop, rfl⟩ := hoperands
    rw [flatten_iff hop] at hflatten
    rw [operationHasResult_iff] at hresult
    rw [mem_bypassedMechanism] at hop
    obtain rfl | rfl | rfl := hop
    · exact absurd hflatten (List.not_mem_nil)
    · exact .inr (List.mem_singleton.mp hresult.2)
    · rw [List.mem_singleton.mp hflatten] at ih
      exact absurd (ih hstart) (by decide)

theorem isEmpty_epsilonBindings_bypassed {value : AccessPath}
    (hvalue : IsInitialInput bypassedMechanism.facts.isOperation value) :
    IsEmpty (bypassedMechanism.epsilonBindings value) := by
  refine ⟨?_⟩
  rintro ⟨⟨outputOp, output, intermediate, epsilon⟩, -, -, -, hpath, op, -, -, hmechanism,
    hresult, -⟩
  rw [isDiffPrivacyMechanism_bypassed_iff] at hmechanism
  subst hmechanism
  rw [operationHasResult_iff] at hresult
  have hintermediate := List.mem_singleton.mp hresult.2
  have hreached := sqlPath_bypassed hpath (eq_of_isInitialInput_bypassed hvalue)
  rw [hintermediate] at hreached
  exact absurd hreached (by decide)

/-- The sum of no epsilons is within the budget, and no delta is declared. -/
theorem withinBudgets_bypassedMechanism (value : AccessPath) :
    ¬ bypassedMechanism.ExceedsGlobalEpsilon value ∧
      ¬ bypassedMechanism.ExceedsGlobalDelta value := by
  refine ⟨?_, ?_⟩
  · rintro ⟨op, output, epsilon, bound, -, -, -, ⟨hvalue, hsum⟩, hbound, hlt⟩
    have hempty := isEmpty_epsilonBindings_bypassed hvalue
    rw [epsilonSum, finsum_of_isEmpty, wrapNumber_of_isNumber (by decide)] at hsum
    obtain hbound | ⟨speaker, hbound⟩ := hbound
    · have heq := DPParameterValue.epsilonValue.inj (Finset.mem_singleton.mp hbound)
      omega
    · exact absurd hbound (Finset.notMem_empty _)
  · rintro ⟨op, output, delta, bound, -, -, -, -, hbound | ⟨speaker, hbound⟩, -⟩
    · exact absurd (Finset.mem_singleton.mp hbound) (by simp)
    · exact absurd hbound (Finset.notMem_empty _)

theorem not_violates_bypassedMechanism : ¬ ∃ value message,
    bypassedMechanism.ViolatesPolicy value sensitivityAnalysisPolicy message := by
  intro hviolates
  have hepsilon : bypassedMechanism.IsGlobalEpsilon 1 := .inl (Finset.mem_singleton_self _)
  have hsuspicious := suspicious_of_violates (by decide) hepsilon withinBudgets_bypassedMechanism
    hviolates
  have hquiet : ¬ Suspicious bypassedMechanism.facts.isOperation := by decide
  exact hquiet hsuspicious

theorem not_outputsProtected_bypassedMechanism : ¬ bypassedMechanism.OutputsProtected := by
  have hraw : RawOutput bypassedMechanism.facts.isOperation := by decide
  exact rawOutput_iff.mp hraw

/-- A mechanism on another path silences the rules. -/
theorem bypassedMechanism_silent_unprotected : ¬ ∀ (e : Evaluation) (epsilon : ℤ),
    .epsilonAnalysis ∈ e.program → e.IsGlobalEpsilon epsilon → e.SilenceProtects := fun hall =>
  not_outputsProtected_bypassedMechanism (hall bypassedMechanism 1 (by decide)
    (.inl (Finset.mem_singleton_self _)) not_violates_bypassedMechanism)

/-- The mechanism is on the only path. -/
def guardedOutput : Evaluation where
  program := dpPolicyVerifierInterface
  facts :=
    { isOperation :=
        { rawInput,
          { loneMechanism with operandList := ["in1"] },
          { rawOutput with operandList := ["p"] } } }
  ord := symbolOrdinal
  ord_injective := symbolOrdinal_injective

/-- Without a mechanism the rules are not silent. -/
def bareOutput : Evaluation where
  program := dpPolicyVerifierInterface
  facts := { isOperation := {rawInput, rawOutput} }
  ord := symbolOrdinal
  ord_injective := symbolOrdinal_injective

theorem silence_protects_guardedOutput : (∀ declarations epsilon,
      (guardedOutput.declaring declarations).IsGlobalEpsilon epsilon →
        (guardedOutput.declaring declarations).SilenceProtects) ∧
    ∀ declarations epsilon, (bareOutput.declaring declarations).IsGlobalEpsilon epsilon →
      (bareOutput.declaring declarations).SilenceProtects :=
  ⟨(silence_protects_iff (by decide)).mpr (.inl (by decide)),
    (silence_protects_iff (by decide)).mpr (.inr (by decide))⟩

end Evaluation

end Raksha.Souffle
