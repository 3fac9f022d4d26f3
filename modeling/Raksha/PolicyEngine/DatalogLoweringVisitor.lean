import Raksha.Ir.ValueStringConverter
import Raksha.Souffle.Operations

/-!
# Lowering of modules to Datalog facts

`backends/policy_engine/souffle/datalog_lowering_visitor.cc`. The visitor names values on the way;
a name that a value has does not change afterwards, so every fact can be read with the final names.
-/

namespace Raksha.PolicyEngine
open Raksha.Common Raksha.Ir

section

variable (storageName : Address → String)

def getPayloadForAttribute : Attribute → Souffle.AttributePayload
  | .float bits => .floatAttributePayload bits
  | .int64 value => .numberAttributePayload value
  | .string value => .stringAttributePayload value

/-- The right fold over the operands: the last operand is named first. -/
def lowerOperands (names : SsaNames) (operands : List Value) : List String × SsaNames :=
  operands.foldr (fun value acc =>
    let (symbol, names) := valueToString storageName acc.2 value
    (symbol :: acc.1, names)) ([], names)

/-- The attributes sorted by name, so that the order of the hash map does not show. -/
def lowerAttributes (attributes : NamedAttributeMap) : List Souffle.Attribute :=
  (attributes.entries.mergeSort fun left right => decide (right.1 ≤ left.1)).foldl
    (fun list attr => ⟨attr.1, getPayloadForAttribute attr.2⟩ :: list) []

def lowerResults (names : SsaNames) (operation : Operation) (indices : List ℕ) :
    List String × SsaNames :=
  indices.foldl (fun acc i =>
    let (symbol, names) := acc.2.getOrCreateID (operation.getOutputValue i)
    (acc.1 ++ [symbol], names)) ([], names)

def preVisit (names : SsaNames) (operation : Operation) : Souffle.Operation × SsaNames :=
  let (operandList, names) := lowerOperands storageName names operation.inputs
  let (resultList, names) :=
    lowerResults names operation (List.range operation.op.numberOfReturnValues)
  ({ actor := "sql", operator := operation.op.name, resultList, operandList,
     attributes := lowerAttributes operation.attributes }, names)

/-- The facts of all operations in the order of the traversal. -/
def lowerOperations (names : SsaNames) (operations : List Operation) :
    List Souffle.Operation × SsaNames :=
  operations.foldl (fun acc operation =>
    let (fact, names) := preVisit storageName acc.2 operation
    (acc.1 ++ [fact], names)) ([], names)

/-- `module.Accept(datalog_lowering_visitor)`. -/
def lowerModule (names : SsaNames) (module : Module) : List Souffle.Operation × SsaNames :=
  lowerOperations storageName names module.operations

/-! ### Reading the facts with the final names -/

/-- The fact of an operation whose values have the given symbols. -/
def operationFact (symbol : Value → String) (operation : Operation) : Souffle.Operation where
  actor := "sql"
  operator := operation.op.name
  resultList := (List.range operation.numberOfOutputs).map fun i =>
    symbol (operation.getOutputValue i)
  operandList := operation.inputs.map symbol
  attributes := lowerAttributes operation.attributes

theorem lowerOperands_extends (names : SsaNames) (operands : List Value) :
    names.Extends (lowerOperands storageName names operands).2 := by
  induction operands with
  | nil => exact .refl names
  | cons value operands ih => exact ih.trans (valueToString_extends storageName _ value)

theorem lowerOperands_spec (names : SsaNames) {final : SsaNames} (operands : List Value)
    (h : (lowerOperands storageName names operands).2.Extends final) :
    (lowerOperands storageName names operands).1 =
      operands.map (symbolOf storageName final) := by
  induction operands with
  | nil => rfl
  | cons value operands ih =>
    have htail := ih ((valueToString_extends storageName _ value).trans h)
    have hhead := valueToString_spec storageName (lowerOperands storageName names operands).2
      value h
    have hcons : (lowerOperands storageName names (value :: operands)).1 =
        (valueToString storageName (lowerOperands storageName names operands).2 value).1 ::
          (lowerOperands storageName names operands).1 := rfl
    rw [hcons, htail, hhead, List.map_cons]

theorem lowerResults_append (names : SsaNames) (operation : Operation) (indices : List ℕ)
    (i : ℕ) : lowerResults names operation (indices ++ [i]) =
      ((lowerResults names operation indices).1 ++
          [((lowerResults names operation indices).2.getOrCreateID
            (operation.getOutputValue i)).1],
        ((lowerResults names operation indices).2.getOrCreateID
          (operation.getOutputValue i)).2) := by
  simp only [lowerResults, List.foldl_append, List.foldl_cons, List.foldl_nil]

theorem lowerResults_extends (names : SsaNames) (operation : Operation) (indices : List ℕ) :
    names.Extends (lowerResults names operation indices).2 := by
  induction indices using List.reverseRecOn with
  | nil => exact .refl names
  | append_singleton indices i ih =>
    rw [lowerResults_append]
    exact ih.trans (SsaNames.extends_getOrCreateID _ _)

theorem lowerResults_spec (names : SsaNames) {final : SsaNames} (operation : Operation)
    (indices : List ℕ)
    (h : (lowerResults names operation indices).2.Extends final) :
    (∀ i ∈ indices, ∃ id, final.find? (operation.getOutputValue i) = some id) ∧
    (lowerResults names operation indices).1 =
      indices.map fun i => symbolOf storageName final (operation.getOutputValue i) := by
  induction indices using List.reverseRecOn with
  | nil => exact ⟨fun _ hi => absurd hi List.not_mem_nil, rfl⟩
  | append_singleton indices i ih =>
    rw [lowerResults_append] at h ⊢
    have hname := getOrCreateID_symbol _ h
    obtain ⟨hnamed, hmap⟩ := ih ((SsaNames.extends_getOrCreateID _ _).trans h)
    refine ⟨?_, ?_⟩
    · intro j hj
      rcases List.mem_append.mp hj with hj | hj
      · exact hnamed j hj
      · rw [List.mem_singleton.mp hj]
        exact ⟨_, hname⟩
    · rw [hmap, List.map_append, List.map_singleton]
      simp only [symbolOf, Operation.getOutputValue] at hname ⊢
      rw [hname, Option.getD_some]

theorem preVisit_extends (names : SsaNames) (operation : Operation) :
    names.Extends (preVisit storageName names operation).2 :=
  (lowerOperands_extends storageName names operation.inputs).trans (lowerResults_extends _ operation _)

theorem preVisit_spec (names : SsaNames) {final : SsaNames} (operation : Operation)
    (h : (preVisit storageName names operation).2.Extends final) :
    (∀ i < operation.numberOfOutputs,
      ∃ id, final.find? (operation.getOutputValue i) = some id) ∧
    (preVisit storageName names operation).1 =
      operationFact (symbolOf storageName final) operation := by
  have hoperands := lowerOperands_spec storageName names operation.inputs
    ((lowerResults_extends _ operation _).trans h)
  obtain ⟨hnamed, hresults⟩ := lowerResults_spec storageName
    (lowerOperands storageName names operation.inputs).2 operation _ h
  refine ⟨fun i hi => hnamed i (List.mem_range.mpr hi), ?_⟩
  simp only [preVisit, operationFact, hresults, hoperands]
  rfl

theorem lowerOperations_append (names : SsaNames) (operations : List Operation)
    (operation : Operation) : lowerOperations storageName names (operations ++ [operation]) =
      ((lowerOperations storageName names operations).1 ++
          [(preVisit storageName (lowerOperations storageName names operations).2 operation).1],
        (preVisit storageName (lowerOperations storageName names operations).2 operation).2) := by
  simp only [lowerOperations, List.foldl_append, List.foldl_cons, List.foldl_nil]

theorem lowerOperations_spec (names : SsaNames) {final : SsaNames} (operations : List Operation)
    (h : (lowerOperations storageName names operations).2.Extends final) :
    (∀ op ∈ operations, ∀ i < op.numberOfOutputs,
      ∃ id, final.find? (op.getOutputValue i) = some id) ∧
    (lowerOperations storageName names operations).1 =
      operations.map (operationFact (symbolOf storageName final)) := by
  induction operations using List.reverseRecOn with
  | nil => exact ⟨fun _ hop => absurd hop List.not_mem_nil, rfl⟩
  | append_singleton operations operation ih =>
    rw [lowerOperations_append] at h ⊢
    obtain ⟨hlast, hfact⟩ := preVisit_spec storageName _ operation h
    obtain ⟨hnamed, hmap⟩ := ih ((preVisit_extends storageName _ operation).trans h)
    refine ⟨?_, ?_⟩
    · intro op hop
      rcases List.mem_append.mp hop with hop | hop
      · exact hnamed op hop
      · rw [List.mem_singleton.mp hop]
        exact hlast
    · rw [hmap, hfact, List.map_append, List.map_singleton]

/-- The facts of a module are those of its operations under the final names. -/
theorem lowerModule_spec (names : SsaNames) (module : Module) :
    (lowerModule storageName names module).1 = module.operations.map
      (operationFact (symbolOf storageName (lowerModule storageName names module).2)) :=
  (lowerOperations_spec storageName names module.operations (.refl _)).2

theorem lowerModule_find? (names : SsaNames) (module : Module) {v : Value}
    (hv : module.IsResult v) :
    ∃ id, (lowerModule storageName names module).2.find? v = some id := by
  obtain ⟨op, hop, i, hi, rfl⟩ := hv
  exact (lowerOperations_spec storageName names module.operations (.refl _)).1
    op hop i hi

theorem lowerModule_extends (names : SsaNames) (module : Module) :
    names.Extends (lowerModule storageName names module).2 := by
  unfold lowerModule
  induction module.operations using List.reverseRecOn with
  | nil => exact .refl names
  | append_singleton operations operation ih =>
    rw [lowerOperations_append]
    exact ih.trans (preVisit_extends storageName _ operation)

/-- What every new name keeps is kept by the lowering of a module. -/
theorem lowerModule_names {motive : SsaNames → Prop}
    (hstep : ∀ names value, motive names → motive (names.getOrCreateID value).2)
    {names : SsaNames} (h : motive names) (module : Module) :
    motive (lowerModule storageName names module).2 := by
  have hvalue : ∀ names value, motive names →
      motive (valueToString storageName names value).2 := by
    intro names value hnames
    cases value with
    | any => exact hnames
    | storedValue storage => exact hnames
    | blockArgument block index => exact hstep _ _ hnames
    | operationResult operation index => exact hstep _ _ hnames
  have hoperands : ∀ names (operands : List Value), motive names →
      motive (lowerOperands storageName names operands).2 := by
    intro names operands hnames
    induction operands with
    | nil => exact hnames
    | cons value operands ih => exact hvalue _ value ih
  have hresults : ∀ names operation (indices : List ℕ), motive names →
      motive (lowerResults names operation indices).2 := by
    intro names operation indices hnames
    induction indices using List.reverseRecOn with
    | nil => exact hnames
    | append_singleton indices i ih =>
      rw [lowerResults_append]
      exact hstep _ _ ih
  unfold lowerModule
  induction module.operations using List.reverseRecOn with
  | nil => exact h
  | append_singleton operations operation ih =>
    rw [lowerOperations_append]
    exact hresults _ _ _ (hoperands _ _ ih)

/-! ### Attributes -/

/-- Every attribute is lowered, whatever the order of the hash map. -/
theorem mem_lowerAttributes (attributes : NamedAttributeMap) (attr : Souffle.Attribute) :
    attr ∈ lowerAttributes attributes ↔ ∃ payload, attributes.lookup attr.attrName = some payload ∧
      attr.attrPayload = getPayloadForAttribute payload := by
  have hfold : ∀ (entries : List (Σ _ : String, Attribute)) (acc : List Souffle.Attribute),
      entries.foldl (fun list attr => ⟨attr.1, getPayloadForAttribute attr.2⟩ :: list) acc =
        (entries.map fun attr => ⟨attr.1, getPayloadForAttribute attr.2⟩).reverse ++ acc := by
    intro entries
    induction entries with
    | nil => exact fun _ => rfl
    | cons entry entries ih =>
      intro acc
      simp [ih]
  simp only [lowerAttributes, hfold, List.append_nil, List.mem_reverse, List.mem_map,
    List.mem_mergeSort]
  constructor
  · rintro ⟨⟨name, payload⟩, hmem, rfl⟩
    exact ⟨payload, AList.mem_lookup_iff.mpr hmem, rfl⟩
  · rintro ⟨payload, hlookup, hpayload⟩
    refine ⟨⟨attr.attrName, payload⟩, AList.mem_lookup_iff.mp hlookup, ?_⟩
    cases attr
    simp only at hpayload
    rw [hpayload]

end

end Raksha.PolicyEngine
