import Mathlib.Data.String.Basic
import Raksha.PolicyEngine.DatalogLoweringVisitor

/-!
# Lowered operations taken apart

`operations.dl` recovers operands, results and attributes of an operation from the record that
the lowering visitor emits for it.
-/

namespace Raksha.PolicyEngine
open Raksha.Common Raksha.Ir
open Raksha.Souffle (AccessPath OperationHasOperandAtIndex OperationHasResult OperationHasAttribute
  OperationOperandListLength operationHasOperandAtIndex_iff operationHasResult_iff
  operationHasAttribute_iff operationOperandListLength_iff)

/-! ### The order of the attributes -/

theorem getPayloadForAttribute_injective : Function.Injective getPayloadForAttribute := by
  intro attr attr' h
  cases attr <;> cases attr' <;> simp only [getPayloadForAttribute] at h <;> cases h <;> rfl

/-- The sorted attributes do not show the iteration order of the hash map. -/
theorem lowerAttributes_perm {attributes attributes' : NamedAttributeMap}
    (h : attributes'.entries.Perm attributes.entries) :
    lowerAttributes attributes' = lowerAttributes attributes := by
  have hsorted : attributes'.entries.mergeSort (fun left right => decide (right.1 ≤ left.1)) =
      attributes.entries.mergeSort (fun left right => decide (right.1 ≤ left.1)) :=
    mergeSort_eq_of_perm (r := fun a b => b ≤ a) (fun _ _ _ hba hcb => hcb.trans hba)
      (fun a b => le_total b a) (fun _ _ hba hab => le_antisymm hab hba) attributes.nodupKeys h
  simp only [lowerAttributes, hsorted]

section

variable (storageName : Address → String)

theorem preVisit_perm (names : SsaNames) (operation : Operation) {attributes : NamedAttributeMap}
    (h : attributes.entries.Perm operation.attributes.entries) :
    preVisit storageName names { operation with attributes } =
      preVisit storageName names operation := by
  simp only [preVisit, lowerAttributes_perm h]
  rfl

/-! ### Operands, results and attributes -/

variable (symbol : Value → String) {isOperation : Finset Souffle.Operation}

theorem operationFact_hasOperandAtIndex (operation : Operation)
    (h : operationFact symbol operation ∈ isOperation) (operand : AccessPath) (index : ℤ) :
    OperationHasOperandAtIndex isOperation (operationFact symbol operation) operand index ↔
      ∃ i : ℕ, index = i ∧ ∃ value, operation.inputs[i]? = some value ∧
        operand = symbol value := by
  rw [operationHasOperandAtIndex_iff, and_iff_right h]
  simp only [operationFact, List.getElem?_map, Option.map_eq_some_iff, eq_comm (a := operand)]

theorem operationFact_hasResult (operation : Operation)
    (h : operationFact symbol operation ∈ isOperation) (result : AccessPath) :
    OperationHasResult isOperation (operationFact symbol operation) result ↔
      ∃ i < operation.numberOfOutputs, result = symbol (operation.getOutputValue i) := by
  rw [operationHasResult_iff, and_iff_right h]
  simp only [operationFact, List.mem_map, List.mem_range, eq_comm]

theorem operationFact_hasAttribute (operation : Operation)
    (h : operationFact symbol operation ∈ isOperation) (name : String) (attr : Attribute) :
    OperationHasAttribute isOperation (operationFact symbol operation)
        ⟨name, getPayloadForAttribute attr⟩ ↔
      operation.attributes.lookup name = some attr := by
  rw [operationHasAttribute_iff, and_iff_right h]
  simp only [operationFact, mem_lowerAttributes]
  constructor
  · rintro ⟨payload, hlookup, hpayload⟩
    rw [hlookup, getPayloadForAttribute_injective hpayload]
  · intro hlookup
    exact ⟨attr, hlookup, rfl⟩

theorem operationFact_operandListLength (operation : Operation)
    (h : operationFact symbol operation ∈ isOperation) (len : ℤ) :
    OperationOperandListLength isOperation (operationFact symbol operation) len ↔
      len = operation.inputs.length := by
  rw [operationOperandListLength_iff, and_iff_right h]
  simp only [operationFact, List.length_map]

/-- Every operation of a module is recovered from the facts of the whole module, and its record
does not depend on the order of its attributes. -/
theorem lowerModule_operation_recovered (names : SsaNames) (module : Module)
    (operation : Operation) (hop : operation ∈ module.operations) :
    let (facts, final) := lowerModule storageName names module
    let symbol := symbolOf storageName final
    let op := operationFact symbol operation
    let isOperation := facts.toFinset
    facts = module.operations.map (operationFact symbol) ∧
    (∀ operand (index : ℤ), OperationHasOperandAtIndex isOperation op operand index ↔
      ∃ i : ℕ, index = i ∧ ∃ value, operation.inputs[i]? = some value ∧
        operand = symbol value) ∧
    (∀ result, OperationHasResult isOperation op result ↔
      ∃ i < operation.numberOfOutputs, result = symbol (operation.getOutputValue i)) ∧
    (∀ name value, OperationHasAttribute isOperation op ⟨name, .numberAttributePayload value⟩ ↔
      operation.attributes.lookup name = some (.int64 value)) ∧
    (∀ name value, OperationHasAttribute isOperation op ⟨name, .stringAttributePayload value⟩ ↔
      operation.attributes.lookup name = some (.string value)) ∧
    (∀ len, OperationOperandListLength isOperation op len ↔ len = operation.inputs.length) ∧
    ∀ names' (attributes : NamedAttributeMap),
      attributes.entries.Perm operation.attributes.entries →
      preVisit storageName names' { operation with attributes } =
        preVisit storageName names' operation := by
  have hfacts := lowerModule_spec storageName names module
  have hmem : operationFact (symbolOf storageName (lowerModule storageName names module).2)
      operation ∈ (lowerModule storageName names module).1.toFinset := by
    rw [List.mem_toFinset, hfacts]
    exact List.mem_map_of_mem hop
  refine ⟨hfacts, operationFact_hasOperandAtIndex _ operation hmem,
    operationFact_hasResult _ operation hmem, ?_, ?_,
    operationFact_operandListLength _ operation hmem,
    fun names' attributes h => preVisit_perm storageName names' operation h⟩
  · exact fun name value => operationFact_hasAttribute _ operation hmem name (.int64 value)
  · exact fun name value => operationFact_hasAttribute _ operation hmem name (.string value)

end

/-- `%0 = f [](%0, <<ANY>>, %0)` -/
def repeatedOperand : Operation where
  address := 0
  op := ⟨"f", 1⟩
  inputs := [.operationResult 0 0, .any, .operationResult 0 0]

def repeatedOperandModule : Module where
  blocks := [⟨[repeatedOperand]⟩]
  distinct := by decide

theorem repeatedOperand_recovered :
    let isOperation := (lowerModule (fun _ => "") {} repeatedOperandModule).1.toFinset
    let op := operationFact (symbolOf (fun _ => "")
      (lowerModule (fun _ => "") {} repeatedOperandModule).2) repeatedOperand
    OperationHasOperandAtIndex isOperation op "%0" 0 ∧
      OperationHasOperandAtIndex isOperation op "%0" 2 := by
  have hrecovered := lowerModule_operation_recovered (fun _ => "") {} repeatedOperandModule
    repeatedOperand (List.mem_singleton_self _)
  exact ⟨(hrecovered.2.1 "%0" 0).mpr ⟨0, rfl, _, rfl, by decide +kernel⟩,
    (hrecovered.2.1 "%0" 2).mpr ⟨2, rfl, _, rfl, by decide +kernel⟩⟩

end Raksha.PolicyEngine
