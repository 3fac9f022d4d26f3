import Raksha.Common.Utils

/-!
# The intermediate representation

Modules, blocks, operations and values (`ir/module.h`, `ir/value.h`, `ir/operator.h`). The code
tells operations, blocks and storages apart by their addresses, so an operation carries its
address and a value names the operation that computes it by address.
-/

namespace Raksha.Ir
open Raksha.Common

/-- The identity of an object that the code points to. -/
abbrev Address : Type := ℕ

/-- `ir::Value` (`value.h:127`). -/
inductive Value
  | blockArgument (block : Address) (index : ℕ)
  | operationResult (operation : Address) (index : ℕ)
  | storedValue (storage : Address)
  | any
deriving DecidableEq, Repr

/-- `ir::Operator`: one return value unless stated otherwise. -/
structure Operator where
  name : String
  numberOfReturnValues : ℕ := 1
deriving DecidableEq, Repr

/-- `ir::Attribute`; a float is kept as the bits of the double. -/
inductive Attribute
  | int64 (value : ℤ)
  | string (value : String)
  | float (value : BitVec 64)
deriving DecidableEq, Repr

def Attribute.getInt64? : Attribute → Option ℤ
  | .int64 value => some value
  | _ => none

def Attribute.getString? : Attribute → Option String
  | .string value => some value
  | _ => none

abbrev NamedAttributeMap : Type := FlatHashMap String Attribute

/-- `ir::Operation`, with its own address. -/
structure Operation where
  address : Address
  op : Operator
  attributes : NamedAttributeMap := ∅
  inputs : List Value := []

namespace Operation

def numberOfOutputs (operation : Operation) : ℕ := operation.op.numberOfReturnValues

def getOutputValue (operation : Operation) (index : ℕ) : Value :=
  .operationResult operation.address index

def getInputValue (operation : Operation) (index : ℕ) : Checked Value :=
  match operation.inputs[index]? with
  | some value => .ok value
  | none => .error "Operation:GetInputValue fails because index is out of bounds"

end Operation

/-- `ir::Block`: only its operations take part in the analyses. -/
structure Block where
  operations : List Operation

/-- `ir::Module`. Blocks own their operations, so no two operations share an address. -/
structure Module where
  blocks : List Block
  distinct : ((blocks.flatMap Block.operations).map Operation.address).Nodup

namespace Module

/-- All operations, in the order in which a traversal visits them. -/
def operations (module : Module) : List Operation := module.blocks.flatMap Block.operations

def operationAt (module : Module) (address : Address) : Option Operation :=
  module.operations.find? fun operation => operation.address = address

theorem address_injective (module : Module) {op op' : Operation}
    (h : op ∈ module.operations) (h' : op' ∈ module.operations)
    (haddr : op.address = op'.address) : op = op' :=
  List.inj_on_of_nodup_map module.distinct h h' haddr

theorem operationAt_eq_some (module : Module) (address : Address) (op : Operation) :
    module.operationAt address = some op ↔ op ∈ module.operations ∧ op.address = address := by
  unfold operationAt
  constructor
  · intro h
    exact ⟨List.mem_of_find?_eq_some h, by simpa using List.find?_some h⟩
  · rintro ⟨hmem, rfl⟩
    cases hfind : module.operations.find? fun o => o.address = op.address with
    | none =>
      have hnone := List.find?_eq_none.mp hfind op hmem
      simp at hnone
    | some op' =>
      have haddr : op'.address = op.address := by simpa using List.find?_some hfind
      rw [module.address_injective (List.mem_of_find?_eq_some hfind) hmem haddr]

theorem operationAt_address (module : Module) {op : Operation} (h : op ∈ module.operations) :
    module.operationAt op.address = some op :=
  (module.operationAt_eq_some _ _).mpr ⟨h, rfl⟩

/-- The results of the operations of the module. -/
def IsResult (module : Module) (v : Value) : Prop :=
  ∃ op ∈ module.operations, ∃ i < op.numberOfOutputs, v = op.getOutputValue i

instance (module : Module) (v : Value) : Decidable (module.IsResult v) :=
  inferInstanceAs (Decidable (∃ op ∈ module.operations, ∃ i < op.numberOfOutputs, _))

/-- The operands of the operations of the module. -/
def IsOperand (module : Module) (v : Value) : Prop :=
  ∃ op ∈ module.operations, v ∈ op.inputs

instance (module : Module) (v : Value) : Decidable (module.IsOperand v) :=
  inferInstanceAs (Decidable (∃ op ∈ module.operations, v ∈ op.inputs))

end Module

/-- Whether a value is computed by an operation (`If<OperationResult>() != nullptr`). -/
def Value.isOperationResult : Value → Bool
  | .operationResult _ _ => true
  | _ => false

/-- The operation results that the operands name are results of operations of the module, as in
every module that the parser builds. -/
def Module.WellLinked (module : Module) : Prop :=
  ∀ op ∈ module.operations, ∀ v ∈ op.inputs, v.isOperationResult = true → module.IsResult v

instance (module : Module) : Decidable module.WellLinked :=
  inferInstanceAs (Decidable (∀ op ∈ module.operations, ∀ v ∈ op.inputs, _ → _))

@[simp] theorem Operation.getOutputValue_isOperationResult (op : Operation) (i : ℕ) :
    (op.getOutputValue i).isOperationResult = true := rfl

theorem Operation.getOutputValue_inj {op op' : Operation} {i j : ℕ} :
    op.getOutputValue i = op'.getOutputValue j ↔ op.address = op'.address ∧ i = j := by
  simp only [Operation.getOutputValue, Value.operationResult.injEq]

theorem Module.eq_of_output (module : Module) {op op' : Operation} (hop : op ∈ module.operations)
    (hop' : op' ∈ module.operations) {i j : ℕ}
    (h : op.getOutputValue i = op'.getOutputValue j) : op' = op ∧ j = i := by
  obtain ⟨haddr, hi⟩ := Operation.getOutputValue_inj.mp h
  exact ⟨module.address_injective hop' hop haddr.symm, hi.symm⟩

end Raksha.Ir
