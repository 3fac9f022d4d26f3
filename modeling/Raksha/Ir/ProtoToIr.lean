import Raksha.Ir.DeclaredModule
import Raksha.Ir.Proto
import Raksha.Ir.SsaNames
import Raksha.Lib.GrowingTables

/-!
# From protos to modules

`ir/proto_to_ir.cc`, in three phases: all operations and blocks are created, then filled in, then
moved into their owners. The object that is created for an id is told apart by the id.
-/

namespace Raksha.Ir
open Raksha.Common Raksha.Lib.GrowingTables

structure ProtoToIr where
  operators : FlatHashMap String Operator
  ssaNames : SsaNames := {}
  /-- Without an operation once it has been moved away. -/
  operations : FlatHashMap ℕ (Option Operation) := ∅
  /-- Without a block once it has been built. -/
  blocks : FlatHashMap ℕ (Option DeclaredBlock) := ∅

namespace ProtoToIr

/-! ### Creation -/

/-- `PreVisit(const proto::Value&)`, and `PostVisit` alike. -/
def visitValue (value : Proto.Value) : Checked Unit :=
  check (value ≠ .notSet) "Unexpected variant of Value from IR"

/-- `PreVisit(const proto::Operation&)`, and `PostVisit` alike. -/
def visitOperation (operation : Proto.Operation) : Checked Unit :=
  operation.inputs.forM visitValue

/-- The loop body over the operations in `PreVisit(const proto::Block&)`. -/
def createOperation (state : ProtoToIr) (proto : Proto.OperationWithId) : Checked ProtoToIr :=
  match state.operators.lookup proto.operation.operatorName with
  | none => .error ("Operator " ++ proto.operation.operatorName ++ " was not registered.")
  | some op => do
    let operation : Operation := { address := proto.id, op }
    let (_, ssaNames) := state.ssaNames.getOrCreateID (.operationResult operation.address 0)
    visitOperation proto.operation
    return { state with
      ssaNames
      operations := (state.operations.tryInsert proto.id (some operation)).1 }

/-- The loop body of `PreVisit(const proto::Module&)`. -/
def createBlock (state : ProtoToIr) (proto : Proto.BlockWithId) : Checked ProtoToIr := do
  let state := { state with
    blocks := (state.blocks.tryInsert proto.id (some (BlockBuilder.new proto.id))).1 }
  let state ← proto.block.operations.foldlM createOperation state
  proto.block.results.entries.forM fun entry => visitValue entry.2
  return state

/-! ### Construction -/

def findOperation (state : ProtoToIr) (id : ℕ) (message : String) : Checked Operation :=
  match state.operations.lookup id with
  | some (some operation) => .ok operation
  | some none => .error "Operation ptr is empty!"
  | none => .error message

/-- `GetBlockPtr` and its like fail on a builder that has been built. -/
def findBlock (state : ProtoToIr) (id : ℕ) (message : String) : Checked DeclaredBlock :=
  match state.blocks.lookup id with
  | some (some block) => .ok block
  | some none => .error "Attempt to use a `BlockBuilder` that has already been built."
  | none => .error message

def toIrValueVariant (state : ProtoToIr) : Proto.Value → Checked Value
  | .anyValue => .ok .any
  | .operationResultValue id index => do
    let operation ← state.findOperation id ("Could not find operation with id " ++ toString id)
    return .operationResult operation.address index
  | .blockArgumentValue id index => do
    let block ← state.findBlock id ("Could not find block with id " ++ toString id)
    return .blockArgument block.address index
  | .notSet => .error "Value not constructed due to unexpected variant of Value from IR."

/-- `ToIR(const proto::Value&)`. -/
def toIrValue (state : ProtoToIr) (value : Proto.Value) : Checked (Value × ProtoToIr) := do
  let value ← state.toIrValueVariant value
  let (_, ssaNames) := state.ssaNames.getOrCreateID value
  return (value, { state with ssaNames })

def toIrAttribute : Proto.AttributePayload → Checked Attribute
  | .floatPayload value => .ok (.float value)
  | .int64Payload value => .ok (.int64 value)
  | .stringPayload value => .ok (.string value)
  | .notSet => .error "Unexpected variant of Attribute Payload from IR"

/-- `AddAttribute`: `emplace` keeps an attribute that is there. -/
def addAttributes (attributes : NamedAttributeMap) (added : List (String × Attribute)) :
    NamedAttributeMap :=
  added.foldl (fun attributes entry => (attributes.tryInsert entry.1 entry.2).1) attributes

/-- `ToIR(Operation&, const proto::Operation&)`. -/
def toIrOperation (state : ProtoToIr) (operation : Operation) (proto : Proto.Operation) :
    Checked (Operation × ProtoToIr) := do
  let (inputs, state) ← thread toIrValue state proto.inputs
  let attributes ← proto.attributes.entries.mapM fun entry => do
    return (entry.1, ← toIrAttribute entry.2)
  return ({ operation with
    inputs := operation.inputs ++ inputs
    attributes := addAttributes operation.attributes attributes }, state)

/-- The loop body over the operations in `ToIR(ID, const proto::Block&)`. -/
def fillOperation (state : ProtoToIr) (proto : Proto.OperationWithId) : Checked ProtoToIr := do
  let operation ← state.findOperation proto.id ("Operation " ++ toString proto.id ++ "(" ++
    proto.operation.operatorName ++ ") was not registered.")
  let (operation, state) ← state.toIrOperation operation proto.operation
  return { state with operations := state.operations.insertOrAssign proto.id (some operation) }

/-- The loop body over the results in `ToIR(ID, const proto::Block&)`. -/
def addResult (builder : DeclaredBlock × ProtoToIr) (result : Σ _ : String, Proto.Value) :
    Checked (DeclaredBlock × ProtoToIr) := do
  let (value, state) ← builder.2.toIrValue result.2
  let block ← BlockBuilder.addResult builder.1 result.1 value
  return (block, state)

/-- `ToIR(ID, const proto::Block&)`. -/
def fillBlock (state : ProtoToIr) (proto : Proto.BlockWithId) : Checked ProtoToIr := do
  let block ← state.findBlock proto.id "This block should be pre-constructed."
  let (block, state) ← proto.block.results.entries.foldlM addResult (block, state)
  let state := { state with blocks := state.blocks.insertOrAssign proto.id (some block) }
  proto.block.operations.foldlM fillOperation state

/-! ### Ownership -/

/-- The loop body over the operations in `PostVisit(BlockBuilder&, const proto::Block&)`. -/
def moveOperation (builder : DeclaredBlock × ProtoToIr) (proto : Proto.OperationWithId) :
    Checked (DeclaredBlock × ProtoToIr) := do
  let operation ← builder.2.findOperation proto.id "This operation should be pre-constructed."
  visitOperation proto.operation
  return (BlockBuilder.addOperation builder.1 operation,
    { builder.2 with operations := builder.2.operations.insertOrAssign proto.id none })

/-- The loop body of `PostVisit(Module&, const proto::Module&)`. -/
def moveBlock (module : List DeclaredBlock × ProtoToIr) (proto : Proto.BlockWithId) :
    Checked (List DeclaredBlock × ProtoToIr) := do
  let block ← module.2.findBlock proto.id "This block builder should be pre-constructed."
  let (block, state) ← proto.block.operations.foldlM moveOperation (block, module.2)
  proto.block.results.entries.forM fun entry => visitValue entry.2
  return (module.1 ++ [block], { state with blocks := state.blocks.insertOrAssign proto.id none })

/-- Operators that the context does not know get one return value. -/
def registerOperators (context : FlatHashMap String Operator) (names : List String) :
    FlatHashMap String Operator :=
  names.foldl (fun operators name => (operators.tryInsert name ⟨name, 1⟩).1) context

/-- `Convert`: the blocks of the module and the names of its values. -/
def convert (context : FlatHashMap String Operator) (root : Proto.IrTranslationUnit) :
    Checked (List DeclaredBlock × SsaNames) := do
  let state ← root.topLevelModule.blocks.foldlM createBlock
    { operators := registerOperators context root.operators }
  let state ← root.topLevelModule.blocks.foldlM fillBlock state
  let (blocks, state) ← root.topLevelModule.blocks.foldlM moveBlock ([], state)
  state.blocks.entries.forM fun entry => check (entry.2.isNone = true)
    ("Block " ++ toString entry.1 ++ " was not built and placed in it's module.")
  state.operations.entries.forM fun entry => check (entry.2.isNone = true)
    ("Operation " ++ toString entry.1 ++ " was not moved into it's module.")
  return (blocks, state.ssaNames)

end ProtoToIr

end Raksha.Ir
