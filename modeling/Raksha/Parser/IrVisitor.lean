import Raksha.Ir.SsaNames
import Raksha.Parser.IrGrammar

/-!
# From parse trees to modules

The visitor of `parser/ir/ir_parser.cc`. A block is visited in two passes: its operations are
created without inputs, and the inputs are filled in when all names of the block are known.
-/

namespace Raksha.Ir
open Raksha.Common

def SsaNames.addID (names : SsaNames) (value : Value) (id : String) : Checked SsaNames := do
  check (names.find? value = none)
    ("Trying to update new ID " ++ id ++ " to an existing value map")
  return { valueIds := { names.valueIds with
    itemIds := names.valueIds.itemIds.insertOrAssign value id } }

theorem SsaNames.addID_eq_ok {names names' : SsaNames} {value : Value} {id : String}
    (h : names.addID value id = .ok names') : names.find? value = none ∧
      ∀ other, names'.find? other = if other = value then some id else names.find? other := by
  simp only [addID, Checked.bind_eq_ok, check_eq_ok, exists_const, Checked.pure_eq_ok] at h
  obtain ⟨hfresh, rfl⟩ := h
  refine ⟨hfresh, ?_⟩
  intro other
  simp only [find?, FlatHashMap.lookup_insertOrAssign]

end Raksha.Ir

namespace Raksha.Parser
open Raksha.Common Raksha.Ir

inductive ValueId
  | any
  | temporary (name : String)
deriving DecidableEq

structure OperationParts where
  opResultIds : List ValueId
  operatorName : String
  attributes : NamedAttributeMap
  inputIds : List ValueId

/-- `absl::SimpleAtoi<int64_t>` of a literal, which has digits only. -/
def simpleAtoi (text : String) : Option ℤ :=
  let n := Nat.ofDigitChars 10 text.toList 0
  if n < 2 ^ 63 then some n else none

namespace IrVisitor

def visitStringLiteral (stringLiteralContents : String) : Checked String := do
  let text := stringLiteralContents.toList
  check (2 ≤ text.length) "string_literal_contents_with_quotes.size() >= 2"
  check (text.head? = some '"') "string_literal_contents_with_quotes.front() == '\"'"
  check (text.getLast? = some '"') "string_literal_contents_with_quotes.back() == '\"'"
  return String.ofList (text.tail.dropLast)

def visitValue : ValueContext → ValueId
  | .anyValue => .any
  | .namedTempValue valueName => .temporary valueName

section

-- `absl::SimpleAtod`, with the result as the bits of the double.
variable (simpleAtod : String → Option (BitVec 64))

/-- The suffix `l` is discarded. -/
def visitFloatAttribute (floatLiteral : String) : Checked Attribute := do
  let text := floatLiteral.toList
  check (text ≠ []) "!text.empty()"
  let text := if text.getLast? = some 'l' then text.dropLast else text
  match simpleAtod (String.ofList text) with
  | some bits => return .float bits
  | none => .error "conversion_succeeds == true"

def visitNumAttribute (numLiteral : String) : Checked Attribute :=
  match simpleAtoi numLiteral with
  | some value => .ok (.int64 value)
  | none => .error "conversion_succeeds == true"

def visitAttributePayload : AttributePayloadContext → Checked Attribute
  | .floatAttribute floatLiteral => visitFloatAttribute simpleAtod floatLiteral
  | .numAttribute numLiteral => visitNumAttribute numLiteral
  | .stringAttribute contents => do return .string (← visitStringLiteral contents)

/-- The loop body of `visitAttributeList`. -/
def addAttribute (attributeMap : NamedAttributeMap) (context : AttributeContext) :
    Checked NamedAttributeMap := do
  let attr ← visitAttributePayload simpleAtod context.attributePayload
  let (attributeMap, inserted) := attributeMap.tryInsert context.name attr
  check (inserted = true) ("Multiple attributes with name: " ++ context.name)
  return attributeMap

def visitAttributeList (contexts : List AttributeContext) : Checked NamedAttributeMap :=
  contexts.foldlM (addAttribute simpleAtod) ∅

def visitOperation (context : OperationContext) : Checked OperationParts := do
  let attributes ← visitAttributeList simpleAtod context.attributeList
  return {
    opResultIds := context.result.map .temporary
    operatorName := context.operatorName
    attributes
    inputIds := context.argumentList.map visitValue }

end

/-- The operators that the context has registered so far are kept by name. -/
def maybeRegisterOperator (operators : FlatHashMap String Operator) (operatorName : String)
    (numResults : ℕ) : Checked (Operator × FlatHashMap String Operator) :=
  match operators.lookup operatorName with
  | none =>
    let op : Operator := ⟨operatorName, numResults⟩
    .ok (op, operators.insertOrAssign operatorName op)
  | some op => do
    check (op.numberOfReturnValues = numResults)
      ("Operator has different number of return values in different instances " ++ operatorName)
    return (op, operators)

/-- The state of the first pass over a block. Addresses are handed out one after the other. -/
structure BlockState where
  operators : FlatHashMap String Operator
  nextAddress : Address
  operationsAndInputs : List (Operation × List ValueId) := []
  temporaryNameToValue : FlatHashMap String Value := ∅

/-- The loop body over the result ids of an operation. -/
def addTemporary (operation : Operation) (temporaryNameToValue : FlatHashMap String Value)
    (result : ValueId × ℕ) : Checked (FlatHashMap String Value) :=
  match result.1 with
  | .any => .error "Found an `Any` on the left hand side of an `Operation` assignment"
  | .temporary name => do
    let (temporaryNameToValue, inserted) :=
      temporaryNameToValue.tryInsert name (operation.getOutputValue result.2)
    check (inserted = true) ("Found temporary name which was assigned to twice: " ++ name)
    return temporaryNameToValue

section

variable (simpleAtod : String → Option (BitVec 64))

/-- The loop body over the operations of a block. -/
def createOperation (state : BlockState) (context : OperationContext) : Checked BlockState := do
  let parts ← visitOperation simpleAtod context
  let (op, operators) ← maybeRegisterOperator state.operators parts.operatorName
    parts.opResultIds.length
  let operation : Operation :=
    { address := state.nextAddress, op, attributes := parts.attributes, inputs := [] }
  let temporaryNameToValue ←
    parts.opResultIds.zipIdx.foldlM (addTemporary operation) state.temporaryNameToValue
  return {
    operators
    nextAddress := state.nextAddress + 1
    operationsAndInputs := state.operationsAndInputs ++ [(operation, parts.inputIds)]
    temporaryNameToValue }

end

def findInput (temporaryNameToValue : FlatHashMap String Value) : ValueId → Checked Value
  | .any => .ok .any
  | .temporary name =>
    match temporaryNameToValue.lookup name with
    | some value => .ok value
    | none => .error "Value not found!"

def addInputs (temporaryNameToValue : FlatHashMap String Value)
    (operationAndInputs : Operation × List ValueId) : Checked Operation := do
  let inputs ← operationAndInputs.2.mapM (findInput temporaryNameToValue)
  return { operationAndInputs.1 with inputs }

/-- What has been parsed so far. -/
structure State where
  operators : FlatHashMap String Operator := ∅
  blocks : List Block := []
  ssaNames : SsaNames := {}
  nextAddress : Address := 0

section

variable (simpleAtod : String → Option (BitVec 64))

def visitBlock (state : State) (context : BlockContext) : Checked State := do
  let blockState ← context.operation.foldlM (createOperation simpleAtod)
    { operators := state.operators, nextAddress := state.nextAddress }
  let ssaNames ← blockState.temporaryNameToValue.entries.foldlM
    (fun (ssaNames : SsaNames) entry => ssaNames.addID entry.2 entry.1) state.ssaNames
  let operations ← blockState.operationsAndInputs.mapM
    (addInputs blockState.temporaryNameToValue)
  return {
    operators := blockState.operators
    blocks := state.blocks ++ [⟨operations⟩]
    ssaNames
    nextAddress := blockState.nextAddress }

def visitModule (context : ModuleContext) : Checked State :=
  context.block.foldlM (visitBlock simpleAtod) {}

end

end IrVisitor

end Raksha.Parser
