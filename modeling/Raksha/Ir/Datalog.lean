import Raksha.Souffle.Operations

/-!
# Datalog values

`ir/datalog/{value,operation,attribute}.h`. A list is a record of its head and its tail, and `nil`
is the record without a tuple.
-/

namespace Raksha.Ir.Datalog

inductive Value
  | float (value : BitVec 64)
  | number (value : ℤ)
  | symbol (value : String)
  | nil
  | record (arguments : List Value)
  | adt (branchName : String) (arguments : List Value)

section

-- The text that `%lg` gives for the bits of a double.
variable (floatToString : BitVec 64 → String)

mutual

def Value.toDatalogString : Value → String
  | .float value => floatToString value
  | .number value => toString value
  | .symbol value => "\"" ++ value ++ "\""
  | .nil => "nil"
  | .record arguments => "[" ++ strJoin arguments ++ "]"
  | .adt branchName arguments => "$" ++ branchName ++ "(" ++ strJoin arguments ++ ")"

/-- `StrJoin` of the texts of the arguments. -/
def strJoin : List Value → String
  | [] => ""
  | value :: values => value.toDatalogString ++ strJoinRest values

def strJoinRest : List Value → String
  | [] => ""
  | value :: values => ", " ++ value.toDatalogString ++ strJoinRest values

end

end

/-! ### Operations -/

/-- `OperandList` and `ResultList`. -/
def symbolList (symbols : List String) : Value :=
  symbols.foldr (fun symbol next => .record [.symbol symbol, next]) .nil

def attributePayload : Souffle.AttributePayload → Value
  | .stringAttributePayload str => .adt "StringAttributePayload" [.symbol str]
  | .numberAttributePayload num => .adt "NumberAttributePayload" [.number num]
  | .floatAttributePayload bits => .adt "FloatAttributePayload" [.float bits]

def attributeRecord (attr : Souffle.Attribute) : Value :=
  .record [.symbol attr.attrName, attributePayload attr.attrPayload]

def attributeList (attributes : List Souffle.Attribute) : Value :=
  attributes.foldr (fun attr next => .record [attributeRecord attr, next]) .nil

def operationRecord (operation : Souffle.Operation) : Value :=
  .record [.symbol operation.actor, .symbol operation.operator, symbolList operation.resultList,
    symbolList operation.operandList, attributeList operation.attributes]

def toDatalogString (floatToString : BitVec 64 → String) (operation : Souffle.Operation) : String :=
  (operationRecord operation).toDatalogString floatToString

end Raksha.Ir.Datalog
