import Raksha.Ir.Module

/-!
# Protos of the intermediate representation

The messages of `ir/proto/raksha_ir.proto` that a translation unit is made of. A `oneof` may be
unset.
-/

namespace Raksha.Ir.Proto
open Raksha.Common

inductive Value
  | anyValue
  | operationResultValue (operationId outputIndex : ℕ)
  | blockArgumentValue (blockId blockArgumentIndex : ℕ)
  | notSet
deriving DecidableEq

inductive AttributePayload
  | int64Payload (value : ℤ)
  | stringPayload (value : String)
  | floatPayload (value : BitVec 64)
  | notSet
deriving DecidableEq

structure Operation where
  operatorName : String
  inputs : List Value
  attributes : FlatHashMap String AttributePayload

structure OperationWithId where
  id : ℕ
  operation : Operation

structure Block where
  operations : List OperationWithId
  results : FlatHashMap String Value

structure BlockWithId where
  id : ℕ
  block : Block

structure Module where
  blocks : List BlockWithId

/-- The operators of a translation unit are their names. -/
structure IrTranslationUnit where
  topLevelModule : Module
  frontend : String
  operators : List String

namespace Module

def operations (module : Module) : List OperationWithId :=
  module.blocks.flatMap fun block => block.block.operations

end Module

end Raksha.Ir.Proto
