import Raksha.Sql.DecoderContext

/-!
# Decoding of expression arenas

`frontends/sql/decode.cc` over the messages of `sql_ir.proto`: the expressions of an arena become,
in their order, storages of the context and operations of its top-level block.
-/

namespace Raksha.Sql.Decode
open Raksha.Common Raksha.Ir

/-! ### The messages -/

structure SourceTableColumn where
  columnPath : String

structure Literal where
  literalStr : String

/-- The values of the inputs fit a vector. -/
structure MergeOperation where
  inputs : List UInt64
  controlInputs : List UInt64
  fits : inputs.length < int64Max

structure TagTransform where
  transformedNode : UInt64
  transformRuleName : String
  tagPreconditions : FlatHashMap String UInt64
  fits : tagPreconditions.entries.length < int64Max

/-- The `oneof` of an expression; its optional name is not read. -/
inductive Expression
  | exprVariantNotSet
  | sourceTableColumn (sourceTableColumn : SourceTableColumn)
  | literal (literal : Literal)
  | mergeOperation (mergeOperation : MergeOperation)
  | tagTransform (tagTransform : TagTransform)

structure IdExpressionPair where
  id : UInt64
  expression : Expression

/-- The iteration orders of the hash maps that are copied from the maps of the messages: a copy
has the entries of the map, and the order may depend on the place of the operation. -/
structure IterationOrder where
  copy : ℕ → FlatHashMap String UInt64 → FlatHashMap String UInt64
  perm : ∀ place m, (copy place m).entries.Perm m.entries

/-! ### The decoder -/

def decodeSourceTableColumn (sourceTableColumn : SourceTableColumn)
    (decoderContext : DecoderContext) : Checked (Value × DecoderContext) := do
  check (sourceTableColumn.columnPath ≠ "") "Required field column_path was empty."
  let (storage, decoderContext) ← decoderContext.getOrCreateStorage sourceTableColumn.columnPath
  return (.storedValue storage, decoderContext)

/-- The value of an operation that was just added. -/
def wrapOperationResultValue (added : Operation × DecoderContext) : Value × DecoderContext :=
  (DecoderContext.wrapOperationResultValue added.1, added.2)

def decodeLiteral (literal : Literal) (decoderContext : DecoderContext) :
    Checked (Value × DecoderContext) := do
  check (literal.literalStr ≠ "") "required field literal_str was empty."
  return wrapOperationResultValue (← decoderContext.makeLiteralOperation literal.literalStr)

def decodeMergeOperation (mergeOperation : MergeOperation) (decoderContext : DecoderContext) :
    Checked (Value × DecoderContext) := do
  check (1 ≤ mergeOperation.inputs.length)
    "Each MergeOperation is expected to have at least one non-control input."
  return wrapOperationResultValue
    (← decoderContext.makeMergeOperation mergeOperation.inputs mergeOperation.controlInputs)

def decodeTagTransform (order : IterationOrder) (tagTransform : TagTransform)
    (decoderContext : DecoderContext) : Checked (Value × DecoderContext) := do
  check (tagTransform.transformedNode ≠ 0)
    "Required TagTransform field transformed_node not present."
  check (tagTransform.transformRuleName ≠ "")
    "Required TagTransform field transform_rule_name not present."
  let preconditions :=
    order.copy decoderContext.operations.length tagTransform.tagPreconditions
  return wrapOperationResultValue (← decoderContext.makeTagTransformOperation
    tagTransform.transformedNode tagTransform.transformRuleName preconditions)

def decodeExpression (order : IterationOrder) (expr : Expression)
    (decoderContext : DecoderContext) : Checked (Value × DecoderContext) :=
  match expr with
  | .exprVariantNotSet => .error "Required field expr_variant not set."
  | .sourceTableColumn sourceTableColumn =>
    decodeSourceTableColumn sourceTableColumn decoderContext
  | .literal literal => decodeLiteral literal decoderContext
  | .mergeOperation mergeOperation => decodeMergeOperation mergeOperation decoderContext
  | .tagTransform tagTransform => decodeTagTransform order tagTransform decoderContext

/-- The loop body of `DecodeExpressionArena`, with the top-level value so far. -/
def decodeIdExpressionPair (order : IterationOrder) (state : Option Value × DecoderContext)
    (idExprPair : IdExpressionPair) : Checked (Option Value × DecoderContext) := do
  let (value, decoderContext) ← decodeExpression order idExprPair.expression state.2
  let decoderContext ← decoderContext.registerValue idExprPair.id value
  return (some value, decoderContext)

/-- The decoder reads the pairs of the arena only. -/
def decodeExpressionArena (order : IterationOrder) (idExpressionPairs : List IdExpressionPair)
    (decoderContext : DecoderContext) : Checked (Value × DecoderContext) := do
  let (topLevelValue, decoderContext) ←
    idExpressionPairs.foldlM (decodeIdExpressionPair order) (none, decoderContext)
  match topLevelValue with
  | none => .error "Expected at least one expression to be provided in the ExpressionArena."
  | some topLevelValue =>
    return wrapOperationResultValue (← decoderContext.makeSqlOutputOperation topLevelValue)

end Raksha.Sql.Decode
