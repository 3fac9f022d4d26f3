import Raksha.Sql.Operations

/-!
# The decoder context

`ir/ir_context.h` and `frontends/sql/decoder_context.{h,cc}`: the registry of operators and
storages, the values of the ids that are decoded so far, and the top-level block under
construction. The `Create` functions of the operations are those of `frontends/sql/ops`.
-/

namespace Raksha.Ir
open Raksha.Common

/-- `ir::IRContext`. A storage is told apart by its address, which no other storage of the
context has. -/
structure IRContext where
  operators : FlatHashMap String Operator
  storages : FlatHashMap String Address
  nextStorage : Address
  storages_lt : ∀ name address, storages.lookup name = some address → address < nextStorage
  storages_injective : ∀ name name' address, storages.lookup name = some address →
    storages.lookup name' = some address → name = name'

namespace IRContext

def empty : IRContext where
  operators := ∅
  storages := ∅
  nextStorage := 0
  storages_lt := by
    intro name address h
    rw [AList.lookup_empty] at h
    cases h
  storages_injective := by
    intro name name' address h
    rw [AList.lookup_empty] at h
    cases h

def registerOperator (context : IRContext) (op : Operator) : Checked IRContext := do
  let (operators, inserted) := context.operators.tryInsert op.name op
  check (inserted = true) ("Cannot register duplicate operator with name '" ++ op.name ++ "'.")
  return { context with operators }

def getOperator (context : IRContext) (operatorsName : String) : Option Operator :=
  context.operators.lookup operatorsName

def isRegisteredStorage (context : IRContext) (operatorsName : String) : Bool :=
  decide (operatorsName ∈ context.storages)

def getStorage (context : IRContext) (operatorsName : String) : Option Address :=
  context.storages.lookup operatorsName

def insertStorage (context : IRContext) (name : String) : IRContext where
  operators := context.operators
  storages := context.storages.insertOrAssign name context.nextStorage
  nextStorage := context.nextStorage + 1
  storages_lt := by
    intro other address h
    rw [FlatHashMap.lookup_insertOrAssign] at h
    split at h
    · cases h
      exact Nat.lt_succ_self context.nextStorage
    · exact Nat.lt_succ_of_lt (context.storages_lt other address h)
  storages_injective := by
    intro first second address hfirst hsecond
    rw [FlatHashMap.lookup_insertOrAssign] at hfirst hsecond
    split at hfirst
    · next heq =>
      cases hfirst
      split at hsecond
      · next heq' => rw [heq, heq']
      · exact absurd (context.storages_lt _ _ hsecond) (Nat.lt_irrefl _)
    · split at hsecond
      · cases hsecond
        exact absurd (context.storages_lt _ _ hfirst) (Nat.lt_irrefl _)
      · exact context.storages_injective _ _ _ hfirst hsecond

def registerStorage (context : IRContext) (name : String) : Checked (Address × IRContext) := do
  check (name ∉ context.storages) ("Cannot register duplicate storage with name '" ++ name ++ "'.")
  return (context.nextStorage, context.insertStorage name)

theorem registerOperator_eq_ok (context context' : IRContext) (op : Operator) :
    context.registerOperator op = .ok context' ↔ op.name ∉ context.operators ∧
      context' = { context with operators := context.operators.insertOrAssign op.name op } := by
  unfold registerOperator
  simp only [Checked.bind_eq_ok, check_eq_ok, exists_const, Checked.pure_eq_ok,
    FlatHashMap.tryInsert_snd, eq_comm (b := context')]
  refine and_congr_right fun hfresh => ?_
  rw [FlatHashMap.tryInsert_of_notMem _ _ _ hfresh]

end IRContext

end Raksha.Ir

namespace Raksha.Sql
open Raksha.Common Raksha.Ir

/-- `std::numeric_limits<int64_t>::max()`. -/
def int64Max : ℕ := 2 ^ 63 - 1

/-- `*ABSL_DIE_IF_NULL(SqlOp::GetOperator<T>(context))`. -/
def requireOperator (context : IRContext) (name : String) : Checked Operator :=
  match context.getOperator name with
  | none => .error ("SqlOp::GetOperator of '" ++ name ++ "' must be non-null")
  | some op => .ok op

namespace LiteralOp

def literalStringAttrName : String := "literal_string"

def create (address : Address) (context : IRContext) (literal : String) : Checked Operation := do
  let op ← requireOperator context literalOpName
  return { address, op, attributes := AList.singleton literalStringAttrName (.string literal) }

end LiteralOp

namespace MergeOp

def create (address : Address) (context : IRContext) (directInputs controlInputs : List Value) :
    Checked Operation := do
  check (directInputs ≠ [] ∨ controlInputs ≠ [])
    "Both direct inputs and control inputs are empty."
  check (directInputs.length < int64Max) "Too many direct_inputs."
  let op ← requireOperator context mergeOpName
  return { address, op,
           attributes := AList.singleton controlInputStartIndex (.int64 directInputs.length),
           inputs := directInputs ++ controlInputs }

end MergeOp

namespace TagTransformOp

/-- The inputs and attributes that are collected so far, and the next index. -/
structure Collected where
  inputs : List Value
  attributes : NamedAttributeMap
  index : ℕ

/-- The loop body over the preconditions in `Create`. -/
def addPrecondition (collected : Collected) (precondition : String × Value) :
    Checked Collected := do
  let (attributes, inserted) :=
    collected.attributes.tryInsert precondition.1 (.int64 collected.index)
  check (inserted = true) ("Duplicate precondition name '" ++ precondition.1 ++ "'.")
  return ⟨collected.inputs ++ [precondition.2], attributes, collected.index + 1⟩

def create (address : Address) (context : IRContext) (ruleName : String)
    (transformedValue : Value) (preconditions : List (String × Value)) : Checked Operation := do
  check (preconditions.length < int64Max)
    "preconditions.size() < std::numeric_limits<int64_t>::max()"
  let collected ← preconditions.foldlM addPrecondition
    ⟨[transformedValue], AList.singleton ruleNameAttribute (.string ruleName), 1⟩
  let op ← requireOperator context tagTransformOpName
  return { address, op, attributes := collected.attributes, inputs := collected.inputs }

theorem addPrecondition_eq_ok (collected collected' : Collected)
    (precondition : String × Value) :
    addPrecondition collected precondition = .ok collected' ↔
      precondition.1 ∉ collected.attributes ∧
      collected' = ⟨collected.inputs ++ [precondition.2],
        collected.attributes.insertOrAssign precondition.1 (.int64 collected.index),
        collected.index + 1⟩ := by
  unfold addPrecondition
  simp only [Checked.bind_eq_ok, check_eq_ok, exists_const, Checked.pure_eq_ok,
    FlatHashMap.tryInsert_snd, eq_comm (b := collected')]
  refine and_congr_right fun hfresh => ?_
  rw [FlatHashMap.tryInsert_of_notMem _ _ _ hfresh]

/-- The loop appends the values in their order and gives every name the index of its value. -/
theorem addPreconditions_spec {preconditions : List (String × Value)}
    {collected collected' : Collected}
    (h : preconditions.foldlM addPrecondition collected = .ok collected') :
    (∀ precondition ∈ preconditions, precondition.1 ∉ collected.attributes) ∧
    collected'.inputs = collected.inputs ++ preconditions.map Prod.snd ∧
    ∀ name attr, collected'.attributes.lookup name = some attr ↔
      collected.attributes.lookup name = some attr ∨
      ∃ k value, preconditions[k]? = some (name, value) ∧
        attr = .int64 ((collected.index + k : ℕ) : ℤ) := by
  induction preconditions generalizing collected with
  | nil =>
    simp only [List.foldlM_nil, Checked.pure_eq_ok] at h
    subst h
    simp
  | cons precondition preconditions ih =>
    simp only [List.foldlM_cons, Checked.bind_eq_ok] at h
    obtain ⟨mid, hmid, hrest⟩ := h
    obtain ⟨hfresh, rfl⟩ := (addPrecondition_eq_ok _ _ _).mp hmid
    obtain ⟨hnew, hinputs, hattributes⟩ := ih hrest
    have hnew' : ∀ other ∈ preconditions,
        other.1 ≠ precondition.1 ∧ other.1 ∉ collected.attributes := by
      intro other hother
      have hnot := hnew other hother
      simp only [FlatHashMap.insertOrAssign, AList.mem_insert, not_or] at hnot
      exact hnot
    refine ⟨?_, ?_, ?_⟩
    · intro other hother
      rcases List.mem_cons.mp hother with rfl | hother
      · exact hfresh
      · exact (hnew' other hother).2
    · rw [hinputs, List.map_cons, List.append_assoc, List.singleton_append]
    · intro name attr
      have hplaces : (∃ k value, (precondition :: preconditions)[k]? = some (name, value) ∧
          attr = .int64 ((collected.index + k : ℕ) : ℤ)) ↔
          (precondition.1 = name ∧ attr = .int64 collected.index) ∨
          ∃ k value, preconditions[k]? = some (name, value) ∧
            attr = .int64 ((collected.index + 1 + k : ℕ) : ℤ) := by
        constructor
        · rintro ⟨k, value, hk, hattr⟩
          cases k with
          | zero =>
            rw [List.getElem?_cons_zero, Option.some.injEq] at hk
            exact Or.inl ⟨congrArg Prod.fst hk, hattr⟩
          | succ k =>
            rw [show collected.index + (k + 1) = collected.index + 1 + k by omega] at hattr
            exact Or.inr ⟨k, value, hk, hattr⟩
        · rintro (⟨rfl, hattr⟩ | ⟨k, value, hk, hattr⟩)
          · exact ⟨0, precondition.2, rfl, hattr⟩
          · rw [show collected.index + 1 + k = collected.index + (k + 1) by omega] at hattr
            exact ⟨k + 1, value, hk, hattr⟩
      rw [hattributes, hplaces, FlatHashMap.lookup_insertOrAssign]
      by_cases hname : name = precondition.1
      · subst hname
        have hnone := (FlatHashMap.lookup_eq_none_iff _ _).mpr hfresh
        rw [if_pos rfl, hnone]
        simp only [Option.some.injEq, reduceCtorEq, false_or, true_and, eq_comm (a := attr)]
      · simp only [hname, if_false, Ne.symm hname, false_and, false_or]

theorem addPreconditions_of {preconditions : List (String × Value)} {collected : Collected}
    (hnodup : (preconditions.map Prod.fst).Nodup)
    (hfresh : ∀ precondition ∈ preconditions, precondition.1 ∉ collected.attributes) :
    ∃ collected', preconditions.foldlM addPrecondition collected = .ok collected' := by
  induction preconditions generalizing collected with
  | nil => exact ⟨collected, rfl⟩
  | cons precondition preconditions ih =>
    obtain ⟨hnot, hnodup⟩ := List.nodup_cons.mp hnodup
    have hstep := (addPrecondition_eq_ok collected _ precondition).mpr
      ⟨hfresh _ (List.mem_cons_self ..), rfl⟩
    have hrestFresh : ∀ other ∈ preconditions, other.1 ∉
        collected.attributes.insertOrAssign precondition.1 (.int64 collected.index) := by
      intro other hother
      have hne : other.1 ≠ precondition.1 := by
        intro heq
        exact hnot (List.mem_map.mpr ⟨other, hother, heq⟩)
      simp only [FlatHashMap.insertOrAssign, AList.mem_insert, not_or]
      exact ⟨hne, hfresh other (List.mem_cons_of_mem _ hother)⟩
    obtain ⟨collected', hrest⟩ := @ih ⟨collected.inputs ++ [precondition.2],
      collected.attributes.insertOrAssign precondition.1 (.int64 collected.index),
      collected.index + 1⟩ hnodup hrestFresh
    refine ⟨collected', ?_⟩
    rw [List.foldlM_cons, hstep]
    exact hrest

end TagTransformOp

namespace SqlOutputOp

def create (address : Address) (context : IRContext) (value : Value) : Checked Operation := do
  let op ← requireOperator context sqlOutputOpName
  return { address, op, inputs := [value] }

end SqlOutputOp

/-- `DecoderContext`; an operation of the top-level block has its place in the block as
address. -/
structure DecoderContext where
  irContext : IRContext
  idToValue : FlatHashMap UInt64 Value := ∅
  operations : List Operation := []

namespace DecoderContext

/-- The constructor, which registers the operators of the frontend. -/
def create (irContext : IRContext) : Checked DecoderContext := do
  let irContext ← irContext.registerOperator { name := literalOpName }
  let irContext ← irContext.registerOperator { name := mergeOpName }
  let irContext ← irContext.registerOperator { name := tagTransformOpName }
  let irContext ← irContext.registerOperator { name := sqlOutputOpName }
  return { irContext }

def defaultOutputIndex : ℕ := 0

def wrapOperationResultValue (operation : Operation) : Value :=
  operation.getOutputValue defaultOutputIndex

def registerValue (context : DecoderContext) (id : UInt64) (value : Value) :
    Checked DecoderContext := do
  let (idToValue, inserted) := context.idToValue.tryInsert id value
  check (inserted = true)
    ("id_to_value map has more than one value associated with the id " ++ toString id ++ ".")
  return { context with idToValue }

def getValue (context : DecoderContext) (id : UInt64) : Checked Value := do
  check (id ≠ 0) "Attempt to get a value with id 0, which is not a legal value id."
  match context.idToValue.lookup id with
  | none => .error ("Could not find a value with id " ++ toString id ++ ".")
  | some value => return value

def getOrCreateStorage (context : DecoderContext) (storageName : String) :
    Checked (Address × DecoderContext) :=
  if context.irContext.isRegisteredStorage storageName then
    match context.irContext.getStorage storageName with
    | none => .error "ir_context_.GetStorage(storage_name) must be non-null"
    | some storage => .ok (storage, context)
  else do
    let (storage, irContext) ← context.irContext.registerStorage storageName
    return (storage, { context with irContext })

/-- `BlockBuilder::AddOperation<T>` with the `Create` function of `T`. -/
def addOperation (context : DecoderContext)
    (create : Address → IRContext → Checked Operation) :
    Checked (Operation × DecoderContext) := do
  let operation ← create context.operations.length context.irContext
  return (operation, { context with operations := context.operations ++ [operation] })

def makeLiteralOperation (context : DecoderContext) (literalStr : String) :
    Checked (Operation × DecoderContext) :=
  context.addOperation fun address irContext => LiteralOp.create address irContext literalStr

def makeMergeOperation (context : DecoderContext) (directInputIds controlInputIds : List UInt64) :
    Checked (Operation × DecoderContext) := do
  let directInputs ← directInputIds.mapM context.getValue
  let controlInputs ← controlInputIds.mapM context.getValue
  context.addOperation fun address irContext =>
    MergeOp.create address irContext directInputs controlInputs

/-- The pair that the lambda of `MakeTagTransformOperation` makes of a precondition. -/
def preconditionValuePair (context : DecoderContext) (precondition : Σ _ : String, UInt64) :
    Checked (String × Value) := do
  return (precondition.1, ← context.getValue precondition.2)

def makeTagTransformOperation (context : DecoderContext) (transformedValueId : UInt64)
    (ruleName : String) (tagPreconditions : FlatHashMap String UInt64) :
    Checked (Operation × DecoderContext) := do
  let preconditions ← tagPreconditions.entries.mapM context.preconditionValuePair
  let transformedValue ← context.getValue transformedValueId
  context.addOperation fun address irContext =>
    TagTransformOp.create address irContext ruleName transformedValue preconditions

def makeSqlOutputOperation (context : DecoderContext) (value : Value) :
    Checked (Operation × DecoderContext) :=
  context.addOperation fun address irContext => SqlOutputOp.create address irContext value

theorem getValue_eq_ok (context : DecoderContext) (id : UInt64) (value : Value) :
    context.getValue id = .ok value ↔ id ≠ 0 ∧ context.idToValue.lookup id = some value := by
  unfold getValue
  simp only [Checked.bind_eq_ok, check_eq_ok, exists_const]
  refine and_congr_right fun _ => ?_
  cases context.idToValue.lookup id with
  | none => simp
  | some found => simp

theorem registerValue_eq_ok (context context' : DecoderContext) (id : UInt64) (value : Value) :
    context.registerValue id value = .ok context' ↔ id ∉ context.idToValue ∧
      context' = { context with idToValue := context.idToValue.insertOrAssign id value } := by
  unfold registerValue
  simp only [Checked.bind_eq_ok, check_eq_ok, exists_const, Checked.pure_eq_ok,
    FlatHashMap.tryInsert_snd, eq_comm (b := context')]
  refine and_congr_right fun hfresh => ?_
  rw [FlatHashMap.tryInsert_of_notMem _ _ _ hfresh]

/-- The context after an operation was added. -/
def withOperation (context : DecoderContext) (operation : Operation) : DecoderContext :=
  { context with operations := context.operations ++ [operation] }

theorem addOperation_eq_ok (context : DecoderContext)
    (create : Address → IRContext → Checked Operation) (added : Operation × DecoderContext) :
    context.addOperation create = .ok added ↔
      ∃ operation, create context.operations.length context.irContext = .ok operation ∧
        (operation, context.withOperation operation) = added := by
  unfold addOperation
  simp only [Checked.bind_eq_ok, Checked.pure_eq_ok]
  rfl

/-- A storage of the name exists afterwards, and the others stay. -/
theorem getOrCreateStorage_spec (context : DecoderContext) (storageName : String) :
    ∃ storage irContext,
      context.getOrCreateStorage storageName = .ok (storage, { context with irContext }) ∧
      irContext.operators = context.irContext.operators ∧
      irContext.storages.lookup storageName = some storage ∧
      ∀ name address, context.irContext.storages.lookup name = some address →
        irContext.storages.lookup name = some address := by
  unfold getOrCreateStorage IRContext.isRegisteredStorage IRContext.getStorage
  by_cases hmem : storageName ∈ context.irContext.storages
  · obtain ⟨storage, hstorage⟩ :=
      Option.ne_none_iff_exists'.mp ((FlatHashMap.mem_iff_lookup _ _).mp hmem)
    refine ⟨storage, context.irContext, ?_, rfl, hstorage, fun _ _ h => h⟩
    simp only [hmem, decide_true, if_true, hstorage]
  · refine ⟨context.irContext.nextStorage, context.irContext.insertStorage storageName,
      ?_, rfl, ?_, ?_⟩
    · simp only [hmem, decide_false, Bool.false_eq_true, if_false, IRContext.registerStorage,
        Checked.bind_eq_ok, check_eq_ok, exists_const, Checked.pure_eq_ok, not_false_eq_true,
        true_and]
      exact ⟨_, rfl, rfl⟩
    · simp only [IRContext.insertStorage, FlatHashMap.lookup_insertOrAssign, if_true]
    · intro name address hlookup
      have hne : name ≠ storageName := by
        rintro rfl
        rw [(FlatHashMap.lookup_eq_none_iff _ _).mpr hmem] at hlookup
        cases hlookup
      simp only [IRContext.insertStorage, FlatHashMap.lookup_insertOrAssign, hne, if_false, hlookup]

/-- The operators of the frontend are registered. -/
def Registered (context : DecoderContext) : Prop :=
  ∀ name ∈ [literalOpName, mergeOpName, tagTransformOpName, sqlOutputOpName],
    requireOperator context.irContext name = .ok { name }

/-- A new context knows the operators and has neither values nor operations. -/
theorem create_spec {irContext : IRContext} {context : DecoderContext}
    (h : create irContext = .ok context) :
    context.Registered ∧ context.idToValue = ∅ ∧ context.operations = [] := by
  simp only [create, Checked.bind_eq_ok, IRContext.registerOperator_eq_ok,
    Checked.pure_eq_ok] at h
  obtain ⟨_, ⟨-, rfl⟩, _, ⟨-, rfl⟩, _, ⟨-, rfl⟩, _, ⟨-, rfl⟩, rfl⟩ := h
  refine ⟨?_, rfl, rfl⟩
  intro name hname
  simp only [List.mem_cons, List.not_mem_nil, or_false] at hname
  rcases hname with rfl | rfl | rfl | rfl <;>
    simp [requireOperator, IRContext.getOperator, literalOpName, mergeOpName,
      tagTransformOpName, sqlOutputOpName]

end DecoderContext

end Raksha.Sql
