import Raksha.Ir.DeclaredModule
import Raksha.Ir.Proto
import Raksha.Lib.GrowingTables

/-!
# From modules to protos

`ir/ir_to_proto.cc`. Operations and blocks get numbers when they are first met, as a user of a
value or in their own right.
-/

namespace Raksha.Ir
open Raksha.Common Raksha.Lib.GrowingTables

/-- A pointer to an operation or to a block. -/
inductive Pointer
  | operation (address : Address)
  | block (address : Address)
deriving DecidableEq

structure IrToProto where
  usedIds : FlatHashMap Pointer ℕ := ∅
  lastUsedId : ℕ := 0

namespace IrToProto

def getID (state : IrToProto) (pointer : Pointer) : Checked (ℕ × IrToProto) :=
  match state.usedIds.lookup pointer with
  | some id => .ok (id, state)
  | none => .ok (state.lastUsedId + 1, {
      usedIds := state.usedIds.insertOrAssign pointer (state.lastUsedId + 1)
      lastUsedId := state.lastUsedId + 1 })

def attributeToProto : Attribute → Proto.AttributePayload
  | .float value => .floatPayload value
  | .int64 value => .int64Payload value
  | .string value => .stringPayload value

def attributesToProto (attributes : NamedAttributeMap) : FlatHashMap String Proto.AttributePayload :=
  .ofPairs (attributes.entries.map fun entry => (entry.1, attributeToProto entry.2))

def valueToProto (state : IrToProto) : Value → Checked (Proto.Value × IrToProto)
  | .any => .ok (.anyValue, state)
  | .operationResult operation index => do
    let (id, state) ← state.getID (.operation operation)
    return (.operationResultValue id index, state)
  | .blockArgument block index => do
    let (id, state) ← state.getID (.block block)
    return (.blockArgumentValue id index, state)
  | .storedValue _ => .error "Unexpected variant of Value from IR"

def operationToProto (state : IrToProto) (operation : Operation) :
    Checked (Proto.Operation × IrToProto) := do
  let (inputs, state) ← thread valueToProto state operation.inputs
  return ({
    operatorName := operation.op.name
    inputs
    attributes := attributesToProto operation.attributes }, state)

/-- The loop body over the operations of a block. -/
def addOperation (state : IrToProto) (operation : Operation) :
    Checked (Proto.OperationWithId × IrToProto) := do
  let (proto, state) ← operationToProto state operation
  let (id, state) ← state.getID (.operation operation.address)
  return (⟨id, proto⟩, state)

/-- The loop body over the results of a block. -/
def addResult (state : IrToProto) (result : Σ _ : String, Value) :
    Checked ((String × Proto.Value) × IrToProto) := do
  let (value, state) ← valueToProto state result.2
  return ((result.1, value), state)

def blockToProto (state : IrToProto) (block : DeclaredBlock) :
    Checked (Proto.Block × IrToProto) := do
  let (operations, state) ← thread addOperation state block.operations
  let (results, state) ← thread addResult state block.results.entries
  return ({ operations, results := .ofPairs results }, state)

/-- The loop body over the blocks of a module. -/
def addBlock (state : IrToProto) (block : DeclaredBlock) :
    Checked (Proto.BlockWithId × IrToProto) := do
  let (proto, state) ← blockToProto state block
  let (id, state) ← state.getID (.block block.address)
  return (⟨id, proto⟩, state)

def moduleToProto (state : IrToProto) (module : DeclaredModule) :
    Checked (Proto.Module × IrToProto) := do
  let (blocks, state) ← thread addBlock state module.blocks
  return ({ blocks }, state)

/-- `Convert`, for the operators of a context. -/
def convert (operators : FlatHashMap String Operator) (root : DeclaredModule) :
    Checked Proto.IrTranslationUnit := do
  let (topLevelModule, _) ← moduleToProto {} root
  return {
    topLevelModule
    frontend := "Raksha.IRToProto"
    operators := operators.keys }

/-! ### What the protos stand for -/

/-- Ids are only added, and distinct pointers have distinct ids. -/
def numbering : Growing IrToProto where
  grows state state' := ∀ pointer id, state.usedIds.lookup pointer = some id →
    state'.usedIds.lookup pointer = some id
  refl _ _ _ h := h
  trans hab hbc pointer id h := hbc pointer id (hab pointer id h)
  inv state := (∀ pointer id, state.usedIds.lookup pointer = some id → id ≤ state.lastUsedId) ∧
    ∀ pointer pointer' id, state.usedIds.lookup pointer = some id →
      state.usedIds.lookup pointer' = some id → pointer = pointer'

theorem getID_works (pointer : Pointer) : Works numbering (fun state => getID state pointer)
    fun final id => final.usedIds.lookup pointer = some id := by
  intro state hstate
  cases hlookup : state.usedIds.lookup pointer with
  | some id =>
    refine ⟨id, state, ?_, hstate, numbering.refl state, fun final hfinal => hfinal _ _ hlookup⟩
    simp only [getID, hlookup]
  | none =>
    let state' : IrToProto := {
      usedIds := state.usedIds.insertOrAssign pointer (state.lastUsedId + 1)
      lastUsedId := state.lastUsedId + 1 }
    have hlookup' : ∀ other, state'.usedIds.lookup other =
        if other = pointer then some (state.lastUsedId + 1) else state.usedIds.lookup other :=
      fun other => FlatHashMap.lookup_insertOrAssign ..
    refine ⟨state.lastUsedId + 1, state', ?_, ⟨?_, ?_⟩, ?_, ?_⟩
    · simp only [getID, hlookup, state']
    · intro other id hother
      rw [hlookup'] at hother
      split at hother
      · cases hother
        exact le_rfl
      · exact (hstate.1 other id hother).trans (Nat.le_succ _)
    · intro p q id hp hq
      rw [hlookup'] at hp hq
      by_cases hp' : p = pointer <;> by_cases hq' : q = pointer
      · rw [hp', hq']
      · rw [if_pos hp'] at hp
        rw [if_neg hq'] at hq
        cases hp
        have hle := hstate.1 q _ hq
        omega
      · rw [if_pos hq'] at hq
        rw [if_neg hp'] at hp
        cases hq
        have hle := hstate.1 p _ hp
        omega
      · rw [if_neg hp'] at hp
        rw [if_neg hq'] at hq
        exact hstate.2 p q id hp hq
    · intro other id hother
      rw [hlookup', if_neg, hother]
      rintro rfl
      rw [hlookup] at hother
      cases hother
    · intro final hfinal
      exact hfinal _ _ (by rw [hlookup', if_pos rfl])

inductive ValueOf (state : IrToProto) : Value → Proto.Value → Prop
  | any : ValueOf state .any .anyValue
  | operationResult {operation : Address} {id index : ℕ}
      (h : state.usedIds.lookup (.operation operation) = some id) :
      ValueOf state (.operationResult operation index) (.operationResultValue id index)
  | blockArgument {block : Address} {id index : ℕ}
      (h : state.usedIds.lookup (.block block) = some id) :
      ValueOf state (.blockArgument block index) (.blockArgumentValue id index)

structure OperationOf (state : IrToProto) (operation : Operation) (proto : Proto.OperationWithId) :
    Prop where
  id : state.usedIds.lookup (.operation operation.address) = some proto.id
  operatorName : proto.operation.operatorName = operation.op.name
  inputs : List.Forall₂ (ValueOf state) operation.inputs proto.operation.inputs
  attributes : ∀ name, proto.operation.attributes.lookup name =
    (operation.attributes.lookup name).map attributeToProto

structure BlockOf (state : IrToProto) (block : DeclaredBlock) (proto : Proto.BlockWithId) :
    Prop where
  id : state.usedIds.lookup (.block block.address) = some proto.id
  operations : List.Forall₂ (OperationOf state) block.operations proto.block.operations
  results : ∀ name, Option.Rel (ValueOf state) (block.results.lookup name)
    (proto.block.results.lookup name)

/-- The values that protos have a variant for. -/
def HasProto (v : Value) : Prop := ∀ storage, v ≠ .storedValue storage

theorem valueToProto_works {v : Value} (h : HasProto v) :
    Works numbering (fun state => valueToProto state v) fun final => ValueOf final v := by
  cases v with
  | any => exact .pure fun _ => .any
  | storedValue storage => exact absurd rfl (h storage)
  | operationResult operation index =>
    exact (getID_works (.operation operation)).map (fun id => Proto.Value.operationResultValue id index)
      fun final id hid => ValueOf.operationResult hid
  | blockArgument block index =>
    exact (getID_works (.block block)).map (fun id => Proto.Value.blockArgumentValue id index)
      fun final id hid => ValueOf.blockArgument hid

theorem lookup_attributes (attributes : NamedAttributeMap) (name : String) :
    (attributesToProto attributes).lookup name =
      (attributes.lookup name).map attributeToProto := by
  have hnodup : ((attributes.entries.map fun entry =>
      (entry.1, attributeToProto entry.2)).map Prod.fst).Nodup := by
    rw [List.map_map]
    exact attributes.nodupKeys
  refine Option.ext fun payload => ?_
  rw [attributesToProto, FlatHashMap.lookup_ofPairs hnodup, Option.map_eq_some_iff]
  simp only [List.mem_map, Prod.mk.injEq]
  constructor
  · rintro ⟨⟨_, attr⟩, hentry, rfl, rfl⟩
    exact ⟨attr, AList.mem_lookup_iff.mpr hentry, rfl⟩
  · rintro ⟨attr, hlookup, rfl⟩
    exact ⟨⟨name, attr⟩, AList.mem_lookup_iff.mp hlookup, rfl, rfl⟩

theorem addOperation_works {operation : Operation} (h : ∀ v ∈ operation.inputs, HasProto v) :
    Works numbering (fun state => addOperation state operation)
      fun final => OperationOf final operation := by
  have hinputs := works_thread (l := operation.inputs) fun v hv => valueToProto_works (h v hv)
  have hproto : Works numbering (fun state => operationToProto state operation)
      fun final proto => proto.operatorName = operation.op.name ∧
        List.Forall₂ (ValueOf final) operation.inputs proto.inputs ∧
        ∀ name, proto.attributes.lookup name =
          (operation.attributes.lookup name).map attributeToProto :=
    hinputs.map (fun inputs => (⟨operation.op.name, inputs,
      attributesToProto operation.attributes⟩ : Proto.Operation))
      fun final inputs hall => ⟨rfl, hall, lookup_attributes operation.attributes⟩
  refine hproto.bind fun proto => (getID_works (.operation operation.address)).map
    (fun id => (⟨id, proto⟩ : Proto.OperationWithId)) ?_
  rintro final id hid ⟨hname, hall, hattributes⟩
  exact ⟨hid, hname, hall, hattributes⟩

theorem forall₂_keys {state : IrToProto} {entries : List (Σ _ : String, Value)}
    {results : List (String × Proto.Value)}
    (h : List.Forall₂ (fun entry result => result.1 = entry.1 ∧ ValueOf state entry.2 result.2)
      entries results) : results.map Prod.fst = entries.map Sigma.fst := by
  induction h with
  | nil => rfl
  | cons hhead _ ih => rw [List.map_cons, List.map_cons, hhead.1, ih]

theorem lookup_results {state : IrToProto} {values : FlatHashMap String Value}
    {results : List (String × Proto.Value)}
    (h : List.Forall₂ (fun entry result => result.1 = entry.1 ∧ ValueOf state entry.2 result.2)
      values.entries results) (name : String) :
    Option.Rel (ValueOf state) (values.lookup name) ((FlatHashMap.ofPairs results).lookup name) := by
  have hnodup : (results.map Prod.fst).Nodup := by
    rw [forall₂_keys h]
    exact values.nodupKeys
  cases hvalue : values.lookup name with
  | none =>
    have hnone : (FlatHashMap.ofPairs results).lookup name = none := by
      refine Option.eq_none_iff_forall_ne_some.mpr fun proto hproto => ?_
      obtain ⟨k, hk⟩ := List.mem_iff_getElem?.mp ((FlatHashMap.lookup_ofPairs hnodup _ _).mp hproto)
      obtain ⟨⟨_, v⟩, hentry, rfl, -⟩ := forall₂_left h hk
      rw [AList.mem_lookup_iff.mpr (List.mem_of_getElem? hentry)] at hvalue
      cases hvalue
    rw [hnone]
    exact .none
  | some v =>
    obtain ⟨k, hk⟩ := List.mem_iff_getElem?.mp (AList.mem_lookup_iff.mp hvalue)
    obtain ⟨⟨_, proto⟩, hresult, rfl, hof⟩ := forall₂_left h.flip hk
    rw [(FlatHashMap.lookup_ofPairs hnodup _ _).mpr (List.mem_of_getElem? hresult)]
    exact .some hof

theorem addBlock_works {block : DeclaredBlock}
    (h : ∀ op ∈ block.operations, ∀ v ∈ op.inputs, HasProto v)
    (hresults : ∀ entry ∈ block.results.entries, HasProto entry.2) :
    Works numbering (fun state => addBlock state block) fun final => BlockOf final block := by
  have hresult : ∀ entry ∈ block.results.entries,
      Works numbering (fun state => addResult state entry) fun final result =>
        result.1 = entry.1 ∧ ValueOf final entry.2 result.2 :=
    fun entry hentry => (valueToProto_works (hresults entry hentry)).map
      (fun value => (entry.1, value)) fun final value hvalue => ⟨rfl, hvalue⟩
  have hproto : Works numbering (fun state => blockToProto state block) fun final proto =>
      List.Forall₂ (OperationOf final) block.operations proto.operations ∧
      ∀ name, Option.Rel (ValueOf final) (block.results.lookup name)
        (proto.results.lookup name) :=
    (works_thread fun op hop => addOperation_works (h op hop)).bind fun operations =>
      (works_thread hresult).map (fun results => (⟨operations, .ofPairs results⟩ : Proto.Block))
        fun final results hall hoperations => ⟨hoperations, lookup_results hall⟩
  refine hproto.bind fun proto => (getID_works (.block block.address)).map
    (fun id => (⟨id, proto⟩ : Proto.BlockWithId)) ?_
  rintro final id hid ⟨hoperations, hresults⟩
  exact ⟨hid, hoperations, hresults⟩

/-- The protos of a module, under distinct ids of its operations and blocks. -/
theorem convert_spec (operators : FlatHashMap String Operator) {root : DeclaredModule}
    (h : ∀ op ∈ root.operations, ∀ v ∈ op.inputs, HasProto v)
    (hresults : ∀ block ∈ root.blocks, ∀ entry ∈ block.results.entries, HasProto entry.2) :
    ∃ unit final, convert operators root = .ok unit ∧ unit.operators = operators.keys ∧
      numbering.inv final ∧
      List.Forall₂ (BlockOf final) root.blocks unit.topLevelModule.blocks := by
  have hblocks := works_thread (l := root.blocks) fun block hblock => addBlock_works
    (fun op hop => h op (List.mem_flatMap.mpr ⟨block, hblock, hop⟩)) (hresults block hblock)
  have hempty : numbering.inv {} := by
    refine ⟨?_, ?_⟩
    · intro pointer id hid
      simp at hid
    · intro pointer pointer' id hid
      simp at hid
  obtain ⟨blocks, final, hok, hfinal, -, hall⟩ := hblocks {} hempty
  refine ⟨⟨⟨blocks⟩, "Raksha.IRToProto", operators.keys⟩, final, ?_, rfl, hfinal,
    hall final (numbering.refl final)⟩
  simp only [convert, moduleToProto, Checked.bind_eq_ok, Checked.pure_eq_ok]
  exact ⟨_, ⟨_, hok, rfl⟩, rfl⟩

end IrToProto

end Raksha.Ir
