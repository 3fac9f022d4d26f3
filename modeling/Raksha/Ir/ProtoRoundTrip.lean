import Raksha.Ir.IrToProto
import Raksha.Ir.ProtoToIr

/-!
# Protos and back

A module that has been written to protos is read back as it was, unless a block has a result: the
reader does not restore the outputs of blocks, and no result is accepted without its output.
-/

namespace Raksha.Ir
open Raksha.Common Raksha.Lib.GrowingTables

namespace ProtoToIr

/-! ### Tables by id -/

section

variable {β V : Type} {key : β → ℕ} {l : List β} {f g : β → V} {m : FlatHashMap ℕ V}

/-- The table has an entry for every element of the list, and no other entry. -/
structure Holds (key : β → ℕ) (l : List β) (f : β → V) (m : FlatHashMap ℕ V) : Prop where
  lookup : ∀ x ∈ l, m.lookup (key x) = some (f x)
  keys : ∀ id, m.lookup id ≠ none → ∃ x ∈ l, key x = id

theorem Holds.empty (key : β → ℕ) (f : β → V) : Holds key [] f ∅ := by
  refine ⟨fun x hx => absurd hx List.not_mem_nil, ?_⟩
  intro id h
  simp at h

theorem Holds.congr (h : Holds key l f m) (hfg : ∀ x ∈ l, f x = g x) : Holds key l g m :=
  ⟨fun x hx => (h.lookup x hx).trans (congrArg some (hfg x hx)), h.keys⟩

theorem Holds.append (h : Holds key l f m) {x : β} (hx : key x ∉ l.map key) :
    Holds key (l ++ [x]) f (m.tryInsert (key x) (f x)).1 := by
  have hnone : m.lookup (key x) = none := by
    by_contra hsome
    obtain ⟨y, hy, heq⟩ := h.keys _ hsome
    exact hx (heq ▸ List.mem_map_of_mem hy)
  refine ⟨?_, ?_⟩
  · intro y hy
    rw [FlatHashMap.lookup_tryInsert]
    rcases List.mem_append.mp hy with hy | hy
    · have hne : key y ≠ key x := fun heq => hx (heq ▸ List.mem_map_of_mem hy)
      rw [if_neg hne, h.lookup y hy]
    · rw [List.mem_singleton.mp hy, if_pos rfl, hnone, Option.getD_none]
  · intro id hid
    rw [FlatHashMap.lookup_tryInsert] at hid
    by_cases hsame : id = key x
    · exact ⟨x, List.mem_append_right _ (List.mem_singleton_self _), hsame.symm⟩
    · rw [if_neg hsame] at hid
      obtain ⟨y, hy, heq⟩ := h.keys id hid
      exact ⟨y, List.mem_append_left _ hy, heq⟩

theorem Holds.update (h : Holds key l f m) (hnodup : (l.map key).Nodup) {x : β} (hx : x ∈ l) {v : V}
    (hv : g x = v) (hfg : ∀ y ∈ l, key y ≠ key x → f y = g y) :
    Holds key l g (m.insertOrAssign (key x) v) := by
  refine ⟨?_, ?_⟩
  · intro y hy
    rw [FlatHashMap.lookup_insertOrAssign]
    by_cases hsame : key y = key x
    · have heq := List.inj_on_of_nodup_map hnodup hy hx hsame
      rw [if_pos hsame, heq, hv]
    · rw [if_neg hsame, h.lookup y hy, hfg y hy hsame]
  · intro id hid
    rw [FlatHashMap.lookup_insertOrAssign] at hid
    by_cases hsame : id = key x
    · exact ⟨x, hx, hsame.symm⟩
    · rw [if_neg hsame] at hid
      exact h.keys id hid

end

/-! ### The decoded module -/

def decodeValue : Proto.Value → Value
  | .anyValue => .any
  | .operationResultValue id index => .operationResult id index
  | .blockArgumentValue id index => .blockArgument id index
  | .notSet => .any

def decodeAttribute : Proto.AttributePayload → Attribute
  | .floatPayload value => .float value
  | .int64Payload value => .int64 value
  | .stringPayload value => .string value
  | .notSet => .string ""

def freshOperation (proto : Proto.OperationWithId) : Operation :=
  { address := proto.id, op := ⟨proto.operation.operatorName, 1⟩ }

def decodeOperation (proto : Proto.OperationWithId) : Operation :=
  { freshOperation proto with
    inputs := proto.operation.inputs.map decodeValue
    attributes := .ofPairs (proto.operation.attributes.entries.map fun entry =>
      (entry.1, decodeAttribute entry.2)) }

def decodeBlock (proto : Proto.BlockWithId) : DeclaredBlock :=
  { BlockBuilder.new proto.id with operations := proto.block.operations.map decodeOperation }

/-- The value refers to an operation or to a block of the module. -/
def Resolves (module : Proto.Module) : Proto.Value → Prop
  | .anyValue => True
  | .operationResultValue id _ => ∃ proto ∈ module.operations, proto.id = id
  | .blockArgumentValue id _ => ∃ proto ∈ module.blocks, proto.id = id
  | .notSet => False

/-- The translation units that are read back. -/
structure Decodable (root : Proto.IrTranslationUnit) : Prop where
  registered : ∀ proto ∈ root.topLevelModule.operations,
    proto.operation.operatorName ∈ root.operators
  operationIds : (root.topLevelModule.operations.map Proto.OperationWithId.id).Nodup
  blockIds : (root.topLevelModule.blocks.map Proto.BlockWithId.id).Nodup
  values : ∀ proto ∈ root.topLevelModule.operations, ∀ value ∈ proto.operation.inputs,
    Resolves root.topLevelModule value
  payloads : ∀ proto ∈ root.topLevelModule.operations,
    ∀ entry ∈ proto.operation.attributes.entries, entry.2 ≠ .notSet
  noResults : ∀ proto ∈ root.topLevelModule.blocks, proto.block.results.entries = []

theorem lookup_registerOperators (names : List String) {name : String} (h : name ∈ names) :
    (registerOperators ∅ names).lookup name = some ⟨name, 1⟩ := by
  have hall : ∀ (names : List String) other, (registerOperators ∅ names).lookup other =
      if other ∈ names then some ⟨other, 1⟩ else none := by
    intro names other
    induction names using List.reverseRecOn with
    | nil => simp [registerOperators]
    | append_singleton names last ih =>
      have hstep : registerOperators ∅ (names ++ [last]) =
          ((registerOperators ∅ names).tryInsert last ⟨last, 1⟩).1 := by
        simp only [registerOperators, List.foldl_append, List.foldl_cons, List.foldl_nil]
      rw [hstep, FlatHashMap.lookup_tryInsert]
      by_cases hsame : other = last
      · subst hsame
        rw [if_pos rfl, ih, if_pos (List.mem_append_right _ (List.mem_singleton_self _))]
        split <;> rfl
      · rw [if_neg hsame, ih]
        simp only [List.mem_append, List.mem_singleton, hsame, or_false]
  rw [hall, if_pos h]

/-! ### Creation -/

structure Created (operators : FlatHashMap String Operator)
    (operations : List Proto.OperationWithId) (blocks : List Proto.BlockWithId)
    (state : ProtoToIr) : Prop where
  operators : state.operators = operators
  operations : Holds Proto.OperationWithId.id operations (fun proto => some (freshOperation proto))
    state.operations
  blocks : Holds Proto.BlockWithId.id blocks (fun proto => some (BlockBuilder.new proto.id))
    state.blocks

theorem visitOperation_of {operation : Proto.Operation}
    (h : ∀ value ∈ operation.inputs, value ≠ .notSet) : visitOperation operation = .ok () :=
  Checked.forM_of fun value hvalue => check_of _ _ (h value hvalue)

section

variable {operators : FlatHashMap String Operator}

theorem createOperations_spec {l earlier : List Proto.OperationWithId}
    {blocks : List Proto.BlockWithId} {state : ProtoToIr}
    (h : Created operators earlier blocks state)
    (hnodup : ((earlier ++ l).map Proto.OperationWithId.id).Nodup)
    (hregistered : ∀ proto ∈ l, operators.lookup proto.operation.operatorName =
      some ⟨proto.operation.operatorName, 1⟩)
    (hvalues : ∀ proto ∈ l, ∀ value ∈ proto.operation.inputs, value ≠ .notSet) :
    ∃ state', l.foldlM createOperation state = .ok state' ∧
      Created operators (earlier ++ l) blocks state' := by
  induction l generalizing earlier state with
  | nil =>
    rw [List.append_nil]
    exact ⟨state, rfl, h⟩
  | cons proto l ih =>
    have hop : state.operators.lookup proto.operation.operatorName =
        some ⟨proto.operation.operatorName, 1⟩ := by
      rw [h.operators]
      exact hregistered proto (List.mem_cons_self ..)
    have hvisit := visitOperation_of (hvalues proto (List.mem_cons_self ..))
    have hsplit : earlier ++ proto :: l = (earlier ++ [proto]) ++ l := by simp
    rw [hsplit] at hnodup ⊢
    have hfresh : proto.id ∉ earlier.map Proto.OperationWithId.id := by
      have hfirst := (List.nodup_append.mp (List.map_append .. ▸ hnodup)).1
      rw [List.map_append] at hfirst
      exact fun hmem => (List.nodup_append.mp hfirst).2.2 _ hmem _ (List.mem_singleton_self _) rfl
    let state₁ : ProtoToIr := { state with
      ssaNames := (state.ssaNames.getOrCreateID (.operationResult proto.id 0)).2
      operations := (state.operations.tryInsert proto.id (some (freshOperation proto))).1 }
    have hcreate : createOperation state proto = .ok state₁ := by
      simp only [createOperation, hop, hvisit]
      rfl
    have hcreated : Created operators (earlier ++ [proto]) blocks state₁ :=
      ⟨h.operators, h.operations.append hfresh, h.blocks⟩
    obtain ⟨state', hfold, hstate'⟩ := ih hcreated hnodup
      (fun q hq => hregistered q (List.mem_cons_of_mem _ hq))
      (fun q hq => hvalues q (List.mem_cons_of_mem _ hq))
    refine ⟨state', ?_, hstate'⟩
    rw [List.foldlM_cons, hcreate]
    exact hfold

theorem createBlocks_spec (l earlier : List Proto.BlockWithId) {state : ProtoToIr}
    (h : Created operators (earlier.flatMap fun block => block.block.operations) earlier state)
    (hoperationIds : (((earlier ++ l).flatMap fun block => block.block.operations).map
      Proto.OperationWithId.id).Nodup)
    (hblockIds : ((earlier ++ l).map Proto.BlockWithId.id).Nodup)
    (hregistered : ∀ block ∈ l, ∀ proto ∈ block.block.operations,
      operators.lookup proto.operation.operatorName = some ⟨proto.operation.operatorName, 1⟩)
    (hvalues : ∀ block ∈ l, ∀ proto ∈ block.block.operations,
      ∀ value ∈ proto.operation.inputs, value ≠ .notSet)
    (hresults : ∀ block ∈ l, block.block.results.entries = []) :
    ∃ state', l.foldlM createBlock state = .ok state' ∧
      Created operators ((earlier ++ l).flatMap fun block => block.block.operations) (earlier ++ l)
        state' := by
  induction l generalizing earlier state with
  | nil =>
    rw [List.append_nil]
    exact ⟨state, rfl, h⟩
  | cons block l ih =>
    have hself : block ∈ block :: l := List.mem_cons_self ..
    have hsplit : earlier ++ block :: l = (earlier ++ [block]) ++ l := by simp
    rw [hsplit] at hoperationIds hblockIds ⊢
    have hfresh : block.id ∉ earlier.map Proto.BlockWithId.id := by
      have hfirst := (List.nodup_append.mp (List.map_append .. ▸ hblockIds)).1
      rw [List.map_append] at hfirst
      exact fun hmem => (List.nodup_append.mp hfirst).2.2 _ hmem _ (List.mem_singleton_self _) rfl
    let state₁ : ProtoToIr := { state with
      blocks := (state.blocks.tryInsert block.id (some (BlockBuilder.new block.id))).1 }
    have hstate₁ : Created operators (earlier.flatMap fun block => block.block.operations)
        (earlier ++ [block]) state₁ := ⟨h.operators, h.operations, h.blocks.append hfresh⟩
    have hnodup : (((earlier.flatMap fun block => block.block.operations) ++
        block.block.operations).map Proto.OperationWithId.id).Nodup := by
      rw [List.flatMap_append, List.map_append, List.flatMap_append, List.flatMap_singleton]
        at hoperationIds
      exact (List.nodup_append.mp hoperationIds).1
    obtain ⟨state₂, hfold₂, hstate₂⟩ := createOperations_spec hstate₁ hnodup
      (hregistered block hself) (hvalues block hself)
    have hcreate : createBlock state block = .ok state₂ := by
      simp only [createBlock, hresults block hself, List.forM, Checked.bind_eq_ok, Checked.pure_eq_ok]
      exact ⟨state₂, hfold₂, (), trivial, rfl⟩
    have hcreated : Created operators
        ((earlier ++ [block]).flatMap fun block => block.block.operations) (earlier ++ [block])
        state₂ := by
      rw [List.flatMap_append, List.flatMap_singleton]
      exact hstate₂
    obtain ⟨state', hfold, hstate'⟩ := ih (earlier ++ [block]) hcreated hoperationIds hblockIds
      (fun b hb => hregistered b (List.mem_cons_of_mem _ hb))
      (fun b hb => hvalues b (List.mem_cons_of_mem _ hb))
      (fun b hb => hresults b (List.mem_cons_of_mem _ hb))
    refine ⟨state', ?_, hstate'⟩
    rw [List.foldlM_cons, hcreate]
    exact hfold

end

/-! ### Construction -/

/-- The state in the middle of the later phases. -/
structure Holding (module : Proto.Module) (f : Proto.OperationWithId → Option Operation)
    (g : Proto.BlockWithId → Option DeclaredBlock) (state : ProtoToIr) : Prop where
  operations : Holds Proto.OperationWithId.id module.operations f state.operations
  blocks : Holds Proto.BlockWithId.id module.blocks g state.blocks

/-- What is in the place of an operation when those with the given ids have been filled in. -/
def filled (done : List ℕ) (proto : Proto.OperationWithId) : Option Operation :=
  some (if proto.id ∈ done then decodeOperation proto else freshOperation proto)

def created (proto : Proto.BlockWithId) : Option DeclaredBlock := some (BlockBuilder.new proto.id)

section

variable {module : Proto.Module} {state : ProtoToIr}

theorem Holding.findOperation {done : List ℕ} {g : Proto.BlockWithId → Option DeclaredBlock}
    (h : Holding module (filled done) g state) {proto : Proto.OperationWithId}
    (hproto : proto ∈ module.operations) (message : String) :
    state.findOperation proto.id message =
      .ok (if proto.id ∈ done then decodeOperation proto else freshOperation proto) := by
  simp only [ProtoToIr.findOperation, h.operations.lookup proto hproto, filled]

theorem Holding.findBlock {f : Proto.OperationWithId → Option Operation}
    (h : Holding module f created state) {proto : Proto.BlockWithId}
    (hproto : proto ∈ module.blocks) (message : String) :
    state.findBlock proto.id message = .ok (BlockBuilder.new proto.id) := by
  simp only [ProtoToIr.findBlock, h.blocks.lookup proto hproto, created]

theorem Holding.toIrValueVariant {done : List ℕ} (h : Holding module (filled done) created state)
    {value : Proto.Value} (hvalue : Resolves module value) :
    state.toIrValueVariant value = .ok (decodeValue value) := by
  cases value with
  | anyValue => rfl
  | notSet => exact hvalue.elim
  | operationResultValue id index =>
    obtain ⟨proto, hproto, rfl⟩ := hvalue
    simp only [ProtoToIr.toIrValueVariant, h.findOperation hproto, Checked.bind_eq_ok,
      Except.ok.injEq, exists_eq_left', Checked.pure_eq_ok]
    split <;> rfl
  | blockArgumentValue id index =>
    obtain ⟨proto, hproto, rfl⟩ := hvalue
    simp only [ProtoToIr.toIrValueVariant, h.findBlock hproto, Checked.bind_eq_ok,
      Except.ok.injEq, exists_eq_left', Checked.pure_eq_ok]
    rfl

theorem Holding.toIrValues {done : List ℕ} (h : Holding module (filled done) created state)
    {values : List Proto.Value} (hvalues : ∀ value ∈ values, Resolves module value) :
    ∃ ssaNames, thread toIrValue state values =
      .ok (values.map decodeValue, { state with ssaNames }) := by
  induction values generalizing state with
  | nil => exact ⟨state.ssaNames, rfl⟩
  | cons value values ih =>
    have hvariant := h.toIrValueVariant (hvalues value (List.mem_cons_self ..))
    let state₁ : ProtoToIr := { state with
      ssaNames := (state.ssaNames.getOrCreateID (decodeValue value)).2 }
    have hvalue : toIrValue state value = .ok (decodeValue value, state₁) := by
      simp only [toIrValue, hvariant]
      rfl
    have hstate₁ : Holding module (filled done) created state₁ := ⟨h.operations, h.blocks⟩
    obtain ⟨ssaNames, hrest⟩ := ih hstate₁ fun v hv => hvalues v (List.mem_cons_of_mem _ hv)
    refine ⟨ssaNames, ?_⟩
    simp only [thread, Checked.bind_eq_ok, Checked.pure_eq_ok]
    exact ⟨_, hvalue, _, hrest, rfl⟩

theorem toIrAttribute_eq {payload : Proto.AttributePayload} (h : payload ≠ .notSet) :
    toIrAttribute payload = .ok (decodeAttribute payload) := by
  cases payload with
  | notSet => exact absurd rfl h
  | _ => rfl

/-- What an operation of the module refers to and holds. -/
structure Readable (module : Proto.Module) (operation : Proto.Operation) : Prop where
  values : ∀ value ∈ operation.inputs, Resolves module value
  payloads : ∀ entry ∈ operation.attributes.entries, entry.2 ≠ .notSet

theorem Holding.toIrOperation {done : List ℕ} (h : Holding module (filled done) created state)
    {proto : Proto.OperationWithId} (hproto : Readable module proto.operation) :
    ∃ ssaNames, state.toIrOperation (freshOperation proto) proto.operation =
      .ok (decodeOperation proto, { state with ssaNames }) := by
  obtain ⟨ssaNames, hinputs⟩ := h.toIrValues hproto.values
  have hattributes : (proto.operation.attributes.entries.mapM fun entry => do
      return (entry.1, ← toIrAttribute entry.2)) = Except.ok
        (proto.operation.attributes.entries.map fun entry => (entry.1, decodeAttribute entry.2)) := by
    refine Checked.mapM_of_forall _ _ _ ?_
    intro entry hentry
    rw [toIrAttribute_eq (hproto.payloads entry hentry)]
    rfl
  refine ⟨ssaNames, ?_⟩
  simp only [ProtoToIr.toIrOperation, Checked.bind_eq_ok, Checked.pure_eq_ok]
  exact ⟨_, hinputs, _, hattributes, rfl⟩

theorem filled_of_mem {done : List ℕ} {proto : Proto.OperationWithId} (h : proto.id ∈ done) :
    filled done proto = some (decodeOperation proto) := by
  rw [filled, if_pos h]

theorem Holding.fillOperations {done : List ℕ} {l : List Proto.OperationWithId}
    (h : Holding module (filled done) created state)
    (hids : (module.operations.map Proto.OperationWithId.id).Nodup)
    (hmem : ∀ proto ∈ l, proto ∈ module.operations)
    (hnodup : (l.map Proto.OperationWithId.id).Nodup) (hfresh : ∀ proto ∈ l, proto.id ∉ done)
    (hreadable : ∀ proto ∈ l, Readable module proto.operation) :
    ∃ state', l.foldlM fillOperation state = .ok state' ∧
      Holding module (filled (done ++ l.map Proto.OperationWithId.id)) created state' := by
  induction l generalizing done state with
  | nil =>
    rw [List.map_nil, List.append_nil]
    exact ⟨state, rfl, h⟩
  | cons proto l ih =>
    have hself : proto ∈ proto :: l := List.mem_cons_self ..
    rw [List.map_cons, List.nodup_cons] at hnodup
    have hfind := fun message => h.findOperation (hmem proto hself) message
    simp only [if_neg (hfresh proto hself)] at hfind
    obtain ⟨ssaNames, hop⟩ := h.toIrOperation (hreadable proto hself)
    let state₁ : ProtoToIr := { state with
      ssaNames
      operations := state.operations.insertOrAssign proto.id (some (decodeOperation proto)) }
    have hfill : fillOperation state proto = .ok state₁ := by
      simp only [fillOperation, Checked.bind_eq_ok, Checked.pure_eq_ok]
      exact ⟨_, hfind _, _, hop, rfl⟩
    have hstate₁ : Holding module (filled (done ++ [proto.id])) created state₁ := by
      refine ⟨h.operations.update hids (hmem proto hself) ?_ ?_, h.blocks⟩
      · exact filled_of_mem (List.mem_append_right _ (List.mem_singleton_self _))
      · intro other _ hne
        simp only [filled, List.mem_append, List.mem_singleton, hne, or_false]
    have hsplit : done ++ (proto :: l).map Proto.OperationWithId.id =
        (done ++ [proto.id]) ++ l.map Proto.OperationWithId.id := by simp
    obtain ⟨state', hfold, hstate'⟩ := ih hstate₁
      (fun q hq => hmem q (List.mem_cons_of_mem _ hq)) hnodup.2
      (by
        intro q hq hdone
        rcases List.mem_append.mp hdone with hdone | hdone
        · exact hfresh q (List.mem_cons_of_mem _ hq) hdone
        · exact hnodup.1 (List.mem_singleton.mp hdone ▸ List.mem_map_of_mem hq))
      (fun q hq => hreadable q (List.mem_cons_of_mem _ hq))
    refine ⟨state', ?_, hsplit ▸ hstate'⟩
    rw [List.foldlM_cons, hfill]
    exact hfold

def operationIds (blocks : List Proto.BlockWithId) : List ℕ :=
  (blocks.flatMap fun block => block.block.operations).map Proto.OperationWithId.id

theorem operationIds_cons (block : Proto.BlockWithId) (blocks : List Proto.BlockWithId) :
    operationIds (block :: blocks) =
      block.block.operations.map Proto.OperationWithId.id ++ operationIds blocks := by
  rw [operationIds, List.flatMap_cons, List.map_append]
  rfl

/-- What the later phases ask of a block of the module. -/
structure Readies (module : Proto.Module) (block : Proto.BlockWithId) : Prop where
  mem : block ∈ module.blocks
  operations : ∀ proto ∈ block.block.operations, Readable module proto.operation
  noResults : block.block.results.entries = []

theorem Readies.mem_operations {block : Proto.BlockWithId} (h : Readies module block)
    {proto : Proto.OperationWithId} (hproto : proto ∈ block.block.operations) :
    proto ∈ module.operations := List.mem_flatMap.mpr ⟨block, h.mem, hproto⟩

theorem Holding.fillBlocks {done : List ℕ} {l : List Proto.BlockWithId}
    (h : Holding module (filled done) created state)
    (hids : (module.operations.map Proto.OperationWithId.id).Nodup)
    (hblockIds : (module.blocks.map Proto.BlockWithId.id).Nodup)
    (hl : ∀ block ∈ l, Readies module block) (hnodup : (done ++ operationIds l).Nodup) :
    ∃ state', l.foldlM fillBlock state = .ok state' ∧
      Holding module (filled (done ++ operationIds l)) created state' := by
  induction l generalizing done state with
  | nil =>
    have hnil : operationIds [] = [] := rfl
    rw [hnil, List.append_nil]
    exact ⟨state, rfl, h⟩
  | cons block l ih =>
    have hblock := hl block (List.mem_cons_self ..)
    rw [operationIds_cons, ← List.append_assoc] at hnodup ⊢
    obtain ⟨-, hown, hfresh⟩ := List.nodup_append.mp (List.nodup_append.mp hnodup).1
    let state₁ : ProtoToIr := { state with
      blocks := state.blocks.insertOrAssign block.id (some (BlockBuilder.new block.id)) }
    have hstate₁ : Holding module (filled done) created state₁ :=
      ⟨h.operations, h.blocks.update hblockIds hblock.mem rfl fun _ _ _ => rfl⟩
    obtain ⟨state₂, hfold₂, hstate₂⟩ := hstate₁.fillOperations hids
      (fun proto hproto => hblock.mem_operations hproto) hown
      (fun proto hproto hdone => hfresh _ hdone _ (List.mem_map_of_mem hproto) rfl)
      hblock.operations
    have hfill : fillBlock state block = .ok state₂ := by
      simp only [fillBlock, hblock.noResults, List.foldlM_nil, Checked.bind_eq_ok,
        Checked.pure_eq_ok]
      exact ⟨_, h.findBlock hblock.mem _, _, rfl, hfold₂⟩
    obtain ⟨state', hfold, hstate'⟩ := ih hstate₂
      (fun b hb => hl b (List.mem_cons_of_mem _ hb)) hnodup
    refine ⟨state', ?_, hstate'⟩
    rw [List.foldlM_cons, hfill]
    exact hfold

/-! ### Ownership -/

/-- What is in the place of an operation when those with the given ids have been moved away. -/
def moved (done : List ℕ) (proto : Proto.OperationWithId) : Option Operation :=
  if proto.id ∈ done then none else some (decodeOperation proto)

def built (done : List ℕ) (proto : Proto.BlockWithId) : Option DeclaredBlock :=
  if proto.id ∈ done then none else some (BlockBuilder.new proto.id)

theorem Holding.moveOperations {done : List ℕ} {g : Proto.BlockWithId → Option DeclaredBlock}
    {l : List Proto.OperationWithId} (h : Holding module (moved done) g state)
    (block : DeclaredBlock)
    (hids : (module.operations.map Proto.OperationWithId.id).Nodup)
    (hmem : ∀ proto ∈ l, proto ∈ module.operations)
    (hnodup : (l.map Proto.OperationWithId.id).Nodup) (hfresh : ∀ proto ∈ l, proto.id ∉ done)
    (hvalues : ∀ proto ∈ l, ∀ value ∈ proto.operation.inputs, value ≠ .notSet) :
    ∃ state', l.foldlM moveOperation (block, state) =
        .ok ({ block with operations := block.operations ++ l.map decodeOperation }, state') ∧
      Holding module (moved (done ++ l.map Proto.OperationWithId.id)) g state' := by
  induction l generalizing done state block with
  | nil =>
    rw [List.map_nil, List.map_nil, List.append_nil, List.append_nil]
    exact ⟨state, rfl, h⟩
  | cons proto l ih =>
    have hself : proto ∈ proto :: l := List.mem_cons_self ..
    rw [List.map_cons, List.nodup_cons] at hnodup
    have hfind : ∀ message, state.findOperation proto.id message = .ok (decodeOperation proto) := by
      intro message
      simp only [ProtoToIr.findOperation, h.operations.lookup proto (hmem proto hself), moved,
        if_neg (hfresh proto hself)]
    let state₁ : ProtoToIr := { state with
      operations := state.operations.insertOrAssign proto.id none }
    let block₁ := BlockBuilder.addOperation block (decodeOperation proto)
    have hmove : moveOperation (block, state) proto = .ok (block₁, state₁) := by
      simp only [moveOperation, Checked.bind_eq_ok, Checked.pure_eq_ok]
      exact ⟨_, hfind _, (), visitOperation_of (hvalues proto hself), rfl⟩
    have hstate₁ : Holding module (moved (done ++ [proto.id])) g state₁ := by
      refine ⟨h.operations.update hids (hmem proto hself) ?_ ?_, h.blocks⟩
      · exact if_pos (List.mem_append_right _ (List.mem_singleton_self _))
      · intro other _ hne
        simp only [moved, List.mem_append, List.mem_singleton, hne, or_false]
    have hsplit : done ++ (proto :: l).map Proto.OperationWithId.id =
        (done ++ [proto.id]) ++ l.map Proto.OperationWithId.id := by simp
    obtain ⟨state', hfold, hstate'⟩ := ih hstate₁ block₁
      (fun q hq => hmem q (List.mem_cons_of_mem _ hq)) hnodup.2
      (by
        intro q hq hdone
        rcases List.mem_append.mp hdone with hdone | hdone
        · exact hfresh q (List.mem_cons_of_mem _ hq) hdone
        · exact hnodup.1 (List.mem_singleton.mp hdone ▸ List.mem_map_of_mem hq))
      (fun q hq => hvalues q (List.mem_cons_of_mem _ hq))
    refine ⟨state', ?_, hsplit ▸ hstate'⟩
    have hoperations : block₁.operations ++ l.map decodeOperation =
        block.operations ++ (proto :: l).map decodeOperation := by
      simp only [block₁, BlockBuilder.addOperation, List.append_assoc, List.map_cons,
        List.singleton_append]
    rw [List.foldlM_cons, hmove, ← hoperations]
    exact hfold

theorem ne_notSet_of_resolves {value : Proto.Value} (h : Resolves module value) :
    value ≠ .notSet := by
  rintro rfl
  exact h

theorem Holding.moveBlocks {done doneBlocks : List ℕ} {l : List Proto.BlockWithId}
    (h : Holding module (moved done) (built doneBlocks) state) (blocks : List DeclaredBlock)
    (hids : (module.operations.map Proto.OperationWithId.id).Nodup)
    (hblockIds : (module.blocks.map Proto.BlockWithId.id).Nodup)
    (hl : ∀ block ∈ l, Readies module block) (hnodup : (done ++ operationIds l).Nodup)
    (hblockNodup : (doneBlocks ++ l.map Proto.BlockWithId.id).Nodup) :
    ∃ state', l.foldlM moveBlock (blocks, state) = .ok (blocks ++ l.map decodeBlock, state') ∧
      Holding module (moved (done ++ operationIds l))
        (built (doneBlocks ++ l.map Proto.BlockWithId.id)) state' := by
  induction l generalizing done doneBlocks state blocks with
  | nil =>
    have hnil : operationIds [] = [] := rfl
    rw [hnil, List.map_nil, List.map_nil, List.append_nil, List.append_nil, List.append_nil]
    exact ⟨state, rfl, h⟩
  | cons block l ih =>
    have hblock := hl block (List.mem_cons_self ..)
    have hsplit : doneBlocks ++ (block :: l).map Proto.BlockWithId.id =
        (doneBlocks ++ [block.id]) ++ l.map Proto.BlockWithId.id := by simp
    rw [operationIds_cons, ← List.append_assoc] at hnodup ⊢
    rw [hsplit] at hblockNodup ⊢
    obtain ⟨-, hown, hfresh⟩ := List.nodup_append.mp (List.nodup_append.mp hnodup).1
    have hopen : block.id ∉ doneBlocks := fun hmem =>
      (List.nodup_append.mp (List.nodup_append.mp hblockNodup).1).2.2 _ hmem _
        (List.mem_singleton_self _) rfl
    have hfind : ∀ message, state.findBlock block.id message = .ok (BlockBuilder.new block.id) := by
      intro message
      simp only [ProtoToIr.findBlock, h.blocks.lookup block hblock.mem, built, if_neg hopen]
    obtain ⟨state₁, hfold₁, hstate₁⟩ := h.moveOperations (BlockBuilder.new block.id) hids
      (fun proto hproto => hblock.mem_operations hproto) hown
      (fun proto hproto hdone => hfresh _ hdone _ (List.mem_map_of_mem hproto) rfl)
      (fun proto hproto value hvalue =>
        ne_notSet_of_resolves ((hblock.operations proto hproto).values value hvalue))
    let state₂ : ProtoToIr := { state₁ with blocks := state₁.blocks.insertOrAssign block.id none }
    have hmove : moveBlock (blocks, state) block = .ok (blocks ++ [decodeBlock block], state₂) := by
      simp only [moveBlock, hblock.noResults, Checked.bind_eq_ok, Checked.pure_eq_ok]
      exact ⟨_, hfind _, _, hfold₁, (), rfl, rfl⟩
    have hstate₂ : Holding module (moved (done ++ block.block.operations.map
        Proto.OperationWithId.id)) (built (doneBlocks ++ [block.id])) state₂ := by
      refine ⟨hstate₁.operations, hstate₁.blocks.update hblockIds hblock.mem ?_ ?_⟩
      · exact if_pos (List.mem_append_right _ (List.mem_singleton_self _))
      · intro other _ hne
        simp only [built, List.mem_append, List.mem_singleton, hne, or_false]
    obtain ⟨state', hfold, hstate'⟩ := ih hstate₂ (blocks ++ [decodeBlock block])
      (fun b hb => hl b (List.mem_cons_of_mem _ hb)) hnodup hblockNodup
    refine ⟨state', ?_, hstate'⟩
    rw [List.foldlM_cons, hmove, List.map_cons]
    rw [List.append_assoc, List.singleton_append] at hfold
    exact hfold

end

theorem Holds.forM_isNone {β V : Type} {key : β → ℕ} {l : List β} {f : β → Option V}
    {m : FlatHashMap ℕ (Option V)} (h : Holds key l f m) (hf : ∀ x ∈ l, f x = none)
    (message : ℕ → String) :
    (m.entries.forM fun entry => check (entry.2.isNone = true) (message entry.1)) = .ok () := by
  refine Checked.forM_of fun entry hentry => check_of _ _ ?_
  have hlookup := AList.mem_lookup_iff.mpr hentry
  obtain ⟨x, hx, hkey⟩ := h.keys entry.1 (by rw [hlookup]; exact Option.some_ne_none _)
  have hx' := h.lookup x hx
  rw [hkey, hlookup, hf x hx] at hx'
  rw [Option.some.inj hx']
  rfl

theorem convert_of {root : Proto.IrTranslationUnit} (h : Decodable root) :
    ∃ ssaNames, convert ∅ root = .ok (root.topLevelModule.blocks.map decodeBlock, ssaNames) := by
  let module := root.topLevelModule
  let start : ProtoToIr := { operators := registerOperators ∅ root.operators }
  have hoperation : ∀ block ∈ module.blocks, ∀ proto ∈ block.block.operations,
      proto ∈ module.operations :=
    fun block hblock proto hproto => List.mem_flatMap.mpr ⟨block, hblock, hproto⟩
  have hready : ∀ block ∈ module.blocks, Readies module block := fun block hblock =>
    ⟨hblock, fun proto hproto => ⟨h.values proto (hoperation block hblock proto hproto),
      h.payloads proto (hoperation block hblock proto hproto)⟩, h.noResults block hblock⟩
  have hempty : Created start.operators [] [] start := ⟨rfl, .empty _ _, .empty _ _⟩
  obtain ⟨state₁, hfold₁, hstate₁⟩ := createBlocks_spec module.blocks [] hempty
    h.operationIds h.blockIds
    (fun block hblock proto hproto => lookup_registerOperators _
      (h.registered proto (hoperation block hblock proto hproto)))
    (fun block hblock proto hproto value hvalue => ne_notSet_of_resolves
      (h.values proto (hoperation block hblock proto hproto) value hvalue)) h.noResults
  have hfilled : Holding module (filled []) created state₁ :=
    ⟨hstate₁.operations.congr fun _ _ => rfl, hstate₁.blocks⟩
  obtain ⟨state₂, hfold₂, hstate₂⟩ := hfilled.fillBlocks h.operationIds h.blockIds hready
    h.operationIds
  have hmoved : Holding module (moved []) (built []) state₂ := by
    refine ⟨hstate₂.operations.congr ?_, hstate₂.blocks.congr fun _ _ => rfl⟩
    intro proto hproto
    have hid : proto.id ∈ operationIds module.blocks := List.mem_map_of_mem hproto
    rw [List.nil_append, filled_of_mem hid]
    rfl
  obtain ⟨state₃, hfold₃, hstate₃⟩ := hmoved.moveBlocks [] h.operationIds h.blockIds
    hready h.operationIds h.blockIds
  refine ⟨state₃.ssaNames, ?_⟩
  simp only [convert, Checked.bind_eq_ok, Checked.pure_eq_ok]
  refine ⟨state₁, hfold₁, state₂, hfold₂, _, hfold₃, (), ?_, (), ?_, rfl⟩
  · exact hstate₃.blocks.forM_isNone (fun block hblock => if_pos (List.mem_map_of_mem hblock))
      fun id => "Block " ++ toString id ++ " was not built and placed in it's module."
  · exact hstate₃.operations.forM_isNone
      (fun proto hproto => if_pos (List.mem_map_of_mem hproto))
      fun id => "Operation " ++ toString id ++ " was not moved into it's module."

/-! ### Results are refused -/

def Undeclared (state : ProtoToIr) : Prop :=
  ∀ id block, state.blocks.lookup id = some (some block) → block.outputs = []

theorem Undeclared.of_blocks {state state' : ProtoToIr} (h : Undeclared state)
    (hblocks : state'.blocks = state.blocks) : Undeclared state' := by
  intro id block hlookup
  rw [hblocks] at hlookup
  exact h id block hlookup

theorem createOperation_blocks {state state' : ProtoToIr} {proto : Proto.OperationWithId}
    (h : createOperation state proto = .ok state') : state'.blocks = state.blocks := by
  simp only [createOperation] at h
  split at h
  · cases h
  · simp only [Checked.bind_eq_ok, Checked.pure_eq_ok] at h
    obtain ⟨-, -, rfl⟩ := h
    rfl

theorem createBlock_undeclared {state state' : ProtoToIr} {proto : Proto.BlockWithId}
    (hstate : Undeclared state) (h : createBlock state proto = .ok state') : Undeclared state' := by
  simp only [createBlock, Checked.bind_eq_ok, Checked.pure_eq_ok] at h
  obtain ⟨state₁, hfold, -, -, rfl⟩ := h
  refine Checked.foldlM_invariant Undeclared _ _ ?_ ?_ hfold
  · intro s hs operation _ s' hs'
    exact hs.of_blocks (createOperation_blocks hs')
  · intro id block hlookup
    rw [FlatHashMap.lookup_tryInsert] at hlookup
    split at hlookup
    · cases hold : state.blocks.lookup proto.id with
      | none =>
        rw [hold] at hlookup
        cases hlookup
        rfl
      | some old =>
        rw [hold] at hlookup
        cases hlookup
        exact hstate _ _ hold
    · exact hstate id block hlookup

theorem toIrValue_blocks {state state' : ProtoToIr} {proto : Proto.Value} {value : Value}
    (h : toIrValue state proto = .ok (value, state')) : state'.blocks = state.blocks := by
  simp only [toIrValue, Checked.bind_eq_ok, Checked.pure_eq_ok, Prod.mk.injEq] at h
  obtain ⟨-, -, -, rfl⟩ := h
  rfl

theorem toIrValues_blocks {state state' : ProtoToIr} {protos : List Proto.Value}
    {values : List Value} (h : thread toIrValue state protos = .ok (values, state')) :
    state'.blocks = state.blocks := by
  induction protos generalizing state values with
  | nil =>
    cases h
    rfl
  | cons proto protos ih =>
    simp only [thread, Checked.bind_eq_ok, Checked.pure_eq_ok, Prod.mk.injEq] at h
    obtain ⟨⟨value, state₁⟩, hvalue, ⟨rest, state₂⟩, hrest, -, rfl⟩ := h
    exact (ih hrest).trans (toIrValue_blocks hvalue)

theorem fillOperation_blocks {state state' : ProtoToIr} {proto : Proto.OperationWithId}
    (h : fillOperation state proto = .ok state') : state'.blocks = state.blocks := by
  simp only [fillOperation, toIrOperation, Checked.bind_eq_ok, Checked.pure_eq_ok] at h
  obtain ⟨-, -, -, ⟨⟨inputs, state₁⟩, hinputs, -, -, rfl⟩, rfl⟩ := h
  have hblocks := toIrValues_blocks hinputs
  exact hblocks

theorem fillBlock_noResults {state state' : ProtoToIr} {proto : Proto.BlockWithId}
    (hstate : Undeclared state) (h : fillBlock state proto = .ok state') :
    proto.block.results.entries = [] ∧ Undeclared state' := by
  simp only [fillBlock, Checked.bind_eq_ok] at h
  obtain ⟨block, hfind, ⟨filled, state₁⟩, hresults, hfold⟩ := h
  have hblock : state.blocks.lookup proto.id = some (some block) := by
    rw [findBlock] at hfind
    split at hfind <;> cases hfind
    assumption
  have houtputs := hstate _ _ hblock
  cases hentries : proto.block.results.entries with
  | cons entry entries =>
    rw [hentries] at hresults
    simp only [List.foldlM_cons, addResult, BlockBuilder.addResult, houtputs, List.not_mem_nil,
      ↓reduceDIte, Checked.bind_eq_ok, reduceCtorEq, false_and, and_false, exists_false] at hresults
  | nil =>
    rw [hentries, List.foldlM_nil, Checked.pure_eq_ok] at hresults
    cases hresults
    refine ⟨rfl, ?_⟩
    refine Checked.foldlM_invariant Undeclared _ _ ?_ ?_ hfold
    · intro s hs operation _ s' hs'
      exact hs.of_blocks (fillOperation_blocks hs')
    · intro id other hlookup
      rw [FlatHashMap.lookup_insertOrAssign] at hlookup
      split at hlookup
      · cases hlookup
        exact houtputs
      · exact hstate id other hlookup

theorem noResults_of_convert {context : FlatHashMap String Operator}
    {root : Proto.IrTranslationUnit} {result : List DeclaredBlock × SsaNames}
    (h : convert context root = .ok result) :
    ∀ proto ∈ root.topLevelModule.blocks, proto.block.results.entries = [] := by
  simp only [convert, Checked.bind_eq_ok] at h
  obtain ⟨state₁, hcreate, state₂, hfill, -⟩ := h
  have hstart : Undeclared { operators := registerOperators context root.operators } := by
    intro id block hlookup
    simp at hlookup
  have hstate₁ : Undeclared state₁ := Checked.foldlM_invariant Undeclared _ _
    (fun s hs proto _ s' hs' => createBlock_undeclared hs hs') hstart hcreate
  have hsteps := Checked.foldlM_step (fun s s' => Undeclared s → Undeclared s') (fun _ hs => hs)
    (fun _ _ _ h h' hs => h' (h hs)) _ _
    (fun s proto _ s' hs' hs => (fillBlock_noResults hs hs').2) hfill
  intro proto hproto
  obtain ⟨s, s', hbefore, hstep, -⟩ := hsteps.2 proto hproto
  exact (fillBlock_noResults (hbefore hstate₁) hstep).1

end ProtoToIr

/-! ### The round trip -/

def DeclaredModule.Owns (module : DeclaredModule) : Value → Prop
  | .any => True
  | .operationResult operation _ => ∃ op ∈ module.operations, op.address = operation
  | .blockArgument block _ => ∃ b ∈ module.blocks, b.address = block
  | .storedValue _ => False

instance (module : DeclaredModule) : DecidablePred module.Owns := fun v =>
  match v with
  | .any => .isTrue trivial
  | .operationResult operation _ =>
    inferInstanceAs (Decidable (∃ op ∈ module.operations, op.address = operation))
  | .blockArgument block _ =>
    inferInstanceAs (Decidable (∃ b ∈ module.blocks, b.address = block))
  | .storedValue _ => .isFalse id

/-- A module over the operators of a context, each with one return value. -/
structure DeclaredModule.WellFormed (operators : FlatHashMap String Operator)
    (module : DeclaredModule) : Prop where
  registered : ∀ op ∈ module.operations, operators.lookup op.op.name = some op.op
  oneReturnValue : ∀ op ∈ module.operations, op.op.numberOfReturnValues = 1
  inputs : ∀ op ∈ module.operations, ∀ v ∈ op.inputs, module.Owns v
  results : ∀ block ∈ module.blocks, ∀ entry ∈ block.results.entries, module.Owns entry.2

theorem DeclaredModule.Owns.hasProto {module : DeclaredModule} {v : Value} (h : module.Owns v) :
    IrToProto.HasProto v := by
  rintro storage rfl
  exact h

theorem nodup_map_of_forall₂ {α β γ δ : Type} {r : α → β → Prop} {f : α → γ} {g : β → δ}
    {xs : List α} {ys : List β} (h : List.Forall₂ r xs ys)
    (hr : ∀ x y x' y', r x y → r x' y' → g y = g y' → f x = f x') (hnodup : (xs.map f).Nodup) :
    (ys.map g).Nodup := by
  induction h with
  | nil => exact List.nodup_nil
  | @cons x y xs ys hhead htail ih =>
    rw [List.map_cons, List.nodup_cons] at hnodup ⊢
    refine ⟨?_, ih hnodup.2⟩
    intro hmem
    obtain ⟨y', hy', hsame⟩ := List.mem_map.mp hmem
    obtain ⟨k, hk⟩ := List.mem_iff_getElem?.mp hy'
    obtain ⟨x', hx', hr'⟩ := forall₂_left htail hk
    exact hnodup.1 (hr _ _ _ _ hr' hhead hsame ▸ List.mem_map_of_mem (List.mem_of_getElem? hx'))

section

open IrToProto ProtoToIr

variable {module : DeclaredModule} {root : Proto.Module} {final : IrToProto}

theorem forall₂_operations (h : List.Forall₂ (BlockOf final) module.blocks root.blocks) :
    List.Forall₂ (OperationOf final) module.operations root.operations :=
  List.rel_flatMap h fun _ _ hblock => hblock.operations

theorem resolves_of (h : List.Forall₂ (BlockOf final) module.blocks root.blocks) {v : Value}
    {value : Proto.Value} (hv : module.Owns v) (hvalue : ValueOf final v value) :
    Resolves root value := by
  cases hvalue with
  | any => trivial
  | operationResult hid =>
    obtain ⟨op, hop, rfl⟩ := hv
    obtain ⟨k, hk⟩ := List.mem_iff_getElem?.mp hop
    obtain ⟨proto, hproto, hof⟩ := forall₂_left (forall₂_operations h).flip hk
    exact ⟨proto, List.mem_of_getElem? hproto, Option.some.inj (hof.id.symm.trans hid)⟩
  | blockArgument hid =>
    obtain ⟨block, hblock, rfl⟩ := hv
    obtain ⟨k, hk⟩ := List.mem_iff_getElem?.mp hblock
    obtain ⟨proto, hproto, hof⟩ := forall₂_left h.flip hk
    exact ⟨proto, List.mem_of_getElem? hproto, Option.some.inj (hof.id.symm.trans hid)⟩

theorem attributeToProto_ne (attr : Attribute) : attributeToProto attr ≠ .notSet := by
  cases attr <;> exact fun h => by cases h

theorem entries_eq_nil_iff {κ α : Type} [DecidableEq κ] (m : FlatHashMap κ α) :
    m.entries = [] ↔ ∀ k, m.lookup k = none := by
  constructor
  · intro h k
    have hempty : m = ∅ := AList.ext h
    rw [hempty, AList.lookup_empty]
  · intro h
    refine List.eq_nil_iff_forall_not_mem.mpr ?_
    rintro ⟨k, v⟩ hentry
    have hlookup : m.lookup k = some v := AList.mem_lookup_iff.mpr hentry
    rw [h k] at hlookup
    cases hlookup

theorem noResults_iff {block : DeclaredBlock} {proto : Proto.BlockWithId}
    (h : BlockOf final block proto) :
    proto.block.results.entries = [] ↔ block.results.entries = [] := by
  rw [entries_eq_nil_iff, entries_eq_nil_iff]
  refine forall_congr' fun name => ?_
  have hrel := h.results name
  generalize block.results.lookup name = v, proto.block.results.lookup name = value at hrel
  cases hrel <;> simp

theorem decodable_of {operators : FlatHashMap String Operator}
    {unit : Proto.IrTranslationUnit} (hmodule : module.WellFormed operators)
    (hoperators : unit.operators = operators.keys) (hfinal : numbering.inv final)
    (h : List.Forall₂ (BlockOf final) module.blocks unit.topLevelModule.blocks)
    (hresults : ∀ block ∈ module.blocks, block.results.entries = []) : Decodable unit where
  registered := by
    intro proto hproto
    obtain ⟨k, hk⟩ := List.mem_iff_getElem?.mp hproto
    obtain ⟨op, hop, hof⟩ := forall₂_left (forall₂_operations h) hk
    rw [hof.operatorName, hoperators, ← AList.mem_keys, FlatHashMap.mem_iff_lookup,
      hmodule.registered op (List.mem_of_getElem? hop)]
    exact Option.some_ne_none _
  operationIds := by
    refine nodup_map_of_forall₂ (forall₂_operations h) ?_ module.distinct
    intro op proto op' proto' hof hof' hsame
    have heq := hfinal.2 _ _ _ hof.id (hsame ▸ hof'.id)
    exact Pointer.operation.inj heq
  blockIds := by
    refine nodup_map_of_forall₂ h ?_ module.distinctBlocks
    intro block proto block' proto' hof hof' hsame
    have heq := hfinal.2 _ _ _ hof.id (hsame ▸ hof'.id)
    exact Pointer.block.inj heq
  values := by
    intro proto hproto value hvalue
    obtain ⟨k, hk⟩ := List.mem_iff_getElem?.mp hproto
    obtain ⟨op, hop, hof⟩ := forall₂_left (forall₂_operations h) hk
    obtain ⟨i, hi⟩ := List.mem_iff_getElem?.mp hvalue
    obtain ⟨v, hv, hvalueOf⟩ := forall₂_left hof.inputs hi
    exact resolves_of h (hmodule.inputs op (List.mem_of_getElem? hop) v (List.mem_of_getElem? hv))
      hvalueOf
  payloads := by
    rintro proto hproto ⟨name, payload⟩ hentry
    obtain ⟨k, hk⟩ := List.mem_iff_getElem?.mp hproto
    obtain ⟨op, -, hof⟩ := forall₂_left (forall₂_operations h) hk
    have hlookup := hof.attributes name
    rw [AList.mem_lookup_iff.mpr hentry] at hlookup
    obtain ⟨attr, -, rfl⟩ := Option.map_eq_some_iff.mp hlookup.symm
    exact attributeToProto_ne attr
  noResults := by
    intro proto hproto
    obtain ⟨k, hk⟩ := List.mem_iff_getElem?.mp hproto
    obtain ⟨block, hblock, hof⟩ := forall₂_left h hk
    exact (noResults_iff hof).mpr (hresults block (List.mem_of_getElem? hblock))

theorem lookup_decodedAttributes (proto : Proto.OperationWithId) (name : String) :
    (decodeOperation proto).attributes.lookup name =
      (proto.operation.attributes.lookup name).map decodeAttribute := by
  have hnodup : ((proto.operation.attributes.entries.map fun entry =>
      (entry.1, decodeAttribute entry.2)).map Prod.fst).Nodup := by
    rw [List.map_map]
    exact proto.operation.attributes.nodupKeys
  refine Option.ext fun attr => ?_
  rw [decodeOperation, FlatHashMap.lookup_ofPairs hnodup, Option.map_eq_some_iff]
  simp only [List.mem_map, Prod.mk.injEq]
  constructor
  · rintro ⟨⟨_, payload⟩, hentry, rfl, rfl⟩
    exact ⟨payload, AList.mem_lookup_iff.mpr hentry, rfl⟩
  · rintro ⟨payload, hlookup, rfl⟩
    exact ⟨⟨name, payload⟩, AList.mem_lookup_iff.mp hlookup, rfl, rfl⟩

variable {module' : DeclaredModule}

/-- A number stands for the same place in the module that is read back. -/
theorem sameValue_of (h : List.Forall₂ (BlockOf final) module.blocks root.blocks)
    (hblocks : module'.blocks = root.blocks.map decodeBlock) {v : Value} {value : Proto.Value}
    (hv : module.Owns v) (hvalue : ValueOf final v value) :
    SameValue module.layout module'.layout v (decodeValue value) := by
  cases hvalue with
  | any => exact .any
  | operationResult hid =>
    obtain ⟨op, hop, rfl⟩ := hv
    obtain ⟨block, hblock, hop⟩ := List.mem_flatMap.mp hop
    obtain ⟨b, hb⟩ := List.mem_iff_getElem?.mp hblock
    obtain ⟨proto, hproto, hof⟩ := forall₂_left h.flip hb
    obtain ⟨k, hk⟩ := List.mem_iff_getElem?.mp hop
    obtain ⟨protoOp, hprotoOp, hofOp⟩ := forall₂_left hof.operations.flip hk
    have hb' : module'.blocks[b]? = some (decodeBlock proto) := by
      rw [hblocks, List.getElem?_map, hproto, Option.map_some]
    have hk' : (decodeBlock proto).operations[k]? = some (decodeOperation protoOp) := by
      simp only [decodeBlock, List.getElem?_map, hprotoOp, Option.map_some]
    cases hofOp.id.symm.trans hid
    exact .result (DeclaredModule.operationAt_layout hb hk)
      (DeclaredModule.operationAt_layout hb' hk')
  | blockArgument hid =>
    obtain ⟨block, hblock, rfl⟩ := hv
    obtain ⟨b, hb⟩ := List.mem_iff_getElem?.mp hblock
    obtain ⟨proto, hproto, hof⟩ := forall₂_left h.flip hb
    have hb' : module'.blocks[b]? = some (decodeBlock proto) := by
      rw [hblocks, List.getElem?_map, hproto, Option.map_some]
    cases hof.id.symm.trans hid
    exact .argument (DeclaredModule.blockAt_layout hb) (DeclaredModule.blockAt_layout hb')

theorem decode_attributeToProto (attr : Attribute) :
    decodeAttribute (attributeToProto attr) = attr := by
  cases attr <;> rfl

theorem sameOperation_of (h : List.Forall₂ (BlockOf final) module.blocks root.blocks)
    (hblocks : module'.blocks = root.blocks.map decodeBlock) {op : Operation}
    {proto : Proto.OperationWithId} (hof : OperationOf final op proto)
    (hone : op.op.numberOfReturnValues = 1) (howned : ∀ v ∈ op.inputs, module.Owns v) :
    SameOperation module.layout module'.layout op (decodeOperation proto) where
  op := by
    have hop : (decodeOperation proto).op = ⟨proto.operation.operatorName, 1⟩ := rfl
    rw [hop, hof.operatorName, ← hone]
  attributes := by
    intro name
    rw [lookup_decodedAttributes, hof.attributes, Option.map_map]
    have hid : decodeAttribute ∘ attributeToProto = id := funext decode_attributeToProto
    rw [hid, Option.map_id, id_eq]
  inputs := by
    have hinputs : (decodeOperation proto).inputs = proto.operation.inputs.map decodeValue := rfl
    rw [hinputs, List.forall₂_map_right_iff]
    refine List.Forall₂.imp ?_ ((List.forall₂_and_left _ _).mpr ⟨howned, hof.inputs⟩)
    rintro v value ⟨hv, hvalue⟩
    exact sameValue_of h hblocks hv hvalue

theorem isomorphic_of {operators : FlatHashMap String Operator}
    (hmodule : module.WellFormed operators)
    (h : List.Forall₂ (BlockOf final) module.blocks root.blocks)
    (hblocks : module'.blocks = root.blocks.map decodeBlock)
    (hresults : ∀ block ∈ module.blocks, block.results.entries = []) :
    module.Isomorphic module' := by
  rw [DeclaredModule.Isomorphic, hblocks, List.forall₂_map_right_iff]
  refine List.Forall₂.imp ?_ ((List.forall₂_and_left (p := fun block => block ∈ module.blocks)
    _ _).mpr ⟨fun _ hblock => hblock, h⟩)
  rintro block proto ⟨hblock, hof⟩
  have hoperation : ∀ op ∈ block.operations, op ∈ module.operations :=
    fun op hop => List.mem_flatMap.mpr ⟨block, hblock, hop⟩
  refine ⟨?_, ?_⟩
  · have hoperations : (decodeBlock proto).operations =
        proto.block.operations.map decodeOperation := rfl
    rw [hoperations, List.forall₂_map_right_iff]
    refine List.Forall₂.imp ?_ ((List.forall₂_and_left _ _).mpr ⟨hoperation, hof.operations⟩)
    rintro op protoOp ⟨hop, hofOp⟩
    exact sameOperation_of h hblocks hofOp (hmodule.oneReturnValue op hop) (hmodule.inputs op hop)
  · intro name
    have hempty := (entries_eq_nil_iff _).mp (hresults block hblock) name
    have hempty' : (decodeBlock proto).results.lookup name = none := AList.lookup_empty name
    rw [hempty, hempty']
    exact .none

/-- A module comes back from its protos just when no block has a result. -/
theorem roundTrip_iff (operators : FlatHashMap String Operator) (module : DeclaredModule)
    (hmodule : module.WellFormed operators) :
    (∃ unit, IrToProto.convert operators module = .ok unit ∧
      ∃ (module' : DeclaredModule) (ssaNames : SsaNames),
        ProtoToIr.convert ∅ unit = .ok (module'.blocks, ssaNames) ∧ module.Isomorphic module') ↔
      ∀ block ∈ module.blocks, block.results.entries = [] := by
  obtain ⟨unit, final, hunit, hoperators, hfinal, hall⟩ := convert_spec operators
    (fun op hop v hv => (hmodule.inputs op hop v hv).hasProto)
    (fun block hblock entry hentry => (hmodule.results block hblock entry hentry).hasProto)
  constructor
  · rintro ⟨unit', hunit', module', ssaNames, hconvert, -⟩ block hblock
    cases hunit.symm.trans hunit'
    obtain ⟨k, hk⟩ := List.mem_iff_getElem?.mp hblock
    obtain ⟨proto, hproto, hof⟩ := forall₂_left hall.flip hk
    exact (noResults_iff hof).mp
      (noResults_of_convert hconvert proto (List.mem_of_getElem? hproto))
  · intro hresults
    have hdecodable := decodable_of hmodule hoperators hfinal hall hresults
    obtain ⟨ssaNames, hconvert⟩ := convert_of hdecodable
    let module' : DeclaredModule := {
      blocks := unit.topLevelModule.blocks.map decodeBlock
      distinct := by
        have haddresses : ((unit.topLevelModule.blocks.map decodeBlock).flatMap
            fun block => block.operations).map Operation.address =
            unit.topLevelModule.operations.map Proto.OperationWithId.id := by
          rw [List.flatMap_map, Proto.Module.operations, List.map_flatMap, List.map_flatMap]
          exact List.flatMap_congr fun proto _ => by rw [decodeBlock, List.map_map]; rfl
        rw [haddresses]
        exact hdecodable.operationIds
      distinctBlocks := by
        rw [List.map_map]
        exact hdecodable.blockIds }
    exact ⟨unit, hunit, module', ssaNames, hconvert, isomorphic_of hmodule hall rfl hresults⟩

end

/-- Two operations that use each other across blocks, and the argument of a block. -/
def crossingModule : DeclaredModule where
  blocks := [
    { BlockBuilder.new 7 with
      operations := [{
        address := 3
        op := ⟨"core.join", 1⟩
        attributes := .ofPairs [("size", .int64 (-4)), ("name", .string "left")]
        inputs := [.operationResult 5 0, .any, .operationResult 3 0] }] },
    { BlockBuilder.new 9 with
      operations := [{
        address := 5
        op := ⟨"core.input", 1⟩
        inputs := [.operationResult 3 0, .blockArgument 7 2] }] }]
  distinct := by decide
  distinctBlocks := by decide

/-- The operators of the module below. -/
def crossingOperators : FlatHashMap String Operator :=
  .ofPairs [("core.join", ⟨"core.join", 1⟩), ("core.input", ⟨"core.input", 1⟩)]

theorem crossingModule_wellFormed : crossingModule.WellFormed crossingOperators where
  registered := by decide
  oneReturnValue := by decide
  inputs := by decide
  results := by decide

/-- A module comes back with cycles between its blocks. -/
theorem crossingModule_roundTrip :
    ∃ unit, IrToProto.convert crossingOperators crossingModule = .ok unit ∧
      ∃ (module' : DeclaredModule) (ssaNames : SsaNames),
        ProtoToIr.convert ∅ unit = .ok (module'.blocks, ssaNames) ∧
        crossingModule.Isomorphic module' :=
  (roundTrip_iff crossingOperators crossingModule crossingModule_wellFormed).mpr
    (by decide)

/-- A block with one output, of which anything is the result. -/
def anyResultModule : DeclaredModule where
  blocks := [
    { operations := []
      address := 1
      outputs := ["out"]
      results := .ofPairs [("out", .any)]
      declared := by
        intro name hname
        rw [FlatHashMap.mem_iff_lookup, FlatHashMap.ofPairs] at hname
        simp_all }]
  distinct := by decide
  distinctBlocks := by decide

/-- The result makes the reader fail. -/
theorem anyResultModule_notReadBack : anyResultModule.WellFormed ∅ ∧
    ∃ unit, IrToProto.convert ∅ anyResultModule = .ok unit ∧
      ProtoToIr.convert ∅ unit = .error "Output 'out' is not declared in the block." := by
  refine ⟨⟨?_, ?_, ?_, ?_⟩, _, rfl, rfl⟩ <;> decide

end Raksha.Ir
