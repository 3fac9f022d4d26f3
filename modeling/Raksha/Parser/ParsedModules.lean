import Raksha.Parser.IrVisitor

/-!
# Modules that the visitor builds

Every block of the text becomes a block of the module, operation by operation, and the names of
the text are those of the results.
-/

namespace Raksha.Parser.IrVisitor
open Raksha.Common Raksha.Ir

variable {simpleAtod : String → Option (BitVec 64)}

/-! ### Attributes -/

theorem addAttribute_eq_ok (m : NamedAttributeMap) (context : AttributeContext)
    (m' : NamedAttributeMap) : addAttribute simpleAtod m context = .ok m' ↔
      ∃ attr, visitAttributePayload simpleAtod context.attributePayload = .ok attr ∧
        context.name ∉ m ∧ m' = m.insertOrAssign context.name attr := by
  simp only [addAttribute, Checked.bind_eq_ok, check_eq_ok, exists_const, Checked.pure_eq_ok,
    FlatHashMap.tryInsert_snd]
  refine exists_congr fun attr => and_congr_right fun _ => and_congr_right fun hfresh => ?_
  rw [FlatHashMap.tryInsert_of_notMem _ _ _ hfresh, eq_comm]

theorem visitAttributeList_lookup {contexts : List AttributeContext}
    {attributes : NamedAttributeMap}
    (h : visitAttributeList simpleAtod contexts = .ok attributes) (name : String)
    (attr : Attribute) : attributes.lookup name = some attr ↔
      ∃ context ∈ contexts, context.name = name ∧
        visitAttributePayload simpleAtod context.attributePayload = .ok attr := by
  have hlookup := ((FlatHashMap.insertsNew addAttribute_eq_ok).foldlM h).2.2.2 name attr
  rw [hlookup, AList.lookup_empty]
  simp only [reduceCtorEq, false_or]

theorem visitAttributeList_of {contexts : List AttributeContext}
    (hnodup : (contexts.map AttributeContext.name).Nodup)
    (hpayload : ∀ context ∈ contexts,
      ∃ attr, visitAttributePayload simpleAtod context.attributePayload = .ok attr) :
    ∃ attributes, visitAttributeList simpleAtod contexts = .ok attributes :=
  (FlatHashMap.insertsNew addAttribute_eq_ok).foldlM_of hnodup (fun _ _ => AList.lookup_empty _)
    hpayload

/-! ### Names -/

/-- The names that an operation assigns, with the results that they stand for. -/
def assigned (context : OperationContext) (operation : Operation) : List (String × Value) :=
  context.result.zipIdx.map fun result => (result.1, operation.getOutputValue result.2)

def assignedAll (contexts : List OperationContext) (operations : List Operation) :
    List (String × Value) :=
  (contexts.zip operations).flatMap fun entry => assigned entry.1 entry.2

theorem mem_assigned {context : OperationContext} {operation : Operation} {name : String}
    {value : Value} : (name, value) ∈ assigned context operation ↔
      ∃ i, context.result[i]? = some name ∧ value = operation.getOutputValue i := by
  simp only [assigned, List.mem_map, Prod.mk.injEq, Prod.exists, List.mem_zipIdx_iff_getElem?]
  constructor
  · rintro ⟨name, i, hname, rfl, rfl⟩
    exact ⟨i, hname, rfl⟩
  · rintro ⟨i, hname, rfl⟩
    exact ⟨name, i, hname, rfl, rfl⟩

theorem assignedAll_append {contexts : List OperationContext} {operations : List Operation}
    (h : contexts.length = operations.length) (context : OperationContext)
    (operation : Operation) : assignedAll (contexts ++ [context]) (operations ++ [operation]) =
      assignedAll contexts operations ++ assigned context operation := by
  simp only [assignedAll, List.zip_append h, List.flatMap_append, List.zip_cons_cons,
    List.zip_nil_right, List.flatMap_cons, List.flatMap_nil, List.append_nil]

theorem mem_assignedAll {contexts : List OperationContext} {operations : List Operation}
    {name : String} {value : Value} : (name, value) ∈ assignedAll contexts operations ↔
      ∃ (k : ℕ) (context : OperationContext) (operation : Operation) (i : ℕ),
        contexts[k]? = some context ∧ operations[k]? = some operation ∧
        context.result[i]? = some name ∧ value = operation.getOutputValue i := by
  rw [assignedAll, List.mem_flatMap]
  constructor
  · rintro ⟨⟨context, operation⟩, hzip, hmem⟩
    obtain ⟨k, hk⟩ := List.mem_iff_getElem?.mp hzip
    obtain ⟨hcontext, hoperation⟩ := List.getElem?_zip_eq_some.mp hk
    obtain ⟨i, hi, rfl⟩ := mem_assigned.mp hmem
    exact ⟨k, context, operation, i, hcontext, hoperation, hi, rfl⟩
  · rintro ⟨k, context, operation, i, hcontext, hoperation, hi, rfl⟩
    exact ⟨(context, operation),
      List.mem_iff_getElem?.mpr ⟨k, List.getElem?_zip_eq_some.mpr ⟨hcontext, hoperation⟩⟩,
      mem_assigned.mpr ⟨i, hi, rfl⟩⟩

theorem assignedAll_name_unique {contexts : List OperationContext} {operations : List Operation}
    (hnodup : (operations.map Operation.address).Nodup) {name name' : String} {value : Value}
    (h : (name, value) ∈ assignedAll contexts operations)
    (h' : (name', value) ∈ assignedAll contexts operations) : name = name' := by
  obtain ⟨k, context, op, i, hcontext, hop, hi, rfl⟩ := mem_assignedAll.mp h
  obtain ⟨k', context', op', i', hcontext', hop', hi', heq⟩ := mem_assignedAll.mp h'
  obtain ⟨haddress, rfl⟩ := Operation.getOutputValue_inj.mp heq
  have hk : k = k' := by
    have hget : (operations.map Operation.address)[k]? = some op.address := by
      rw [List.getElem?_map, hop, Option.map_some]
    have hget' : (operations.map Operation.address)[k']? = some op.address := by
      rw [List.getElem?_map, hop', Option.map_some, haddress]
    obtain ⟨hlt, hk⟩ := List.getElem?_eq_some_iff.mp hget
    obtain ⟨hlt', hk'⟩ := List.getElem?_eq_some_iff.mp hget'
    exact (hnodup.getElem_inj_iff).mp (hk.trans hk'.symm)
  subst hk
  rw [hcontext] at hcontext'
  cases hcontext'
  exact Option.some.inj (hi.symm.trans hi')

/-- An operation with the operator and the attributes of the text. -/
structure OperationOf (simpleAtod : String → Option (BitVec 64)) (context : OperationContext)
    (operation : Operation) : Prop where
  op : operation.op = ⟨context.operatorName, context.result.length⟩
  attributes : visitAttributeList simpleAtod context.attributeList = .ok operation.attributes

theorem addTemporary_eq_ok (operation : Operation) (m : FlatHashMap String Value)
    (result : String × ℕ) (m' : FlatHashMap String Value) :
    addTemporary operation m (.temporary result.1, result.2) = .ok m' ↔
      ∃ v, (Except.ok (operation.getOutputValue result.2) : Checked Value) = .ok v ∧
        result.1 ∉ m ∧ m' = m.insertOrAssign result.1 v := by
  simp only [addTemporary, Checked.bind_eq_ok, check_eq_ok, exists_const, Checked.pure_eq_ok,
    FlatHashMap.tryInsert_snd, Except.ok.injEq, exists_eq_left']
  refine and_congr_right fun hfresh => ?_
  rw [FlatHashMap.tryInsert_of_notMem _ _ _ hfresh, eq_comm]

theorem foldlM_addTemporary (operation : Operation) (names : List String)
    (m : FlatHashMap String Value) :
    (names.map ValueId.temporary).zipIdx.foldlM (addTemporary operation) m =
      names.zipIdx.foldlM (fun m (result : String × ℕ) =>
        addTemporary operation m (.temporary result.1, result.2)) m := by
  rw [List.zipIdx_map, List.foldlM_map]
  rfl

/-! ### The first pass -/

/-- The operators registered so far have their own names and come from the text. -/
def Registered (contexts : List OperationContext) (operators : FlatHashMap String Operator) :
    Prop :=
  ∀ name op, operators.lookup name = some op → op.name = name ∧
    ∃ context ∈ contexts, context.operatorName = name ∧
      context.result.length = op.numberOfReturnValues

theorem maybeRegisterOperator_spec {contexts : List OperationContext}
    {operators operators' : FlatHashMap String Operator} {context : OperationContext}
    {op : Operator} (hregistered : Registered contexts operators)
    (h : maybeRegisterOperator operators context.operatorName context.result.length =
      .ok (op, operators')) :
    op = ⟨context.operatorName, context.result.length⟩ ∧
      Registered (contexts ++ [context]) operators' := by
  have hmono : Registered (contexts ++ [context]) operators := by
    intro name op hop
    obtain ⟨hname, c, hc, hrest⟩ := hregistered name op hop
    exact ⟨hname, c, List.mem_append_left _ hc, hrest⟩
  unfold maybeRegisterOperator at h
  cases hlookup : operators.lookup context.operatorName with
  | none =>
    rw [hlookup] at h
    cases h
    refine ⟨rfl, ?_⟩
    intro name op hop
    rw [FlatHashMap.lookup_insertOrAssign] at hop
    split at hop
    · next heq =>
      cases hop
      exact ⟨heq.symm, context, List.mem_append_right _ (List.mem_singleton_self _), heq.symm, rfl⟩
    · exact hmono name op hop
  | some op' =>
    rw [hlookup] at h
    simp only [Checked.bind_eq_ok, check_eq_ok, exists_const, Checked.pure_eq_ok,
      Prod.mk.injEq] at h
    obtain ⟨hcount, rfl, rfl⟩ := h
    obtain ⟨hname, -⟩ := hregistered _ _ hlookup
    refine ⟨?_, hmono⟩
    rw [← hname, ← hcount]

theorem maybeRegisterOperator_of {contexts : List OperationContext}
    {operators : FlatHashMap String Operator} {context : OperationContext}
    (hregistered : Registered contexts operators)
    (hcount : ∀ other ∈ contexts, other.operatorName = context.operatorName →
      other.result.length = context.result.length) :
    ∃ result, maybeRegisterOperator operators context.operatorName context.result.length =
      .ok result := by
  unfold maybeRegisterOperator
  cases hlookup : operators.lookup context.operatorName with
  | none => exact ⟨_, rfl⟩
  | some op =>
    obtain ⟨-, other, hother, hname, hlength⟩ := hregistered _ _ hlookup
    have hcheck := check_of (op.numberOfReturnValues = context.result.length)
      ("Operator has different number of return values in different instances " ++
        context.operatorName) (hlength.symm.trans (hcount other hother hname))
    simp only [hcheck]
    exact ⟨_, rfl⟩

/-- What the first pass knows after some operations of a block. -/
structure FirstPass (simpleAtod : String → Option (BitVec 64)) (earlier : List OperationContext)
    (base : Address) (contexts : List OperationContext) (state : BlockState) : Prop where
  created : List.Forall₂ (fun context entry => OperationOf simpleAtod context entry.1 ∧
    entry.2 = context.argumentList.map visitValue) contexts state.operationsAndInputs
  addresses : state.operationsAndInputs.map (fun entry => entry.1.address) =
    List.range' base contexts.length
  next : state.nextAddress = base + contexts.length
  lookup : ∀ name value, state.temporaryNameToValue.lookup name = some value ↔
    (name, value) ∈ assignedAll contexts (state.operationsAndInputs.map Prod.fst)
  nodup : (contexts.flatMap OperationContext.result).Nodup
  registered : Registered (earlier ++ contexts) state.operators

theorem visitOperation_eq_ok {context : OperationContext} {parts : OperationParts} :
    visitOperation simpleAtod context = .ok parts ↔
      ∃ attributes, visitAttributeList simpleAtod context.attributeList = .ok attributes ∧
        parts = { opResultIds := context.result.map .temporary,
                  operatorName := context.operatorName, attributes,
                  inputIds := context.argumentList.map visitValue } := by
  simp only [visitOperation, Checked.bind_eq_ok, Checked.pure_eq_ok, eq_comm (a := parts)]

theorem FirstPass.mem_temporaries {earlier contexts : List OperationContext} {base : Address}
    {state : BlockState} (h : FirstPass simpleAtod earlier base contexts state) (name : String) :
    name ∈ state.temporaryNameToValue ↔ name ∈ contexts.flatMap OperationContext.result := by
  rw [FlatHashMap.mem_iff_lookup, Option.ne_none_iff_exists']
  have hlength := h.created.length_eq
  rw [List.mem_flatMap]
  constructor
  · rintro ⟨value, hvalue⟩
    obtain ⟨k, context, op, i, hcontext, -, hi, -⟩ :=
      mem_assignedAll.mp ((h.lookup name value).mp hvalue)
    exact ⟨context, List.mem_of_getElem? hcontext, List.mem_of_getElem? hi⟩
  · rintro ⟨context, hcontext, hname⟩
    obtain ⟨k, hk⟩ := List.mem_iff_getElem?.mp hcontext
    obtain ⟨i, hi⟩ := List.mem_iff_getElem?.mp hname
    have hlt : k < (state.operationsAndInputs.map Prod.fst).length := by
      rw [List.length_map, ← hlength]
      exact (List.getElem?_eq_some_iff.mp hk).1
    exact ⟨_, (h.lookup name _).mpr (mem_assignedAll.mpr
      ⟨k, context, _, i, hk, List.getElem?_eq_getElem hlt, hi, rfl⟩)⟩

theorem createOperation_spec {earlier contexts : List OperationContext} {base : Address}
    {state state' : BlockState} {context : OperationContext}
    (h : FirstPass simpleAtod earlier base contexts state)
    (hcreate : createOperation simpleAtod state context = .ok state') :
    FirstPass simpleAtod earlier base (contexts ++ [context]) state' := by
  simp only [createOperation, Checked.bind_eq_ok, Checked.pure_eq_ok, Prod.exists] at hcreate
  obtain ⟨parts, hparts, op, operators, hop, temporaries, htemporaries, rfl⟩ := hcreate
  obtain ⟨attributes, hattributes, rfl⟩ := visitOperation_eq_ok.mp hparts
  simp only [List.length_map] at hop
  obtain ⟨rfl, hregistered⟩ := maybeRegisterOperator_spec h.registered hop
  rw [foldlM_addTemporary] at htemporaries
  obtain ⟨hnodup, hfresh, -, hlookup⟩ :=
    (FlatHashMap.insertsNew (addTemporary_eq_ok _)).foldlM htemporaries
  have hkeys : context.result.zipIdx.map (fun result : String × ℕ => result.1) = context.result :=
    List.zipIdx_map_fst 0 context.result
  refine ⟨?_, ?_, ?_, ?_, ?_, ?_⟩
  · exact List.rel_append h.created (.cons ⟨⟨rfl, hattributes⟩, rfl⟩ .nil)
  · rw [List.map_append, h.addresses, List.map_singleton, h.next, List.length_append,
      List.length_singleton, List.range'_concat]
    simp
  · rw [h.next, List.length_append, List.length_singleton, Nat.add_assoc]
  · intro name value
    have hlength : contexts.length = (state.operationsAndInputs.map Prod.fst).length := by
      rw [List.length_map]
      exact h.created.length_eq
    rw [hlookup, h.lookup, List.map_append, List.map_singleton, assignedAll_append hlength,
      List.mem_append]
    refine or_congr_right ?_
    simp only [assigned, List.mem_map, Prod.mk.injEq, Except.ok.injEq]
  · rw [List.flatMap_append, List.flatMap_singleton]
    rw [hkeys] at hnodup
    refine List.nodup_append.mpr ⟨h.nodup, hnodup, ?_⟩
    rintro name hold _ hnew rfl
    rw [← hkeys] at hnew
    obtain ⟨result, hresult, rfl⟩ := List.mem_map.mp hnew
    exact (FlatHashMap.lookup_eq_none_iff _ _).mp (hfresh result hresult)
      ((h.mem_temporaries _).mpr hold)
  · rw [← List.append_assoc]
    exact hregistered

theorem createOperation_of {earlier contexts : List OperationContext} {base : Address}
    {state : BlockState} {context : OperationContext}
    (h : FirstPass simpleAtod earlier base contexts state)
    (hattributes : ∃ attributes, visitAttributeList simpleAtod context.attributeList =
      .ok attributes)
    (hcount : ∀ other ∈ earlier ++ contexts, other.operatorName = context.operatorName →
      other.result.length = context.result.length)
    (hnodup : ((contexts ++ [context]).flatMap OperationContext.result).Nodup) :
    ∃ state', createOperation simpleAtod state context = .ok state' := by
  obtain ⟨attributes, hattributes⟩ := hattributes
  obtain ⟨⟨op, operators⟩, hop⟩ := maybeRegisterOperator_of h.registered hcount
  rw [List.flatMap_append, List.flatMap_singleton] at hnodup
  obtain ⟨-, hnames, hdisjoint⟩ := List.nodup_append.mp hnodup
  have hkeys : context.result.zipIdx.map (fun result : String × ℕ => result.1) = context.result :=
    List.zipIdx_map_fst 0 context.result
  let operation : Operation :=
    { address := state.nextAddress, op, attributes := attributes, inputs := [] }
  obtain ⟨temporaries, htemporaries⟩ := (FlatHashMap.insertsNew
    (addTemporary_eq_ok operation)).foldlM_of (l := context.result.zipIdx)
    (s := state.temporaryNameToValue) (by rwa [hkeys])
    (by
      intro result hresult
      refine (FlatHashMap.lookup_eq_none_iff _ _).mpr fun hmem => ?_
      have hnew : result.1 ∈ context.result := by
        rw [← hkeys]
        exact List.mem_map_of_mem hresult
      exact hdisjoint _ ((h.mem_temporaries _).mp hmem) _ hnew rfl)
    (fun _ _ => ⟨_, rfl⟩)
  rw [← foldlM_addTemporary] at htemporaries
  let inputs := context.argumentList.map visitValue
  refine ⟨⟨operators, state.nextAddress + 1, state.operationsAndInputs ++ [(operation, inputs)],
    temporaries⟩, ?_⟩
  simp only [createOperation, Checked.bind_eq_ok, Checked.pure_eq_ok, Prod.exists]
  refine ⟨_, visitOperation_eq_ok.mpr ⟨attributes, hattributes, rfl⟩, op, operators, ?_,
    temporaries, htemporaries, rfl⟩
  simp only [List.length_map]
  exact hop

theorem firstPass_spec {earlier contexts : List OperationContext} {base : Address}
    {operators : FlatHashMap String Operator} {state : BlockState}
    (hregistered : Registered earlier operators)
    (h : contexts.foldlM (createOperation simpleAtod) { operators, nextAddress := base } =
      .ok state) : FirstPass simpleAtod earlier base contexts state := by
  induction contexts using List.reverseRecOn generalizing state with
  | nil =>
    simp only [List.foldlM_nil, Checked.pure_eq_ok] at h
    subst h
    refine ⟨.nil, rfl, rfl, ?_, List.nodup_nil, ?_⟩
    · intro name value
      simp [assignedAll]
    · rw [List.append_nil]
      exact hregistered
  | append_singleton contexts context ih =>
    simp only [List.foldlM_append, List.foldlM_cons, List.foldlM_nil, Checked.bind_eq_ok,
      Checked.pure_eq_ok] at h
    obtain ⟨mid, hmid, last, hlast, rfl⟩ := h
    exact createOperation_spec (ih hmid) hlast

theorem firstPass_of {earlier contexts : List OperationContext} (base : Address)
    {operators : FlatHashMap String Operator} (hregistered : Registered earlier operators)
    (hattributes : ∀ context ∈ contexts, ∃ attributes,
      visitAttributeList simpleAtod context.attributeList = .ok attributes)
    (hcount : ∀ context ∈ contexts, ∀ other ∈ earlier ++ contexts,
      other.operatorName = context.operatorName → other.result.length = context.result.length)
    (hnodup : (contexts.flatMap OperationContext.result).Nodup) :
    ∃ state, contexts.foldlM (createOperation simpleAtod) { operators, nextAddress := base } =
      .ok state := by
  induction contexts using List.reverseRecOn with
  | nil => exact ⟨_, rfl⟩
  | append_singleton contexts context ih =>
    obtain ⟨mid, hmid⟩ := ih
      (fun c hc => hattributes c (List.mem_append_left _ hc))
      (fun c hc other hother => hcount c (List.mem_append_left _ hc) other (by
        rw [← List.append_assoc]
        exact List.mem_append_left _ hother))
      (by
        rw [List.flatMap_append] at hnodup
        exact (List.nodup_append.mp hnodup).1)
    have hlast : context ∈ contexts ++ [context] :=
      List.mem_append_right _ (List.mem_singleton_self _)
    obtain ⟨state, hstate⟩ := createOperation_of (firstPass_spec hregistered hmid)
      (hattributes context hlast)
      (fun other hother => hcount context hlast other (by
        rw [← List.append_assoc]
        exact List.mem_append_left _ hother)) hnodup
    refine ⟨state, ?_⟩
    simp only [List.foldlM_append, List.foldlM_cons, List.foldlM_nil, Checked.bind_eq_ok,
      Checked.pure_eq_ok]
    exact ⟨mid, hmid, state, hstate, rfl⟩

/-! ### The second pass -/

theorem addID_insertsNew : InsertsNew SsaNames.find? (fun entry : Σ _ : String, Value => entry.2)
    (fun entry => .ok entry.1)
    (fun (ssaNames : SsaNames) entry => ssaNames.addID entry.2 entry.1) := by
  refine ⟨?_, ?_⟩
  · intro names entry names' h
    obtain ⟨hfresh, hfind⟩ := SsaNames.addID_eq_ok h
    exact ⟨hfresh, entry.1, rfl, hfind⟩
  · intro names entry id hfresh _
    have hcheck := check_of (names.find? entry.2 = none)
      ("Trying to update new ID " ++ entry.1 ++ " to an existing value map") hfresh
    simp only [SsaNames.addID, hcheck]
    exact ⟨_, rfl⟩

/-- The value that an argument of the text stands for. -/
def Refers (names : List (String × Value)) : ValueContext → Value → Prop
  | .anyValue, value => value = .any
  | .namedTempValue name, value => (name, value) ∈ names

theorem findInput_eq_ok {temporaries : FlatHashMap String Value} {names : List (String × Value)}
    (hlookup : ∀ name value, temporaries.lookup name = some value ↔ (name, value) ∈ names)
    (context : ValueContext) (value : Value) :
    findInput temporaries (visitValue context) = .ok value ↔ Refers names context value := by
  cases context with
  | anyValue =>
    simp only [visitValue, findInput, Except.ok.injEq, Refers, eq_comm]
  | namedTempValue name =>
    simp only [visitValue, findInput, Refers, ← hlookup]
    cases temporaries.lookup name with
    | none => simp
    | some found => simp

/-- A block of the text and the block that the visitor builds for it. -/
structure BlockOf (simpleAtod : String → Option (BitVec 64)) (context : BlockContext)
    (block : Block) : Prop where
  operations : List.Forall₂ (OperationOf simpleAtod) context.operation block.operations
  inputs : List.Forall₂ (fun context' operation =>
    List.Forall₂ (Refers (assignedAll context.operation block.operations))
      context'.argumentList operation.inputs) context.operation block.operations
  nodup : (context.operation.flatMap OperationContext.result).Nodup

theorem assignedAll_congr {contexts : List OperationContext} {operations operations' : List Operation}
    (h : operations.map Operation.address = operations'.map Operation.address) :
    assignedAll contexts operations = assignedAll contexts operations' := by
  induction contexts generalizing operations operations' with
  | nil => rfl
  | cons context contexts ih =>
    cases operations with
    | nil =>
      have hnil : operations' = [] := List.map_eq_nil_iff.mp h.symm
      rw [hnil]
    | cons op operations =>
      cases operations' with
      | nil => cases h
      | cons op' operations' =>
        simp only [List.map_cons, List.cons.injEq] at h
        have hrest := ih h.2
        simp only [assignedAll, List.zip_cons_cons, List.flatMap_cons] at hrest ⊢
        rw [hrest]
        simp only [assigned, Operation.getOutputValue, h.1]

/-- What is known after some blocks of a module. -/
structure Parsed (simpleAtod : String → Option (BitVec 64)) (contexts : List BlockContext)
    (state : State) : Prop where
  blocks : List.Forall₂ (BlockOf simpleAtod) contexts state.blocks
  addresses : (state.blocks.flatMap Block.operations).map Operation.address =
    List.range state.nextAddress
  names : ∀ value id, state.ssaNames.find? value = some id ↔
    ∃ entry ∈ contexts.zip state.blocks,
      (id, value) ∈ assignedAll entry.1.operation entry.2.operations
  registered : Registered (contexts.flatMap BlockContext.operation) state.operators

theorem addInputs_forall₂ {temporaries : FlatHashMap String Value}
    {entries : List (Operation × List ValueId)} {operations : List Operation}
    (h : entries.mapM (addInputs temporaries) = .ok operations) :
    List.Forall₂ (fun entry operation => ∃ inputs,
      entry.2.mapM (findInput temporaries) = .ok inputs ∧
        operation = { entry.1 with inputs }) entries operations := by
  refine (Checked.mapM_eq_ok h).imp ?_
  intro entry operation hadd
  simp only [addInputs, Checked.bind_eq_ok, Checked.pure_eq_ok] at hadd
  obtain ⟨inputs, hinputs, rfl⟩ := hadd
  exact ⟨inputs, hinputs, rfl⟩

theorem addInputs_addresses {temporaries : FlatHashMap String Value}
    {entries : List (Operation × List ValueId)} {operations : List Operation}
    (h : entries.mapM (addInputs temporaries) = .ok operations) :
    operations.map Operation.address = entries.map fun entry => entry.1.address := by
  have hall := addInputs_forall₂ h
  clear h
  induction hall with
  | nil => rfl
  | cons hhead _ ih =>
    obtain ⟨inputs, -, rfl⟩ := hhead
    rw [List.map_cons, List.map_cons, ih]

theorem refers_of_mapM {temporaries : FlatHashMap String Value} {names : List (String × Value)}
    (hlookup : ∀ name value, temporaries.lookup name = some value ↔ (name, value) ∈ names)
    {contexts : List ValueContext} {inputs : List Value}
    (h : (contexts.map visitValue).mapM (findInput temporaries) = .ok inputs) :
    List.Forall₂ (Refers names) contexts inputs := by
  have hall := List.forall₂_map_left_iff.mp (Checked.mapM_eq_ok h)
  exact hall.imp fun context value => (findInput_eq_ok hlookup context value).mp

theorem zip_append_singleton {α β : Type} {xs : List α} {ys : List β}
    (h : xs.length = ys.length) (x : α) (y : β) :
    (xs ++ [x]).zip (ys ++ [y]) = xs.zip ys ++ [(x, y)] := by
  rw [List.zip_append h]
  rfl

theorem visitBlock_spec {contexts : List BlockContext} {state state' : State}
    {context : BlockContext} (h : Parsed simpleAtod contexts state)
    (hvisit : visitBlock simpleAtod state context = .ok state') :
    Parsed simpleAtod (contexts ++ [context]) state' := by
  simp only [visitBlock, Checked.bind_eq_ok, Checked.pure_eq_ok] at hvisit
  obtain ⟨blockState, hpass, ssaNames, hnames, operations, hoperations, rfl⟩ := hvisit
  have hfirst := firstPass_spec h.registered hpass
  have haddresses := addInputs_addresses hoperations
  have hassigned : assignedAll context.operation (blockState.operationsAndInputs.map Prod.fst) =
      assignedAll context.operation operations := by
    refine assignedAll_congr ?_
    rw [haddresses, List.map_map]
    rfl
  have hlookup : ∀ name value, blockState.temporaryNameToValue.lookup name = some value ↔
      (name, value) ∈ assignedAll context.operation operations := by
    intro name value
    rw [hfirst.lookup, hassigned]
  have hinputs := addInputs_forall₂ hoperations
  have hblock : BlockOf simpleAtod context ⟨operations⟩ := by
    refine ⟨?_, ?_, hfirst.nodup⟩
    · refine forall₂_trans hfirst.created hinputs ?_
      rintro c entry op ⟨hoperation, -⟩ ⟨inputs, -, rfl⟩
      exact ⟨hoperation.op, hoperation.attributes⟩
    · refine forall₂_trans hfirst.created hinputs ?_
      rintro c entry op ⟨-, hentry⟩ ⟨inputs, hmap, rfl⟩
      rw [hentry] at hmap
      exact refers_of_mapM hlookup hmap
  refine ⟨List.rel_append h.blocks (.cons hblock .nil), ?_, ?_, ?_⟩
  · rw [List.flatMap_append, List.flatMap_singleton, List.map_append, h.addresses, haddresses,
      hfirst.addresses, hfirst.next, List.range_eq_range', List.range_eq_range',
      ← List.range'_append_1, Nat.zero_add]
  · intro value id
    rw [(addID_insertsNew.foldlM hnames).2.2.2, h.names, zip_append_singleton h.blocks.length_eq]
    simp only [List.mem_append, List.mem_singleton, or_and_right, exists_or, exists_eq_left]
    refine or_congr_right ?_
    rw [← hlookup]
    constructor
    · rintro ⟨⟨name, value⟩, hentry, rfl, heq⟩
      cases heq
      exact AList.mem_lookup_iff.mpr hentry
    · intro hentry
      exact ⟨⟨id, value⟩, AList.mem_lookup_iff.mp hentry, rfl, rfl⟩
  · rw [List.flatMap_append, List.flatMap_singleton]
    exact hfirst.registered

/-- What the visitor asks of a block behind the operations of earlier blocks. -/
structure Accepted (simpleAtod : String → Option (BitVec 64)) (earlier : List OperationContext)
    (context : BlockContext) : Prop where
  attributes : ∀ c ∈ context.operation, ∃ attributes,
    visitAttributeList simpleAtod c.attributeList = .ok attributes
  counts : ∀ c ∈ context.operation, ∀ other ∈ earlier ++ context.operation,
    other.operatorName = c.operatorName → other.result.length = c.result.length
  nodup : (context.operation.flatMap OperationContext.result).Nodup
  arguments : ∀ c ∈ context.operation, ∀ name, .namedTempValue name ∈ c.argumentList →
    name ∈ context.operation.flatMap OperationContext.result

/-- The names so far are those of operations with smaller addresses. -/
theorem Parsed.find?_eq_none {contexts : List BlockContext} {state : State}
    (h : Parsed simpleAtod contexts state) {block : List OperationContext}
    {operations : List Operation} {n : ℕ}
    (haddresses : operations.map Operation.address = List.range' state.nextAddress n)
    {name : String} {value : Value} (hmem : (name, value) ∈ assignedAll block operations) :
    state.ssaNames.find? value = none := by
  by_contra hsome
  obtain ⟨id, hid⟩ := Option.ne_none_iff_exists'.mp hsome
  obtain ⟨pair, hpair, hold⟩ := (h.names _ _).mp hid
  obtain ⟨_, _, op, _, _, hop, _, hvalue⟩ := mem_assignedAll.mp hold
  obtain ⟨_, _, op', _, _, hop', _, hvalue'⟩ := mem_assignedAll.mp hmem
  have haddress := (Operation.getOutputValue_inj.mp (hvalue.symm.trans hvalue')).1
  have hlow : op.address ∈ List.range state.nextAddress := by
    rw [← h.addresses]
    exact List.mem_map_of_mem (List.mem_flatMap.mpr
      ⟨pair.2, (List.of_mem_zip hpair).2, List.mem_of_getElem? hop⟩)
  have hhigh : op'.address ∈ List.range' state.nextAddress n := by
    rw [← haddresses]
    exact List.mem_map_of_mem (List.mem_of_getElem? hop')
  rw [List.mem_range] at hlow
  rw [List.mem_range'_1, ← haddress] at hhigh
  omega

theorem findInput_of {temporaries : FlatHashMap String Value} {argument : ValueContext}
    (h : ∀ name, argument = .namedTempValue name → name ∈ temporaries) :
    ∃ value, findInput temporaries (visitValue argument) = .ok value := by
  cases argument with
  | anyValue => exact ⟨_, rfl⟩
  | namedTempValue name =>
    obtain ⟨value, hvalue⟩ := Option.ne_none_iff_exists'.mp
      ((FlatHashMap.mem_iff_lookup _ _).mp (h name rfl))
    refine ⟨value, ?_⟩
    simp only [visitValue, findInput, hvalue]

/-- Every operation of the first pass finds its inputs in the second. -/
theorem addInputs_of {earlier : List OperationContext} {base : Address} {context : BlockContext}
    {state : BlockState} (hfirst : FirstPass simpleAtod earlier base context.operation state)
    (haccepted : Accepted simpleAtod earlier context) {entry : Operation × List ValueId}
    (hmem : entry ∈ state.operationsAndInputs) :
    ∃ operation, addInputs state.temporaryNameToValue entry = .ok operation := by
  obtain ⟨k, hk⟩ := List.mem_iff_getElem?.mp hmem
  obtain ⟨hlt, hget⟩ := List.getElem?_eq_some_iff.mp hk
  have hlt' : k < context.operation.length := by rwa [hfirst.created.length_eq]
  have hinputs : entry.2 = context.operation[k].argumentList.map visitValue := by
    have hrel := hfirst.created.get hlt' hlt
    simp only [List.get_eq_getElem, hget] at hrel
    exact hrel.2
  obtain ⟨inputs, hmap⟩ := Checked.mapM_of (l := entry.2)
    (f := findInput state.temporaryNameToValue) (by
      intro id hid
      rw [hinputs] at hid
      obtain ⟨argument, hargument, rfl⟩ := List.mem_map.mp hid
      refine findInput_of ?_
      rintro name rfl
      exact (hfirst.mem_temporaries name).mpr
        (haccepted.arguments _ (List.getElem_mem hlt') name hargument))
  refine ⟨{ entry.1 with inputs }, ?_⟩
  simp only [addInputs, Checked.bind_eq_ok, Checked.pure_eq_ok]
  exact ⟨inputs, hmap, rfl⟩

theorem visitBlock_of {contexts : List BlockContext} {state : State} {context : BlockContext}
    (h : Parsed simpleAtod contexts state)
    (haccepted : Accepted simpleAtod (contexts.flatMap BlockContext.operation) context) :
    ∃ state', visitBlock simpleAtod state context = .ok state' := by
  obtain ⟨blockState, hpass⟩ := firstPass_of state.nextAddress h.registered
    haccepted.attributes haccepted.counts haccepted.nodup
  have hfirst := firstPass_spec h.registered hpass
  have haddresses : (blockState.operationsAndInputs.map Prod.fst).map Operation.address =
      List.range' state.nextAddress context.operation.length := by
    rw [List.map_map]
    exact hfirst.addresses
  have hentry : ∀ entry ∈ blockState.temporaryNameToValue.entries, (entry.1, entry.2) ∈
      assignedAll context.operation (blockState.operationsAndInputs.map Prod.fst) :=
    fun entry hmem => (hfirst.lookup _ _).mp (AList.mem_lookup_iff.mpr hmem)
  have hnodup : (blockState.temporaryNameToValue.entries.map fun entry => entry.2).Nodup := by
    refine List.Nodup.map_on ?_ blockState.temporaryNameToValue.nodupKeys.nodup
    intro entry hmem entry' hmem' heq
    have hname : entry.1 = entry'.1 := by
      refine assignedAll_name_unique ?_ (hentry entry hmem) (heq ▸ hentry entry' hmem')
      rw [haddresses]
      exact List.nodup_range'
    exact Sigma.ext hname (heq_of_eq heq)
  obtain ⟨ssaNames, hnames⟩ := addID_insertsNew.foldlM_of (s := state.ssaNames) hnodup
    (fun entry hmem => h.find?_eq_none haddresses (hentry entry hmem))
    (fun entry _ => ⟨entry.1, rfl⟩)
  obtain ⟨operations, hoperations⟩ := Checked.mapM_of (l := blockState.operationsAndInputs)
    (f := addInputs blockState.temporaryNameToValue) fun _ hmem => addInputs_of hfirst haccepted hmem
  refine ⟨⟨blockState.operators, state.blocks ++ [⟨operations⟩], ssaNames,
    blockState.nextAddress⟩, ?_⟩
  simp only [visitBlock, Checked.bind_eq_ok, Checked.pure_eq_ok]
  exact ⟨blockState, hpass, ssaNames, hnames, operations, hoperations, rfl⟩

/-! ### The module -/

theorem visitModule_spec {context : ModuleContext} {state : State}
    (h : visitModule simpleAtod context = .ok state) : Parsed simpleAtod context.block state := by
  unfold visitModule at h
  generalize context.block = contexts at h ⊢
  induction contexts using List.reverseRecOn generalizing state with
  | nil =>
    simp only [List.foldlM_nil, Checked.pure_eq_ok] at h
    subst h
    refine ⟨.nil, rfl, ?_, ?_⟩
    · intro value id
      simp [SsaNames.find?]
    · intro name op hop
      simp at hop
  | append_singleton contexts context ih =>
    simp only [List.foldlM_append, List.foldlM_cons, List.foldlM_nil, Checked.bind_eq_ok,
      Checked.pure_eq_ok] at h
    obtain ⟨mid, hmid, last, hlast, rfl⟩ := h
    exact visitBlock_spec (ih hmid) hlast

theorem visitModule_of {context : ModuleContext}
    (h : ∀ before block after, context.block = before ++ block :: after →
      Accepted simpleAtod (before.flatMap BlockContext.operation) block) :
    ∃ state, visitModule simpleAtod context = .ok state := by
  obtain ⟨moduleId, blocks⟩ := context
  induction blocks using List.reverseRecOn with
  | nil => exact ⟨_, rfl⟩
  | append_singleton blocks block ih =>
    obtain ⟨mid, hmid⟩ := ih fun before b after heq => by
      refine h before b (after ++ [block]) ?_
      simp only at heq ⊢
      rw [heq, List.append_assoc, List.cons_append]
    obtain ⟨state, hstate⟩ := visitBlock_of (visitModule_spec hmid) (h blocks block [] rfl)
    refine ⟨state, ?_⟩
    unfold visitModule at hmid ⊢
    simp only [List.foldlM_append, List.foldlM_cons, List.foldlM_nil, Checked.bind_eq_ok,
      Checked.pure_eq_ok]
    exact ⟨mid, hmid, state, hstate, rfl⟩

theorem Parsed.distinct {contexts : List BlockContext} {state : State}
    (h : Parsed simpleAtod contexts state) :
    ((state.blocks.flatMap Block.operations).map Operation.address).Nodup := by
  rw [h.addresses]
  exact List.nodup_range

end Raksha.Parser.IrVisitor

namespace Raksha.Parser
open Raksha.Common Raksha.Ir

structure IrProgramParserResult where
  operators : FlatHashMap String Operator
  module : Module
  ssaNames : SsaNames

def parseProgram (simpleAtod : String → Option (BitVec 64)) (progText : String) :
    Checked IrProgramParserResult :=
  match IrParser.irProgram (irTokens progText.toList) with
  | none => .error "Encountered syntax errors in IR parser, stopping!"
  | some context =>
    match h : IrVisitor.visitModule simpleAtod context with
    | .error message => .error message
    | .ok state => .ok {
        operators := state.operators
        module := ⟨state.blocks, (IrVisitor.visitModule_spec h).distinct⟩
        ssaNames := state.ssaNames }

theorem parseProgram_eq_ok {simpleAtod : String → Option (BitVec 64)} {progText : String}
    {result : IrProgramParserResult} :
    parseProgram simpleAtod progText = .ok result ↔ ∃ context state,
      IrParser.irProgram (irTokens progText.toList) = some context ∧
      IrVisitor.visitModule simpleAtod context = .ok state ∧
      result.operators = state.operators ∧ result.module.blocks = state.blocks ∧
      result.ssaNames = state.ssaNames := by
  unfold parseProgram
  cases hcontext : IrParser.irProgram (irTokens progText.toList) with
  | none => simp
  | some context =>
    simp only [Option.some.injEq]
    split
    · next message hvisit =>
      simp [hvisit]
    · next state hvisit =>
      rw [Except.ok.injEq]
      constructor
      · rintro rfl
        exact ⟨context, state, rfl, hvisit, rfl, rfl, rfl⟩
      · rintro ⟨_, state', rfl, hvisit', hoperators, hblocks, hnames⟩
        rw [hvisit] at hvisit'
        cases hvisit'
        obtain ⟨operators, ⟨blocks, distinct⟩, ssaNames⟩ := result
        simp only at hoperators hblocks hnames
        subst hoperators hblocks hnames
        rfl

end Raksha.Parser
