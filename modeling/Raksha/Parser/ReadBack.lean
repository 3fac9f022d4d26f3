import Raksha.Ir.Isomorphism
import Raksha.Parser.PrintedText
import Raksha.Parser.ParsedModules

/-!
# Reading a printed module back

What the visitor makes of the parse tree of a printed module: a module of the same shape.
-/

namespace Raksha.Parser
open Raksha.Common Raksha.Ir

/-! ### Attributes -/

section

variable {simpleAtod : String → Option (BitVec 64)} {floatToString : BitVec 64 → String}

theorem simpleAtoi_toString {n : ℕ} (h : n < 2 ^ 63) : simpleAtoi (toString n) = some (n : ℤ) := by
  rw [simpleAtoi, Lib.Lexing.ofDigitChars_toString]
  exact if_pos h

theorem simpleAtoi_nonneg {text : String} {value : ℤ} (h : simpleAtoi text = some value) :
    0 ≤ value := by
  rw [simpleAtoi] at h
  split at h
  · cases h
    exact Int.natCast_nonneg _
  · cases h

/-- The attributes that are integers of 64 bits or strings without a double quote. -/
def IsPlain : Attribute → Prop
  | .int64 value => -2 ^ 63 ≤ value ∧ value < 2 ^ 63
  | .string value => '"' ∉ value.toList
  | .float _ => False

theorem visitAttributePayload_printed {attr : Attribute} (h : IsPlain attr)
    (hreadable : Readable attr) :
    IrVisitor.visitAttributePayload simpleAtod (printedPayload floatToString attr) = .ok attr := by
  cases attr with
  | int64 value =>
    obtain ⟨n, rfl⟩ := Int.eq_ofNat_of_zero_le hreadable
    have hlt : n < 2 ^ 63 := by
      have hbound := h.2
      omega
    have hatoi : simpleAtoi (toString (n : ℤ)) = some (n : ℤ) := simpleAtoi_toString hlt
    simp only [printedPayload, IrVisitor.visitAttributePayload, IrVisitor.visitNumAttribute, hatoi]
  | string value =>
    have htext : ("\"" ++ value ++ "\"").toList = '"' :: (value.toList ++ ['"']) := by
      rw [String.toList_append, String.toList_append]
      rfl
    simp only [printedPayload, IrVisitor.visitAttributePayload, IrVisitor.visitStringLiteral, htext,
      Checked.bind_eq_ok, check_eq_ok, exists_const, Checked.pure_eq_ok, List.tail_cons,
      List.dropLast_concat, String.ofList_toList]
    refine ⟨value, ⟨?_, rfl, ?_, rfl⟩, rfl⟩
    · simp
    · rw [← List.cons_append, List.getLast?_append_of_ne_nil _ (by simp)]
      rfl
  | float bits => cases h

theorem visitAttributePayload_nonneg {payload : AttributePayloadContext} {value : ℤ}
    (h : IrVisitor.visitAttributePayload simpleAtod payload = .ok (.int64 value)) : 0 ≤ value := by
  cases payload with
  | floatAttribute text =>
    simp only [IrVisitor.visitAttributePayload, IrVisitor.visitFloatAttribute, Checked.bind_eq_ok,
      check_eq_ok, exists_const] at h
    obtain ⟨-, h⟩ := h
    split at h <;> cases h
  | numAttribute text =>
    simp only [IrVisitor.visitAttributePayload, IrVisitor.visitNumAttribute] at h
    split at h
    · next hatoi =>
      cases h
      exact simpleAtoi_nonneg hatoi
    · cases h
  | stringAttribute text =>
    simp only [IrVisitor.visitAttributePayload, Checked.bind_eq_ok, Checked.pure_eq_ok,
      reduceCtorEq, and_false, exists_false] at h

theorem printedAttributes_nodup (attributes : NamedAttributeMap) :
    ((printedAttributes floatToString attributes).map AttributeContext.name).Nodup := by
  rw [printedAttributes, List.map_map]
  have hperm := (List.mergeSort_perm attributes.entries
    fun left right => decide (left.1 ≤ right.1)).map Sigma.fst
  exact hperm.nodup_iff.mpr attributes.nodupKeys

theorem mem_printedAttributes {attributes : NamedAttributeMap} {context : AttributeContext} :
    context ∈ printedAttributes floatToString attributes ↔
      ∃ name attr, attributes.lookup name = some attr ∧
        context = ⟨name, printedPayload floatToString attr⟩ := by
  simp only [printedAttributes, List.mem_map, List.mem_mergeSort]
  constructor
  · rintro ⟨⟨name, attr⟩, hmem, rfl⟩
    exact ⟨name, attr, AList.mem_lookup_iff.mpr hmem, rfl⟩
  · rintro ⟨name, attr, hlookup, rfl⟩
    exact ⟨⟨name, attr⟩, AList.mem_lookup_iff.mp hlookup, rfl⟩

theorem visitAttributeList_printed_of {attributes : NamedAttributeMap}
    (h : ∀ name attr, attributes.lookup name = some attr → IsPlain attr ∧ Readable attr) :
    ∃ attributes', IrVisitor.visitAttributeList simpleAtod
      (printedAttributes floatToString attributes) = .ok attributes' := by
  refine IrVisitor.visitAttributeList_of (printedAttributes_nodup attributes) ?_
  intro context hcontext
  obtain ⟨name, attr, hlookup, rfl⟩ := mem_printedAttributes.mp hcontext
  exact ⟨attr, visitAttributePayload_printed (h name attr hlookup).1 (h name attr hlookup).2⟩

theorem visitAttributeList_printed {attributes attributes' : NamedAttributeMap}
    (h : ∀ name attr, attributes.lookup name = some attr → IsPlain attr ∧ Readable attr)
    (hvisit : IrVisitor.visitAttributeList simpleAtod
      (printedAttributes floatToString attributes) = .ok attributes') (name : String) :
    attributes'.lookup name = attributes.lookup name := by
  refine Option.ext fun attr => ?_
  rw [IrVisitor.visitAttributeList_lookup hvisit]
  constructor
  · rintro ⟨context, hcontext, rfl, hpayload⟩
    obtain ⟨name, attr', hlookup, rfl⟩ := mem_printedAttributes.mp hcontext
    rw [visitAttributePayload_printed (h name attr' hlookup).1 (h name attr' hlookup).2] at hpayload
    cases hpayload
    exact hlookup
  · intro hlookup
    exact ⟨_, mem_printedAttributes.mpr ⟨name, attr, hlookup, rfl⟩, rfl,
      visitAttributePayload_printed (h name attr hlookup).1 (h name attr hlookup).2⟩

end

/-! ### Operations and blocks -/

/-- What the visitor needs of a printed module: attributes that are read back, and names that tell
the results of a block apart. -/
structure Linkable (symbol : Value → String) (module : Module) : Prop where
  results : ∀ op ∈ module.operations, 1 ≤ op.numberOfOutputs
  inputs : ∀ block ∈ module.blocks, ∀ op ∈ block.operations, ∀ v ∈ op.inputs, v = .any ∨
    ∃ op' ∈ block.operations, ∃ i < op'.numberOfOutputs, v = op'.getOutputValue i
  attributes : ∀ op ∈ module.operations, ∀ name attr, op.attributes.lookup name = some attr →
    IsPlain attr ∧ Readable attr
  resultCounts : ∀ op ∈ module.operations, ∀ op' ∈ module.operations, op.op.name = op'.op.name →
    op.numberOfOutputs = op'.numberOfOutputs
  injective : ∀ block ∈ module.blocks, ∀ op ∈ block.operations, ∀ op' ∈ block.operations,
    ∀ i < op.numberOfOutputs, ∀ j < op'.numberOfOutputs,
      symbol (op.getOutputValue i) = symbol (op'.getOutputValue j) →
      op.getOutputValue i = op'.getOutputValue j

section

variable {simpleAtod : String → Option (BitVec 64)} {floatToString : BitVec 64 → String}
  {module : Module} {symbol : Value → String} {blockId : ℕ → String} {moduleId : String}

theorem printedValue_of_ne_any {v : Value} (h : v ≠ .any) :
    printedValue symbol v = .namedTempValue (symbol v) := by
  cases v with
  | any => exact absurd rfl h
  | _ => rfl

theorem printedOperation_result_getElem? {op : Operation} {i : ℕ} {name : String} :
    (printedOperation floatToString symbol op).result[i]? = some name ↔
      i < op.numberOfOutputs ∧ symbol (op.getOutputValue i) = name := by
  simp only [printedOperation, List.getElem?_map, Option.map_eq_some_iff]
  constructor
  · rintro ⟨v, ⟨j, hj, rfl⟩, rfl⟩
    obtain ⟨hlt, hget⟩ := List.getElem?_eq_some_iff.mp hj
    rw [List.length_range] at hlt
    rw [List.getElem_range] at hget
    exact ⟨hlt, by rw [hget]⟩
  · rintro ⟨hi, rfl⟩
    exact ⟨_, ⟨i, List.getElem?_range hi, rfl⟩, rfl⟩

/-- The values that a block computes, in the order of their names. -/
def resultValues (block : Block) : List Value :=
  block.operations.flatMap fun op => (List.range op.numberOfOutputs).map op.getOutputValue

theorem mem_resultValues {block : Block} {v : Value} : v ∈ resultValues block ↔
    ∃ op ∈ block.operations, ∃ i < op.numberOfOutputs, v = op.getOutputValue i := by
  simp only [resultValues, List.mem_flatMap, List.mem_map, List.mem_range, eq_comm]

theorem resultValues_nodup {block : Block} (hblock : block ∈ module.blocks) :
    (resultValues block).Nodup := by
  have haddresses : (block.operations.map Operation.address).Nodup := by
    refine module.distinct.sublist (List.Sublist.map _ ?_)
    rw [List.flatMap_def]
    exact List.sublist_flatten_of_mem (List.mem_map_of_mem hblock)
  refine List.nodup_flatMap.mpr ⟨?_, ?_⟩
  · intro op _
    refine List.Nodup.map ?_ List.nodup_range
    intro i j heq
    exact (Operation.getOutputValue_inj.mp heq).2
  · refine (List.pairwise_map.mp haddresses).imp ?_
    intro op op' hne v hv hv'
    obtain ⟨i, -, rfl⟩ := List.mem_map.mp hv
    obtain ⟨j, -, heq⟩ := List.mem_map.mp hv'
    exact hne (Operation.getOutputValue_inj.mp heq).1.symm

theorem printedBlock_results (block : Block × ℕ) :
    (printedBlock floatToString symbol blockId block).operation.flatMap OperationContext.result =
      (resultValues block.1).map symbol := by
  simp only [printedBlock, resultValues, List.flatMap_map, List.map_flatMap, printedOperation]

/-! ### The printed module is accepted -/

theorem mem_printedModule {block : BlockContext}
    (h : block ∈ (printedModule floatToString symbol blockId moduleId module).block) :
    ∃ b k, module.blocks[k]? = some b ∧
      block = printedBlock floatToString symbol blockId (b, k) := by
  obtain ⟨⟨b, k⟩, hmem, rfl⟩ := List.mem_map.mp h
  exact ⟨b, k, List.mem_zipIdx_iff_getElem?.mp hmem, rfl⟩

theorem mem_printedModule_operation {block : BlockContext} {context : OperationContext}
    (h : block ∈ (printedModule floatToString symbol blockId moduleId module).block)
    (hcontext : context ∈ block.operation) :
    ∃ op ∈ module.operations, context = printedOperation floatToString symbol op := by
  obtain ⟨b, k, hb, rfl⟩ := mem_printedModule h
  obtain ⟨op, hop, rfl⟩ := List.mem_map.mp hcontext
  exact ⟨op, List.mem_flatMap.mpr ⟨b, List.mem_of_getElem? hb, hop⟩, rfl⟩

theorem printedOperation_result_length (op : Operation) :
    (printedOperation floatToString symbol op).result.length = op.numberOfOutputs := by
  simp only [printedOperation, List.length_map, List.length_range]

theorem Linkable.accepted (h : Linkable symbol module) {before after : List BlockContext}
    {block : BlockContext}
    (hsplit : (printedModule floatToString symbol blockId moduleId module).block =
      before ++ block :: after) :
    IrVisitor.Accepted simpleAtod (before.flatMap BlockContext.operation) block := by
  have hmem : block ∈ (printedModule floatToString symbol blockId moduleId module).block := by
    rw [hsplit]
    exact List.mem_append_right _ (List.mem_cons_self ..)
  have hearlier : ∀ context ∈ before.flatMap BlockContext.operation ++ block.operation,
      ∃ op ∈ module.operations, context = printedOperation floatToString symbol op := by
    intro context hcontext
    rcases List.mem_append.mp hcontext with hcontext | hcontext
    · obtain ⟨other, hother, hcontext⟩ := List.mem_flatMap.mp hcontext
      have hmem' : other ∈ (printedModule floatToString symbol blockId moduleId module).block := by
        rw [hsplit]
        exact List.mem_append_left _ hother
      exact mem_printedModule_operation hmem' hcontext
    · exact mem_printedModule_operation hmem hcontext
  obtain ⟨b, k, hb, hblock⟩ := mem_printedModule hmem
  have hb := List.mem_of_getElem? hb
  refine ⟨?_, ?_, ?_, ?_⟩
  · intro context hcontext
    obtain ⟨op, hop, rfl⟩ := mem_printedModule_operation hmem hcontext
    exact visitAttributeList_printed_of (h.attributes op hop)
  · intro context hcontext other hother hname
    obtain ⟨op, hop, rfl⟩ := mem_printedModule_operation hmem hcontext
    obtain ⟨op', hop', rfl⟩ := hearlier other hother
    rw [printedOperation_result_length, printedOperation_result_length]
    exact h.resultCounts op' hop' op hop hname
  · rw [hblock, printedBlock_results]
    refine (resultValues_nodup hb).map_on ?_
    intro v hv v' hv' heq
    obtain ⟨op, hop, i, hi, rfl⟩ := mem_resultValues.mp hv
    obtain ⟨op', hop', j, hj, rfl⟩ := mem_resultValues.mp hv'
    exact h.injective b hb op hop op' hop' i hi j hj heq
  · intro context hcontext name hname
    rw [hblock] at hcontext ⊢
    obtain ⟨op, hop, rfl⟩ := List.mem_map.mp hcontext
    rw [printedBlock_results]
    obtain ⟨v, hv, hprinted⟩ := List.mem_map.mp hname
    by_cases hany : v = .any
    · subst hany
      cases hprinted
    · rw [printedValue_of_ne_any hany, ValueContext.namedTempValue.injEq] at hprinted
      rw [← hprinted]
      exact List.mem_map_of_mem
        (mem_resultValues.mpr ((h.inputs b hb op hop v hv).resolve_left hany))

/-! ### The module that is read back -/

/-- A value of a block is read back as the result at the same place. -/
theorem Linkable.sameValue (h : Linkable symbol module) {module' : Module} {b : ℕ}
    {block block' : Block} (hblock : module.blocks[b]? = some block)
    (hblock' : module'.blocks[b]? = some block') {op : Operation} (hop : op ∈ block.operations)
    {v v' : Value} (hv : v ∈ op.inputs)
    (hrefers : IrVisitor.Refers (IrVisitor.assignedAll
      (printedBlock floatToString symbol blockId (block, b)).operation block'.operations)
      (printedValue symbol v) v') : SameValue module.layout module'.layout v v' := by
  have hmem := List.mem_of_getElem? hblock
  by_cases hany : v = .any
  · subst hany
    rw [show v' = .any from hrefers]
    exact .any
  · rw [printedValue_of_ne_any hany] at hrefers
    obtain ⟨k, context, op', i, hcontext, hop', hname, rfl⟩ := IrVisitor.mem_assignedAll.mp hrefers
    simp only [printedBlock, List.getElem?_map, Option.map_eq_some_iff] at hcontext
    obtain ⟨found, hfound, rfl⟩ := hcontext
    obtain ⟨hi, hsymbol⟩ := printedOperation_result_getElem?.mp hname
    obtain ⟨other, hother, j, hj, rfl⟩ := (h.inputs block hmem op hop v hv).resolve_left hany
    rw [← h.injective block hmem found (List.mem_of_getElem? hfound) other hother i hi j hj hsymbol]
    exact .result (module.operationAt_layout hblock hfound)
      (module'.operationAt_layout hblock' hop')

theorem Linkable.isomorphic (h : Linkable symbol module) {state : IrVisitor.State}
    (hparsed : IrVisitor.Parsed simpleAtod
      (printedModule floatToString symbol blockId moduleId module).block state)
    {module' : Module} (hblocks : module'.blocks = state.blocks) : Isomorphic module module' := by
  have hall := hparsed.blocks
  rw [← hblocks] at hall
  have hlength := hall.length_eq
  simp only [printedModule, List.length_map, List.length_zipIdx] at hlength
  refine List.forall₂_iff_get.mpr ⟨hlength, fun b hb hb' => ?_⟩
  have hget : module.blocks[b]? = some (module.blocks.get ⟨b, hb⟩) := List.getElem?_eq_getElem hb
  have hget' : module'.blocks[b]? = some (module'.blocks.get ⟨b, hb'⟩) :=
    List.getElem?_eq_getElem hb'
  generalize module.blocks.get ⟨b, hb⟩ = block at hget ⊢
  generalize module'.blocks.get ⟨b, hb'⟩ = block' at hget' ⊢
  have hcontext : (printedModule floatToString symbol blockId moduleId module).block[b]? =
      some (printedBlock floatToString symbol blockId (block, b)) := by
    simp only [printedModule, List.getElem?_map, List.getElem?_zipIdx, hget, Option.map_some,
      Nat.zero_add]
  have hblock := forall₂_getElem? hall hcontext hget'
  have hoperations := List.forall₂_map_left_iff.mp hblock.operations
  have hinputs := List.forall₂_map_left_iff.mp hblock.inputs
  refine List.forall₂_iff_get.mpr ⟨hoperations.length_eq, fun k hk hk' => ?_⟩
  have hop : block.operations[k]? = some (block.operations.get ⟨k, hk⟩) :=
    List.getElem?_eq_getElem hk
  have hop' : block'.operations[k]? = some (block'.operations.get ⟨k, hk'⟩) :=
    List.getElem?_eq_getElem hk'
  generalize block.operations.get ⟨k, hk⟩ = op at hop ⊢
  generalize block'.operations.get ⟨k, hk'⟩ = op' at hop' ⊢
  have hof := forall₂_getElem? hoperations hop hop'
  have hrefers := List.forall₂_map_left_iff.mp (forall₂_getElem? hinputs hop hop')
  have hblockMem := List.mem_of_getElem? hget
  have hopMem := List.mem_of_getElem? hop
  have hmem : op ∈ module.operations := List.mem_flatMap.mpr ⟨block, hblockMem, hopMem⟩
  refine ⟨?_, ?_, ?_⟩
  · rw [hof.op, printedOperation_result_length]
    rfl
  · exact visitAttributeList_printed (h.attributes op hmem) hof.attributes
  · refine List.forall₂_iff_get.mpr ⟨hrefers.length_eq, fun i hi hi' => ?_⟩
    exact h.sameValue hget hget' hopMem (List.get_mem _ _)
      ((List.forall₂_iff_get.mp hrefers).2 i hi hi')

/-- A text with the tokens of the printed module has its parse tree. -/
theorem Linkable.irProgram (h : Linkable symbol module) {tokens : List Token}
    (htokens : tokens = (printedModule floatToString symbol blockId moduleId module).tokens) :
    IrParser.irProgram tokens =
      some (printedModule floatToString symbol blockId moduleId module) := by
  rw [htokens]
  refine irProgram_tokens _ fun b hb o ho => ?_
  obtain ⟨op, hop, rfl⟩ := mem_printedModule_operation hb ho
  have hpos := h.results op hop
  exact List.ne_nil_of_length_pos (hpos.trans_eq (printedOperation_result_length op).symm)

theorem Linkable.readBack (h : Linkable symbol module)
    (simpleAtod : String → Option (BitVec 64)) {text : String}
    (htokens : irTokens text.toList =
      (printedModule floatToString symbol blockId moduleId module).tokens) :
    ∃ result, parseProgram simpleAtod text = .ok result ∧ Isomorphic module result.module := by
  obtain ⟨state, hvisit⟩ : ∃ state, IrVisitor.visitModule simpleAtod
      (printedModule floatToString symbol blockId moduleId module) = .ok state :=
    IrVisitor.visitModule_of fun before block after hsplit => h.accepted hsplit
  have hparsed := IrVisitor.visitModule_spec hvisit
  let result : IrProgramParserResult := ⟨state.operators, ⟨state.blocks, hparsed.distinct⟩,
    state.ssaNames⟩
  exact ⟨result, parseProgram_eq_ok.mpr ⟨_, state, h.irProgram htokens, hvisit, rfl, rfl, rfl⟩,
    h.isomorphic hparsed rfl⟩

end

end Raksha.Parser
