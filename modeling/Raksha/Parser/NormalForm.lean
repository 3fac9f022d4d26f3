import Mathlib.Data.String.Basic
import Raksha.Parser.RoundTrip

/-!
# Normal forms

A program that has been parsed is printed with the names of its text. The printed text is parsed
and printed in its turn.
-/

namespace Raksha.Parser
open Raksha.Common Raksha.Ir Raksha.Parser.IrVisitor

/-- The name that a text assigns at this place. -/
def temporaryAt (progText : String) (b k i : ℕ) : Option String := do
  let context ← IrParser.irProgram (irTokens progText.toList)
  let block ← context.block[b]?
  let operation ← block.operation[k]?
  operation.result[i]?

def NoFloats (progText : String) : Prop :=
  ∀ token ∈ irTokens progText.toList, token.type ≠ .floatLiteral

instance (progText : String) : Decidable (NoFloats progText) :=
  inferInstanceAs (Decidable (∀ token ∈ _, _))

section

variable (storageName : Address → String) (floatToString : BitVec 64 → String)
  (simpleAtod : String → Option (BitVec 64))

/-- The text of a parsed program under its own names. -/
def ownText (result : IrProgramParserResult) : String :=
  irToStringWithNames storageName floatToString result.ssaNames result.module

/-- Every result has the name that the text gives it. -/
def KeepsNames (progText : String) (result : IrProgramParserResult) : Prop :=
  ∀ b k i name, temporaryAt progText b k i = some name →
    ∃ block op, result.module.blocks[b]? = some block ∧ block.operations[k]? = some op ∧
      result.ssaNames.find? (op.getOutputValue i) = some name

/-- The printed text is read back with the names of the first text, and printed again it is the
same. -/
def PrintsNormalForm (progText : String) (result : IrProgramParserResult) : Prop :=
  ∃ result', parseProgram simpleAtod (ownText storageName floatToString result) = .ok result' ∧
    Isomorphic result.module result'.module ∧ KeepsNames progText result' ∧
    ownText storageName floatToString result' = ownText storageName floatToString result

end

/-! ### Attributes of a text -/

theorem simpleAtoi_lt {text : String} {value : ℤ} (h : simpleAtoi text = some value) :
    value < 2 ^ 63 := by
  rw [simpleAtoi] at h
  split at h
  · next hlt =>
    cases h
    exact_mod_cast hlt
  · cases h

section

variable {simpleAtod : String → Option (BitVec 64)} {progText : String}
  {result : IrProgramParserResult} {context : ModuleContext}

theorem visitAttributePayload_plain {payload : AttributePayloadContext} {attr : Attribute}
    (hvisit : visitAttributePayload simpleAtod payload = .ok attr)
    (htokens : ∀ token ∈ payload.tokens, fixedText token.type = none →
      token ∈ irTokens progText.toList)
    (hfloats : NoFloats progText) : IsPlain attr ∧ Readable attr := by
  cases payload with
  | floatAttribute text =>
    exact absurd rfl (hfloats _ (htokens _ (List.mem_singleton_self _) rfl))
  | numAttribute text =>
    simp only [visitAttributePayload, visitNumAttribute] at hvisit
    split at hvisit
    · next value hatoi =>
      cases hvisit
      have hnonneg := simpleAtoi_nonneg hatoi
      exact ⟨⟨by omega, simpleAtoi_lt hatoi⟩, hnonneg⟩
    · cases hvisit
  | stringAttribute contents =>
    obtain ⟨body, hbody, htext⟩ :=
      stringLiteral_text (htokens _ (List.mem_singleton_self _) rfl) rfl
    simp only at htext
    simp only [visitAttributePayload, visitStringLiteral, htext, Checked.bind_eq_ok, check_eq_ok,
      exists_const, Checked.pure_eq_ok, List.tail_cons, List.dropLast_concat] at hvisit
    obtain ⟨value, ⟨-, -, -, rfl⟩, rfl⟩ := hvisit
    have hquote : '"' ∉ (String.ofList body).toList := by rwa [String.toList_ofList]
    exact ⟨hquote, hquote⟩

theorem ParseOf.attribute_plain (h : ParseOf simpleAtod progText context result)
    (hfloats : NoFloats progText) {op : Operation} (hop : op ∈ result.module.operations)
    {name : String} {attr : Attribute} (hlookup : op.attributes.lookup name = some attr) :
    IsPlain attr ∧ Readable attr := by
  obtain ⟨payload, hvisit, htokens⟩ := h.attribute hop hlookup
  refine visitAttributePayload_plain hvisit (fun token htoken => htokens token ?_) hfloats
  exact List.mem_cons_of_mem _ (List.mem_cons_of_mem _ htoken)

/-! ### The printed text -/

theorem ParseOf.covers (h : ParseOf simpleAtod progText context result) :
    result.ssaNames.Covers result.module where
  results _ hv := h.named hv
  inputs _ hop _ hv := h.operand hop hv

variable (storageName : Address → String) (floatToString : BitVec 64 → String)

theorem ParseOf.ownText_eq (h : ParseOf simpleAtod progText context result) :
    ownText storageName floatToString result = moduleText floatToString
      (symbolOf storageName result.ssaNames) positionId "m0" result.module :=
  irToStringWithNames_of_covers storageName floatToString h.covers

theorem ParseOf.find?_symbolOf (h : ParseOf simpleAtod progText context result) {v : Value}
    (hv : result.module.IsResult v) :
    result.ssaNames.find? v = some (symbolOf storageName result.ssaNames v) := by
  obtain ⟨id, hid⟩ := h.named hv
  rw [symbolOf_result hv hid, hid]

theorem ParseOf.temporary_symbolOf (h : ParseOf simpleAtod progText context result) {v : Value}
    (hv : result.module.IsResult v) :
    IsTemporaryWord (symbolOf storageName result.ssaNames v) :=
  h.temporary (h.find?_symbolOf storageName hv)

theorem ParseOf.readOperation (h : ParseOf simpleAtod progText context result)
    (hfloats : NoFloats progText) {op : Operation} (hop : op ∈ result.module.operations) :
    ReadOperation (symbolOf storageName result.ssaNames) op where
  operatorName := h.operatorName hop
  attributes := by
    intro entry hentry
    have hlookup := AList.mem_lookup_iff.mpr hentry
    exact ⟨h.attributeName hop hlookup, (h.attribute_plain hfloats hop hlookup).2⟩
  results i hi := h.temporary_symbolOf storageName ⟨op, hop, i, hi, rfl⟩
  inputs v hv := (h.operand hop hv).imp_right (h.temporary_symbolOf storageName)

theorem linkable_of_parse (hparse : parseProgram simpleAtod progText = .ok result)
    (hfloats : NoFloats progText) :
    Linkable (symbolOf storageName result.ssaNames) result.module := by
  obtain ⟨context, h⟩ := parseOf hparse
  refine ⟨fun op hop => h.hasResult hop, ?_, ?_, ?_, ?_⟩
  · exact fun block hblock op hop v hv => h.operand_of_block hblock hop hv
  · exact fun op hop name attr hlookup => h.attribute_plain hfloats hop hlookup
  · exact fun op hop op' hop' hname => parseProgram_sameCounts hparse hop hop' hname
  · intro block hblock op hop op' hop' i hi j hj heq
    have hname := h.find?_symbolOf storageName (v := op.getOutputValue i)
      ⟨op, List.mem_flatMap.mpr ⟨block, hblock, hop⟩, i, hi, rfl⟩
    have hname' := h.find?_symbolOf storageName (v := op'.getOutputValue j)
      ⟨op', List.mem_flatMap.mpr ⟨block, hblock, hop'⟩, j, hj, rfl⟩
    rw [← heq] at hname'
    exact h.name_injective hblock hop hop' hname hname'

theorem ParseOf.printed (h : ParseOf simpleAtod progText context result)
    (hfloats : NoFloats progText) : Printed (ownText storageName floatToString result).toList
      (printedModule floatToString (symbolOf storageName result.ssaNames) positionId "m0"
        result.module).tokens (∀ op ∈ result.module.operations, Uncommented op) := by
  rw [h.ownText_eq]
  exact printed_module floatToString rfl (fun op hop => h.readOperation storageName hfloats hop)
    (fun block _ => ⟨block.2, rfl⟩) ⟨0, rfl⟩

/-! ### The program that is read back -/

/-- The order by name does not depend on the order in the hash map. -/
theorem inNameOrder_congr {attributes attributes' : NamedAttributeMap}
    (h : ∀ name, attributes'.lookup name = attributes.lookup name) :
    inNameOrder attributes' = inNameOrder attributes := by
  have hperm : attributes'.entries.Perm attributes.entries := by
    refine List.lookup_ext attributes'.nodupKeys attributes.nodupKeys fun name attr => ?_
    have hsame : attributes'.entries.dlookup name = attributes.entries.dlookup name := h name
    rw [hsame]
  exact mergeSort_eq_of_perm (fun _ _ _ hab hbc => hab.trans hbc) le_total
    (fun _ _ hab hba => le_antisymm hab hba) attributes.nodupKeys hperm

/-- A program that was read from a printed module. -/
structure ReadBack (simpleAtod : String → Option (BitVec 64)) (symbol : Value → String)
    (module : Module) (result' : IrProgramParserResult) : Prop where
  isomorphic : Isomorphic module result'.module
  names : ∀ {b k i : ℕ} {block block' : Block} {op op' : Operation},
    module.blocks[b]? = some block → block.operations[k]? = some op →
    result'.module.blocks[b]? = some block' → block'.operations[k]? = some op' →
    i < op.numberOfOutputs →
    result'.ssaNames.find? (op'.getOutputValue i) = some (symbol (op.getOutputValue i))

theorem readBack_of_tree {text : String} {symbol : Value → String} {module : Module}
    {result' : IrProgramParserResult}
    (h' : ParseOf simpleAtod text (printedModule floatToString symbol positionId "m0" module) result')
    (hiso : Isomorphic module result'.module) : ReadBack simpleAtod symbol module result' where
  isomorphic := hiso
  names := by
    intro b k i block block' op op' hblock hop hblock' hop' hi
    have hcblock : (printedModule floatToString symbol positionId "m0" module).block[b]? =
        some (printedBlock floatToString symbol positionId (block, b)) := by
      simp only [printedModule, List.getElem?_map, List.getElem?_zipIdx, hblock, Option.map_some,
        Nat.zero_add]
    have hc : (printedBlock floatToString symbol positionId (block, b)).operation[k]? =
        some (printedOperation floatToString symbol op) := by
      simp only [printedBlock, List.getElem?_map, hop, Option.map_some]
    exact (h'.name_at_iff hcblock hblock' hc hop' _).mpr
      (printedOperation_result_getElem?.mpr ⟨hi, rfl⟩)

section

variable {symbol : Value → String} {module : Module} {result' : IrProgramParserResult}

theorem ReadBack.symbolOf_eq (h : ReadBack simpleAtod symbol module result') {b k i : ℕ}
    {block block' : Block} {op op' : Operation} (hblock : module.blocks[b]? = some block)
    (hop : block.operations[k]? = some op) (hblock' : result'.module.blocks[b]? = some block')
    (hop' : block'.operations[k]? = some op') (hi : i < op.numberOfOutputs) :
    symbolOf storageName result'.ssaNames (op'.getOutputValue i) = symbol (op.getOutputValue i) := by
  have hname := h.names hblock hop hblock' hop' hi
  simp only [symbolOf, Operation.getOutputValue] at hname ⊢
  rw [hname, Option.getD_some]

theorem Module.exists_operationAt {b k : ℕ} {a : Address}
    (h : module.layout.operationAt b k = some a) : ∃ block op, module.blocks[b]? = some block ∧
      block.operations[k]? = some op ∧ op.address = a := by
  obtain ⟨block, hblock, hop⟩ := Option.bind_eq_some_iff.mp h
  obtain ⟨op, hget, haddress⟩ := Option.map_eq_some_iff.mp hop
  exact ⟨block, op, hblock, hget, haddress⟩

theorem ReadBack.symbolOf_same (h : ReadBack simpleAtod symbol module result')
    (hany : symbol .any = "<<ANY>>") {v v' : Value}
    (hsame : SameValue module.layout result'.module.layout v v') (hv : v = .any ∨ module.IsResult v) :
    symbolOf storageName result'.ssaNames v' = symbol v := by
  cases hsame with
  | any => exact hany.symm
  | argument hat _ => cases hat
  | result hat hat' =>
    obtain ⟨block, op, hblock, hop, rfl⟩ := Module.exists_operationAt hat
    obtain ⟨block', op', hblock', hop', rfl⟩ := Module.exists_operationAt hat'
    obtain ⟨other, hother, j, hj, heq⟩ := hv.resolve_left (by simp)
    obtain ⟨haddress, rfl⟩ := Value.operationResult.inj heq
    have hmem : op ∈ module.operations :=
      List.mem_flatMap.mpr ⟨block, List.mem_of_getElem? hblock, List.mem_of_getElem? hop⟩
    obtain rfl := module.address_injective hmem hother haddress
    exact h.symbolOf_eq storageName hblock hop hblock' hop' hj

theorem ReadBack.operationText_eq (h : ReadBack simpleAtod symbol module result')
    (hany : symbol .any = "<<ANY>>") (hinputs : ∀ op ∈ module.operations, ∀ v ∈ op.inputs,
      v = .any ∨ module.IsResult v) {b k : ℕ} {block block' : Block} {op op' : Operation}
    (hblock : module.blocks[b]? = some block) (hop : block.operations[k]? = some op)
    (hblock' : result'.module.blocks[b]? = some block') (hop' : block'.operations[k]? = some op')
    (hsame : SameOperation module.layout result'.module.layout op op') (indent : ℕ) :
    operationText floatToString (symbolOf storageName result'.ssaNames) indent op' =
      operationText floatToString symbol indent op := by
  have hmem : op ∈ module.operations :=
    List.mem_flatMap.mpr ⟨block, List.mem_of_getElem? hblock, List.mem_of_getElem? hop⟩
  have hcount : op'.numberOfOutputs = op.numberOfOutputs := by
    rw [Operation.numberOfOutputs, hsame.op, Operation.numberOfOutputs]
  have hresults : ((List.range op'.numberOfOutputs).map op'.getOutputValue).map
      (symbolOf storageName result'.ssaNames) =
      ((List.range op.numberOfOutputs).map op.getOutputValue).map symbol := by
    rw [hcount, List.map_map, List.map_map]
    exact List.map_congr_left fun i hi =>
      h.symbolOf_eq storageName hblock hop hblock' hop' (List.mem_range.mp hi)
  have hvalues : op'.inputs.map (symbolOf storageName result'.ssaNames) =
      op.inputs.map symbol := by
    refine map_eq_of_getElem? hsame.inputs.length_eq.symm fun i v' v hv' hv => ?_
    exact h.symbolOf_same storageName hany (forall₂_getElem? hsame.inputs hv hv')
      (hinputs op hmem v (List.mem_of_getElem? hv))
  have horder := inNameOrder_congr hsame.attributes
  have hattributes : printNamedMapInNameOrder floatToString op'.attributes =
      printNamedMapInNameOrder floatToString op.attributes := by
    simp only [inNameOrder] at horder
    simp only [printNamedMapInNameOrder, horder]
  rw [operationText, operationText, hresults, hvalues, hattributes, hsame.op]

/-- The program that was read back is printed as the module it was read from. -/
theorem ReadBack.moduleText_eq (h : ReadBack simpleAtod symbol module result')
    (hany : symbol .any = "<<ANY>>") (hinputs : ∀ op ∈ module.operations, ∀ v ∈ op.inputs,
      v = .any ∨ module.IsResult v) :
    moduleText floatToString (symbolOf storageName result'.ssaNames) positionId "m0"
        result'.module = moduleText floatToString symbol positionId "m0" module := by
  have hblocks : result'.module.blocks.zipIdx.map (blockText floatToString
      (symbolOf storageName result'.ssaNames) positionId 1) =
      module.blocks.zipIdx.map (blockText floatToString symbol positionId 1) := by
    have hlength := h.isomorphic.length_eq
    refine map_eq_of_getElem? (by simp [hlength]) fun b entry' entry hentry' hentry => ?_
    rw [List.getElem?_zipIdx, Option.map_eq_some_iff] at hentry hentry'
    obtain ⟨block, hblock, rfl⟩ := hentry
    obtain ⟨block', hblock', rfl⟩ := hentry'
    have hsame := forall₂_getElem? h.isomorphic hblock hblock'
    have hoperations : block'.operations.map (operationText floatToString
        (symbolOf storageName result'.ssaNames) (1 + 1)) =
        block.operations.map (operationText floatToString symbol (1 + 1)) := by
      refine map_eq_of_getElem? hsame.length_eq.symm fun k op' op hop' hop => ?_
      exact h.operationText_eq storageName floatToString hany hinputs hblock hop hblock' hop'
        (forall₂_getElem? hsame hop hop') _
    rw [blockText, blockText, hoperations]
  rw [moduleText, moduleText, hblocks]

end

end

/-! ### Normal forms -/

section

variable {simpleAtod : String → Option (BitVec 64)} {progText : String}
  {result : IrProgramParserResult} (storageName : Address → String)
  (floatToString : BitVec 64 → String)

/-- A text without comments among its names is read back as it was. -/
theorem printsNormalForm_of_uncommented (hparse : parseProgram simpleAtod progText = .ok result)
    (hfloats : NoFloats progText) (hclear : ∀ op ∈ result.module.operations, Uncommented op) :
    PrintsNormalForm storageName floatToString simpleAtod progText result := by
  obtain ⟨context, h⟩ := parseOf hparse
  have hlinkable := linkable_of_parse storageName hparse hfloats
  have htokens := irTokens_of_lexesTo ((h.printed storageName floatToString hfloats).lexes hclear)
  obtain ⟨result', hparse', hiso⟩ := hlinkable.readBack simpleAtod htokens
  obtain ⟨context', h'⟩ := parseOf hparse'
  cases h'.tree.symm.trans (hlinkable.irProgram htokens)
  have hback := readBack_of_tree floatToString h' hiso
  refine ⟨result', hparse', hiso, ?_, ?_⟩
  · intro b k i name hname
    simp only [temporaryAt, h.tree, Option.bind_eq_bind, Option.bind_some,
      Option.bind_eq_some_iff] at hname
    obtain ⟨cblock, hcblock, c, hc, hname⟩ := hname
    obtain ⟨block, hblock, hof⟩ := forall₂_left h.blocks.flip hcblock
    obtain ⟨op, hop, -⟩ := forall₂_left hof.operations.flip hc
    obtain ⟨block', hblock', hsame⟩ := forall₂_left hiso.flip hblock
    obtain ⟨op', hop', -⟩ := forall₂_left hsame.flip hop
    have hid := (h.name_at_iff hcblock hblock hc hop name).mpr hname
    have hi : i < op.numberOfOutputs := by
      rw [Operation.numberOfOutputs, (forall₂_getElem? hof.operations hc hop).op]
      exact (List.getElem?_eq_some_iff.mp hname).1
    refine ⟨block', op', hblock', hop', ?_⟩
    rw [hback.names hblock hop hblock' hop' hi]
    exact congrArg some (symbolOf_result (h.named_isResult hid) hid)
  · rw [h'.ownText_eq, h.ownText_eq]
    exact hback.moduleText_eq storageName floatToString rfl fun op hop v hv => h.operand hop hv

theorem uncommented_of_isomorphic (hparse : parseProgram simpleAtod progText = .ok result)
    (hfloats : NoFloats progText) {result' : IrProgramParserResult}
    (hparse' : parseProgram simpleAtod (ownText storageName floatToString result) = .ok result')
    (hiso : Isomorphic result.module result'.module) :
    ∀ op ∈ result.module.operations, Uncommented op := by
  obtain ⟨context, h⟩ := parseOf hparse
  exact (linkable_of_parse storageName hparse hfloats).clear floatToString
    (h.printed storageName floatToString hfloats) hparse' hiso

/-- Printing a parsed program with its own names is a normal form just when no name of the program
starts a comment in its printed line. -/
theorem printsNormalForm_iff (progText : String) (result : IrProgramParserResult)
    (hparse : parseProgram simpleAtod progText = .ok result) (hfloats : NoFloats progText) :
    PrintsNormalForm storageName floatToString simpleAtod progText result ↔
      ∀ op ∈ result.module.operations, Uncommented op := by
  refine ⟨?_, printsNormalForm_of_uncommented storageName floatToString hparse hfloats⟩
  rintro ⟨result', hparse', hiso, -, -⟩
  exact uncommented_of_isomorphic storageName floatToString hparse hfloats hparse' hiso

end

/-- A name with two slashes in its middle. -/
def slashedName : String := "module m\x7bblock b\x7b%x=a//b[n:007,s:\"//\"](<<ANY>>)\x7d\x7d"

theorem slashedName_normalForm : ∃ result, parseProgram (fun _ => none) slashedName = .ok result ∧
    PrintsNormalForm (fun _ => "") (fun _ => "") (fun _ => none) slashedName result := by
  obtain ⟨result, hresult⟩ := Checked.exists_eq_ok_of_isOk
    (x := parseProgram (fun _ => none) slashedName) (by decide +kernel)
  have hnames : (parseProgram (fun _ => none) slashedName).toOption.any (fun result =>
      result.module.operations.all fun op => !startsWithSlashes op.op.name &&
        op.attributes.entries.all fun entry => !startsWithSlashes entry.1) = true := by
    decide +kernel
  rw [hresult] at hnames
  refine ⟨result, hresult, (printsNormalForm_iff _ _ slashedName result hresult
    (by decide +kernel)).mpr fun op hop => ?_⟩
  have hop := List.all_eq_true.mp hnames op hop
  simp only [Bool.and_eq_true, Bool.not_eq_true', List.all_eq_true] at hop
  exact uncommented_of_names hop.1 hop.2

/-- A name with two slashes at its start. There is no line end that would make it a comment. -/
def commentName : String := "module m\x7bblock b\x7b%0=//x[](<<ANY>>)\x7d\x7d"

theorem commentName_notNormalForm : ∃ result,
    parseProgram (fun _ => none) commentName = .ok result ∧ NoFloats commentName ∧
    ¬ PrintsNormalForm (fun _ => "") (fun _ => "") (fun _ => none) commentName result := by
  obtain ⟨result, hresult⟩ := Checked.exists_eq_ok_of_isOk
    (x := parseProgram (fun _ => none) commentName) (by decide +kernel)
  have hname : (parseProgram (fun _ => none) commentName).toOption.any (fun result =>
      result.module.operations.any fun op => op.op.name = "//x" ∧ op.attributes.entries = []) =
        true := by
    decide +kernel
  rw [hresult] at hname
  obtain ⟨op, hop, hnamed⟩ := List.any_eq_true.mp hname
  obtain ⟨hname, hnone⟩ := of_decide_eq_true hnamed
  have hfloats : NoFloats commentName := by decide +kernel
  refine ⟨result, hresult, hfloats, ?_⟩
  rintro ⟨result', hparse', hiso, -, -⟩
  have hclear := uncommented_of_isomorphic _ _ hresult hfloats hparse' hiso op hop
  rw [Uncommented, inNameOrder, hname, hnone, List.mergeSort_nil] at hclear
  exact absurd hclear.1 (by decide)

end Raksha.Parser
