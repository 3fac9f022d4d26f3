import Raksha.Parser.ReadWords
import Raksha.Parser.WellLinked

/-!
# Parse trees of accepted texts

A text that is accepted, with its parse tree and its module. The words of the module are tokens of
the text.
-/

namespace Raksha.Parser
open Raksha.Common Raksha.Ir Raksha.Parser.IrVisitor

variable {simpleAtod : String → Option (BitVec 64)} {progText : String}
  {result : IrProgramParserResult} {context : ModuleContext}

/-- The parse of a text: its tree and the blocks of its module, one by one. -/
structure ParseOf (simpleAtod : String → Option (BitVec 64)) (progText : String)
    (context : ModuleContext) (result : IrProgramParserResult) : Prop where
  tree : IrParser.irProgram (irTokens progText.toList) = some context
  blocks : List.Forall₂ (BlockOf simpleAtod) context.block result.module.blocks
  names : ∀ value id, result.ssaNames.find? value = some id ↔
    ∃ entry ∈ context.block.zip result.module.blocks,
      (id, value) ∈ assignedAll entry.1.operation entry.2.operations

theorem parseOf (h : parseProgram simpleAtod progText = .ok result) :
    ∃ context, ParseOf simpleAtod progText context result := by
  obtain ⟨context, state, htree, hvisit, -, hblocks, hnames⟩ := parseProgram_eq_ok.mp h
  have hparsed := visitModule_spec hvisit
  refine ⟨context, htree, ?_, ?_⟩
  · rw [hblocks]
    exact hparsed.blocks
  · rw [hblocks, hnames]
    exact hparsed.names

theorem ParseOf.find?_iff (h : ParseOf simpleAtod progText context result) (value : Value)
    (id : String) : result.ssaNames.find? value = some id ↔
      ∃ (b : ℕ) (block : BlockContext) (block' : Block), context.block[b]? = some block ∧
        result.module.blocks[b]? = some block' ∧
        (id, value) ∈ assignedAll block.operation block'.operations := by
  rw [h.names]
  constructor
  · rintro ⟨⟨block, block'⟩, hzip, hmem⟩
    obtain ⟨b, hb⟩ := List.mem_iff_getElem?.mp hzip
    obtain ⟨hblock, hblock'⟩ := List.getElem?_zip_eq_some.mp hb
    exact ⟨b, block, block', hblock, hblock', hmem⟩
  · rintro ⟨b, block, block', hblock, hblock', hmem⟩
    exact ⟨(block, block'), List.mem_iff_getElem?.mpr
      ⟨b, List.getElem?_zip_eq_some.mpr ⟨hblock, hblock'⟩⟩, hmem⟩

/-- Every operation of the module comes from an operation of the text. -/
theorem ParseOf.exists_context (h : ParseOf simpleAtod progText context result) {op : Operation}
    (hop : op ∈ result.module.operations) :
    ∃ (b k : ℕ) (block : BlockContext) (block' : Block) (c : OperationContext),
      context.block[b]? = some block ∧ result.module.blocks[b]? = some block' ∧
      block.operation[k]? = some c ∧ block'.operations[k]? = some op ∧
      OperationOf simpleAtod c op ∧ List.Forall₂
        (Refers (assignedAll block.operation block'.operations)) c.argumentList op.inputs := by
  obtain ⟨block', hblock', hop⟩ := List.mem_flatMap.mp hop
  obtain ⟨b, hb⟩ := List.mem_iff_getElem?.mp hblock'
  obtain ⟨block, hblock, hof⟩ := forall₂_left h.blocks hb
  obtain ⟨k, hk⟩ := List.mem_iff_getElem?.mp hop
  obtain ⟨c, hc, hoperation⟩ := forall₂_left hof.operations hk
  exact ⟨b, k, block, block', c, hblock, hb, hc, hk, hoperation, forall₂_getElem? hof.inputs hc hk⟩

theorem ParseOf.named (h : ParseOf simpleAtod progText context result) {v : Value}
    (hv : result.module.IsResult v) : ∃ id, result.ssaNames.find? v = some id := by
  obtain ⟨op, hop, i, hi, rfl⟩ := hv
  obtain ⟨b, k, block, block', c, hblock, hblock', hc, hk, hoperation, -⟩ := h.exists_context hop
  rw [Operation.numberOfOutputs, hoperation.op] at hi
  exact ⟨_, (h.find?_iff _ _).mpr ⟨b, block, block', hblock, hblock', mem_assignedAll.mpr
    ⟨k, c, op, i, hc, hk, List.getElem?_eq_getElem hi, rfl⟩⟩⟩

theorem ParseOf.named_isResult (h : ParseOf simpleAtod progText context result) {v : Value}
    {id : String} (hv : result.ssaNames.find? v = some id) : result.module.IsResult v := by
  obtain ⟨b, block, block', hblock, hblock', hmem⟩ := (h.find?_iff v id).mp hv
  obtain ⟨k, c, op, i, hc, hop, hi, rfl⟩ := mem_assignedAll.mp hmem
  have hoperation := forall₂_getElem? (forall₂_getElem? h.blocks hblock hblock').operations hc hop
  refine ⟨op, List.mem_flatMap.mpr ⟨block', List.mem_of_getElem? hblock',
    List.mem_of_getElem? hop⟩, i, ?_, rfl⟩
  rw [Operation.numberOfOutputs, hoperation.op]
  exact (List.getElem?_eq_some_iff.mp hi).1

theorem ParseOf.operand (h : ParseOf simpleAtod progText context result) {op : Operation}
    (hop : op ∈ result.module.operations) {u : Value} (hu : u ∈ op.inputs) :
    u = .any ∨ result.module.IsResult u := by
  obtain ⟨b, k, block, block', c, hblock, hblock', -, -, -, hinputs⟩ := h.exists_context hop
  obtain ⟨j, hj⟩ := List.mem_iff_getElem?.mp hu
  obtain ⟨argument, -, hrefers⟩ := forall₂_left hinputs hj
  cases argument with
  | anyValue => exact Or.inl hrefers
  | namedTempValue name =>
    exact Or.inr (h.named_isResult ((h.find?_iff u name).mpr
      ⟨b, block, block', hblock, hblock', hrefers⟩))

/-! ### Words of the text -/

theorem ParseOf.mem_irTokens (h : ParseOf simpleAtod progText context result) {token : Token}
    (htoken : token ∈ context.tokens) (hfixed : fixedText token.type = none) :
    token ∈ irTokens progText.toList := by
  rw [← irProgram_sound h.tree] at htoken
  obtain ⟨token', hmem, rfl⟩ := List.mem_map.mp htoken
  have hfixed' : fixedText token'.type = none := hfixed
  have hsame : normalize token' = token' := by
    rw [normalize, hfixed']
    rfl
  rwa [hsame]

theorem ParseOf.temporary (h : ParseOf simpleAtod progText context result) {v : Value}
    {id : String} (hid : result.ssaNames.find? v = some id) : IsTemporaryWord id := by
  obtain ⟨b, block, block', hblock, hblock', hmem⟩ := (h.find?_iff v id).mp hid
  obtain ⟨k, c, op, i, hc, hop, hi, rfl⟩ := mem_assignedAll.mp hmem
  have htoken := mem_tokens_of_result (List.mem_of_getElem? hblock) (List.mem_of_getElem? hc)
    (List.mem_of_getElem? hi)
  exact isTemporaryWord_of_token (h.mem_irTokens htoken rfl) rfl

theorem ParseOf.operatorName (h : ParseOf simpleAtod progText context result) {op : Operation}
    (hop : op ∈ result.module.operations) : IsIdWord op.op.name := by
  obtain ⟨b, k, block, block', c, hblock, hblock', hc, hk, hoperation, -⟩ := h.exists_context hop
  have hname : ⟨.id, c.operatorName⟩ ∈ c.tokens := by
    simp [OperationContext.tokens]
  have htoken := mem_tokens_of_operation (List.mem_of_getElem? hblock) (List.mem_of_getElem? hc)
    hname
  rw [hoperation.op]
  exact isIdWord_of_token (h.mem_irTokens htoken rfl) rfl

/-- The tokens of an attribute, of which the visitor makes the attribute of the module. -/
theorem ParseOf.attribute (h : ParseOf simpleAtod progText context result) {op : Operation}
    (hop : op ∈ result.module.operations) {name : String} {attr : Attribute}
    (hlookup : op.attributes.lookup name = some attr) : ∃ payload,
      visitAttributePayload simpleAtod payload = .ok attr ∧
      ∀ token ∈ AttributeContext.tokens ⟨name, payload⟩, fixedText token.type = none →
        token ∈ irTokens progText.toList := by
  obtain ⟨b, k, block, block', c, hblock, hblock', hc, hk, hoperation, -⟩ := h.exists_context hop
  obtain ⟨found, hfound, rfl, hpayload⟩ :=
    (visitAttributeList_lookup hoperation.attributes name attr).mp hlookup
  refine ⟨found.attributePayload, hpayload, fun token htoken hfixed => h.mem_irTokens ?_ hfixed⟩
  exact mem_tokens_of_operation (List.mem_of_getElem? hblock) (List.mem_of_getElem? hc)
    (mem_tokens_of_attribute hfound htoken)

theorem ParseOf.attributeName (h : ParseOf simpleAtod progText context result) {op : Operation}
    (hop : op ∈ result.module.operations) {name : String} {attr : Attribute}
    (hlookup : op.attributes.lookup name = some attr) : IsIdWord name := by
  obtain ⟨payload, -, htokens⟩ := h.attribute hop hlookup
  exact isIdWord_of_token (htokens ⟨.id, name⟩ (List.mem_cons_self ..) rfl) rfl

/-! ### Results -/

/-- Operations with one operator name have one number of results. -/
theorem parseProgram_sameCounts (h : parseProgram simpleAtod progText = .ok result)
    {op op' : Operation} (hop : op ∈ result.module.operations)
    (hop' : op' ∈ result.module.operations) (hname : op.op.name = op'.op.name) :
    op.numberOfOutputs = op'.numberOfOutputs := by
  obtain ⟨context, state, htree, hvisit, -, hblocks, -⟩ := parseProgram_eq_ok.mp h
  obtain ⟨context', hparse⟩ := parseOf h
  cases htree.symm.trans hparse.tree
  have hlinked := (visitModule_spec hvisit).wellLinked (visitModule_counted hvisit)
  obtain ⟨b, k, block, -, c, hblock, -, hc, -, hoperation, -⟩ := hparse.exists_context hop
  obtain ⟨b', k', block', -, c', hblock', -, hc', -, hoperation', -⟩ := hparse.exists_context hop'
  have hmem : c ∈ context.operations :=
    List.mem_flatMap.mpr ⟨block, List.mem_of_getElem? hblock, List.mem_of_getElem? hc⟩
  have hmem' : c' ∈ context.operations :=
    List.mem_flatMap.mpr ⟨block', List.mem_of_getElem? hblock', List.mem_of_getElem? hc'⟩
  rw [hoperation.op, hoperation'.op] at hname
  rw [Operation.numberOfOutputs, Operation.numberOfOutputs, hoperation.op, hoperation'.op]
  exact hlinked.sameCounts c' hmem' c hmem hname

theorem ParseOf.hasResult (h : ParseOf simpleAtod progText context result) {op : Operation}
    (hop : op ∈ result.module.operations) : 1 ≤ op.numberOfOutputs := by
  obtain ⟨b, k, block, block', c, hblock, -, hc, -, hoperation, -⟩ := h.exists_context hop
  have hne := irProgram_results h.tree block (List.mem_of_getElem? hblock) c
    (List.mem_of_getElem? hc)
  rw [Operation.numberOfOutputs, hoperation.op]
  exact List.length_pos_of_ne_nil hne

theorem ParseOf.operand_of_block (h : ParseOf simpleAtod progText context result) {block : Block}
    (hblock : block ∈ result.module.blocks) {op : Operation} (hop : op ∈ block.operations)
    {u : Value} (hu : u ∈ op.inputs) : u = .any ∨
      ∃ op' ∈ block.operations, ∃ i < op'.numberOfOutputs, u = op'.getOutputValue i := by
  obtain ⟨b, hb⟩ := List.mem_iff_getElem?.mp hblock
  obtain ⟨c, hc, hof⟩ := forall₂_left h.blocks hb
  obtain ⟨k, hk⟩ := List.mem_iff_getElem?.mp hop
  obtain ⟨operation, -, hinputs⟩ := forall₂_left hof.inputs hk
  obtain ⟨j, hj⟩ := List.mem_iff_getElem?.mp hu
  obtain ⟨argument, -, hrefers⟩ := forall₂_left hinputs hj
  cases argument with
  | anyValue => exact .inl hrefers
  | namedTempValue name =>
    obtain ⟨k', operation', op', i, hoperation', hop', hi, rfl⟩ := mem_assignedAll.mp hrefers
    refine .inr ⟨op', List.mem_of_getElem? hop', i, ?_, rfl⟩
    rw [Operation.numberOfOutputs, (forall₂_getElem? hof.operations hoperation' hop').op]
    exact (List.getElem?_eq_some_iff.mp hi).1

theorem ParseOf.name_at_iff (h : ParseOf simpleAtod progText context result) {b k i : ℕ}
    {cblock : BlockContext} {block : Block} {c : OperationContext} {op : Operation}
    (hcblock : context.block[b]? = some cblock) (hblock : result.module.blocks[b]? = some block)
    (hc : cblock.operation[k]? = some c) (hop : block.operations[k]? = some op) (id : String) :
    result.ssaNames.find? (op.getOutputValue i) = some id ↔ c.result[i]? = some id := by
  have hmpr : ∀ id, c.result[i]? = some id →
      result.ssaNames.find? (op.getOutputValue i) = some id :=
    fun id hi => (h.find?_iff _ id).mpr ⟨b, cblock, block, hcblock, hblock,
      mem_assignedAll.mpr ⟨k, c, op, i, hc, hop, hi, rfl⟩⟩
  refine ⟨fun hid => ?_, hmpr id⟩
  have hmem : op ∈ result.module.operations :=
    List.mem_flatMap.mpr ⟨block, List.mem_of_getElem? hblock, List.mem_of_getElem? hop⟩
  have hof := forall₂_getElem? (forall₂_getElem? h.blocks hcblock hblock).operations hc hop
  obtain ⟨op', hop', i', hi', heq⟩ := h.named_isResult hid
  obtain ⟨rfl, rfl⟩ := result.module.eq_of_output hmem hop' heq
  rw [Operation.numberOfOutputs, hof.op] at hi'
  have hname := List.getElem?_eq_getElem hi'
  rw [hmpr _ hname] at hid
  rw [hname, hid]

theorem ParseOf.name_injective (h : ParseOf simpleAtod progText context result) {block : Block}
    (hblock : block ∈ result.module.blocks) {op op' : Operation} (hop : op ∈ block.operations)
    (hop' : op' ∈ block.operations) {i j : ℕ} {id : String}
    (hid : result.ssaNames.find? (op.getOutputValue i) = some id)
    (hid' : result.ssaNames.find? (op'.getOutputValue j) = some id) :
    op.getOutputValue i = op'.getOutputValue j := by
  obtain ⟨b, hb⟩ := List.mem_iff_getElem?.mp hblock
  obtain ⟨cblock, hcblock, hof⟩ := forall₂_left h.blocks hb
  obtain ⟨k, hk⟩ := List.mem_iff_getElem?.mp hop
  obtain ⟨k', hk'⟩ := List.mem_iff_getElem?.mp hop'
  obtain ⟨c, hc, -⟩ := forall₂_left hof.operations hk
  obtain ⟨c', hc', -⟩ := forall₂_left hof.operations hk'
  have hname := (h.name_at_iff hcblock hb hc hk id).mp hid
  have hname' := (h.name_at_iff hcblock hb hc' hk' id).mp hid'
  obtain ⟨rfl, rfl⟩ := assigns_unique hof.nodup ⟨c, hc, hname⟩ ⟨c', hc', hname'⟩
  cases hk.symm.trans hk'
  rfl

end Raksha.Parser
