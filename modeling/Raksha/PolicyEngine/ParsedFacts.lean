import Raksha.Parser.ParseTrees
import Raksha.PolicyEngine.LoweredModules

/-!
# Facts of parsed modules

`parser/ir/ir_to_operation_facts.cc` lowers a parsed module with the names of its text. The parser
checks the names block by block, while the facts use them as access paths of the whole module.
-/

namespace Raksha.PolicyEngine
open Raksha.Common Raksha.Ir Raksha.Parser Raksha.Parser.IrVisitor

/-! ### The names of the text -/

/-- The temporary names that the text assigns, block by block. -/
def assignedNames (progText : String) : List (List String) :=
  match IrParser.irProgram (irTokens progText.toList) with
  | none => []
  | some context => context.block.map fun block =>
      block.operation.flatMap OperationContext.result

def NamesApart (progText : String) : Prop := (assignedNames progText).Pairwise List.Disjoint

instance (progText : String) : Decidable (NamesApart progText) :=
  inferInstanceAs (Decidable (List.Pairwise (fun l₁ l₂ => ∀ ⦃a⦄, a ∈ l₁ → a ∈ l₂ → False) _))

variable {simpleAtod : String → Option (BitVec 64)} {progText : String}
  {result : IrProgramParserResult} {context : ModuleContext}

theorem assignedNames_eq (h : ParseOf simpleAtod progText context result) :
    assignedNames progText = context.block.map fun block =>
      block.operation.flatMap OperationContext.result := by
  rw [assignedNames, h.tree]

theorem name_text (h : ParseOf simpleAtod progText context result) {v : Value}
    {id : String} (hv : result.ssaNames.find? v = some id) : ∃ rest, id = "%" ++ rest := by
  obtain ⟨b, block, block', hblock, hblock', hmem⟩ := (h.find?_iff v id).mp hv
  obtain ⟨k, c, op, i, hc, hop, hi, rfl⟩ := mem_assignedAll.mp hmem
  have htoken := mem_tokens_of_result (List.mem_of_getElem? hblock) (List.mem_of_getElem? hc)
    (List.mem_of_getElem? hi)
  rw [← irProgram_sound h.tree] at htoken
  obtain ⟨token, hmem, heq⟩ := List.mem_map.mp htoken
  have htype : token.type = .temporaryId := congrArg Token.type heq
  have htext : (Parser.normalize token).text = id := congrArg Token.text heq
  obtain ⟨rest, hrest⟩ := temporaryId_text hmem htype
  refine ⟨rest, ?_⟩
  rw [← htext, ← hrest]
  simp only [Parser.normalize, htype]
  rfl

/-! ### Distinct names -/

/-- Within a block the parser has checked that a name is assigned once. -/
theorem assignedAll_value_unique {contexts : List OperationContext} {operations : List Operation}
    (hnodup : (contexts.flatMap OperationContext.result).Nodup) {name : String} {v w : Value}
    (h : (name, v) ∈ assignedAll contexts operations)
    (h' : (name, w) ∈ assignedAll contexts operations) : v = w := by
  obtain ⟨k, c, op, i, hc, hop, hi, rfl⟩ := mem_assignedAll.mp h
  obtain ⟨k₂, c₂, op₂, i₂, hc₂, hop₂, hi₂, rfl⟩ := mem_assignedAll.mp h'
  obtain ⟨hinner, hpairs⟩ := List.nodup_flatMap.mp hnodup
  have hk : k = k₂ := by
    by_contra hne
    exact pairwise_of_ne hpairs (fun _ _ hd => hd.symm) hc hc₂ hne (List.mem_of_getElem? hi)
      (List.mem_of_getElem? hi₂)
  subst hk
  rw [hc] at hc₂
  cases hc₂
  rw [hop] at hop₂
  cases hop₂
  obtain ⟨hlt, heq⟩ := List.getElem?_eq_some_iff.mp hi
  obtain ⟨hlt₂, heq₂⟩ := List.getElem?_eq_some_iff.mp hi₂
  have hi' : i = i₂ :=
    (hinner c (List.mem_of_getElem? hc)).getElem_inj_iff.mp (heq.trans heq₂.symm)
  rw [hi']

theorem mem_assignedNames_of_assignedAll {contexts : List OperationContext}
    {operations : List Operation} {name : String} {value : Value}
    (h : (name, value) ∈ assignedAll contexts operations) :
    name ∈ contexts.flatMap OperationContext.result := by
  obtain ⟨k, c, op, i, hc, -, hi, -⟩ := mem_assignedAll.mp h
  exact List.mem_flatMap.mpr ⟨c, List.mem_of_getElem? hc, List.mem_of_getElem? hi⟩

/-- A name that a block assigns is that of some result of the block. -/
theorem exists_named (h : ParseOf simpleAtod progText context result) {b : ℕ} {id : String}
    (hb : b < context.block.length) (hb' : b < result.module.blocks.length)
    (hid : id ∈ context.block[b].operation.flatMap OperationContext.result) :
    ∃ op ∈ result.module.blocks[b].operations, ∃ i,
      result.ssaNames.find? (op.getOutputValue i) = some id := by
  have hblock := List.getElem?_eq_getElem hb
  have hblock' := List.getElem?_eq_getElem hb'
  obtain ⟨c, hc, hid⟩ := List.mem_flatMap.mp hid
  obtain ⟨k, hk⟩ := List.mem_iff_getElem?.mp hc
  obtain ⟨i, hi⟩ := List.mem_iff_getElem?.mp hid
  have hlength := (forall₂_getElem? h.blocks hblock hblock').operations.length_eq
  have hop := List.getElem?_eq_getElem (l := result.module.blocks[b].operations) (i := k)
    (by rw [← hlength]; exact (List.getElem?_eq_some_iff.mp hk).1)
  exact ⟨_, List.mem_of_getElem? hop, i, (h.find?_iff _ id).mpr ⟨b, _, _, hblock, hblock',
    mem_assignedAll.mpr ⟨k, c, _, i, hk, hop, hi, rfl⟩⟩⟩

theorem namesApart_iff (h : ParseOf simpleAtod progText context result) :
    NamesApart progText ↔ ∀ v w id, result.ssaNames.find? v = some id →
      result.ssaNames.find? w = some id → v = w := by
  rw [NamesApart, assignedNames_eq h, List.pairwise_map]
  constructor
  · intro hapart v w id hv hw
    obtain ⟨b, block, block', hblock, hblock', hmem⟩ := (h.find?_iff v id).mp hv
    obtain ⟨b₂, block₂, block₂', hblock₂, hblock₂', hmem₂⟩ := (h.find?_iff w id).mp hw
    have hb : b = b₂ := by
      by_contra hne
      have hdisjoint := pairwise_of_ne hapart (fun _ _ hd => hd.symm) hblock hblock₂ hne
      exact hdisjoint (mem_assignedNames_of_assignedAll hmem)
        (mem_assignedNames_of_assignedAll hmem₂)
    subst hb
    rw [hblock] at hblock₂
    cases hblock₂
    rw [hblock'] at hblock₂'
    cases hblock₂'
    exact assignedAll_value_unique (forall₂_getElem? h.blocks hblock hblock').nodup hmem hmem₂
  · intro hinjective
    rw [List.pairwise_iff_getElem]
    intro b b₂ hb hb₂ hlt id hid hid₂
    have hlt' : b < result.module.blocks.length := by rwa [← h.blocks.length_eq]
    have hlt₂' : b₂ < result.module.blocks.length := by rwa [← h.blocks.length_eq]
    obtain ⟨op, hop, i, hname⟩ := exists_named h hb hlt' hid
    obtain ⟨op₂, hop₂, i₂, hname₂⟩ := exists_named h hb₂ hlt₂' hid₂
    have heq := hinjective _ _ id hname hname₂
    have haddress := (Operation.getOutputValue_inj.mp heq).1
    -- Operations of different blocks have different addresses.
    have hdistinct := result.module.distinct
    rw [List.map_flatMap] at hdistinct
    have hdisjoint := pairwise_of_ne (List.nodup_flatMap.mp hdistinct).2 (fun _ _ hd => hd.symm)
      (List.getElem?_eq_getElem hlt') (List.getElem?_eq_getElem hlt₂') (by omega)
    exact hdisjoint (List.mem_map_of_mem hop) (haddress ▸ List.mem_map_of_mem hop₂)

/-! ### The facts -/

/-- The facts of a parsed module tell its results apart: distinct results have distinct symbols,
and an operand has the symbol of a result just when it refers to this result. -/
def FactsTellApart (storageName : Address → String) (result : IrProgramParserResult) : Prop :=
  let symbol := symbolOf storageName (finalNames storageName result.ssaNames result.module)
  (lowerModule storageName result.ssaNames result.module).1 =
    result.module.operations.map (operationFact symbol) ∧
  (∀ v w, result.module.IsResult v → result.module.IsResult w → symbol v = symbol w → v = w) ∧
  ∀ op ∈ result.module.operations, ∀ u ∈ op.inputs, ∀ v, result.module.IsResult v →
    (symbol u = symbol v ↔ u = v)

theorem symbol_eq (h : ParseOf simpleAtod progText context result)
    (storageName : Address → String) {v : Value} {id : String}
    (hid : result.ssaNames.find? v = some id) :
    symbolOf storageName (finalNames storageName result.ssaNames result.module) v = id :=
  symbolOf_result (h.named_isResult hid)
    (lowerModule_extends storageName result.ssaNames result.module v id hid)

theorem factsTellApart_iff (h : ParseOf simpleAtod progText context result)
    (storageName : Address → String) : FactsTellApart storageName result ↔
      ∀ v w id, result.ssaNames.find? v = some id → result.ssaNames.find? w = some id →
        v = w := by
  constructor
  · rintro ⟨-, hresults, -⟩ v w id hv hw
    refine hresults v w (h.named_isResult hv) (h.named_isResult hw) ?_
    rw [symbol_eq h storageName hv, symbol_eq h storageName hw]
  · intro hnames
    have hresults : ∀ v w, result.module.IsResult v → result.module.IsResult w →
        symbolOf storageName (finalNames storageName result.ssaNames result.module) v =
          symbolOf storageName (finalNames storageName result.ssaNames result.module) w →
        v = w := by
      intro v w hv hw heq
      obtain ⟨id, hid⟩ := h.named hv
      obtain ⟨id', hid'⟩ := h.named hw
      rw [symbol_eq h storageName hid, symbol_eq h storageName hid'] at heq
      exact hnames v w id hid (heq ▸ hid')
    refine ⟨lowerModule_spec storageName result.ssaNames result.module, hresults, ?_⟩
    intro op hop u hu v hv
    refine ⟨?_, fun heq => by rw [heq]⟩
    intro heq
    rcases h.operand hop hu with rfl | hresult
    · obtain ⟨id, hid⟩ := h.named hv
      obtain ⟨rest, hrest⟩ := name_text h hid
      rw [symbol_eq h storageName hid, hrest] at heq
      have hhead : "<<ANY>>".toList.head? = some '%' := head?_percent heq.symm
      exact absurd hhead (by decide)
    · exact hresults u v hresult hv heq

/-- The facts tell the results of a parsed module apart just when no two blocks of the text assign
one name. -/
theorem parsedFacts_tellApart_iff (storageName : Address → String)
    (simpleAtod : String → Option (BitVec 64)) (progText : String)
    (result : IrProgramParserResult) (h : parseProgram simpleAtod progText = .ok result) :
    FactsTellApart storageName result ↔ NamesApart progText := by
  obtain ⟨context, hparse⟩ := parseOf h
  rw [factsTellApart_iff hparse, namesApart_iff hparse]

/-- Two blocks with a temporary each. -/
def ownNames : String := "module m{block a{%0=f[]()}block b{%1=f[](%1)}}"

theorem ownNames_tellApart : ∃ result, parseProgram (fun _ => none) ownNames = .ok result ∧
    FactsTellApart (fun _ => "") result := by
  obtain ⟨result, hresult⟩ := Checked.exists_eq_ok_of_isOk
    (x := parseProgram (fun _ => none) ownNames) (by decide +kernel)
  have hapart : NamesApart ownNames := by decide +kernel
  exact ⟨result, hresult, (parsedFacts_tellApart_iff _ _ ownNames result hresult).mpr hapart⟩

/-- Both blocks have a temporary `%0`. -/
def reusedName : String := "module m{block a{%0=f[]()}block b{%0=f[](%0)}}"

theorem reusedName_conflated : ∃ result, parseProgram (fun _ => none) reusedName = .ok result ∧
    ¬ FactsTellApart (fun _ => "") result := by
  obtain ⟨result, hresult⟩ := Checked.exists_eq_ok_of_isOk
    (x := parseProgram (fun _ => none) reusedName) (by decide +kernel)
  obtain ⟨context, hparse⟩ := parseOf hresult
  refine ⟨result, hresult, fun hfacts => ?_⟩
  have hapart := (namesApart_iff hparse).mpr ((factsTellApart_iff hparse _).mp hfacts)
  exact absurd hapart (by decide +kernel)

end Raksha.PolicyEngine
