import Raksha.Parser.ParseTrees
import Raksha.Parser.PrintedLines
import Raksha.Parser.ReadBack

/-!
# Parsing a printed module

A printed module is read back as it was, except for two kinds of modules. The printer writes a sign
in front of a negative integer, and the grammar has signs in front of floating point numbers only.
A name that starts with two slashes is followed by a line end in the printed text, so that it starts
a comment.
-/

namespace Raksha.Parser
open Raksha.Common Raksha.Ir Raksha.Parser.IrVisitor

/-! ### Printable modules -/

/-- The modules that the printer is made for: names lex as `ID` tokens, inputs come from the same
block, equal operator names have equal result counts. -/
structure Printable (module : Module) : Prop where
  results : ∀ op ∈ module.operations, 1 ≤ op.numberOfOutputs
  inputs : ∀ block ∈ module.blocks, ∀ op ∈ block.operations, ∀ v ∈ op.inputs, v = .any ∨
    ∃ op' ∈ block.operations, ∃ i < op'.numberOfOutputs, v = op'.getOutputValue i
  operatorNames : ∀ op ∈ module.operations, IsIdWord op.op.name
  attributeNames : ∀ op ∈ module.operations, ∀ name attr, op.attributes.lookup name = some attr →
    IsIdWord name
  attributes : ∀ op ∈ module.operations, ∀ name attr, op.attributes.lookup name = some attr →
    IsPlain attr
  resultCounts : ∀ op ∈ module.operations, ∀ op' ∈ module.operations, op.op.name = op'.op.name →
    op.numberOfOutputs = op'.numberOfOutputs

def NoNegatives (module : Module) : Prop :=
  ∀ op ∈ module.operations, ∀ name value,
    op.attributes.lookup name = some (.int64 value) → 0 ≤ value

section

variable {module : Module} {symbol : Value → String} {blockId : ℕ → String} {moduleId : String}

theorem Printable.readable (h : Printable module) (hnonneg : NoNegatives module) {op : Operation}
    (hop : op ∈ module.operations) {name : String} {attr : Attribute}
    (hlookup : op.attributes.lookup name = some attr) : Readable attr := by
  have hplain := h.attributes op hop name attr hlookup
  cases attr with
  | int64 value => exact hnonneg op hop name value hlookup
  | string value => exact hplain
  | float bits => exact hplain

theorem Printable.isResult (h : Printable module) {block : Block} (hblock : block ∈ module.blocks)
    {op : Operation} (hop : op ∈ block.operations) {v : Value} (hv : v ∈ op.inputs)
    (hany : v ≠ .any) : module.IsResult v := by
  obtain ⟨op', hop', i, hi, rfl⟩ := (h.inputs block hblock op hop v hv).resolve_left hany
  exact ⟨op', List.mem_flatMap.mpr ⟨block, hblock, hop'⟩, i, hi, rfl⟩

theorem Printable.readOperation (h : Printable module) (hnonneg : NoNegatives module)
    (hnames : PrintedNames module symbol blockId moduleId) {op : Operation}
    (hop : op ∈ module.operations) : ReadOperation symbol op := by
  have htemporary : ∀ v, module.IsResult v → IsTemporaryWord (symbol v) := by
    intro v hv
    obtain ⟨n, hn⟩ := hnames.result v hv
    rw [hn]
    exact isTemporaryWord_numbered n
  refine ⟨h.operatorNames op hop, ?_, ?_, ?_⟩
  · intro entry hentry
    have hlookup := AList.mem_lookup_iff.mpr hentry
    exact ⟨h.attributeNames op hop _ _ hlookup, h.readable hnonneg hop hlookup⟩
  · intro i hi
    exact htemporary _ ⟨op, hop, i, hi, rfl⟩
  · intro v hv
    by_cases hany : v = .any
    · exact .inl hany
    · obtain ⟨block, hblock, hop'⟩ := List.mem_flatMap.mp hop
      exact .inr (htemporary v (h.isResult hblock hop' hv hany))

theorem Printable.linkable (h : Printable module) (hnonneg : NoNegatives module)
    (hnames : PrintedNames module symbol blockId moduleId) : Linkable symbol module where
  results := h.results
  inputs := h.inputs
  attributes op hop name attr hlookup :=
    ⟨h.attributes op hop name attr hlookup, h.readable hnonneg hop hlookup⟩
  resultCounts := h.resultCounts
  injective block hblock op hop op' hop' i hi j hj heq :=
    hnames.injective _ _ ⟨op, List.mem_flatMap.mpr ⟨block, hblock, hop⟩, i, hi, rfl⟩
      ⟨op', List.mem_flatMap.mpr ⟨block, hblock, hop'⟩, j, hj, rfl⟩ heq

theorem Printable.printed (floatToString : BitVec 64 → String) (h : Printable module)
    (hnonneg : NoNegatives module) (hnames : PrintedNames module symbol blockId moduleId) :
    Printed (moduleText floatToString symbol blockId moduleId module).toList
      (printedModule floatToString symbol blockId moduleId module).tokens
      (∀ op ∈ module.operations, Uncommented op) :=
  printed_module floatToString hnames.any (fun _ hop => h.readOperation hnonneg hnames hop)
    hnames.block hnames.module

end

/-! ### What is read back -/

theorem parseProgram_noNegatives {simpleAtod : String → Option (BitVec 64)} {progText : String}
    {result : IrProgramParserResult} (h : parseProgram simpleAtod progText = .ok result) :
    NoNegatives result.module := by
  obtain ⟨context, state, -, hvisit, -, hblocks, -⟩ := parseProgram_eq_ok.mp h
  have hparsed := IrVisitor.visitModule_spec hvisit
  intro op hop name value hlookup
  rw [Module.operations, hblocks] at hop
  obtain ⟨block', hblock', hop⟩ := List.mem_flatMap.mp hop
  obtain ⟨b, hb⟩ := List.mem_iff_getElem?.mp hblock'
  obtain ⟨block, -, hof⟩ := forall₂_left hparsed.blocks hb
  obtain ⟨k, hk⟩ := List.mem_iff_getElem?.mp hop
  obtain ⟨c, -, hoperation⟩ := forall₂_left hof.operations hk
  obtain ⟨c', -, -, hpayload⟩ :=
    (IrVisitor.visitAttributeList_lookup hoperation.attributes name _).mp hlookup
  exact visitAttributePayload_nonneg hpayload

theorem noNegatives_of_isomorphic {module module' : Module} (h : Isomorphic module module')
    (hnonneg : NoNegatives module') : NoNegatives module := by
  intro op hop name value hlookup
  obtain ⟨op', hop', hsame⟩ := h.exists_operation hop
  exact hnonneg op' hop' name value ((hsame.attributes name).trans hlookup)

theorem map_eq_of_getElem? {α β γ : Type} {f : α → γ} {g : β → γ} {xs : List α} {ys : List β}
    (hlength : xs.length = ys.length)
    (h : ∀ (i : ℕ) (a : α) (b : β), xs[i]? = some a → ys[i]? = some b → f a = g b) :
    xs.map f = ys.map g := by
  refine List.ext_getElem (by rw [List.length_map, List.length_map, hlength]) fun i hi hi' => ?_
  rw [List.length_map] at hi hi'
  rw [List.getElem_map, List.getElem_map]
  exact h i _ _ (List.getElem?_eq_getElem hi) (List.getElem?_eq_getElem hi')

theorem irTokens_of_lexesTo {text : List Char} {tokens : List Token} (h : LexesTo text tokens) :
    irTokens text = tokens := by
  have hall := h []
  rwa [List.append_nil, show irTokens [] = [] from rfl, List.append_nil] at hall

/-! ### Counting what was read -/

def isString : AttributePayloadContext → Bool
  | .stringAttribute _ => true
  | _ => false

def stringNames (contexts : List AttributeContext) : List String :=
  (contexts.filter fun context => isString context.attributePayload).map AttributeContext.name

section

variable {simpleAtod : String → Option (BitVec 64)}

theorem isString_iff {payload : AttributePayloadContext} {attr : Attribute}
    (h : visitAttributePayload simpleAtod payload = .ok attr) :
    isString payload = true ↔ ∃ value, attr = .string value := by
  cases payload with
  | floatAttribute text =>
    simp only [visitAttributePayload, visitFloatAttribute, Checked.bind_eq_ok, check_eq_ok,
      exists_const] at h
    obtain ⟨-, h⟩ := h
    split at h <;> cases h
    simp [isString]
  | numAttribute text =>
    simp only [visitAttributePayload, visitNumAttribute] at h
    split at h <;> cases h
    simp [isString]
  | stringAttribute contents =>
    simp only [visitAttributePayload, Checked.bind_eq_ok, Checked.pure_eq_ok] at h
    obtain ⟨value, -, rfl⟩ := h
    exact ⟨fun _ => ⟨value, rfl⟩, fun _ => rfl⟩

theorem mem_stringNames {contexts : List AttributeContext} {attributes : NamedAttributeMap}
    (h : visitAttributeList simpleAtod contexts = .ok attributes) {name : String} :
    name ∈ stringNames contexts ↔ ∃ value, attributes.lookup name = some (.string value) := by
  simp only [stringNames, List.mem_map, List.mem_filter]
  constructor
  · rintro ⟨context, ⟨hcontext, hstring⟩, rfl⟩
    obtain ⟨attr, hattr⟩ := ((FlatHashMap.insertsNew addAttribute_eq_ok).foldlM h).2.2.1 context
      hcontext
    obtain ⟨value, rfl⟩ := (isString_iff hattr).mp hstring
    exact ⟨value, (visitAttributeList_lookup h _ _).mpr ⟨context, hcontext, rfl, hattr⟩⟩
  · rintro ⟨value, hlookup⟩
    obtain ⟨context, hcontext, hname, hattr⟩ := (visitAttributeList_lookup h _ _).mp hlookup
    exact ⟨context, ⟨hcontext, (isString_iff hattr).mpr ⟨value, rfl⟩⟩, hname⟩

theorem stringNames_nodup {contexts : List AttributeContext} {attributes : NamedAttributeMap}
    (h : visitAttributeList simpleAtod contexts = .ok attributes) :
    (stringNames contexts).Nodup :=
  ((FlatHashMap.insertsNew addAttribute_eq_ok).foldlM h).1.sublist
    (List.Sublist.map _ List.filter_sublist)

theorem stringNames_length_eq {contexts contexts' : List AttributeContext}
    {attributes attributes' : NamedAttributeMap}
    (h : visitAttributeList simpleAtod contexts = .ok attributes)
    (h' : visitAttributeList simpleAtod contexts' = .ok attributes')
    (hsame : ∀ name, attributes'.lookup name = attributes.lookup name) :
    (stringNames contexts').length = (stringNames contexts).length := by
  refine List.Perm.length_eq ((List.perm_ext_iff_of_nodup (stringNames_nodup h')
    (stringNames_nodup h)).mpr fun name => ?_)
  rw [mem_stringNames h', mem_stringNames h, hsame]

end

theorem countP_separated {α : Type} {p : Token → Bool} (hcomma : p comma = false)
    (print : α → List Token) (l : List α) :
    (separated comma print l).countP p = (l.map fun a => (print a).countP p).sum := by
  cases l with
  | nil => rfl
  | cons a l =>
    rw [separated, List.countP_append, List.countP_flatMap, List.map_cons, List.sum_cons]
    simp only [List.countP_cons, hcomma, Bool.false_eq_true, if_false, Nat.add_zero,
      Function.comp_def]

theorem stringCount_attribute (context : AttributeContext) :
    stringCount context.tokens = if isString context.attributePayload = true then 1 else 0 := by
  obtain ⟨name, payload⟩ := context
  cases payload <;> rfl

theorem stringCount_operation (context : OperationContext) :
    stringCount context.tokens = (stringNames context.attributeList).length := by
  have hattributes : stringCount (separated comma AttributeContext.tokens context.attributeList) =
      (stringNames context.attributeList).length := by
    rw [stringCount, countP_separated (by decide), stringNames, List.length_map]
    induction context.attributeList with
    | nil => rfl
    | cons attr attributes ih =>
      have hattr := stringCount_attribute attr
      rw [stringCount] at hattr
      rw [List.map_cons, List.sum_cons, ih, hattr, List.filter_cons]
      split
      · rw [List.length_cons, Nat.add_comm]
      · rw [Nat.zero_add]
  have hvalue : ∀ value : ValueContext, stringCount value.tokens = 0 := by
    intro value
    cases value <;> rfl
  have hresults : stringCount (separated comma (fun text => [⟨.temporaryId, text⟩])
      context.result) = 0 := by
    rw [stringCount, countP_separated (by decide)]
    simp
  have harguments : stringCount (separated comma ValueContext.tokens context.argumentList) = 0 := by
    simp only [stringCount] at hvalue ⊢
    rw [countP_separated (by decide)]
    simp [hvalue]
  rw [OperationContext.tokens]
  simp only [stringCount, List.countP_append, List.countP_cons] at hattributes hresults harguments ⊢
  rw [hattributes, hresults, harguments]
  simp

theorem parenCount_operation (context : OperationContext) : parenCount context.tokens = 1 := by
  have hattribute : ∀ attr : AttributeContext, parenCount attr.tokens = 0 := by
    rintro ⟨name, payload⟩
    cases payload <;> rfl
  have hvalue : ∀ value : ValueContext, parenCount value.tokens = 0 := by
    intro value
    cases value <;> rfl
  rw [OperationContext.tokens]
  simp only [parenCount, List.countP_append, List.countP_cons] at hattribute hvalue ⊢
  rw [countP_separated (by decide), countP_separated (by decide), countP_separated (by decide)]
  simp [hattribute, hvalue]

theorem countP_module {p : Token → Bool} (hfixed : ∀ token, p token = true →
      token.type = .stringLiteral ∨ token.type = .openParen) (context : ModuleContext) :
    context.tokens.countP p = (context.operations.map fun o => o.tokens.countP p).sum := by
  have hnot : ∀ token : Token, token.type ≠ .stringLiteral → token.type ≠ .openParen →
      p token = false := by
    intro token hstring hparen
    refine Bool.eq_false_iff.mpr fun htoken => ?_
    exact (hfixed token htoken).elim hstring hparen
  have hblock : ∀ block : BlockContext, block.tokens.countP p =
      (block.operation.map fun o => o.tokens.countP p).sum := by
    intro block
    rw [BlockContext.tokens]
    simp only [List.countP_cons, List.countP_append, List.countP_nil, List.countP_flatMap]
    simp [hnot, Function.comp_def]
  rw [ModuleContext.tokens]
  simp only [List.countP_cons, List.countP_append, List.countP_nil, List.countP_flatMap]
  simp only [ModuleContext.operations, List.map_flatMap, Function.comp_def, hblock]
  rw [List.flatMap_def, List.sum_flatten, List.map_map]
  simp [hnot, Function.comp_def]

theorem stringCount_module (context : ModuleContext) : stringCount context.tokens =
    (context.operations.map fun o => (stringNames o.attributeList).length).sum := by
  rw [stringCount, countP_module (fun token h => .inl (of_decide_eq_true h))]
  exact congrArg List.sum (List.map_congr_left fun o _ => stringCount_operation o)

theorem parenCount_module (context : ModuleContext) :
    parenCount context.tokens = context.operations.length := by
  have hone : (context.operations.map fun o => parenCount o.tokens) =
      context.operations.map fun _ => 1 := List.map_congr_left fun o _ => parenCount_operation o
  rw [parenCount, countP_module (fun token h => .inr (of_decide_eq_true h))]
  refine (congrArg List.sum hone).trans ?_
  simp

section

variable {simpleAtod : String → Option (BitVec 64)} (floatToString : BitVec 64 → String)

theorem printedModule_operations (symbol : Value → String) (blockId : ℕ → String)
    (moduleId : String) (module : Module) :
    (printedModule floatToString symbol blockId moduleId module).operations =
      module.operations.map (printedOperation floatToString symbol) := by
  have hblocks : module.blocks.zipIdx.map Prod.fst = module.blocks := List.zipIdx_map_fst 0 _
  rw [Module.operations, List.map_flatMap]
  conv_rhs => rw [← hblocks]
  simp only [ModuleContext.operations, printedModule, printedBlock, List.flatMap_map]

/-- Nothing clears a comment away: where an isomorphic module is read back, all is read. -/
theorem ParseOf.counts_of_isomorphic {text : String} {result' : IrProgramParserResult}
    {context' : ModuleContext} (h' : ParseOf simpleAtod text context' result')
    {symbol : Value → String} (blockId : ℕ → String) (moduleId : String) {module : Module}
    (hlinkable : Linkable symbol module)
    (hiso : Isomorphic module result'.module) :
    stringCount (irTokens text.toList) =
        stringCount (printedModule floatToString symbol blockId moduleId module).tokens ∧
      parenCount (irTokens text.toList) =
        parenCount (printedModule floatToString symbol blockId moduleId module).tokens := by
  have hnormalize : ∀ type,
      (irTokens text.toList).countP (fun token => decide (token.type = type)) =
      context'.tokens.countP fun token => decide (token.type = type) := by
    intro type
    rw [← irProgram_sound h'.tree, List.countP_map]
    rfl
  have hcontexts : List.Forall₂ (OperationOf simpleAtod) context'.operations
      result'.module.operations :=
    List.rel_flatMap h'.blocks fun _ _ hof => hof.operations
  have hoperations : List.Forall₂ (SameOperation module.layout result'.module.layout)
      module.operations result'.module.operations :=
    List.rel_flatMap hiso fun _ _ hsame => hsame
  have hlength : context'.operations.length = module.operations.length :=
    hcontexts.length_eq.trans hoperations.length_eq.symm
  have hstrings : context'.operations.map (fun o => (stringNames o.attributeList).length) =
      module.operations.map fun op =>
        (stringNames (printedOperation floatToString symbol op).attributeList).length := by
    refine map_eq_of_getElem? hlength fun i c op hc hop => ?_
    obtain ⟨hlt, -⟩ := List.getElem?_eq_some_iff.mp hc
    have hop' := List.getElem?_eq_getElem (hcontexts.length_eq ▸ hlt)
    have hsame := forall₂_getElem? hoperations hop hop'
    have hattributes := (forall₂_getElem? hcontexts hc hop').attributes
    have hplain := hlinkable.attributes op (List.mem_of_getElem? hop)
    obtain ⟨attributes, hvisit⟩ : ∃ attributes, visitAttributeList simpleAtod
        (printedAttributes floatToString op.attributes) = .ok attributes :=
      visitAttributeList_printed_of hplain
    refine stringNames_length_eq hvisit hattributes fun name => ?_
    rw [hsame.attributes, visitAttributeList_printed hplain hvisit]
  constructor
  · rw [stringCount, hnormalize]
    refine (stringCount_module context').trans ?_
    rw [stringCount_module, printedModule_operations, hstrings, List.map_map]
    rfl
  · rw [parenCount, hnormalize]
    refine (parenCount_module context').trans ?_
    rw [parenCount_module, printedModule_operations, hlength, List.length_map]

/-- A comment loses a token, so that the text is not read back as it was. -/
theorem Linkable.clear {text : String} {result' : IrProgramParserResult} {symbol : Value → String}
    {blockId : ℕ → String} {moduleId : String} {module : Module} {clear : Prop}
    (h : Linkable symbol module) (hprinted : Printed text.toList
      (printedModule floatToString symbol blockId moduleId module).tokens clear)
    (hparse : parseProgram simpleAtod text = .ok result')
    (hiso : Isomorphic module result'.module) : clear := by
  obtain ⟨context', h'⟩ := parseOf hparse
  obtain ⟨hstrings, hparens⟩ := h'.counts_of_isomorphic floatToString blockId moduleId h hiso
  by_contra hcommented
  have hloses := hprinted.loses hcommented []
  rw [List.append_nil, hstrings, hparens] at hloses
  have hlost := (hloses (by simp)).2
  rw [show irTokens [] = [] from rfl, parenCount, parenCount, List.countP_nil] at hlost
  exact Nat.lt_irrefl _ hlost

end

/-! ### Round trip -/

section

variable (storageName : Address → String) (floatToString : BitVec 64 → String)
  (simpleAtod : String → Option (BitVec 64))

/-- Printing a module and parsing the text gives the module back just in case that no integer
attribute is negative and no name starts a comment in its printed line. -/
theorem parseProgram_irToString_iff (module : Module) (h : Printable module) :
    (∃ result, parseProgram simpleAtod (irToString storageName floatToString module) = .ok result ∧
      Isomorphic module result.module) ↔
      NoNegatives module ∧ ∀ op ∈ module.operations, Uncommented op := by
  obtain ⟨symbol, blockId, moduleId, hnames, htext⟩ :=
    irToString_spec storageName floatToString module
  rw [htext]
  constructor
  · rintro ⟨result, hparse, hiso⟩
    have hnonneg := noNegatives_of_isomorphic hiso (parseProgram_noNegatives hparse)
    exact ⟨hnonneg, (h.linkable hnonneg hnames).clear floatToString
      (h.printed floatToString hnonneg hnames) hparse hiso⟩
  · rintro ⟨hnonneg, hclear⟩
    have htokens := irTokens_of_lexesTo ((h.printed floatToString hnonneg hnames).lexes hclear)
    exact (h.linkable hnonneg hnames).readBack simpleAtod htokens

end

instance (attr : Attribute) : Decidable (Readable attr) :=
  match attr with
  | .int64 value => inferInstanceAs (Decidable (0 ≤ value))
  | .string value => inferInstanceAs (Decidable ('"' ∉ value.toList))
  | .float _ => .isFalse fun h => h

instance (attr : Attribute) : Decidable (IsPlain attr) :=
  match attr with
  | .int64 value => inferInstanceAs (Decidable (-2 ^ 63 ≤ value ∧ value < 2 ^ 63))
  | .string value => inferInstanceAs (Decidable ('"' ∉ value.toList))
  | .float _ => .isFalse fun h => h

theorem forall_lookup_iff {attributes : NamedAttributeMap} {P : String → Attribute → Prop} :
    (∀ name attr, attributes.lookup name = some attr → P name attr) ↔
      ∀ entry ∈ attributes.entries, P entry.1 entry.2 := by
  constructor
  · intro h entry hentry
    exact h _ _ (AList.mem_lookup_iff.mpr hentry)
  · intro h name attr hlookup
    exact h ⟨name, attr⟩ (AList.mem_lookup_iff.mp hlookup)

def startsWithSlashes (name : String) : Bool := ['/', '/'].isPrefixOf name.toList

theorem uncommented_of_names {operation : Operation}
    (hname : startsWithSlashes operation.op.name = false)
    (hattributes : ∀ entry ∈ operation.attributes.entries, startsWithSlashes entry.1 = false) :
    Uncommented operation := by
  have hnot : ∀ {name later}, startsWithSlashes name = false → ¬ StartsComment name later := by
    rintro name later hname ⟨hslashes, -⟩
    rw [startsWithSlashes, List.isPrefixOf_iff_prefix.mpr hslashes] at hname
    cases hname
  refine ⟨hnot hname, ?_⟩
  have hentries : ∀ entry ∈ inNameOrder operation.attributes, startsWithSlashes entry.1 = false :=
    fun entry hentry => hattributes entry (List.mem_mergeSort.mp hentry)
  generalize inNameOrder operation.attributes = entries at hentries ⊢
  induction entries with
  | nil => trivial
  | cons entry entries ih =>
    exact ⟨hnot (hentries entry (List.mem_cons_self ..)),
      ih fun e he => hentries e (List.mem_cons_of_mem _ he)⟩

/-- Two operations that use each other, the first with two results. -/
def cyclicModule : Module where
  blocks := [⟨[
    { address := 0, op := ⟨"core.pair", 2⟩, inputs := [.operationResult 1 0, .any],
      attributes := AList.insert "n" (.int64 5) (AList.singleton "s" (.string "x: 1")) },
    { address := 1, op := ⟨"core.copy", 1⟩, inputs := [.operationResult 0 1] }]⟩]
  distinct := by decide

theorem cyclicModule_printable : Printable cyclicModule where
  results := by decide
  inputs := by decide
  operatorNames := by decide +kernel
  attributeNames := fun op hop => forall_lookup_iff.mpr (by revert op; decide +kernel)
  attributes := fun op hop => forall_lookup_iff.mpr (by revert op; decide +kernel)
  resultCounts := by decide

theorem cyclicModule_roundTrip : ∃ result, parseProgram (fun _ => none)
    (irToString (fun _ => "") (fun _ => "") cyclicModule) = .ok result ∧
      Isomorphic cyclicModule result.module := by
  refine (parseProgram_irToString_iff _ _ _ cyclicModule cyclicModule_printable).mpr ⟨?_, ?_⟩
  · have hreadable : ∀ op ∈ cyclicModule.operations, ∀ entry ∈ op.attributes.entries,
        Readable entry.2 := by decide
    intro op hop name value hlookup
    exact hreadable op hop _ (AList.mem_lookup_iff.mp hlookup)
  · intro op hop
    refine uncommented_of_names ?_ ?_
    · revert op
      decide +kernel
    · revert op
      decide +kernel

/-- An operation with a negative number. -/
def negativeModule : Module where
  blocks := [⟨[{ address := 0, op := ⟨"f", 1⟩, attributes := AList.singleton "a" (.int64 (-5)) }]⟩]
  distinct := by decide

theorem negativeModule_notReadBack : Printable negativeModule ∧ ¬ ∃ result,
    parseProgram (fun _ => none) (irToString (fun _ => "") (fun _ => "") negativeModule) =
      .ok result ∧ Isomorphic negativeModule result.module := by
  refine ⟨⟨by decide, by decide, by decide +kernel,
    fun op hop => forall_lookup_iff.mpr (by revert op; decide +kernel),
    fun op hop => forall_lookup_iff.mpr (by revert op; decide +kernel), by decide⟩, ?_⟩
  rintro ⟨result, hparse, hiso⟩
  have hnonneg := noNegatives_of_isomorphic hiso (parseProgram_noNegatives hparse)
  have hneg := hnonneg _ (List.mem_singleton_self _) "a" (-5) rfl
  omega

end Raksha.Parser
