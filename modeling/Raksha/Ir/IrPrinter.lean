import Raksha.Ir.ValueStringConverter

/-!
# The printer of the intermediate representation

`ir/ir_printer.h`. The printer goes through a module once and gives names to blocks and values as it
meets them, so the text is that of the names at the end.
-/

namespace Raksha.Ir
open Raksha.Common

/-- The name managers of `SsaNames` that the printer uses. Blocks are told apart by their positions
in the module. -/
structure PrinterNames where
  values : SsaNames := {}
  blockIds : IDManager ℕ := { namePrefix := "b" }
  moduleIds : IDManager Unit := { namePrefix := "m" }

def printAll {S α : Type} (print : S → α → String × S) (names : S) (l : List α) : String × S :=
  l.foldl (fun acc a => let (text, names) := print acc.2 a; (acc.1 ++ text, names)) ("", names)

def indentation (indent : ℕ) : String := String.ofList (List.replicate (2 * indent) ' ')

section

-- The names of storages, and the text that `%lgl` gives for the bits of a double.
variable (storageName : Address → String) (floatToString : BitVec 64 → String)

def attributeToString : Attribute → String
  | .int64 value => toString value
  | .string value => "\"" ++ value ++ "\""
  | .float bits => floatToString bits

def printNamedMapInNameOrder (attributes : NamedAttributeMap) : String :=
  let entries := attributes.entries.mergeSort fun left right => decide (left.1 ≤ right.1)
  ", ".intercalate
    (entries.map fun entry => entry.1 ++ ": " ++ attributeToString floatToString entry.2)

/-- `PreVisit(const Operation&)`: inputs get their names before results. -/
def printOperation (indent : ℕ) (names : SsaNames) (operation : Operation) : String × SsaNames :=
  let attributesString := printNamedMapInNameOrder floatToString operation.attributes
  let (inputs, names) := valuesToStrings storageName names operation.inputs
  let (results, names) := valuesToStrings storageName names
    ((List.range operation.numberOfOutputs).map operation.getOutputValue)
  (indentation indent ++ ", ".intercalate results ++ " = " ++ operation.op.name ++ " [" ++
    attributesString ++ "](" ++ ", ".intercalate inputs ++ ")\n", names)

/-- `PreVisit(const Block&)`, the operations and `PostVisit(const Block&)`. -/
def printBlock (indent : ℕ) (names : PrinterNames) (block : Block × ℕ) : String × PrinterNames :=
  let (openId, blockIds) := names.blockIds.getOrCreateID block.2
  let (operations, values) :=
    printAll (printOperation storageName floatToString (indent + 1)) names.values
      block.1.operations
  let (closeId, blockIds) := blockIds.getOrCreateID block.2
  (indentation indent ++ "block " ++ openId ++ " \x7b\n" ++ operations ++
    (indentation indent ++ "\x7d  // block " ++ closeId ++ "\n"),
    { names with values, blockIds })

/-- `PreVisit(const Module&)`, the blocks and `PostVisit(const Module&)`. -/
def printModule (names : PrinterNames) (module : Module) : String × PrinterNames :=
  let (openId, moduleIds) := names.moduleIds.getOrCreateID ()
  let (blocks, names) := printAll (printBlock storageName floatToString 1)
    { names with moduleIds } module.blocks.zipIdx
  let (closeId, moduleIds) := names.moduleIds.getOrCreateID ()
  ("module " ++ openId ++ " \x7b\n" ++ blocks ++ ("\x7d  // module " ++ closeId ++ "\n"),
    { names with moduleIds })

def irToString (module : Module) : String := (printModule storageName floatToString {} module).1

end

/-! ### The text under final names -/

section

variable {S α : Type} {print : S → α → String × S} {names final : S} {l : List α}

theorem printAll_append (a : α) : printAll print names (l ++ [a]) =
    ((printAll print names l).1 ++ (print (printAll print names l).2 a).1,
      (print (printAll print names l).2 a).2) := by
  simp only [printAll, List.foldl_append, List.foldl_cons, List.foldl_nil]

theorem printAll_names {motive : S → Prop} (hstep : ∀ names a, motive names → motive (print names a).2)
    (h : motive names) : motive (printAll print names l).2 := by
  induction l using List.reverseRecOn with
  | nil => exact h
  | append_singleton l a ih =>
    rw [printAll_append]
    exact hstep _ a ih

/-- If names only grow, then every part can be read with the names at the end. -/
theorem printAll_spec (grows : S → S → Prop) (htrans : ∀ a b c, grows a b → grows b c → grows a c)
    (hgrows : ∀ names, ∀ a ∈ l, grows names (print names a).2) {text : α → String}
    (htext : ∀ names, ∀ a ∈ l, grows (print names a).2 final → (print names a).1 = text a)
    (hfinal : grows (printAll print names l).2 final) :
    (printAll print names l).1 = String.join (l.map text) := by
  induction l using List.reverseRecOn with
  | nil => rfl
  | append_singleton l a ih =>
    rw [printAll_append] at hfinal ⊢
    have hlast : a ∈ l ++ [a] := List.mem_append_right _ (List.mem_singleton_self _)
    have hfirst := ih (fun names b hb => hgrows names b (List.mem_append_left _ hb))
      (fun names b hb => htext names b (List.mem_append_left _ hb))
      (htrans _ _ _ (hgrows _ a hlast) hfinal)
    rw [hfirst, htext _ a hlast hfinal, List.map_append, List.map_singleton]
    simp

end

section

variable (storageName : Address → String) (floatToString : BitVec 64 → String)

def operationText (symbol : Value → String) (indent : ℕ)
    (operation : Operation) : String :=
  indentation indent ++ ", ".intercalate
      (((List.range operation.numberOfOutputs).map operation.getOutputValue).map symbol) ++
    " = " ++ operation.op.name ++ " [" ++
    printNamedMapInNameOrder floatToString operation.attributes ++ "](" ++
    ", ".intercalate (operation.inputs.map symbol) ++ ")\n"

def blockText (symbol : Value → String) (blockId : ℕ → String)
    (indent : ℕ) (block : Block × ℕ) : String :=
  indentation indent ++ "block " ++ blockId block.2 ++ " \x7b\n" ++
    String.join (block.1.operations.map (operationText floatToString symbol (indent + 1))) ++
    (indentation indent ++ "\x7d  // block " ++ blockId block.2 ++ "\n")

def moduleText (symbol : Value → String) (blockId : ℕ → String)
    (moduleId : String) (module : Module) : String :=
  "module " ++ moduleId ++ " \x7b\n" ++
    String.join (module.blocks.zipIdx.map (blockText floatToString symbol blockId 1)) ++
    ("\x7d  // module " ++ moduleId ++ "\n")

theorem printOperation_extends (indent : ℕ) (names : SsaNames) (operation : Operation) :
    names.Extends (printOperation storageName floatToString indent names operation).2 :=
  (valuesToStrings_extends storageName names _).trans (valuesToStrings_extends storageName _ _)

theorem printOperation_spec (indent : ℕ) (names : SsaNames) {final : SsaNames}
    (operation : Operation)
    (h : (printOperation storageName floatToString indent names operation).2.Extends final) :
    (printOperation storageName floatToString indent names operation).1 =
      operationText floatToString (symbolOf storageName final) indent operation := by
  have hresults := valuesToStrings_spec storageName
    (valuesToStrings storageName names operation.inputs).2 _ h
  have hinputs := valuesToStrings_spec storageName names operation.inputs
    ((valuesToStrings_extends storageName _ _).trans h)
  simp only [printOperation, operationText, hinputs, hresults]

theorem printOperation_find? (indent : ℕ) (names : SsaNames) (operation : Operation) {i : ℕ}
    (hi : i < operation.numberOfOutputs) : ∃ id,
      (printOperation storageName floatToString indent names operation).2.find?
        (operation.getOutputValue i) = some id :=
  valuesToStrings_find? storageName _
    (List.mem_map.mpr ⟨i, List.mem_range.mpr hi, rfl⟩) (operation.getOutputValue_isOperationResult i)

def PrinterNames.Extends (names names' : PrinterNames) : Prop :=
  names.values.Extends names'.values ∧
    ∀ i id, names.blockIds.itemIds.lookup i = some id → names'.blockIds.itemIds.lookup i = some id

theorem PrinterNames.Extends.trans {a b c : PrinterNames} (hab : a.Extends b) (hbc : b.Extends c) :
    a.Extends c :=
  ⟨hab.1.trans hbc.1, fun i id h => hbc.2 i id (hab.2 i id h)⟩

def PrinterNames.blockId (names : PrinterNames) (i : ℕ) : String :=
  (names.blockIds.itemIds.lookup i).getD ""

theorem printOperations_extends (indent : ℕ) (names : SsaNames) (operations : List Operation) :
    names.Extends (printAll (printOperation storageName floatToString indent) names operations).2 :=
  printAll_names (motive := names.Extends)
    (fun _ operation h =>
      h.trans (printOperation_extends storageName floatToString indent _ operation)) (.refl names)

theorem printOperations_find? (indent : ℕ) (names : SsaNames) {operations : List Operation}
    {operation : Operation} (hop : operation ∈ operations) {i : ℕ}
    (hi : i < operation.numberOfOutputs) : ∃ id,
      (printAll (printOperation storageName floatToString indent) names operations).2.find?
        (operation.getOutputValue i) = some id := by
  induction operations using List.reverseRecOn with
  | nil => cases hop
  | append_singleton operations other ih =>
    rw [printAll_append]
    rcases List.mem_append.mp hop with hmem | hmem
    · obtain ⟨id, hid⟩ := ih hmem
      have hgrows := printOperation_extends storageName floatToString indent
        (printAll (printOperation storageName floatToString indent) names operations).2 other
      exact ⟨id, hgrows _ id hid⟩
    · rw [← List.mem_singleton.mp hmem]
      exact printOperation_find? storageName floatToString indent
        (printAll (printOperation storageName floatToString indent) names operations).2 operation hi

end

theorem IDManager.getOrCreateID_of_lookup {T : Type} [DecidableEq T] {manager : IDManager T}
    {entity : T} {id : String} (h : manager.itemIds.lookup entity = some id) :
    manager.getOrCreateID entity = (id, manager) := by
  have hmem : entity ∈ manager.itemIds :=
    (FlatHashMap.mem_iff_lookup _ _).mpr (by rw [h]; exact Option.some_ne_none _)
  rw [IDManager.getOrCreateID, h, FlatHashMap.tryInsert_of_mem _ _ _ hmem]
  rfl

theorem IDManager.getOrCreateID_again {T : Type} [DecidableEq T] (manager : IDManager T)
    (entity : T) : (manager.getOrCreateID entity).2.getOrCreateID entity =
      manager.getOrCreateID entity := by
  have hlookup := manager.lookup_getOrCreateID entity entity
  rw [if_pos rfl] at hlookup
  rw [getOrCreateID_of_lookup hlookup]

theorem IDManager.extends_getOrCreateID {T : Type} [DecidableEq T] (manager : IDManager T)
    (entity other : T) (id : String) (h : manager.itemIds.lookup other = some id) :
    (manager.getOrCreateID entity).2.itemIds.lookup other = some id := by
  rw [lookup_getOrCreateID]
  by_cases hsame : other = entity
  · subst hsame
    rw [if_pos rfl, getOrCreateID, h]
    rfl
  · rw [if_neg hsame, h]

section

variable (storageName : Address → String) (floatToString : BitVec 64 → String)

theorem printBlock_names (indent : ℕ) (names : PrinterNames) (block : Block × ℕ) :
    (printBlock storageName floatToString indent names block).2 =
      { names with
        values := (printAll (printOperation storageName floatToString (indent + 1)) names.values
          block.1.operations).2
        blockIds := (names.blockIds.getOrCreateID block.2).2 } := by
  simp only [printBlock, IDManager.getOrCreateID_again]

theorem printBlock_extends (indent : ℕ) (names : PrinterNames) (block : Block × ℕ) :
    names.Extends (printBlock storageName floatToString indent names block).2 := by
  rw [printBlock_names storageName floatToString]
  exact ⟨printOperations_extends storageName floatToString _ _ _, names.blockIds.extends_getOrCreateID block.2⟩

theorem printBlock_blockId (indent : ℕ) (names : PrinterNames) {final : PrinterNames}
    (block : Block × ℕ)
    (h : (printBlock storageName floatToString indent names block).2.Extends final) :
    final.blockIds.itemIds.lookup block.2 = some (names.blockIds.getOrCreateID block.2).1 := by
  rw [printBlock_names storageName floatToString] at h
  refine h.2 _ _ ?_
  rw [IDManager.lookup_getOrCreateID, if_pos rfl]

theorem printBlock_spec (indent : ℕ) (names : PrinterNames) {final : PrinterNames}
    (block : Block × ℕ)
    (h : (printBlock storageName floatToString indent names block).2.Extends final) :
    (printBlock storageName floatToString indent names block).1 =
      blockText floatToString (symbolOf storageName final.values) final.blockId indent block := by
  have hid := printBlock_blockId storageName floatToString indent names block h
  have hvalues := h.1
  rw [printBlock_names storageName floatToString] at hvalues
  have hoperations := printAll_spec SsaNames.Extends (fun _ _ _ => .trans)
    (fun names operation _ =>
      printOperation_extends storageName floatToString (indent + 1) names operation)
    (fun names operation _ =>
      printOperation_spec storageName floatToString (indent + 1) names operation) hvalues
  simp only [printBlock, IDManager.getOrCreateID_again, hoperations, blockText,
    PrinterNames.blockId, hid, Option.getD_some]

theorem printBlocks_find? (indent : ℕ) (names : PrinterNames) {blocks : List (Block × ℕ)}
    {block : Block × ℕ} (hblock : block ∈ blocks) {operation : Operation}
    (hop : operation ∈ block.1.operations) {i : ℕ} (hi : i < operation.numberOfOutputs) : ∃ id,
      (printAll (printBlock storageName floatToString indent) names blocks).2.values.find?
        (operation.getOutputValue i) = some id := by
  induction blocks using List.reverseRecOn with
  | nil => cases hblock
  | append_singleton blocks other ih =>
    rw [printAll_append]
    rcases List.mem_append.mp hblock with hmem | hmem
    · obtain ⟨id, hid⟩ := ih hmem
      have hgrows := printBlock_extends storageName floatToString indent
        (printAll (printBlock storageName floatToString indent) names blocks).2 other
      exact ⟨id, hgrows.1 _ id hid⟩
    · rw [← List.mem_singleton.mp hmem, printBlock_names]
      exact printOperations_find? storageName floatToString (indent + 1) _ hop hi

theorem printBlocks_blockId (indent : ℕ) (names : PrinterNames) {blocks : List (Block × ℕ)}
    {block : Block × ℕ} (hblock : block ∈ blocks) : ∃ id,
      (printAll (printBlock storageName floatToString indent) names blocks).2.blockIds.itemIds.lookup
        block.2 = some id := by
  induction blocks using List.reverseRecOn with
  | nil => cases hblock
  | append_singleton blocks other ih =>
    rw [printAll_append]
    rcases List.mem_append.mp hblock with hmem | hmem
    · obtain ⟨id, hid⟩ := ih hmem
      have hgrows := printBlock_extends storageName floatToString indent
        (printAll (printBlock storageName floatToString indent) names blocks).2 other
      exact ⟨id, hgrows.2 _ id hid⟩
    · rw [← List.mem_singleton.mp hmem, printBlock_names, IDManager.lookup_getOrCreateID,
        if_pos rfl]
      exact ⟨_, rfl⟩

/-- The names in a printed text: the results of the module have their own. -/
structure PrintedNames (module : Module) (symbol : Value → String) (blockId : ℕ → String)
    (moduleId : String) : Prop where
  any : symbol .any = "<<ANY>>"
  result : ∀ v, module.IsResult v → ∃ n : ℕ, symbol v = "%" ++ toString n
  injective : ∀ v v', module.IsResult v → module.IsResult v' → symbol v = symbol v' → v = v'
  block : ∀ block ∈ module.blocks.zipIdx, ∃ n : ℕ, blockId block.2 = "b" ++ toString n
  module : ∃ n : ℕ, moduleId = "m" ++ toString n

/-- What the printer keeps about its names. -/
structure PrinterNames.Generated (names : PrinterNames) : Prop where
  values : names.values.valueIds.Numbered ∧ names.values.valueIds.namePrefix = "%"
  blockIds : names.blockIds.Numbered ∧ names.blockIds.namePrefix = "b"

theorem printBlock_generated (indent : ℕ) {names : PrinterNames} (h : names.Generated)
    (block : Block × ℕ) :
    (printBlock storageName floatToString indent names block).2.Generated := by
  rw [printBlock_names]
  refine ⟨?_, h.blockIds.1.getOrCreateID block.2, h.blockIds.2⟩
  refine printAll_names
    (motive := fun (names : SsaNames) => names.valueIds.Numbered ∧ names.valueIds.namePrefix = "%") ?_ h.values
  intro names operation hnames
  have hstep : ∀ (names : SsaNames) value,
      names.valueIds.Numbered ∧ names.valueIds.namePrefix = "%" →
      (names.getOrCreateID value).2.valueIds.Numbered ∧
        (names.getOrCreateID value).2.valueIds.namePrefix = "%" :=
    fun names value h => ⟨h.1.getOrCreateID value, h.2⟩
  exact valuesToStrings_names storageName hstep
    (valuesToStrings_names storageName hstep hnames operation.inputs) _

theorem irToString_spec (module : Module) : ∃ symbol blockId moduleId,
    PrintedNames module symbol blockId moduleId ∧
    irToString storageName floatToString module =
      moduleText floatToString symbol blockId moduleId module := by
  let start : PrinterNames :=
    { moduleIds := (({} : PrinterNames).moduleIds.getOrCreateID ()).2 }
  let final := (printAll (printBlock storageName floatToString 1) start module.blocks.zipIdx).2
  have hgenerated : final.Generated := by
    refine printAll_names (motive := PrinterNames.Generated)
      (fun names block h => printBlock_generated storageName floatToString 1 h block) ?_
    exact ⟨⟨.empty _, rfl⟩, ⟨.empty _, rfl⟩⟩
  have hmoduleIds : final.moduleIds = start.moduleIds := by
    refine printAll_names (motive := fun (names : PrinterNames) => names.moduleIds = start.moduleIds) ?_ rfl
    intro names block h
    rw [printBlock_names]
    exact h
  have hblocks := printAll_spec PrinterNames.Extends
    (fun _ _ _ => .trans)
    (fun names block _ => printBlock_extends storageName floatToString 1 names block)
    (fun names block _ => printBlock_spec storageName floatToString 1 names block)
    (⟨.refl _, fun _ _ h => h⟩ : final.Extends final)
  have hnamed : ∀ v, module.IsResult v → ∃ id, final.values.find? v = some id := by
    rintro v ⟨op, hop, i, hi, rfl⟩
    obtain ⟨block, hblock, hop⟩ := List.mem_flatMap.mp hop
    obtain ⟨k, hk⟩ := List.mem_iff_getElem?.mp hblock
    have hmem : (block, k) ∈ module.blocks.zipIdx := List.mem_zipIdx_iff_getElem?.mpr hk
    exact printBlocks_find? storageName floatToString 1 start hmem hop hi
  have hsymbol : ∀ v id, module.IsResult v → final.values.find? v = some id →
      symbolOf storageName final.values v = id := by
    rintro _ id ⟨op, -, i, -, rfl⟩ hid
    simp only [Operation.getOutputValue, symbolOf] at hid ⊢
    rw [hid, Option.getD_some]
  refine ⟨symbolOf storageName final.values, final.blockId, "m" ++ toString (0 : ℕ),
    ⟨rfl, ?_, ?_, ?_, 0, rfl⟩, ?_⟩
  · intro v hv
    obtain ⟨id, hid⟩ := hnamed v hv
    obtain ⟨n, -, rfl⟩ := hgenerated.values.1.generated v id hid
    refine ⟨n, ?_⟩
    rw [hsymbol v _ hv hid, hgenerated.values.2]
  · intro v v' hv hv' heq
    obtain ⟨id, hid⟩ := hnamed v hv
    obtain ⟨id', hid'⟩ := hnamed v' hv'
    rw [hsymbol v _ hv hid, hsymbol v' _ hv' hid'] at heq
    subst heq
    exact hgenerated.values.1.distinct v v' id hid hid'
  · intro block hblock
    obtain ⟨id, hid⟩ := printBlocks_blockId storageName floatToString 1 start hblock
    obtain ⟨n, -, rfl⟩ := hgenerated.blockIds.1.generated _ id hid
    refine ⟨n, ?_⟩
    rw [PrinterNames.blockId, hid, Option.getD_some, hgenerated.blockIds.2]
  · have hclose : (final.moduleIds.getOrCreateID ()).1 = "m" ++ toString (0 : ℕ) := by
      rw [hmoduleIds]
      rfl
    rw [moduleText, ← hblocks]
    change "module " ++ ("m" ++ toString (0 : ℕ)) ++ " \x7b\n" ++
      (printAll (printBlock storageName floatToString 1) start module.blocks.zipIdx).1 ++
      ("\x7d  // module " ++ (final.moduleIds.getOrCreateID ()).1 ++ "\n") = _
    rw [hclose]

end

end Raksha.Ir
