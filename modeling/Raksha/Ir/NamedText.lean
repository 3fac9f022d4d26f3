import Raksha.Ir.IrPrinter

/-!
# The text under given names

`IRPrinter::ToString` with a table of names. A table with a name for every value is left as it is,
and blocks and the module get the names of their positions.
-/

namespace Raksha.Ir
open Raksha.Common

/-- The ids of the blocks in front of position `k`. -/
structure BlockIds (blockIds : IDManager ℕ) (k : ℕ) : Prop where
  namePrefix : blockIds.namePrefix = "b"
  length : blockIds.itemIds.entries.length = k
  below : ∀ i id, blockIds.itemIds.lookup i = some id → i < k

section

variable (storageName : Address → String) (floatToString : BitVec 64 → String)

/-- `IRPrinter::ToString` with a table of names. -/
def irToStringWithNames (names : SsaNames) (module : Module) : String :=
  (printModule storageName floatToString { values := names } module).1

/-- There is a name for whatever the printer asks a name for. -/
structure SsaNames.Covers (names : SsaNames) (module : Module) : Prop where
  results : ∀ v, module.IsResult v → ∃ id, names.find? v = some id
  inputs : ∀ op ∈ module.operations, ∀ v ∈ op.inputs, v = .any ∨ module.IsResult v

theorem valueToString_of_found {names : SsaNames} {value : Value}
    (h : value = .any ∨ ∃ id, names.find? value = some id) :
    valueToString storageName names value = (symbolOf storageName names value, names) := by
  cases value with
  | any => rfl
  | storedValue storage => rfl
  | blockArgument block index =>
    obtain ⟨id, hid⟩ := h.resolve_left (by simp)
    have hlookup : names.valueIds.itemIds.lookup (.blockArgument block index) = some id := hid
    rw [valueToString, symbolOf, hid, SsaNames.getOrCreateID,
      IDManager.getOrCreateID_of_lookup hlookup]
    rfl
  | operationResult operation index =>
    obtain ⟨id, hid⟩ := h.resolve_left (by simp)
    have hlookup : names.valueIds.itemIds.lookup (.operationResult operation index) = some id := hid
    rw [valueToString, symbolOf, hid, SsaNames.getOrCreateID,
      IDManager.getOrCreateID_of_lookup hlookup]
    rfl

theorem valuesToStrings_of_found {names : SsaNames} {values : List Value}
    (h : ∀ value ∈ values, value = .any ∨ ∃ id, names.find? value = some id) :
    valuesToStrings storageName names values =
      (values.map (symbolOf storageName names), names) := by
  induction values using List.reverseRecOn with
  | nil => rfl
  | append_singleton values value ih =>
    have hlast := h value (List.mem_append_right _ (List.mem_singleton_self _))
    rw [valuesToStrings_append, ih fun v hv => h v (List.mem_append_left _ hv),
      valueToString_of_found storageName hlast, List.map_append, List.map_singleton]

theorem printOperation_of_covers {names : SsaNames} {module : Module} (h : names.Covers module)
    {operation : Operation} (hop : operation ∈ module.operations) (indent : ℕ) :
    printOperation storageName floatToString indent names operation =
      (operationText floatToString (symbolOf storageName names) indent operation, names) := by
  have hinputs := valuesToStrings_of_found storageName fun v hv =>
    (h.inputs operation hop v hv).imp_right (h.results v)
  have hresults : ∀ v ∈ (List.range operation.numberOfOutputs).map operation.getOutputValue,
      v = .any ∨ ∃ id, names.find? v = some id := by
    intro v hv
    obtain ⟨i, hi, rfl⟩ := List.mem_map.mp hv
    exact .inr (h.results _ ⟨operation, hop, i, List.mem_range.mp hi, rfl⟩)
  simp only [printOperation, operationText, hinputs,
    valuesToStrings_of_found storageName hresults]

theorem printAll_of_unchanged {S α : Type} {print : S → α → String × S} {names : S} {l : List α}
    {text : α → String} (h : ∀ a ∈ l, print names a = (text a, names)) :
    printAll print names l = (String.join (l.map text), names) := by
  induction l using List.reverseRecOn with
  | nil => rfl
  | append_singleton l a ih =>
    have hlast := h a (List.mem_append_right _ (List.mem_singleton_self _))
    rw [printAll_append, ih fun b hb => h b (List.mem_append_left _ hb), hlast, List.map_append,
      List.map_singleton]
    simp

def positionId (k : ℕ) : String := "b" ++ toString k

theorem BlockIds.getOrCreateID {blockIds : IDManager ℕ} {k : ℕ} (h : BlockIds blockIds k) :
    (blockIds.getOrCreateID k).1 = positionId k ∧
      BlockIds (blockIds.getOrCreateID k).2 (k + 1) := by
  have hlookup : blockIds.itemIds.lookup k = none :=
    Option.eq_none_iff_forall_ne_some.mpr fun id hid => Nat.lt_irrefl k (h.below k id hid)
  have hfresh := (FlatHashMap.lookup_eq_none_iff _ _).mp hlookup
  refine ⟨?_, h.namePrefix, ?_, ?_⟩
  · simp only [IDManager.getOrCreateID, hlookup, Option.getD_none, h.namePrefix, h.length,
      positionId]
  · simp only [IDManager.getOrCreateID, FlatHashMap.tryInsert_of_notMem _ _ _ hfresh,
      FlatHashMap.insertOrAssign]
    rw [AList.insert_of_notMem hfresh, List.length_cons, h.length]
  · intro i id hi
    rw [IDManager.lookup_getOrCreateID] at hi
    by_cases hik : i = k
    · exact hik ▸ Nat.lt_succ_self k
    · rw [if_neg hik] at hi
      exact (h.below i id hi).trans (Nat.lt_succ_self k)

theorem printBlock_of_covers {names : PrinterNames} {module : Module}
    (h : names.values.Covers module) {block : Block} (hblock : block ∈ module.blocks) {k : ℕ}
    (hids : BlockIds names.blockIds k) (indent : ℕ) :
    printBlock storageName floatToString indent names (block, k) =
      (blockText floatToString (symbolOf storageName names.values) positionId indent (block, k),
        { names with blockIds := (names.blockIds.getOrCreateID k).2 }) := by
  have hoperations := printAll_of_unchanged fun operation hop =>
    printOperation_of_covers storageName floatToString h
      (List.mem_flatMap.mpr ⟨block, hblock, hop⟩) (indent + 1)
  simp only [printBlock, IDManager.getOrCreateID_again, hoperations, hids.getOrCreateID.1,
    blockText]

theorem printBlocks_of_covers {names : PrinterNames} {module : Module}
    (h : names.values.Covers module) (hids : BlockIds names.blockIds 0) (indent : ℕ)
    {blocks : List Block} (hblocks : ∀ block ∈ blocks, block ∈ module.blocks) :
    ∃ blockIds, BlockIds blockIds blocks.length ∧
      printAll (printBlock storageName floatToString indent) names blocks.zipIdx =
        (String.join (blocks.zipIdx.map (blockText floatToString
          (symbolOf storageName names.values) positionId indent)), { names with blockIds }) := by
  induction blocks using List.reverseRecOn with
  | nil => exact ⟨names.blockIds, hids, rfl⟩
  | append_singleton blocks block ih =>
    obtain ⟨blockIds, hcount, hprint⟩ := ih fun b hb => hblocks b (List.mem_append_left _ hb)
    have hmem := hblocks block (List.mem_append_right _ (List.mem_singleton_self _))
    let mid : PrinterNames := { names with blockIds }
    have hmid : mid.values.Covers module := h
    have hmidIds : BlockIds mid.blockIds blocks.length := hcount
    have hblock := printBlock_of_covers storageName floatToString hmid hmem hmidIds indent
    simp only [mid] at hblock
    refine ⟨(blockIds.getOrCreateID blocks.length).2, ?_, ?_⟩
    · rw [List.length_append, List.length_singleton]
      exact hcount.getOrCreateID.2
    · rw [List.zipIdx_append, Nat.zero_add, List.zipIdx_singleton, printAll_append, hprint,
        List.map_append, List.map_singleton]
      simp only [hblock]
      simp

theorem irToStringWithNames_of_covers {names : SsaNames} {module : Module}
    (h : names.Covers module) : irToStringWithNames storageName floatToString names module =
      moduleText floatToString (symbolOf storageName names) positionId "m0" module := by
  have hids : BlockIds ({ namePrefix := "b" } : IDManager ℕ) 0 :=
    ⟨rfl, rfl, fun i id hi => by simp at hi⟩
  let start : PrinterNames :=
    { values := names, moduleIds := (({} : PrinterNames).moduleIds.getOrCreateID ()).2 }
  have hstart : start.values.Covers module := h
  obtain ⟨blockIds, -, hprint⟩ := printBlocks_of_covers storageName floatToString
    hstart hids 1 (fun _ hb => hb)
  simp only [start] at hprint
  simp only [irToStringWithNames, printModule, hprint, moduleText]
  rfl

end

end Raksha.Ir
