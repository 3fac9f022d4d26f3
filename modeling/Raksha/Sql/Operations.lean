import Raksha.Ir.Module

/-!
# Operations of the SQL frontend

The operator names (`frontends/sql/ops/op_traits.h`) and the accessors of `sql.tag_transform` and
`sql.merge` operations (`tag_transform_op.cc`, `merge_op.cc`), with the checks that they make.
-/

namespace Raksha.Sql
open Raksha.Common Raksha.Ir

def literalOpName : String := "sql.literal"
def mergeOpName : String := "sql.merge"
def tagTransformOpName : String := "sql.tag_transform"
def sqlOutputOpName : String := "sql.sql_output"

/-- `SqlOp::GetIf<TagTransformOp>(operation) != nullptr`. -/
def IsTagTransformOp (operation : Operation) : Prop := operation.op.name = tagTransformOpName

/-- `SqlOp::GetIf<MergeOp>(operation) != nullptr`. -/
def IsMergeOp (operation : Operation) : Prop := operation.op.name = mergeOpName

theorem IsMergeOp.not_transform {operation : Operation} (h : IsMergeOp operation) :
    ¬ IsTagTransformOp operation := by
  intro htransform
  unfold IsMergeOp at h
  unfold IsTagTransformOp at htransform
  rw [h] at htransform
  exact absurd htransform (by decide)

instance (operation : Operation) : Decidable (IsTagTransformOp operation) :=
  inferInstanceAs (Decidable (_ = _))

instance (operation : Operation) : Decidable (IsMergeOp operation) :=
  inferInstanceAs (Decidable (_ = _))

namespace TagTransformOp

def ruleNameAttribute : String := "rule_name"
def intersectItagRule : String := "##raksha_internal#intersect_itag_rule"
def unionItagRule : String := "##raksha_internal#union_itag_rule"

/-- The rule names that change the semantics of the transformed merge. -/
def IsSpecialRule (ruleName : String) : Prop :=
  ruleName = intersectItagRule ∨ ruleName = unionItagRule

instance (ruleName : String) : Decidable (IsSpecialRule ruleName) :=
  inferInstanceAs (Decidable (_ ∨ _))

def getTransformedValueIndex (operation : Operation) : Checked ℕ := do
  check (operation.inputs ≠ []) "!inputs().empty()"
  return 0

def getTransformedValue (operation : Operation) : Checked Value := do
  operation.getInputValue (← getTransformedValueIndex operation)

/-- The loop body over the attributes in `GetPreconditionInputIndices`. -/
def addPreconditionInputIndex (operation : Operation) (result : FlatHashMap String ℕ)
    (attr : Σ _ : String, Attribute) : Checked (FlatHashMap String ℕ) :=
  if attr.1 = ruleNameAttribute then
    return result
  else
    match attr.2.getInt64? with
    | none => .error "attribute.GetIf<ir::Int64Attribute>() must be non-null"
    | some inputIndex => do
      check (1 ≤ inputIndex ∧ inputIndex < operation.inputs.length)
        "Invalid index in TagTransformOp"
      return (result.tryInsert attr.1 inputIndex.toNat).1

def getPreconditionInputIndices (operation : Operation) : Checked (FlatHashMap String ℕ) :=
  operation.attributes.entries.foldlM (addPreconditionInputIndex operation) ∅

def getRuleName (operation : Operation) : Checked String :=
  match operation.attributes.lookup ruleNameAttribute with
  | none => .error "find_result != attribute_map.end()"
  | some attr =>
    match attr.getString? with
    | none => .error "find_result->second.GetIf<ir::StringAttribute>() must be non-null"
    | some ruleName => .ok ruleName

theorem getRuleName_eq_ok (operation : Operation) (ruleName : String) :
    getRuleName operation = .ok ruleName ↔
      operation.attributes.lookup ruleNameAttribute = some (.string ruleName) := by
  unfold getRuleName
  cases operation.attributes.lookup ruleNameAttribute with
  | none => simp
  | some attr => cases attr <;> simp [Attribute.getString?]

theorem getTransformedValue_eq_ok (operation : Operation) (v : Value) :
    getTransformedValue operation = .ok v ↔ operation.inputs.head? = some v := by
  cases h : operation.inputs with
  | nil => simp [getTransformedValue, getTransformedValueIndex, h]
  | cons u inputs =>
    simp [getTransformedValue, getTransformedValueIndex, h, Operation.getInputValue]

/-- The attribute with the rule name is skipped; any other one has to name one of the inputs behind
the first. -/
theorem addPreconditionInputIndex_cases {operation : Operation}
    {result result' : FlatHashMap String ℕ} {key : String} {attr : Attribute}
    (h : addPreconditionInputIndex operation result ⟨key, attr⟩ = .ok result') :
    (key = ruleNameAttribute ∧ result' = result) ∨
    (key ≠ ruleNameAttribute ∧ ∃ index : ℕ, attr = .int64 index ∧ 1 ≤ index ∧
      index < operation.inputs.length ∧ result' = (result.tryInsert key index).1) := by
  unfold addPreconditionInputIndex at h
  by_cases hrule : key = ruleNameAttribute
  · simp only [hrule, if_true, Checked.pure_eq_ok] at h
    exact Or.inl ⟨hrule, h.symm⟩
  · cases attr with
    | string value => simp [hrule, Attribute.getInt64?] at h
    | float value => simp [hrule, Attribute.getInt64?] at h
    | int64 value =>
      simp only [hrule, if_false, Attribute.getInt64?, Checked.bind_eq_ok, check_eq_ok,
        exists_const, Checked.pure_eq_ok] at h
      obtain ⟨⟨hlow, hhigh⟩, rfl⟩ := h
      obtain ⟨index, rfl⟩ := Int.eq_ofNat_of_zero_le (by omega : 0 ≤ value)
      exact Or.inr ⟨hrule, index, rfl, by omega, by omega, rfl⟩

theorem foldlM_addPreconditionInputIndex {operation : Operation}
    {entries : List (Σ _ : String, Attribute)} (hnodup : entries.NodupKeys)
    {result result' : FlatHashMap String ℕ} (hfresh : ∀ e ∈ entries, result.lookup e.1 = none)
    (h : entries.foldlM (addPreconditionInputIndex operation) result = .ok result')
    (name : String) (index : ℕ) :
    result'.lookup name = some index ↔ result.lookup name = some index ∨
      (name ≠ ruleNameAttribute ∧ entries.dlookup name = some (.int64 index) ∧
        1 ≤ index ∧ index < operation.inputs.length) := by
  induction entries generalizing result with
  | nil =>
    simp only [List.foldlM_nil, Checked.pure_eq_ok] at h
    subst h
    simp
  | cons e entries ih =>
    obtain ⟨key, attr⟩ := e
    obtain ⟨hkey, hnodup'⟩ := List.nodupKeys_cons.mp hnodup
    simp only [List.foldlM_cons, Checked.bind_eq_ok] at h
    obtain ⟨mid, hmid, hrest⟩ := h
    have hhead : result.lookup key = none := hfresh _ (List.mem_cons_self ..)
    have hfresh' : ∀ e ∈ entries, result.lookup e.1 = none :=
      fun e he => hfresh e (List.mem_cons_of_mem _ he)
    rcases addPreconditionInputIndex_cases hmid with
      ⟨hrule, rfl⟩ | ⟨hrule, value, rfl, hlow, hhigh, rfl⟩
    · rw [ih hnodup' hfresh' hrest]
      refine or_congr_right (and_congr_right fun hname => ?_)
      rw [FlatHashMap.dlookup_cons, hrule, if_neg hname]
    · have hne : ∀ e ∈ entries, e.1 ≠ key :=
        fun e he heq => hkey (List.mem_map.mpr ⟨e, he, heq⟩)
      rw [ih hnodup' ?_ hrest]
      · rw [FlatHashMap.lookup_tryInsert]
        by_cases hname : name = key
        · subst hname
          have hentries : entries.dlookup name = none := List.dlookup_eq_none.mpr hkey
          simp only [if_true, hhead, Option.getD_none, Option.some.injEq, reduceCtorEq,
            false_or, FlatHashMap.dlookup_cons, hentries, and_false, false_and, or_false,
            Attribute.int64.injEq, Int.natCast_inj]
          constructor
          · rintro rfl
            exact ⟨hrule, rfl, hlow, hhigh⟩
          · exact fun hentry => hentry.2.1
        · rw [if_neg hname, FlatHashMap.dlookup_cons, if_neg hname]
      · intro e he
        rw [FlatHashMap.lookup_tryInsert, if_neg (hne e he)]
        exact hfresh' e he

/-- Every entry of the index map is an attr that names one of the other inputs. -/
theorem getPreconditionInputIndices_lookup (operation : Operation)
    (indices : FlatHashMap String ℕ) (h : getPreconditionInputIndices operation = .ok indices)
    (name : String) (index : ℕ) : indices.lookup name = some index ↔
      name ≠ ruleNameAttribute ∧ operation.attributes.lookup name = some (.int64 index) ∧
      1 ≤ index ∧ index < operation.inputs.length := by
  rw [foldlM_addPreconditionInputIndex operation.attributes.nodupKeys
    (fun e _ => AList.lookup_empty e.1) h, AList.lookup_empty]
  simp only [reduceCtorEq, false_or]
  rfl

end TagTransformOp

namespace MergeOp

def controlInputStartIndex : String := "control_input_start_index"

def getControlInputStartIndex (operation : Operation) : Checked ℕ :=
  match operation.attributes.lookup controlInputStartIndex with
  | none => .error "find_result != attributes_map.end()"
  | some attr =>
    match attr.getInt64? with
    | none => .error "find_result->second.GetIf<ir::Int64Attribute>() must be non-null"
    | some value => do
      check (0 ≤ value) "int_attribute->value() >= 0"
      return value.toNat

theorem getControlInputStartIndex_eq_ok (operation : Operation) (k : ℕ) :
    getControlInputStartIndex operation = .ok k ↔
      operation.attributes.lookup controlInputStartIndex = some (.int64 k) := by
  unfold getControlInputStartIndex
  cases operation.attributes.lookup controlInputStartIndex with
  | none => simp
  | some attr =>
    cases attr with
    | string value => simp [Attribute.getInt64?]
    | float value => simp [Attribute.getInt64?]
    | int64 value =>
      simp only [Attribute.getInt64?, Checked.bind_eq_ok, check_eq_ok, exists_const,
        Checked.pure_eq_ok, Option.some.injEq, Attribute.int64.injEq]
      omega

end MergeOp

end Raksha.Sql
