import Raksha.Ir.SsaNames

/-!
# Values as strings

`ir/value_string_converter.cc`. A name that a value has does not change afterwards, so a string can
be read with the names at the end.
-/

namespace Raksha.Ir
open Raksha.Common

section

variable (storageName : Address → String)

def valueToString (names : SsaNames) : Value → String × SsaNames
  | .any => ("<<ANY>>", names)
  | .storedValue storage => ("store:" ++ storageName storage ++ ":type", names)
  | value@(.blockArgument _ _) => names.getOrCreateID value
  | value@(.operationResult _ _) => names.getOrCreateID value

/-- The symbol of a value under names that do not change any more. -/
def symbolOf (names : SsaNames) : Value → String
  | .any => "<<ANY>>"
  | .storedValue storage => "store:" ++ storageName storage ++ ":type"
  | value@(.blockArgument _ _) => (names.find? value).getD ""
  | value@(.operationResult _ _) => (names.find? value).getD ""

variable {storageName} in
theorem symbolOf_result {module : Module} {names : SsaNames}
    {v : Value} (hv : module.IsResult v) {id : String} (hid : names.find? v = some id) :
    symbolOf storageName names v = id := by
  obtain ⟨op, -, i, -, rfl⟩ := hv
  simp only [symbolOf, Operation.getOutputValue] at hid ⊢
  rw [hid, Option.getD_some]

theorem getOrCreateID_symbol {names final : SsaNames} (value : Value)
    (h : (names.getOrCreateID value).2.Extends final) :
    final.find? value = some (names.getOrCreateID value).1 := by
  refine h value _ ?_
  rw [SsaNames.find?_getOrCreateID, if_pos rfl]

theorem valueToString_extends (names : SsaNames) (value : Value) :
    names.Extends (valueToString storageName names value).2 := by
  cases value with
  | any => exact .refl names
  | storedValue storage => exact .refl names
  | blockArgument block index => exact names.extends_getOrCreateID _
  | operationResult operation index => exact names.extends_getOrCreateID _

theorem valueToString_spec (names : SsaNames) {final : SsaNames} (value : Value)
    (h : (valueToString storageName names value).2.Extends final) :
    (valueToString storageName names value).1 = symbolOf storageName final value := by
  cases value with
  | any => rfl
  | storedValue storage => rfl
  | blockArgument block index =>
    simp only [symbolOf, getOrCreateID_symbol _ h, Option.getD_some]
    rfl
  | operationResult operation index =>
    simp only [symbolOf, getOrCreateID_symbol _ h, Option.getD_some]
    rfl

/-- The strings of values, one after the other. -/
def valuesToStrings (names : SsaNames) (values : List Value) : List String × SsaNames :=
  values.foldl (fun acc value =>
    let (symbol, names) := valueToString storageName acc.2 value
    (acc.1 ++ [symbol], names)) ([], names)

theorem valuesToStrings_append (names : SsaNames) (values : List Value) (value : Value) :
    valuesToStrings storageName names (values ++ [value]) =
      ((valuesToStrings storageName names values).1 ++
          [(valueToString storageName (valuesToStrings storageName names values).2 value).1],
        (valueToString storageName (valuesToStrings storageName names values).2 value).2) := by
  simp only [valuesToStrings, List.foldl_append, List.foldl_cons, List.foldl_nil]

theorem valuesToStrings_extends (names : SsaNames) (values : List Value) :
    names.Extends (valuesToStrings storageName names values).2 := by
  induction values using List.reverseRecOn with
  | nil => exact .refl names
  | append_singleton values value ih =>
    rw [valuesToStrings_append]
    exact ih.trans (valueToString_extends storageName _ value)

theorem valuesToStrings_spec (names : SsaNames) {final : SsaNames} (values : List Value)
    (h : (valuesToStrings storageName names values).2.Extends final) :
    (valuesToStrings storageName names values).1 = values.map (symbolOf storageName final) := by
  induction values using List.reverseRecOn with
  | nil => rfl
  | append_singleton values value ih =>
    rw [valuesToStrings_append] at h ⊢
    have hlast := valueToString_spec storageName _ value h
    have hfirst := ih ((valueToString_extends storageName _ value).trans h)
    simp only [hlast, hfirst, List.map_append, List.map_singleton]

theorem valueToString_names {motive : SsaNames → Prop}
    (hstep : ∀ names value, motive names → motive (names.getOrCreateID value).2)
    {names : SsaNames} (h : motive names) (value : Value) :
    motive (valueToString storageName names value).2 := by
  cases value with
  | any => exact h
  | storedValue storage => exact h
  | blockArgument block index => exact hstep _ _ h
  | operationResult operation index => exact hstep _ _ h

theorem valuesToStrings_names {motive : SsaNames → Prop}
    (hstep : ∀ names value, motive names → motive (names.getOrCreateID value).2)
    {names : SsaNames} (h : motive names) (values : List Value) :
    motive (valuesToStrings storageName names values).2 := by
  induction values using List.reverseRecOn with
  | nil => exact h
  | append_singleton values value ih =>
    rw [valuesToStrings_append]
    exact valueToString_names storageName hstep ih value

theorem valuesToStrings_find? (names : SsaNames) {values : List Value} {value : Value}
    (hvalue : value ∈ values) (hresult : value.isOperationResult = true) :
    ∃ id, (valuesToStrings storageName names values).2.find? value = some id := by
  induction values using List.reverseRecOn with
  | nil => cases hvalue
  | append_singleton values other ih =>
    rw [valuesToStrings_append]
    rcases List.mem_append.mp hvalue with hmem | hmem
    · obtain ⟨id, hid⟩ := ih hmem
      exact ⟨id, valueToString_extends storageName _ other value id hid⟩
    · rw [← List.mem_singleton.mp hmem]
      cases value with
      | operationResult operation index => exact ⟨_, getOrCreateID_symbol _ (.refl _)⟩
      | _ => cases hresult

end

end Raksha.Ir
