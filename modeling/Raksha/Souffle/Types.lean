import Raksha.Ir.Datalog

/-!
# The types of the analysis

The declarations of `operations.dl` and `attributes.dl`, with the types of the other files that they
name, and the values that belong to a type.
-/

namespace Raksha.Souffle
open Raksha.Ir.Datalog
  (Value symbolList attributePayload attributeRecord attributeList operationRecord)

inductive TypeName
  | symbol
  | number
  | float
  | principal
  | accessPath
  | operator
  | attributeName
  | attributePayload
  | attr
  | attributeList
  | operandList
  | resultList
  | operation
deriving DecidableEq

inductive Declaration
  | primitive
  | subtype (base : TypeName)
  | record (fields : List (String × TypeName))
  | adt (branches : List (String × List (String × TypeName)))

def declaration : TypeName → Declaration
  | .symbol => .primitive
  | .number => .primitive
  | .float => .primitive
  | .principal => .subtype .symbol
  | .accessPath => .subtype .symbol
  | .operator => .subtype .symbol
  | .attributeName => .subtype .symbol
  | .attributePayload => .adt [
      ("StringAttributePayload", [("str", .symbol)]),
      ("NumberAttributePayload", [("num", .number)])]
  | .attr => .record [("attr_name", .attributeName), ("attr_payload", .attributePayload)]
  | .attributeList => .record [("attr", .attr), ("next", .attributeList)]
  | .operandList => .record [("operand", .accessPath), ("next", .operandList)]
  | .resultList => .record [("result", .accessPath), ("next", .resultList)]
  | .operation => .record [("actor", .principal), ("operator", .operator),
      ("resultList", .resultList), ("operandList", .operandList), ("attributes", .attributeList)]

/-- The value is a well-formed term of the type. -/
inductive HasType : TypeName → Value → Prop
  | symbol (value : String) : HasType .symbol (.symbol value)
  | number (value : ℤ) : HasType .number (.number value)
  | float (value : BitVec 64) : HasType .float (.float value)
  | subtype {type base : TypeName} {value : Value} (hdecl : declaration type = .subtype base)
      (h : HasType base value) : HasType type value
  | nil {type : TypeName} {fields : List (String × TypeName)}
      (hdecl : declaration type = .record fields) : HasType type .nil
  | record {type : TypeName} {fields : List (String × TypeName)} {arguments : List Value}
      (hdecl : declaration type = .record fields)
      (h : List.Forall₂ HasType (fields.map Prod.snd) arguments) :
      HasType type (.record arguments)
  | adt {type : TypeName} {branches : List (String × List (String × TypeName))}
      {branchName : String} {fields : List (String × TypeName)} {arguments : List Value}
      (hdecl : declaration type = .adt branches) (hbranch : (branchName, fields) ∈ branches)
      (h : List.Forall₂ HasType (fields.map Prod.snd) arguments) :
      HasType type (.adt branchName arguments)

/-! ### Types of the parts of an operation -/

theorem hasType_symbol_of_subtype {type : TypeName} (h : declaration type = .subtype .symbol)
    (value : String) : HasType type (.symbol value) := .subtype h (.symbol value)

theorem hasType_record_iff {type : TypeName} {fields : List (String × TypeName)}
    (hdecl : declaration type = .record fields) (arguments : List Value) :
    HasType type (.record arguments) ↔
      List.Forall₂ HasType (fields.map Prod.snd) arguments := by
  constructor
  · intro h
    cases h with
    | subtype hother _ =>
      rw [hdecl] at hother
      cases hother
    | record hother h =>
      rw [hdecl] at hother
      cases hother
      exact h
  · exact .record hdecl

theorem hasType_adt_iff {type : TypeName} {branches : List (String × List (String × TypeName))}
    (hdecl : declaration type = .adt branches) (branchName : String) (arguments : List Value) :
    HasType type (.adt branchName arguments) ↔ ∃ fields, (branchName, fields) ∈ branches ∧
      List.Forall₂ HasType (fields.map Prod.snd) arguments := by
  constructor
  · intro h
    cases h with
    | subtype hother _ =>
      rw [hdecl] at hother
      cases hother
    | adt hother hbranch h =>
      rw [hdecl] at hother
      cases hother
      exact ⟨_, hbranch, h⟩
  · rintro ⟨fields, hbranch, h⟩
    exact .adt hdecl hbranch h

theorem hasType_symbolList {type element : TypeName} {headField nextField : String}
    (hdecl : declaration type = .record [(headField, element), (nextField, type)])
    (helement : declaration element = .subtype .symbol) (symbols : List String) :
    HasType type (symbolList symbols) := by
  induction symbols with
  | nil => exact .nil hdecl
  | cons symbol symbols ih =>
    exact .record hdecl (.cons (hasType_symbol_of_subtype helement symbol) (.cons ih .nil))

/-- The payloads that `AttributePayload` has a branch for. -/
def Declared : AttributePayload → Prop
  | .stringAttributePayload _ => True
  | .numberAttributePayload _ => True
  | .floatAttributePayload _ => False

theorem hasType_attributePayload_iff (payload : AttributePayload) :
    HasType .attributePayload (attributePayload payload) ↔ Declared payload := by
  cases payload with
  | stringAttributePayload str =>
    exact iff_of_true (.adt rfl (List.mem_cons_self ..) (.cons (.symbol str) .nil)) trivial
  | numberAttributePayload num =>
    exact iff_of_true (.adt rfl (List.mem_cons_of_mem _ (List.mem_cons_self ..))
      (.cons (.number num) .nil)) trivial
  | floatAttributePayload bits =>
    refine iff_of_false (fun h => ?_) not_false
    obtain ⟨fields, hbranch, -⟩ := (hasType_adt_iff rfl _ _).mp h
    simp at hbranch

theorem hasType_attribute_iff (attr : Attribute) :
    HasType .attr (attributeRecord attr) ↔ Declared attr.attrPayload := by
  rw [attributeRecord, hasType_record_iff rfl]
  simp only [List.map_cons, List.map_nil, List.forall₂_cons, List.forall₂_nil_left_iff, and_true]
  rw [hasType_attributePayload_iff]
  exact and_iff_right (hasType_symbol_of_subtype rfl _)

theorem hasType_attributeList_iff (attributes : List Attribute) :
    HasType .attributeList (attributeList attributes) ↔
      ∀ attr ∈ attributes, Declared attr.attrPayload := by
  induction attributes with
  | nil => exact iff_of_true (.nil rfl) (fun _ h => absurd h List.not_mem_nil)
  | cons attr attributes ih =>
    have hcons : attributeList (attr :: attributes) =
        .record [attributeRecord attr, attributeList attributes] := rfl
    rw [hcons, hasType_record_iff rfl]
    simp only [List.map_cons, List.map_nil, List.forall₂_cons, List.forall₂_nil_left_iff, and_true]
    rw [hasType_attribute_iff, ih, List.forall_mem_cons]

theorem hasType_operation_iff (operation : Operation) :
    HasType .operation (operationRecord operation) ↔
      ∀ attr ∈ operation.attributes, Declared attr.attrPayload := by
  rw [operationRecord, hasType_record_iff rfl]
  simp only [List.map_cons, List.map_nil, List.forall₂_cons, List.forall₂_nil_left_iff, and_true]
  rw [hasType_attributeList_iff]
  have hresults : HasType .resultList _ := hasType_symbolList rfl rfl operation.resultList
  have hoperands : HasType .operandList _ := hasType_symbolList rfl rfl operation.operandList
  have hactor : HasType .principal _ := hasType_symbol_of_subtype rfl operation.actor
  have hoperator : HasType .operator _ := hasType_symbol_of_subtype rfl operation.operator
  simp only [hactor, hoperator, hresults, hoperands, true_and]

end Raksha.Souffle
