import Raksha.Common.Utils
import Raksha.Ir.AccessPaths

/-!
# Type protos

The messages of `ir/proto/raksha_type.proto`, their decoder and their encoder
(`ir/types/proto/`). Both directions follow one relation between protos and types, which says
nothing about the order of the fields.
-/

namespace Raksha.Ir.Types
open Raksha.Common

/-- An open enumeration: a received message keeps a number that has no name. -/
structure PrimitiveTypeProto where
  number : BitVec 32
deriving DecidableEq

def PrimitiveTypeProto.TEXT : PrimitiveTypeProto := ⟨0⟩

structure SchemaProto (T : Type) where
  names : List String
  fields : FieldMap T

structure EntityTypeProto (T : Type) where
  schema : Option (SchemaProto T)

/-- The `oneof` of a type may be unset. -/
inductive TypeProto
  | dataNotSet
  | primitive (value : PrimitiveTypeProto)
  | entity (value : EntityTypeProto TypeProto)

/-- The schemas that the factory owns. -/
structure TypeFactory where
  schemas : List (Schema TypeBase)

namespace TypeFactory

def makePrimitiveType (factory : TypeFactory) : TypeBase × TypeFactory :=
  (.primitive, factory)

def makeEntityType (factory : TypeFactory) (schema : Schema TypeBase) : TypeBase × TypeFactory :=
  (.entity schema, factory)

def registerSchema (factory : TypeFactory) (name : Option String) (fields : FieldMap TypeBase) :
    Schema TypeBase × TypeFactory :=
  (⟨name, fields⟩, ⟨factory.schemas ++ [⟨name, fields⟩]⟩)

end TypeFactory

def PrimitiveTypeProto.decode (factory : TypeFactory) (_ : PrimitiveTypeProto) :
    TypeBase × TypeFactory :=
  factory.makePrimitiveType

mutual

def TypeProto.decode (order : IterationOrder) :
    TypeProto → TypeFactory → Checked (TypeBase × TypeFactory)
  | .dataNotSet, _ => .error "Found a TypeProto with an unset specific type."
  | .primitive value, factory => .ok (value.decode factory)
  | .entity value, factory => value.decode order factory

def EntityTypeProto.decode (order : IterationOrder) :
    EntityTypeProto TypeProto → TypeFactory → Checked (TypeBase × TypeFactory)
  | ⟨none⟩, _ => .error "Schema is required for Entity types."
  | ⟨some schemaProto⟩, factory => do
    let (schema, factory) ← schemaProto.decode order factory
    return factory.makeEntityType schema

def SchemaProto.decode (order : IterationOrder) :
    SchemaProto TypeProto → TypeFactory → Checked (Schema TypeBase × TypeFactory)
  | ⟨schemaNames, ⟨names, get⟩⟩, factory => do
    check (schemaNames.length ≤ 1) "Multiple names for a Schema not yet supported."
    let name := if schemaNames.length = 1 then schemaNames[0]? else none
    let (fieldMap, factory) ← (order.fields names).foldlM (fun (fieldMap, factory) field => do
      let (type, factory) ← (get field).decode (order.below field.1) factory
      return (fieldMap.insert field.1 type, factory)) (FieldMap.empty, factory)
    return factory.registerSchema name fieldMap

end

/-- All primitive types are written as `TEXT`. -/
def encodePrimitive : PrimitiveTypeProto := .TEXT

mutual

def TypeBase.encode (order : IterationOrder) : TypeBase → Checked TypeProto
  | .primitive => .ok (.primitive encodePrimitive)
  | .entity schema => do
    let schemaProto ← schema.encode order
    return .entity ⟨some schemaProto⟩

def Schema.encode (order : IterationOrder) : Schema TypeBase → Checked (SchemaProto TypeProto)
  | ⟨name, ⟨names, get⟩⟩ => do
    let schemaNames := match name with
      | none => []
      | some name => [name]
    let fieldsMap ← (order.fields names).foldlM (fun fieldsMap field => do
      let typeProto ← (get field).encode (order.below field.1)
      let (fieldsMap, inserted) := fieldsMap.tryInsert field.1 typeProto
      check (inserted = true) ("Found duplicate for field name " ++ field.1)
      return fieldsMap) FieldMap.empty
    return ⟨schemaNames, fieldsMap⟩

end

/-- The type that a proto stands for. -/
inductive Represents : TypeProto → TypeBase → Prop
  | primitive (value : PrimitiveTypeProto) : Represents (.primitive value) .primitive
  | entity {name : Option String} {names : Finset String}
      {protos : {field // field ∈ names} → TypeProto}
      {types : {field // field ∈ names} → TypeBase} :
      (∀ field, Represents (protos field) (types field)) →
      Represents (.entity ⟨some ⟨name.toList, ⟨names, protos⟩⟩⟩) (.entity ⟨name, ⟨names, types⟩⟩)

/-- A primitive value that occurs in a proto. -/
inductive TypeProto.Holds (value : PrimitiveTypeProto) : TypeProto → Prop
  | here : Holds value (.primitive value)
  | field {schemaProto : SchemaProto TypeProto}
      (field : {name // name ∈ schemaProto.fields.names}) :
      Holds value (schemaProto.fields.get field) → Holds value (.entity ⟨some schemaProto⟩)

/-- All primitives have the only value that is declared. -/
def TypeProto.OnlyText (proto : TypeProto) : Prop :=
  ∀ value, TypeProto.Holds value proto → value = .TEXT

theorem TypeProto.inductTree {P : TypeProto → Prop} (dataNotSet : P .dataNotSet)
    (primitive : ∀ value, P (.primitive value)) (withoutSchema : P (.entity ⟨none⟩))
    (entity : ∀ schemaProto : SchemaProto TypeProto,
      (∀ field, P (schemaProto.fields.get field)) → P (.entity ⟨some schemaProto⟩)) :
    ∀ proto, P proto
  | .dataNotSet => dataNotSet
  | .primitive value => primitive value
  | .entity ⟨none⟩ => withoutSchema
  | .entity ⟨some ⟨_, ⟨_, get⟩⟩⟩ => entity _ fun field =>
      inductTree dataNotSet primitive withoutSchema entity (get field)

/-! ### Decoding -/

/-- The loop over the fields of a schema proto. -/
def decodeFields (order : IterationOrder) {names : Finset String}
    (get : {name // name ∈ names} → TypeProto) (fields : List {name // name ∈ names})
    (state : FieldMap TypeBase × TypeFactory) : Checked (FieldMap TypeBase × TypeFactory) :=
  fields.foldlM (fun (fieldMap, factory) field => do
    let (type, factory) ← (get field).decode (order.below field.1) factory
    return (fieldMap.insert field.1 type, factory)) state

section Decode

variable {order : IterationOrder} {names : Finset String}
  {get : {name // name ∈ names} → TypeProto}

theorem decodeFields_cons (field : {name // name ∈ names}) (fields : List {name // name ∈ names})
    (m : FieldMap TypeBase) (factory : TypeFactory)
    (result : FieldMap TypeBase × TypeFactory) :
    decodeFields order get (field :: fields) (m, factory) = .ok result ↔
      ∃ type factory', (get field).decode (order.below field.1) factory = .ok (type, factory') ∧
        decodeFields order get fields (m.insert field.1 type, factory') = .ok result := by
  simp only [decodeFields, List.foldlM_cons, Checked.bind_eq_ok, Checked.pure_eq_ok]
  refine ⟨?_, ?_⟩
  · rintro ⟨_, ⟨⟨type, factory'⟩, hfield, rfl⟩, hrest⟩
    exact ⟨type, factory', hfield, hrest⟩
  · rintro ⟨type, factory', hfield, hrest⟩
    exact ⟨_, ⟨⟨type, factory'⟩, hfield, rfl⟩, hrest⟩

theorem decodeFields_of (order : IterationOrder) {types : {name // name ∈ names} → TypeBase}
    (h : ∀ field factory, ∃ factory',
      (get field).decode (order.below field.1) factory = .ok (types field, factory'))
    (fields : List {name // name ∈ names}) (m : FieldMap TypeBase) (factory : TypeFactory) :
    ∃ factory', decodeFields order get fields (m, factory) =
      .ok (fields.foldl (fun m field => m.insert field.1 (types field)) m, factory') := by
  induction fields generalizing m factory with
  | nil => exact ⟨factory, rfl⟩
  | cons field fields ih =>
    obtain ⟨mid, hfield⟩ := h field factory
    obtain ⟨factory', hrest⟩ := ih (m.insert field.1 (types field)) mid
    exact ⟨factory', (decodeFields_cons ..).mpr ⟨_, _, hfield, hrest⟩⟩

theorem decodeFields_decodes {fields : List {name // name ∈ names}} {m : FieldMap TypeBase}
    {factory : TypeFactory} {result : FieldMap TypeBase × TypeFactory}
    (h : decodeFields order get fields (m, factory) = .ok result) :
    ∀ field ∈ fields, ∃ factory type factory',
      (get field).decode (order.below field.1) factory = .ok (type, factory') := by
  induction fields generalizing m factory with
  | nil => simp
  | cons first fields ih =>
    obtain ⟨type, mid, hfirst, hrest⟩ := (decodeFields_cons ..).mp h
    intro field hfield
    rcases List.mem_cons.mp hfield with rfl | hmem
    · exact ⟨factory, type, mid, hfirst⟩
    · exact ih hrest field hmem

theorem decode_entity (schemaNames : List String) (factory : TypeFactory)
    (result : TypeBase × TypeFactory) :
    (TypeProto.entity ⟨some ⟨schemaNames, ⟨names, get⟩⟩⟩).decode order factory = .ok result ↔
      schemaNames.length ≤ 1 ∧ ∃ fieldMap mid,
        decodeFields order get (order.fields names) (.empty, factory) = .ok (fieldMap, mid) ∧
        result = (.entity ⟨schemaNames.head?, fieldMap⟩,
          ⟨mid.schemas ++ [⟨schemaNames.head?, fieldMap⟩]⟩) := by
  have hname : schemaNames.length ≤ 1 →
      (if schemaNames.length = 1 then schemaNames[0]? else none) = schemaNames.head? := by
    intro hlength
    match schemaNames, hlength with
    | [], _ => rfl
    | [_], _ => rfl
  simp only [TypeProto.decode, EntityTypeProto.decode, SchemaProto.decode, Checked.bind_eq_ok,
    Checked.pure_eq_ok, check_eq_ok, exists_const, TypeFactory.registerSchema,
    TypeFactory.makeEntityType]
  refine ⟨?_, ?_⟩
  · rintro ⟨_, ⟨hlength, ⟨fieldMap, mid⟩, hfields, rfl⟩, rfl⟩
    simp only [hname hlength]
    exact ⟨hlength, fieldMap, mid, hfields, rfl⟩
  · rintro ⟨hlength, fieldMap, mid, hfields, rfl⟩
    refine ⟨_, ⟨hlength, ⟨fieldMap, mid⟩, hfields, rfl⟩, ?_⟩
    simp only [hname hlength]

end Decode

theorem Represents.decode {proto : TypeProto} {type : TypeBase} (h : Represents proto type)
    (order : IterationOrder) (factory : TypeFactory) :
    ∃ factory', proto.decode order factory = .ok (type, factory') := by
  induction h generalizing order factory with
  | primitive value => exact ⟨factory, rfl⟩
  | @entity name names protos types _ ih =>
    obtain ⟨mid, hfields⟩ := decodeFields_of order
      (fun field factory => ih field (order.below field.1) factory) (order.fields names) .empty
      factory
    rw [FieldMap.foldl_insert_eq order.mem_fields] at hfields
    have hhead : name.toList.head? = name := by cases name <;> rfl
    have hlength : name.toList.length ≤ 1 := by cases name <;> simp
    refine ⟨⟨mid.schemas ++ [⟨name, ⟨names, types⟩⟩]⟩,
      (decode_entity ..).mpr ⟨hlength, _, _, hfields, ?_⟩⟩
    rw [hhead]

theorem exists_represents {proto : TypeProto} {order : IterationOrder} {factory : TypeFactory}
    {result : TypeBase × TypeFactory} (h : proto.decode order factory = .ok result) :
    ∃ type, Represents proto type := by
  induction proto using TypeProto.inductTree generalizing order factory result with
  | dataNotSet => cases h
  | primitive value => exact ⟨.primitive, .primitive value⟩
  | withoutSchema => cases h
  | entity schemaProto ih =>
    obtain ⟨schemaNames, names, get⟩ := schemaProto
    obtain ⟨hlength, fieldMap, mid, hfields, -⟩ := (decode_entity ..).mp h
    have htypes : ∀ field, ∃ type, Represents (get field) type := by
      intro field
      obtain ⟨_, _, _, hfield⟩ := decodeFields_decodes hfields field (order.mem_fields field)
      exact ih field hfield
    choose types htypes using htypes
    have hname : schemaNames = schemaNames.head?.toList := by
      match schemaNames, hlength with
      | [], _ => rfl
      | [_], _ => rfl
    rw [hname]
    exact ⟨_, .entity htypes⟩

theorem decode_represents {proto : TypeProto} {order : IterationOrder}
    {factory factory' : TypeFactory} {type : TypeBase}
    (h : proto.decode order factory = .ok (type, factory')) : Represents proto type := by
  obtain ⟨type', hrepresents⟩ := exists_represents h
  obtain ⟨_, hdecode⟩ := hrepresents.decode order factory
  rw [h, Except.ok.injEq, Prod.mk.injEq] at hdecode
  rw [hdecode.1]
  exact hrepresents

/-! ### Encoding -/

def encodeFields (order : IterationOrder) {names : Finset String}
    (get : {name // name ∈ names} → TypeBase) (fields : List {name // name ∈ names})
    (fieldsMap : FieldMap TypeProto) : Checked (FieldMap TypeProto) :=
  fields.foldlM (fun fieldsMap field => do
    let typeProto ← (get field).encode (order.below field.1)
    let (fieldsMap, inserted) := fieldsMap.tryInsert field.1 typeProto
    check (inserted = true) ("Found duplicate for field name " ++ field.1)
    return fieldsMap) fieldsMap

theorem encodeFields_of {order : IterationOrder} {names : Finset String}
    {get : {name // name ∈ names} → TypeBase} {protos : {name // name ∈ names} → TypeProto}
    (h : ∀ field, (get field).encode (order.below field.1) = .ok (protos field))
    {fields : List {name // name ∈ names}} (hnodup : fields.Nodup) {m : FieldMap TypeProto}
    (hfresh : ∀ field ∈ fields, field.1 ∉ m.names) :
    encodeFields order get fields m =
      .ok (fields.foldl (fun m field => m.insert field.1 (protos field)) m) := by
  induction fields generalizing m with
  | nil => rfl
  | cons first fields ih =>
    obtain ⟨hfirst, hnodup⟩ := List.nodup_cons.mp hnodup
    have hinserted : first.1 ∉ m.names := hfresh first (List.mem_cons_self ..)
    have hstep : (do
        let typeProto ← (get first).encode (order.below first.1)
        let (fieldsMap, inserted) := m.tryInsert first.1 typeProto
        check (inserted = true) ("Found duplicate for field name " ++ first.1)
        return fieldsMap) = (.ok (m.insert first.1 (protos first)) : Checked _) := by
      rw [h first]
      simp only [bind, Except.bind, FieldMap.tryInsert, hinserted, not_false_eq_true,
        decide_true, check, if_true]
      rfl
    rw [encodeFields, List.foldlM_cons, hstep, List.foldl_cons]
    refine ih hnodup ?_
    intro field hfield hmem
    rcases Finset.mem_insert.mp hmem with heq | hold
    · exact hfirst (Subtype.ext heq ▸ hfield)
    · exact hfresh field (List.mem_cons_of_mem _ hfield) hold

theorem encode_entity {order : IterationOrder} {name : Option String} {names : Finset String}
    {get : {name // name ∈ names} → TypeBase} {fieldsMap : FieldMap TypeProto}
    (h : encodeFields order get (order.fields names) .empty = .ok fieldsMap) :
    (TypeBase.entity ⟨name, ⟨names, get⟩⟩).encode order =
      .ok (.entity ⟨some ⟨name.toList, fieldsMap⟩⟩) := by
  have hname : (match name with | none => [] | some name => [name]) = name.toList := by
    cases name <;> rfl
  simp only [TypeBase.encode, Schema.encode, Checked.bind_eq_ok, Checked.pure_eq_ok, hname]
  exact ⟨_, ⟨_, h, rfl⟩, rfl⟩

theorem onlyText_primitive {value : PrimitiveTypeProto} :
    (TypeProto.primitive value).OnlyText ↔ value = .TEXT := by
  refine ⟨fun h => h value .here, ?_⟩
  rintro rfl value ⟨⟩
  rfl

theorem onlyText_entity {name : Option String} {names : Finset String}
    {protos : {name // name ∈ names} → TypeProto} :
    (TypeProto.entity ⟨some ⟨name.toList, ⟨names, protos⟩⟩⟩).OnlyText ↔
      ∀ field, (protos field).OnlyText := by
  refine ⟨?_, ?_⟩
  · intro h field value hvalue
    exact h value (@TypeProto.Holds.field value ⟨name.toList, ⟨names, protos⟩⟩ field hvalue)
  · intro h value hvalue
    cases hvalue with
    | field field hfield => exact h field value hfield

/-- Every type is encoded, into a proto that represents it and has only text primitives. -/
theorem TypeBase.exists_encode (type : TypeBase) (order : IterationOrder) :
    ∃ proto, type.encode order = .ok proto ∧ Represents proto type ∧ proto.OnlyText := by
  induction type using TypeBase.inductTree generalizing order with
  | primitive =>
    exact ⟨.primitive .TEXT, rfl, .primitive .TEXT, onlyText_primitive.mpr rfl⟩
  | entity schema ih =>
    obtain ⟨name, names, get⟩ := schema
    choose protos hencode hrepresents htext using fun field => ih field (order.below field.1)
    have hfields := encodeFields_of hencode (order.fields_nodup names) (m := .empty)
      fun field _ => Finset.notMem_empty field.1
    rw [FieldMap.foldl_insert_eq order.mem_fields] at hfields
    exact ⟨_, encode_entity hfields, .entity hrepresents, onlyText_entity.mpr htext⟩

theorem Represents.unique {p q : TypeProto} {type : TypeBase} (hp : Represents p type)
    (hq : Represents q type) (htextp : p.OnlyText) (htextq : q.OnlyText) : p = q := by
  induction hp generalizing q with
  | primitive value =>
    cases hq with
    | primitive value' => rw [htextp value .here, htextq value' .here]
  | entity _ ih =>
    cases hq with
    | entity hprotos =>
      rw [onlyText_entity] at htextp htextq
      have heq := funext fun field => ih field (hprotos field) (htextp field) (htextq field)
      rw [heq]

theorem encode_eq_ok_iff {type : TypeBase} {order : IterationOrder} {proto : TypeProto} :
    type.encode order = .ok proto ↔ Represents proto type ∧ proto.OnlyText := by
  obtain ⟨encoded, hencode, hrepresents, htext⟩ := type.exists_encode order
  refine ⟨?_, ?_⟩
  · intro h
    rw [hencode, Except.ok.injEq] at h
    exact h ▸ ⟨hrepresents, htext⟩
  · rintro ⟨hproto, htext'⟩
    rw [hencode, hrepresents.unique hproto htext htext']

/-! ### Round trips -/

/-- An accepted proto is written back as it was exactly if all its primitives are text. -/
theorem encode_decode_iff {proto : TypeProto} {order order' : IterationOrder}
    {factory factory' : TypeFactory} {type : TypeBase}
    (h : proto.decode order factory = .ok (type, factory')) :
    type.encode order' = .ok proto ↔ proto.OnlyText := by
  rw [encode_eq_ok_iff]
  exact and_iff_right (decode_represents h)

theorem decode_encode (type : TypeBase) (order order' : IterationOrder) :
    ∃ proto, type.encode order = .ok proto ∧
      ∀ factory, ∃ factory', proto.decode order' factory = .ok (type, factory') := by
  obtain ⟨proto, hencode, hrepresents, -⟩ := type.exists_encode order
  exact ⟨proto, hencode, hrepresents.decode order'⟩

/-- Accepted protos with text primitives and all types survive both round trips, in any order of
the fields and for any factories. -/
theorem typeProtos_roundTrip :
    (∀ (proto : TypeProto) order order' factory type factory',
      proto.decode order factory = .ok (type, factory') →
        (type.encode order' = .ok proto ↔ proto.OnlyText)) ∧
    ∀ (type : TypeBase) order order', ∃ proto, type.encode order = .ok proto ∧
      ∀ factory, ∃ factory', proto.decode order' factory = .ok (type, factory') :=
  ⟨fun _ _ _ _ _ _ h => encode_decode_iff h, decode_encode⟩

/-- A schema with a name and a text field. -/
def namedProto : TypeProto :=
  .entity ⟨some ⟨["my_schema"], ⟨{"field1"}, fun _ => .primitive .TEXT⟩⟩⟩

theorem namedProto_roundTrip : ∃ type factory',
    namedProto.decode .alphabetical ⟨[]⟩ = .ok (type, factory') ∧
      type.encode .alphabetical = .ok namedProto := by
  have hrepresents : Represents namedProto (.entity ⟨some "my_schema", ⟨{"field1"},
      fun _ => .primitive⟩⟩) :=
    @Represents.entity (some "my_schema") _ _ _ fun _ => .primitive .TEXT
  obtain ⟨factory', hdecode⟩ := hrepresents.decode .alphabetical ⟨[]⟩
  refine ⟨_, factory', hdecode, ?_⟩
  have htext : namedProto.OnlyText :=
    (@onlyText_entity (some "my_schema") _ _).mpr fun _ => onlyText_primitive.mpr rfl
  exact (typeProtos_roundTrip.1 namedProto .alphabetical _ _ _ _ hdecode).mpr htext

/-- A number without a name is accepted as a primitive and written back as text. -/
theorem unnamedPrimitive_changed :
    ¬ ∀ (proto : TypeProto) order order' factory type factory',
      proto.decode order factory = .ok (type, factory') → type.encode order' = .ok proto := by
  intro h
  have hencode := h (.primitive ⟨1⟩) .alphabetical .alphabetical ⟨[]⟩ .primitive ⟨[]⟩ rfl
  rw [TypeBase.encode, Except.ok.injEq, TypeProto.primitive.injEq] at hencode
  exact absurd hencode (by decide)

end Raksha.Ir.Types
