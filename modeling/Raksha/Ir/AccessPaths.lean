import Raksha.Ir.FieldMaps

/-!
# Types and their access paths

The types of `ir/types/` and the access paths of their leaves (`ir/access_path_selectors.h`,
`ir/access_path_selectors_set.h`). A type shares its schema by pointer; schemas never change, so
an entity type here holds its schema.
-/

namespace Raksha.Ir.Types

structure FieldSelector where
  fieldName : String
deriving DecidableEq

/-- A variant with a single alternative. -/
structure Selector where
  specificSelector : FieldSelector
deriving DecidableEq

/-- The selectors of a path from the leaf to the root. -/
structure AccessPathSelectors where
  reverseSelectors : List Selector
deriving DecidableEq

namespace AccessPathSelectors

def empty : AccessPathSelectors := ⟨[]⟩

def ofParent (parentSelector : Selector) (childPath : AccessPathSelectors) :
    AccessPathSelectors :=
  ⟨childPath.reverseSelectors ++ [parentSelector]⟩

/-- The selectors between `begin()` and `end()`, from parent to child. -/
def selectors (path : AccessPathSelectors) : List Selector :=
  path.reverseSelectors.reverse

@[simp] theorem selectors_empty : empty.selectors = [] := rfl

@[simp] theorem selectors_ofParent (parentSelector : Selector) (childPath : AccessPathSelectors) :
    (ofParent parentSelector childPath).selectors = parentSelector :: childPath.selectors := by
  simp only [selectors, ofParent, List.reverse_append, List.reverse_singleton,
    List.singleton_append]

theorem selectors_inj {p q : AccessPathSelectors} : p.selectors = q.selectors ↔ p = q := by
  cases p
  cases q
  simp [selectors]

theorem selectors_surjective : Function.Surjective selectors := by
  intro path
  exact ⟨⟨path.reverse⟩, List.reverse_reverse path⟩

theorem ofParent_inj {s t : Selector} {p q : AccessPathSelectors} :
    ofParent s p = ofParent t q ↔ s = t ∧ p = q := by
  rw [← selectors_inj, selectors_ofParent, selectors_ofParent, List.cons.injEq, selectors_inj]

end AccessPathSelectors

structure AccessPathSelectorsSet where
  innerVec : List AccessPathSelectors

namespace AccessPathSelectorsSet

def union (set1 set2 : AccessPathSelectorsSet) : AccessPathSelectorsSet :=
  ⟨set1.innerVec ++ set2.innerVec⟩

def addParentToAll (parentSelector : Selector) (childSet : AccessPathSelectorsSet) :
    AccessPathSelectorsSet :=
  ⟨childSet.innerVec.map (.ofParent parentSelector)⟩

def createAbslSet (originalSet : AccessPathSelectorsSet) : Finset AccessPathSelectors :=
  originalSet.innerVec.toFinset

end AccessPathSelectorsSet

structure Schema (T : Type) where
  name : Option String
  fields : FieldMap T

/-- A type is a primitive type or the entity type of a schema. -/
inductive TypeBase
  | primitive
  | entity (schema : Schema TypeBase)

mutual

def TypeBase.getAccessPathSelectorsSet (order : IterationOrder) :
    TypeBase → AccessPathSelectorsSet
  | .primitive => ⟨[.empty]⟩
  | .entity schema => schema.getAccessPathSelectorsSet order

def Schema.getAccessPathSelectorsSet (order : IterationOrder) :
    Schema TypeBase → AccessPathSelectorsSet
  | ⟨_, ⟨names, get⟩⟩ =>
    if names = ∅ then
      ⟨[.empty]⟩
    else
      (order.fields names).foldl (fun result field =>
        .union result (.addParentToAll ⟨⟨field.1⟩⟩
          ((get field).getAccessPathSelectorsSet (order.below field.1)))) ⟨[]⟩

end

/-- The field paths from the root of a type to its leaves. -/
inductive IsLeafPath : TypeBase → List Selector → Prop
  | primitive : IsLeafPath .primitive []
  | withoutFields {schema : Schema TypeBase} : schema.fields.names = ∅ →
      IsLeafPath (.entity schema) []
  | field {schema : Schema TypeBase} {path : List Selector}
      (field : {name // name ∈ schema.fields.names}) :
      IsLeafPath (schema.fields.get field) path →
      IsLeafPath (.entity schema) (⟨⟨field.1⟩⟩ :: path)

theorem TypeBase.inductTree {P : TypeBase → Prop} (primitive : P .primitive)
    (entity : ∀ schema : Schema TypeBase, (∀ field, P (schema.fields.get field)) →
      P (.entity schema)) : ∀ type, P type
  | .primitive => primitive
  | .entity ⟨_, ⟨_, get⟩⟩ => entity _ fun field => inductTree primitive entity (get field)

theorem union_foldl {α : Type} (f : α → AccessPathSelectorsSet) (l : List α)
    (result : AccessPathSelectorsSet) :
    (l.foldl (fun result a => .union result (f a)) result).innerVec =
      result.innerVec ++ l.flatMap fun a => (f a).innerVec := by
  induction l generalizing result with
  | nil => simp
  | cons a l ih =>
    rw [List.foldl_cons, ih, AccessPathSelectorsSet.union, List.flatMap_cons, List.append_assoc]

/-- The vector of a schema with fields lists the fields one after another. -/
theorem innerVec_schema (order : IterationOrder) {schema : Schema TypeBase}
    (h : schema.fields.names ≠ ∅) :
    (schema.getAccessPathSelectorsSet order).innerVec =
      (order.fields schema.fields.names).flatMap fun field =>
        (((schema.fields.get field).getAccessPathSelectorsSet (order.below field.1)).innerVec).map
          (.ofParent ⟨⟨field.1⟩⟩) := by
  obtain ⟨name, names, get⟩ := schema
  rw [Schema.getAccessPathSelectorsSet, if_neg h, union_foldl]
  rfl

theorem innerVec_withoutFields (order : IterationOrder) {schema : Schema TypeBase}
    (h : schema.fields.names = ∅) :
    (schema.getAccessPathSelectorsSet order).innerVec = [.empty] := by
  obtain ⟨name, names, get⟩ := schema
  rw [Schema.getAccessPathSelectorsSet, if_pos h]

theorem isLeafPath_primitive {path : List Selector} : IsLeafPath .primitive path ↔ path = [] := by
  refine ⟨?_, ?_⟩
  · rintro ⟨⟩
    rfl
  · rintro rfl
    exact .primitive

theorem isLeafPath_withoutFields {schema : Schema TypeBase} (h : schema.fields.names = ∅)
    {path : List Selector} : IsLeafPath (.entity schema) path ↔ path = [] := by
  refine ⟨?_, ?_⟩
  · intro hpath
    cases hpath with
    | withoutFields => rfl
    | field field => exact absurd h (schema.fields.ne_empty field)
  · rintro rfl
    exact .withoutFields h

theorem mem_innerVec_iff (type : TypeBase) (order : IterationOrder)
    (path : AccessPathSelectors) :
    path ∈ (type.getAccessPathSelectorsSet order).innerVec ↔ IsLeafPath type path.selectors := by
  induction type using TypeBase.inductTree generalizing order path with
  | primitive =>
    rw [TypeBase.getAccessPathSelectorsSet, List.mem_singleton, isLeafPath_primitive,
      ← AccessPathSelectors.selectors_inj, AccessPathSelectors.selectors_empty]
  | entity schema ih =>
    rw [TypeBase.getAccessPathSelectorsSet]
    by_cases hnames : schema.fields.names = ∅
    · rw [innerVec_withoutFields order hnames, List.mem_singleton, isLeafPath_withoutFields hnames,
        ← AccessPathSelectors.selectors_inj, AccessPathSelectors.selectors_empty]
    · rw [innerVec_schema order hnames, List.mem_flatMap]
      refine ⟨?_, ?_⟩
      · rintro ⟨field, -, hpath⟩
        obtain ⟨child, hchild, rfl⟩ := List.mem_map.mp hpath
        rw [AccessPathSelectors.selectors_ofParent]
        exact .field field ((ih field _ child).mp hchild)
      · intro h
        generalize hselectors : path.selectors = selectors at h
        cases h with
        | withoutFields hempty => exact absurd hempty hnames
        | @field _ rest field hrest =>
          obtain ⟨child, hchild⟩ := AccessPathSelectors.selectors_surjective rest
          refine ⟨field, order.mem_fields field, List.mem_map.mpr ⟨child, ?_, ?_⟩⟩
          · rw [ih, hchild]
            exact hrest
          · rw [← AccessPathSelectors.selectors_inj, AccessPathSelectors.selectors_ofParent,
              hselectors, hchild]

theorem innerVec_nodup (type : TypeBase) (order : IterationOrder) :
    (type.getAccessPathSelectorsSet order).innerVec.Nodup := by
  induction type using TypeBase.inductTree generalizing order with
  | primitive => exact List.nodup_singleton _
  | entity schema ih =>
    rw [TypeBase.getAccessPathSelectorsSet]
    by_cases hnames : schema.fields.names = ∅
    · rw [innerVec_withoutFields order hnames]
      exact List.nodup_singleton _
    · rw [innerVec_schema order hnames, List.nodup_flatMap]
      refine ⟨?_, ?_⟩
      · intro field _
        refine (ih field _).map ?_
        intro p q h
        exact (AccessPathSelectors.ofParent_inj.mp h).2
      · refine (order.fields_nodup _).imp ?_
        -- paths through different fields start with different selectors
        intro field field' hne path hpath hpath'
        obtain ⟨p, -, rfl⟩ := List.mem_map.mp hpath
        obtain ⟨q, -, hq⟩ := List.mem_map.mp hpath'
        have hselector := (AccessPathSelectors.ofParent_inj.mp hq).1
        rw [Selector.mk.injEq, FieldSelector.mk.injEq] at hselector
        exact hne (Subtype.ext hselector.symm)

theorem IsLeafPath.eq_of_prefix {type : TypeBase} {p q : List Selector} (hp : IsLeafPath type p)
    (hq : IsLeafPath type q) (h : p <+: q) : p = q := by
  induction hp generalizing q with
  | primitive => exact (isLeafPath_primitive.mp hq).symm
  | withoutFields hempty => exact ((isLeafPath_withoutFields hempty).mp hq).symm
  | field field hrest ih =>
    cases hq with
    | withoutFields => exact absurd (List.prefix_nil.mp h) (List.cons_ne_nil _ _)
    | field field' hrest' =>
      obtain ⟨hselector, hprefix⟩ := List.cons_prefix_cons.mp h
      rw [Selector.mk.injEq, FieldSelector.mk.injEq] at hselector
      obtain rfl : field = field' := Subtype.ext hselector
      rw [ih hrest' hprefix]

/-- The access paths of a type are exactly the paths to its leaves, each listed once and none a
proper prefix of another, in any iteration order of the field maps. -/
theorem accessPaths_enumerate_leaves (type : TypeBase) (order : IterationOrder) :
    (∀ path, path ∈ (type.getAccessPathSelectorsSet order).createAbslSet ↔
      IsLeafPath type path.selectors) ∧
    (type.getAccessPathSelectorsSet order).innerVec.Nodup ∧
    (∀ p ∈ (type.getAccessPathSelectorsSet order).innerVec,
      ∀ q ∈ (type.getAccessPathSelectorsSet order).innerVec,
        p.selectors <+: q.selectors → p = q) ∧
    ∀ order', (type.getAccessPathSelectorsSet order').createAbslSet =
      (type.getAccessPathSelectorsSet order).createAbslSet := by
  have hmem : ∀ order path, path ∈ (type.getAccessPathSelectorsSet order).createAbslSet ↔
      IsLeafPath type path.selectors := by
    intro order path
    rw [AccessPathSelectorsSet.createAbslSet, List.mem_toFinset, mem_innerVec_iff]
  refine ⟨hmem order, innerVec_nodup type order, ?_, ?_⟩
  · intro p hp q hq hprefix
    rw [mem_innerVec_iff] at hp hq
    exact AccessPathSelectors.selectors_inj.mp (hp.eq_of_prefix hq hprefix)
  · intro order'
    ext path
    rw [hmem order', hmem order]

end Raksha.Ir.Types
