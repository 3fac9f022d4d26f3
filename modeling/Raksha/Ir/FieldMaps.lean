import Mathlib.Data.Finset.Basic
import Mathlib.Data.Finset.Insert
import Mathlib.Data.Finset.Sort
import Mathlib.Data.String.Basic
import Mathlib.Tactic

/-!
# Maps of fields

The hash maps from field names to types (`absl::flat_hash_map<std::string, Type>` and the map
fields of the protos). A map of this kind sits inside the type that its values have, so it is
given by its keys and a value for each of them. The order of its iteration is unspecified and
may differ between the maps of one tree.
-/

namespace Raksha.Ir.Types

structure FieldMap (α : Type) where
  names : Finset String
  get : {name // name ∈ names} → α

namespace FieldMap

variable {α : Type}

def empty : FieldMap α where
  names := ∅
  get field := absurd field.2 (Finset.notMem_empty _)

theorem ne_empty (m : FieldMap α) (field : {name // name ∈ m.names}) : m.names ≠ ∅ :=
  Finset.ne_empty_of_mem field.2

def find (m : FieldMap α) (name : String) : Option α :=
  if h : name ∈ m.names then some (m.get ⟨name, h⟩) else none

/-- `insert`: keeps an existing entry. -/
def insert (m : FieldMap α) (name : String) (value : α) : FieldMap α where
  names := Insert.insert name m.names
  get field := (m.find field.1).getD value

/-- `insert` with the flag that tells whether the entry is new. -/
def tryInsert (m : FieldMap α) (name : String) (value : α) : FieldMap α × Bool :=
  (m.insert name value, decide (name ∉ m.names))

theorem find_of_mem (m : FieldMap α) {name : String} (h : name ∈ m.names) :
    m.find name = some (m.get ⟨name, h⟩) := by
  simp only [find, h, dite_true]

theorem find_of_notMem (m : FieldMap α) {name : String} (h : name ∉ m.names) :
    m.find name = none := by
  simp only [find, h, dite_false]

@[simp] theorem find_empty (name : String) : (empty : FieldMap α).find name = none :=
  find_of_notMem _ (Finset.notMem_empty name)

theorem find_ne_none_iff (m : FieldMap α) (name : String) :
    m.find name ≠ none ↔ name ∈ m.names := by
  unfold find
  split <;> simp [*]

theorem find_insert (m : FieldMap α) (name k : String) (value : α) :
    (m.insert name value).find k =
      if k = name then some ((m.find name).getD value) else m.find k := by
  by_cases hk : k ∈ (m.insert name value).names
  · rw [find_of_mem _ hk]
    change some ((m.find k).getD value) = _
    split
    · next h => rw [h]
    · next h =>
      have hmem := (Finset.mem_insert.mp hk).resolve_left h
      rw [m.find_of_mem hmem, Option.getD_some]
  · rw [find_of_notMem _ hk]
    have hnot : k ≠ name ∧ k ∉ m.names := by
      rw [← not_or, ← Finset.mem_insert]
      exact hk
    rw [if_neg hnot.1, m.find_of_notMem hnot.2]

theorem ext_find {m m' : FieldMap α} (h : ∀ name, m.find name = m'.find name) : m = m' := by
  obtain ⟨names, get⟩ := m
  obtain ⟨names', get'⟩ := m'
  have hnames : names = names' := by
    ext name
    rw [← find_ne_none_iff ⟨names, get⟩, ← find_ne_none_iff ⟨names', get'⟩, h name]
  subst hnames
  congr 1
  funext field
  have hfield := h field.1
  rwa [find_of_mem _ field.2, find_of_mem _ field.2, Option.some.injEq] at hfield

section Fill

variable {names : Finset String} {get : {name // name ∈ names} → α}

/-- The entries of a map are among the given ones. -/
def Within (m : FieldMap α) (get : {name // name ∈ names} → α) : Prop :=
  ∀ name value, m.find name = some value → ∃ h : name ∈ names, get ⟨name, h⟩ = value

theorem within_empty : (empty : FieldMap α).Within get := by
  intro name value h
  rw [find_empty] at h
  cases h

theorem Within.insert {m : FieldMap α} (h : m.Within get) (field : {name // name ∈ names}) :
    (m.insert field.1 (get field)).Within get := by
  intro name value hfind
  rw [find_insert] at hfind
  split at hfind
  · next hname =>
    subst hname
    rw [Option.some.injEq] at hfind
    subst hfind
    cases hold : m.find field.1 with
    | none => exact ⟨field.2, rfl⟩
    | some old => exact h field.1 old hold
  · exact h name value hfind

theorem Within.foldl_insert {m : FieldMap α} (h : m.Within get)
    (fields : List {name // name ∈ names}) :
    (fields.foldl (fun m field => m.insert field.1 (get field)) m).Within get ∧
      ∀ name, (name ∈ m.names ∨ ∃ field ∈ fields, field.1 = name) →
        name ∈ (fields.foldl (fun m field => m.insert field.1 (get field)) m).names := by
  induction fields generalizing m with
  | nil => exact ⟨h, by simp⟩
  | cons first fields ih =>
    obtain ⟨hwithin, hnames⟩ := ih (h.insert first)
    refine ⟨hwithin, ?_⟩
    rintro name (hold | ⟨field, hfield, rfl⟩)
    · exact hnames name (Or.inl (Finset.mem_insert_of_mem hold))
    · rcases List.mem_cons.mp hfield with rfl | hrest
      · exact hnames _ (Or.inl (Finset.mem_insert_self ..))
      · exact hnames _ (Or.inr ⟨field, hrest, rfl⟩)

theorem foldl_insert_eq {fields : List {name // name ∈ names}}
    (hcomplete : ∀ field, field ∈ fields) :
    fields.foldl (fun m field => m.insert field.1 (get field)) empty = ⟨names, get⟩ := by
  have hempty : (empty : FieldMap α).Within get := within_empty
  obtain ⟨hwithin, hnames⟩ := hempty.foldl_insert fields
  refine ext_find fun name => ?_
  by_cases hname : name ∈ names
  · have hmem := hnames name (Or.inr ⟨⟨name, hname⟩, hcomplete _, rfl⟩)
    obtain ⟨value, hvalue⟩ := Option.ne_none_iff_exists'.mp ((find_ne_none_iff _ name).mpr hmem)
    obtain ⟨_, hget⟩ := hwithin name value hvalue
    rw [hvalue, ← hget]
    exact (find_of_mem ⟨names, get⟩ hname).symm
  · rw [find_of_notMem ⟨names, get⟩ hname]
    refine Option.eq_none_iff_forall_ne_some.mpr fun value hvalue => hname ?_
    exact (hwithin name value hvalue).1

end Fill

end FieldMap

/-- An iteration order for every map of a tree, given the fields that lead to the map. -/
structure IterationOrder where
  enumerate : List String → ∀ names : Finset String, List {name // name ∈ names}
  nodup : ∀ path names, (enumerate path names).Nodup
  complete : ∀ path names field, field ∈ enumerate path names

namespace IterationOrder

/-- The order of the maps below a field. -/
def below (order : IterationOrder) (field : String) : IterationOrder where
  enumerate path := order.enumerate (field :: path)
  nodup path := order.nodup (field :: path)
  complete path := order.complete (field :: path)

/-- The fields of the map at the root, in the order of its iteration. -/
def fields (order : IterationOrder) (names : Finset String) : List {name // name ∈ names} :=
  order.enumerate [] names

theorem fields_nodup (order : IterationOrder) (names : Finset String) :
    (order.fields names).Nodup :=
  order.nodup [] names

@[simp] theorem mem_fields (order : IterationOrder) {names : Finset String}
    (field : {name // name ∈ names}) : field ∈ order.fields names :=
  order.complete [] names field

def alphabetical : IterationOrder where
  enumerate _ names := names.attach.sort (· ≤ ·)
  nodup _ names := Finset.sort_nodup names.attach _
  complete _ names field := (Finset.mem_sort _).mpr (Finset.mem_attach names field)

end IterationOrder

end Raksha.Ir.Types
