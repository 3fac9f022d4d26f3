import Std.Data.String.ToNat
import Raksha.Ir.Module

/-!
# Names of values

`ir/ssa_names.h`: a value gets a name when it is first asked for one, the number of names so far.
-/

namespace Raksha.Ir
open Raksha.Common

/-- `SsaNames::IDManager`. -/
structure IDManager (T : Type) [DecidableEq T] where
  namePrefix : String
  itemIds : FlatHashMap T String := ∅

namespace IDManager

variable {T : Type} [DecidableEq T]

def getOrCreateID (manager : IDManager T) (entity : T) : String × IDManager T :=
  let id := manager.namePrefix ++ toString manager.itemIds.entries.length
  ((manager.itemIds.lookup entity).getD id,
    { manager with itemIds := (manager.itemIds.tryInsert entity id).1 })

theorem lookup_getOrCreateID (manager : IDManager T) (entity other : T) :
    (manager.getOrCreateID entity).2.itemIds.lookup other =
      if other = entity then some (manager.getOrCreateID entity).1
      else manager.itemIds.lookup other := by
  simp only [getOrCreateID, FlatHashMap.lookup_tryInsert]

/-- The names are the prefix with the numbers below their count, each held once. -/
structure Numbered (manager : IDManager T) : Prop where
  generated : ∀ entity id, manager.itemIds.lookup entity = some id →
    ∃ n < manager.itemIds.entries.length, id = manager.namePrefix ++ toString n
  distinct : ∀ entity other id, manager.itemIds.lookup entity = some id →
    manager.itemIds.lookup other = some id → entity = other

theorem Numbered.empty (namePrefix : String) : Numbered (T := T) { namePrefix } := by
  refine ⟨?_, ?_⟩
  · intro entity id h
    simp at h
  · intro entity other id h
    simp at h

theorem Numbered.getOrCreateID {manager : IDManager T} (h : manager.Numbered) (entity : T) :
    (manager.getOrCreateID entity).2.Numbered := by
  cases hlookup : manager.itemIds.lookup entity with
  | some id =>
    have hmem : entity ∈ manager.itemIds :=
      (FlatHashMap.mem_iff_lookup _ _).mpr (by simp [hlookup])
    have heq : (manager.getOrCreateID entity).2 = manager := by
      simp only [IDManager.getOrCreateID, FlatHashMap.tryInsert_of_mem _ _ _ hmem]
    rw [heq]
    exact h
  | none =>
    have hfresh := (FlatHashMap.lookup_eq_none_iff _ _).mp hlookup
    have hlength : (manager.getOrCreateID entity).2.itemIds.entries.length =
        manager.itemIds.entries.length + 1 := by
      simp only [IDManager.getOrCreateID, FlatHashMap.tryInsert_of_notMem _ _ _ hfresh,
        FlatHashMap.insertOrAssign]
      rw [AList.insert_of_notMem hfresh, List.length_cons]
    have hid : (manager.getOrCreateID entity).1 =
        manager.namePrefix ++ toString manager.itemIds.entries.length := by
      simp only [IDManager.getOrCreateID, hlookup, Option.getD_none]
    -- No name so far has the number that the new name gets.
    have hnew : ∀ other, manager.itemIds.lookup other ≠ some (manager.getOrCreateID entity).1 := by
      intro other hother
      obtain ⟨n, hn, heq⟩ := h.generated other _ hother
      rw [hid] at heq
      have hn' := Nat.repr_injective ((String.append_right_inj _).mp heq)
      omega
    refine ⟨?_, ?_⟩
    · intro other id hother
      rw [lookup_getOrCreateID] at hother
      rw [hlength]
      by_cases hsame : other = entity
      · rw [if_pos hsame, Option.some.injEq] at hother
        exact ⟨_, Nat.lt_succ_self _, by rw [← hother, hid]; rfl⟩
      · rw [if_neg hsame] at hother
        obtain ⟨n, hn, heq⟩ := h.generated other id hother
        exact ⟨n, by omega, heq⟩
    · intro a b id ha hb
      rw [lookup_getOrCreateID] at ha hb
      by_cases ha' : a = entity <;> by_cases hb' : b = entity
      · rw [ha', hb']
      · rw [if_pos ha', Option.some.injEq] at ha
        rw [if_neg hb', ← ha] at hb
        exact absurd hb (hnew b)
      · rw [if_pos hb', Option.some.injEq] at hb
        rw [if_neg ha', ← hb] at ha
        exact absurd ha (hnew a)
      · rw [if_neg ha'] at ha
        rw [if_neg hb'] at hb
        exact h.distinct a b id ha hb

end IDManager

/-- The value names of `SsaNames`. -/
structure SsaNames where
  valueIds : IDManager Value := { namePrefix := "%" }

namespace SsaNames

def getOrCreateID (names : SsaNames) (value : Value) : String × SsaNames :=
  let (id, valueIds) := names.valueIds.getOrCreateID value
  (id, { valueIds })

def find? (names : SsaNames) (value : Value) : Option String :=
  names.valueIds.itemIds.lookup value

theorem find?_getOrCreateID (names : SsaNames) (value other : Value) :
    (names.getOrCreateID value).2.find? other =
      if other = value then some (names.getOrCreateID value).1 else names.find? other :=
  names.valueIds.lookup_getOrCreateID value other

def Extends (names names' : SsaNames) : Prop :=
  ∀ value id, names.find? value = some id → names'.find? value = some id

theorem Extends.refl (names : SsaNames) : names.Extends names := fun _ _ h => h

theorem Extends.trans {a b c : SsaNames} (hab : a.Extends b) (hbc : b.Extends c) : a.Extends c :=
  fun value id h => hbc value id (hab value id h)

theorem extends_getOrCreateID (names : SsaNames) (value : Value) :
    names.Extends (names.getOrCreateID value).2 := by
  intro other id h
  rw [find?_getOrCreateID]
  by_cases hsame : other = value
  · subst hsame
    rw [if_pos rfl]
    simp only [getOrCreateID, IDManager.getOrCreateID]
    rw [show names.valueIds.itemIds.lookup other = some id from h, Option.getD_some]
  · rw [if_neg hsame, h]

/-- Every name starts with a percent sign: the parser reads no other temporary names. -/
def Temporaries (names : SsaNames) : Prop :=
  names.valueIds.namePrefix = "%" ∧
    ∀ value id, names.find? value = some id → ∃ rest, id = "%" ++ rest

def Distinct (names : SsaNames) : Prop :=
  ∀ value other id, names.find? value = some id → names.find? other = some id → value = other

theorem Temporaries.getOrCreateID {names : SsaNames} (h : names.Temporaries) (value : Value) :
    (names.getOrCreateID value).2.Temporaries := by
  refine ⟨h.1, ?_⟩
  intro other id hother
  cases hlookup : names.find? other with
  | some id' =>
    have hext := names.extends_getOrCreateID value other id' hlookup
    rw [hother] at hext
    cases hext
    exact h.2 other id hlookup
  | none =>
    rw [find?_getOrCreateID] at hother
    by_cases hsame : other = value
    · subst hsame
      rw [if_pos rfl, Option.some.injEq] at hother
      rw [← hother]
      simp only [SsaNames.getOrCreateID, IDManager.getOrCreateID]
      rw [show names.valueIds.itemIds.lookup other = none from hlookup, h.1]
      exact ⟨_, rfl⟩
    · rw [if_neg hsame, hlookup] at hother
      cases hother

theorem temporaries_empty : Temporaries {} := by
  refine ⟨rfl, ?_⟩
  intro value id h
  simp [find?] at h

end SsaNames

end Raksha.Ir
