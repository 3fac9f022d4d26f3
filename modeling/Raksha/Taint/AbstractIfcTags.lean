import Mathlib.Data.Finset.Lattice.Basic
import Mathlib.Order.BoundedOrder.Lattice
import Raksha.Common.Utils

/-!
# The abstract domain of information flow tags

`analysis/taint/abstract_ifc_tags.cc`. A state is `Bottom` (not processed yet) or a pair of tag
sets. Joining unites the secrecy tags and intersects the integrity tags, so a larger state has
more secrecy tags and fewer integrity tags.
-/

namespace Raksha.Taint
open Raksha.Common

abbrev TagId : Type := ℕ

abbrev TagIdSet : Type := Finset TagId

structure IfcTags where
  secrecyTags : TagIdSet
  integrityTags : TagIdSet
deriving DecidableEq

/-- `AbstractIfcTags`: a null pointer or a pointer to tags. -/
inductive AbstractIfcTags
  | bottom
  | tags (tags : IfcTags)
deriving DecidableEq

namespace AbstractIfcTags

/-- The two-argument constructor of the class. -/
def of (secrecyTags integrityTags : TagIdSet) : AbstractIfcTags := .tags ⟨secrecyTags, integrityTags⟩

def isBottom : AbstractIfcTags → Bool
  | bottom => true
  | tags _ => false

def isEquivalentTo : AbstractIfcTags → AbstractIfcTags → Bool
  | bottom, other => other.isBottom
  | tags _, bottom => false
  | tags s, tags t =>
    decide (s.integrityTags = t.integrityTags) && decide (s.secrecyTags = t.secrecyTags)

def join : AbstractIfcTags → AbstractIfcTags → AbstractIfcTags
  | bottom, other => other
  | tags s, bottom => tags s
  | tags s, tags t => of (s.secrecyTags ∪ t.secrecyTags) (s.integrityTags ∩ t.integrityTags)

def setIntegrity (tag : TagId) : AbstractIfcTags → AbstractIfcTags
  | bottom => bottom
  | tags s => of s.secrecyTags (insert tag s.integrityTags)

def setSecrecy (tag : TagId) : AbstractIfcTags → AbstractIfcTags
  | bottom => bottom
  | tags s => of (insert tag s.secrecyTags) s.integrityTags

def clearSecrecy (tag : TagId) : AbstractIfcTags → AbstractIfcTags
  | bottom => bottom
  | tags s => of (s.secrecyTags.erase tag) s.integrityTags

def secrecyTags : AbstractIfcTags → Checked TagIdSet
  | bottom => .error "Cannot return secrecy tags for bottom."
  | tags s => .ok s.secrecyTags

def integrityTags : AbstractIfcTags → Checked TagIdSet
  | bottom => .error "Cannot return integrity tags for bottom."
  | tags s => .ok s.integrityTags

def hasIntegrity (tag : TagId) : AbstractIfcTags → Checked Bool
  | bottom => .error "Cannot check integrity for bottom."
  | tags s => .ok (decide (tag ∈ s.integrityTags))

def hasNoSecrecy : AbstractIfcTags → Checked Bool
  | bottom => .error "Cannot check secrecy for bottom."
  | tags s => .ok (decide (s.secrecyTags = ∅))

/-! ### The order -/

/-- `s ≤ t`: `t` has all secrecy tags of `s` and only integrity tags of `s`. -/
def le : AbstractIfcTags → AbstractIfcTags → Prop
  | bottom, _ => True
  | tags _, bottom => False
  | tags s, tags t => s.secrecyTags ⊆ t.secrecyTags ∧ t.integrityTags ⊆ s.integrityTags

instance : LE AbstractIfcTags := ⟨le⟩

@[simp] theorem tags_le_tags (s t : IfcTags) : (tags s ≤ tags t) ↔
    s.secrecyTags ⊆ t.secrecyTags ∧ t.integrityTags ⊆ s.integrityTags := Iff.rfl

@[simp] theorem tags_le_bottom (s : IfcTags) : ¬ tags s ≤ bottom := fun h => h

@[simp] theorem bottom_le' (a : AbstractIfcTags) : bottom ≤ a := trivial

theorem le_refl' (a : AbstractIfcTags) : a ≤ a := by
  cases a with
  | bottom => exact trivial
  | tags s => exact ⟨Finset.Subset.refl _, Finset.Subset.refl _⟩

theorem le_trans' (a b c : AbstractIfcTags) (hab : a ≤ b) (hbc : b ≤ c) : a ≤ c := by
  cases a with
  | bottom => exact trivial
  | tags s =>
    cases b with
    | bottom => exact absurd hab (tags_le_bottom s)
    | tags t =>
      cases c with
      | bottom => exact absurd hbc (tags_le_bottom t)
      | tags r => exact ⟨hab.1.trans hbc.1, hbc.2.trans hab.2⟩

theorem le_antisymm' (a b : AbstractIfcTags) (hab : a ≤ b) (hba : b ≤ a) : a = b := by
  cases a with
  | bottom =>
    cases b with
    | bottom => rfl
    | tags t => exact absurd hba (tags_le_bottom t)
  | tags s =>
    cases b with
    | bottom => exact absurd hab (tags_le_bottom s)
    | tags t =>
      obtain ⟨ss, si⟩ := s
      obtain ⟨ts, ti⟩ := t
      have hsec : ss = ts := Finset.Subset.antisymm hab.1 hba.1
      have hint : si = ti := Finset.Subset.antisymm hba.2 hab.2
      rw [hsec, hint]

theorem le_join_left (a b : AbstractIfcTags) : a ≤ a.join b := by
  cases a with
  | bottom => exact trivial
  | tags s =>
    cases b with
    | bottom => exact le_refl' _
    | tags t => exact ⟨Finset.subset_union_left, Finset.inter_subset_left⟩

theorem le_join_right (a b : AbstractIfcTags) : b ≤ a.join b := by
  cases a with
  | bottom => exact le_refl' b
  | tags s =>
    cases b with
    | bottom => exact trivial
    | tags t => exact ⟨Finset.subset_union_right, Finset.inter_subset_right⟩

theorem join_le (a b c : AbstractIfcTags) (hac : a ≤ c) (hbc : b ≤ c) : a.join b ≤ c := by
  cases a with
  | bottom => exact hbc
  | tags s =>
    cases b with
    | bottom => exact hac
    | tags t =>
      cases c with
      | bottom => exact absurd hac (tags_le_bottom s)
      | tags r =>
        exact ⟨Finset.union_subset hac.1 hbc.1, Finset.subset_inter hac.2 hbc.2⟩

instance : SemilatticeSup AbstractIfcTags where
  le_refl := le_refl'
  le_trans := le_trans'
  le_antisymm := le_antisymm'
  sup := join
  le_sup_left := le_join_left
  le_sup_right := le_join_right
  sup_le := join_le

instance : OrderBot AbstractIfcTags where
  bot := bottom
  bot_le := bottom_le'

theorem join_eq_sup (a b : AbstractIfcTags) : a.join b = a ⊔ b := rfl

theorem bottom_eq_bot : (bottom : AbstractIfcTags) = ⊥ := rfl

theorem isEquivalentTo_iff (a b : AbstractIfcTags) : a.isEquivalentTo b = true ↔ a = b := by
  cases a with
  | bottom => cases b <;> simp [isEquivalentTo, isBottom]
  | tags s =>
    cases b with
    | bottom => simp [isEquivalentTo]
    | tags t =>
      obtain ⟨ss, si⟩ := s
      obtain ⟨ts, ti⟩ := t
      simp [isEquivalentTo, and_comm]

@[simp] theorem isBottom_iff (a : AbstractIfcTags) : a.isBottom = true ↔ a = ⊥ := by
  cases a with
  | bottom => simp [isBottom, ← bottom_eq_bot]
  | tags s => simp [isBottom, ← bottom_eq_bot]

theorem ne_bot_iff (a : AbstractIfcTags) : a ≠ ⊥ ↔ ∃ s, a = tags s := by
  cases a with
  | bottom => simp [← bottom_eq_bot]
  | tags s => simp [← bottom_eq_bot]

@[simp] theorem tags_ne_bot (s : IfcTags) : tags s ≠ ⊥ := (ne_bot_iff _).mpr ⟨s, rfl⟩

@[simp] theorem of_ne_bot (s i : TagIdSet) : of s i ≠ ⊥ := tags_ne_bot _

theorem ne_bot_of_le {a b : AbstractIfcTags} (h : a ≤ b) (ha : a ≠ ⊥) : b ≠ ⊥ := by
  intro hb
  rw [hb] at h
  exact ha (le_bot_iff.mp h)

/-! ### Membership of tags -/

/-- The state is not bottom and has the secrecy tag. -/
def MemSecrecy (tag : TagId) (a : AbstractIfcTags) : Prop := ∃ s, a = tags s ∧ tag ∈ s.secrecyTags

/-- The state is bottom or has the integrity tag: premises read bottom in this way. -/
def AssumesIntegrity (tag : TagId) (a : AbstractIfcTags) : Prop :=
  ∀ s, a = tags s → tag ∈ s.integrityTags

theorem MemSecrecy.mono {tag : TagId} {a b : AbstractIfcTags} (h : a ≤ b)
    (ha : MemSecrecy tag a) : MemSecrecy tag b := by
  obtain ⟨s, rfl, hs⟩ := ha
  obtain ⟨t, rfl⟩ := (ne_bot_iff b).mp (ne_bot_of_le h (tags_ne_bot s))
  exact ⟨t, rfl, h.1 hs⟩

theorem AssumesIntegrity.anti {tag : TagId} {a b : AbstractIfcTags} (h : a ≤ b)
    (hb : AssumesIntegrity tag b) : AssumesIntegrity tag a := by
  rintro s rfl
  obtain ⟨t, rfl⟩ := (ne_bot_iff b).mp (ne_bot_of_le h (tags_ne_bot s))
  exact h.2 (hb t rfl)

end AbstractIfcTags

end Raksha.Taint
