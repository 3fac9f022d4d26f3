import Mathlib.Data.Set.Card
import Mathlib.Logic.Equiv.Basic

/-!
# Shared ownership

Pointers that hold objects, and a count for every object that exists. The rules say how the number
of owners follows a pointer that is set, cleared or exchanged with another, and when a count is
right again afterwards.
-/

namespace Raksha.Lib.Ownership
open Function

variable {P O : Type*}

def owners (holds : P → Option O) (o : O) : Set P := {p | holds p = some o}

def Owned (holds : P → Option O) (o : O) : Prop := ∃ p, holds p = some o

theorem owned_iff {holds : P → Option O} {o : O} : Owned holds o ↔ (owners holds o).encard ≠ 0 := by
  rw [Set.encard_ne_zero]
  rfl

theorem owners_exchange [DecidableEq P] (holds : P → Option O) (p q : P) (o : O) :
    (owners (holds ∘ Equiv.swap p q) o).encard = (owners holds o).encard := by
  have hpreimage : owners (holds ∘ Equiv.swap p q) o =
      Set.preimage (Equiv.swap p q) (owners holds o) := rfl
  rw [hpreimage]
  refine Set.encard_preimage_of_injective_subset_range (Equiv.swap p q).injective ?_
  rw [(Equiv.swap p q).surjective.range_eq]
  exact Set.subset_univ _

theorem owned_exchange [DecidableEq P] (holds : P → Option O) (p q : P) (o : O) :
    Owned (holds ∘ Equiv.swap p q) o ↔ Owned holds o := by
  rw [owned_iff, owned_iff, owners_exchange]

theorem exchange_eq [DecidableEq P] (holds : P → Option O) (p q : P) :
    update (update holds q (holds p)) p (holds q) = holds ∘ Equiv.swap p q := by
  funext r
  by_cases hp : r = p
  · rw [hp, update_self, comp_apply, Equiv.swap_apply_left]
  · rw [update_of_ne hp]
    by_cases hq : r = q
    · rw [hq, update_self, comp_apply, Equiv.swap_apply_right]
    · rw [update_of_ne hq, comp_apply, Equiv.swap_apply_of_ne_of_ne hp hq]

section

variable [DecidableEq P] {holds : P → Option O} {p : P} {o o' : O}

theorem owners_set :
    owners (update holds p (some o)) o = insert p (owners holds o) := by
  ext q
  by_cases hq : q = p
  · simp [owners, hq]
  · simp [owners, hq]

theorem owners_set_of_ne (hp : holds p = none) (hne : o' ≠ o) :
    owners (update holds p (some o)) o' = owners holds o' := by
  ext q
  by_cases hq : q = p
  · simp [owners, hq, hp, hne.symm]
  · simp [owners, hq]

theorem owned_set (hp : holds p = none) :
    Owned (update holds p (some o)) o' ↔ Owned holds o' ∨ o = o' := by
  by_cases hne : o' = o
  · subst hne
    exact iff_of_true ⟨p, update_self ..⟩ (.inr rfl)
  · rw [owned_iff, owners_set_of_ne hp hne, ← owned_iff]
    exact (or_iff_left (Ne.symm hne)).symm

theorem owners_clear : owners (update holds p none) o = owners holds o \ {p} := by
  ext q
  by_cases hq : q = p
  · simp [owners, hq]
  · simp [owners, hq]

theorem owners_clear_of_ne (hp : holds p = some o) (hne : o' ≠ o) :
    owners (update holds p none) o' = owners holds o' := by
  rw [owners_clear]
  refine Set.sdiff_singleton_eq_self ?_
  intro hmem
  exact hne (Option.some.inj (hmem.symm.trans hp))

theorem encard_owners_set (hp : holds p = none) :
    (owners (update holds p (some o)) o).encard = (owners holds o).encard + 1 := by
  rw [owners_set]
  refine Set.encard_insert_of_notMem ?_
  intro hmem
  cases hp.symm.trans hmem

theorem encard_owners_clear (hp : holds p = some o) :
    (owners (update holds p none) o).encard + 1 = (owners holds o).encard := by
  rw [owners_clear]
  exact Set.encard_sdiff_singleton_add_one hp

end

/-! ### Counts -/

/-- The count of every object is the number of its owners, and only objects with a count are
held. -/
structure Balanced (count : O → Option ℕ) (holds : P → Option O) : Prop where
  counts : ∀ o n, count o = some n → (owners holds o).encard = n
  live : ∀ p o, holds p = some o → count o ≠ none

namespace Balanced

section

variable {count : O → Option ℕ} {holds : P → Option O} {p : P} {o : O} {n : ℕ}

theorem exchange [DecidableEq P] (h : Balanced count holds) (p q : P) :
    Balanced count (holds ∘ Equiv.swap p q) where
  counts := fun o n hn => (owners_exchange holds p q o).trans (h.counts o n hn)
  live := fun r o hr => h.live (Equiv.swap p q r) o hr

theorem allocate [DecidableEq O] (h : Balanced count holds) (hn : count o = none) :
    Balanced (update count o (some 0)) holds where
  counts := by
    intro o' m hm
    by_cases hne : o' = o
    · rw [hne, update_self] at hm
      cases hm
      rw [hne, Nat.cast_zero, Set.encard_eq_zero]
      refine Set.eq_empty_of_forall_notMem fun p hp => ?_
      exact h.live p o hp hn
    · rw [update_of_ne hne] at hm
      exact h.counts o' m hm
  live := by
    intro p o' hp
    by_cases hne : o' = o
    · rw [hne, update_self]
      exact Option.some_ne_none 0
    · rw [update_of_ne hne]
      exact h.live p o' hp

theorem pos (h : Balanced count holds) (hp : holds p = some o) (hn : count o = some n) :
    1 ≤ n := by
  have howned := owned_iff.mp ⟨p, hp⟩
  rw [h.counts o n hn] at howned
  refine Nat.one_le_iff_ne_zero.mpr ?_
  rintro rfl
  exact howned Nat.cast_zero

variable [DecidableEq P]

theorem encard_release (h : Balanced count holds) (hp : holds p = some o)
    (hn : count o = some (n + 1)) : (owners (update holds p none) o).encard = n := by
  have hsum := encard_owners_clear hp
  rw [h.counts o _ hn, Nat.cast_add, Nat.cast_one] at hsum
  exact WithTop.add_right_cancel ENat.one_ne_top hsum

theorem owned_release_iff (h : Balanced count holds) (hp : holds p = some o)
    (hn : count o = some (n + 1)) : Owned (update holds p none) o ↔ n ≠ 0 := by
  rw [owned_iff, h.encard_release hp hn, Nat.cast_ne_zero]

variable [DecidableEq O]

theorem acquire (h : Balanced count holds) (hp : holds p = none) (hn : count o = some n) :
    Balanced (update count o (some (n + 1))) (update holds p (some o)) where
  counts := by
    intro o' m hm
    by_cases hne : o' = o
    · rw [hne, update_self] at hm
      cases hm
      rw [hne, encard_owners_set hp, h.counts o n hn, Nat.cast_add, Nat.cast_one]
    · rw [update_of_ne hne] at hm
      rw [owners_set_of_ne hp hne]
      exact h.counts o' m hm
  live := by
    intro q o' hq
    by_cases hne : o' = o
    · rw [hne, update_self]
      exact Option.some_ne_none _
    · rw [update_of_ne hne]
      by_cases heq : q = p
      · rw [heq, update_self] at hq
        exact absurd (Option.some.inj hq).symm hne
      · rw [update_of_ne heq] at hq
        exact h.live q o' hq

/-- The owner is cleared, and the object keeps the smaller count or goes away with its last
owner. -/
theorem release (h : Balanced count holds) (hp : holds p = some o) (hn : count o = some (n + 1))
    (rest : Option ℕ) (hrest : rest = if n = 0 then none else some n) :
    Balanced (update count o rest) (update holds p none) where
  counts := by
    intro o' m hm
    by_cases hne : o' = o
    · rw [hne, update_self, hrest] at hm
      split at hm
      · cases hm
      · cases hm
        rw [hne]
        exact h.encard_release hp hn
    · rw [update_of_ne hne] at hm
      rw [owners_clear_of_ne hp hne]
      exact h.counts o' m hm
  live := by
    intro q o' hq
    have howned : Owned (update holds p none) o' := ⟨q, hq⟩
    by_cases hne : o' = o
    · rw [hne, h.owned_release_iff hp hn] at howned
      rw [hne, update_self, hrest, if_neg howned]
      exact Option.some_ne_none n
    · rw [update_of_ne hne]
      by_cases heq : q = p
      · rw [heq, update_self] at hq
        cases hq
      · rw [update_of_ne heq] at hq
        exact h.live q o' hq

end

end Balanced

/-! ### Objects that lose their owners -/

/-- Objects only lose owners, and those that lose the last one are deleted. -/
structure Sheds (holds : P → Option O) (deleted : Set O) (holds' : P → Option O)
    (deleted' : Set O) : Prop where
  owned : ∀ o, Owned holds' o → Owned holds o
  deleted : ∀ o, o ∈ deleted' ↔ o ∈ deleted ∨ (Owned holds o ∧ ¬ Owned holds' o)

namespace Sheds

theorem refl (holds : P → Option O) (deleted : Set O) : Sheds holds deleted holds deleted where
  owned := fun _ h => h
  deleted := by simp

theorem trans {holds holds' holds'' : P → Option O} {deleted deleted' deleted'' : Set O}
    (h : Sheds holds deleted holds' deleted') (h' : Sheds holds' deleted' holds'' deleted'') :
    Sheds holds deleted holds'' deleted'' where
  owned := fun o ho => h.owned o (h'.owned o ho)
  deleted := by
    intro o
    have hfirst := h.owned o
    have hsecond := h'.owned o
    rw [h'.deleted, h.deleted]
    tauto

/-- A pointer that is cleared takes along the object that it held as the last one. -/
theorem release [DecidableEq P] {count : O → Option ℕ} {holds : P → Option O} {p : P} {o : O}
    {n : ℕ} (h : Balanced count holds) (hp : holds p = some o) (hn : count o = some (n + 1))
    (deleted deleted' : Set O)
    (hdeleted : ∀ o', o' ∈ deleted' ↔ o' ∈ deleted ∨ (o' = o ∧ n = 0)) :
    Sheds holds deleted (update holds p none) deleted' where
  owned := by
    rintro o' ⟨q, hq⟩
    by_cases heq : q = p
    · rw [heq, update_self] at hq
      cases hq
    · rw [update_of_ne heq] at hq
      exact ⟨q, hq⟩
  deleted := by
    intro o'
    rw [hdeleted]
    refine or_congr_right ?_
    by_cases hne : o' = o
    · have hafter := h.owned_release_iff hp hn
      have hbefore : Owned holds o := ⟨p, hp⟩
      subst hne
      tauto
    · have hsame : Owned (update holds p none) o' ↔ Owned holds o' := by
        rw [owned_iff, owned_iff, owners_clear_of_ne hp hne]
      rw [hsame]
      tauto

end Sheds

end Raksha.Lib.Ownership
