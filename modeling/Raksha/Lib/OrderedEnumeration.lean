import Mathlib.Data.Finset.Max
import Mathlib.Data.Set.Card
import Mathlib.Data.Set.Finite.Lemmas
import Mathlib.Order.Bounds.Basic
import Mathlib.Order.Interval.Finset.Nat

/-!
# Numbering the elements of a finite set

Datalog numbers the elements of a set by an injective rank: the element of least rank has
number 0, and the element of least rank above that of element `n` has number `n + 1`. Every
element of a finite set has exactly one number, and the numbers start at 0 without a gap. A
property that is checked for one number after the other holds for the whole set.
-/

namespace OrderedEnumeration

variable {α : Type*} (rank : α → ℕ) (s : Set α)

/-- `a` has the least rank among the elements with the property. -/
def IsLeastRanked (p : α → Prop) (a : α) : Prop := p a ∧ ∀ b, p b → rank a ≤ rank b

/-- `a` is element number `n`. -/
inductive Numbered : α → ℕ → Prop
  | zero {a : α} : IsLeastRanked rank (· ∈ s) a → Numbered a 0
  | succ {a b : α} {n : ℕ} : Numbered a n →
      IsLeastRanked rank (fun c => c ∈ s ∧ rank a < rank c) b → Numbered b (n + 1)

variable {rank s}

theorem IsLeastRanked.unique (hrank : Function.Injective rank) {p : α → Prop} {a b : α}
    (ha : IsLeastRanked rank p a) (hb : IsLeastRanked rank p b) : a = b :=
  hrank (Nat.le_antisymm (ha.2 b hb.1) (hb.2 a ha.1))

theorem Numbered.mem {a : α} {n : ℕ} (h : Numbered rank s a n) : a ∈ s := by
  cases h with
  | zero h => exact h.1
  | succ _ h => exact h.1.1

theorem Numbered.unique (hrank : Function.Injective rank) {a b : α} {n : ℕ}
    (ha : Numbered rank s a n) (hb : Numbered rank s b n) : a = b := by
  induction n generalizing a b with
  | zero =>
    cases ha with
    | zero ha =>
      cases hb with
      | zero hb => exact ha.unique hrank hb
  | succ n ih =>
    cases ha with
    | succ hpa ha =>
      cases hb with
      | succ hpb hb =>
        rw [ih hpa hpb] at ha
        exact ha.unique hrank hb

theorem Numbered.lt_of_lt (hrank : Function.Injective rank) {a b : α} {m n : ℕ}
    (ha : Numbered rank s a m) (hb : Numbered rank s b n) (hlt : m < n) : rank a < rank b := by
  induction n generalizing b with
  | zero => omega
  | succ n ih =>
    cases hb with
    | succ hprev hnext =>
      rcases Nat.lt_or_ge m n with hmn | hmn
      · exact Nat.lt_trans (ih hprev hmn) hnext.1.2
      · have heq : m = n := by omega
        subst heq
        rw [ha.unique hrank hprev]
        exact hnext.1.2

theorem Numbered.number_unique (hrank : Function.Injective rank) {a : α} {m n : ℕ}
    (hm : Numbered rank s a m) (hn : Numbered rank s a n) : m = n := by
  rcases Nat.lt_trichotomy m n with hlt | heq | hgt
  · exact absurd (hm.lt_of_lt hrank hn hlt) (Nat.lt_irrefl _)
  · exact heq
  · exact absurd (hn.lt_of_lt hrank hm hgt) (Nat.lt_irrefl _)

theorem exists_numbered (hs : s.Finite) {a : α} (ha : a ∈ s) :
    ∃ n, Numbered rank s a n := by
  obtain ⟨k, hk⟩ : ∃ k, rank a = k := ⟨_, rfl⟩
  induction k using Nat.strong_induction_on generalizing a with
  | _ k ih =>
    by_cases hbelow : ∃ b ∈ s, rank b < rank a
    · -- The predecessor of `a` is the element of greatest rank below it.
      have hfin : {b | b ∈ s ∧ rank b < rank a}.Finite := hs.subset fun b hb => hb.1
      obtain ⟨b, hb, hmax⟩ := Set.exists_max_image _ rank hfin hbelow
      obtain ⟨n, hn⟩ := ih (rank b) (hk ▸ hb.2) hb.1 rfl
      refine ⟨n + 1, Numbered.succ hn ⟨⟨ha, hb.2⟩, ?_⟩⟩
      intro c hc
      by_contra hlt
      have hle := hmax c ⟨hc.1, by omega⟩
      omega
    · push Not at hbelow
      exact ⟨0, Numbered.zero ⟨ha, hbelow⟩⟩

theorem exists_isGreatest (hs : s.Finite) (hrank : Function.Injective rank) (hne : s.Nonempty) :
    ∃ n, IsGreatest {n | ∃ a, Numbered rank s a n} n := by
  obtain ⟨a, ha, hmax⟩ := Set.exists_max_image s rank hs hne
  obtain ⟨n, hn⟩ := exists_numbered hs ha
  refine ⟨n, ⟨a, hn⟩, ?_⟩
  rintro m ⟨b, hb⟩
  by_contra hlt
  have hrank' := hn.lt_of_lt hrank hb (by omega)
  have hle := hmax b hb.mem
  omega

theorem mem_iff_numbered_le (hs : s.Finite) {n : ℕ}
    (hn : IsGreatest {n | ∃ a, Numbered rank s a n} n) (a : α) :
    a ∈ s ↔ ∃ m ≤ n, Numbered rank s a m := by
  constructor
  · intro ha
    obtain ⟨m, hm⟩ := exists_numbered hs ha
    exact ⟨m, hn.2 ⟨a, hm⟩, hm⟩
  · rintro ⟨m, -, hm⟩
    exact hm.mem

theorem Numbered.exists_le {b : α} {m n : ℕ} (hb : Numbered rank s b n) (hle : m ≤ n) :
    ∃ a, Numbered rank s a m := by
  induction hb with
  | zero h =>
    cases Nat.le_zero.mp hle
    exact ⟨_, .zero h⟩
  | @succ a b n hprev hnext ih =>
    rcases Nat.lt_or_ge n m with hlt | hge
    · have heq : m = n + 1 := by omega
      exact ⟨b, heq ▸ .succ hprev hnext⟩
    · exact ih hge

theorem ncard_eq (hs : s.Finite) (hrank : Function.Injective rank) {n : ℕ}
    (hn : IsGreatest {n | ∃ a, Numbered rank s a n} n) : s.ncard = n + 1 := by
  choose number hnumber using fun (a : α) (ha : a ∈ s) => exists_numbered hs ha
  have hcongr : s.ncard = (Set.Iic n).ncard := by
    refine Set.ncard_congr number ?_ ?_ ?_
    · intro a ha
      exact hn.2 ⟨a, hnumber a ha⟩
    · intro a b ha hb heq
      exact (hnumber a ha).unique hrank (heq ▸ hnumber b hb)
    · intro m hm
      obtain ⟨last, hlast⟩ := hn.1
      obtain ⟨a, ha⟩ := hlast.exists_le hm
      exact ⟨a, ha.mem, (hnumber a ha.mem).number_unique hrank ha⟩
  have hcoe : (Set.Iic n : Set ℕ) = (Finset.Iic n : Finset ℕ) := by simp
  rw [hcongr, hcoe, Set.ncard_coe_finset, Nat.card_Iic]

theorem exists_numbered_iff (hs : s.Finite) (hrank : Function.Injective rank) (m : ℕ) :
    (∃ a, Numbered rank s a m) ↔ m < s.ncard := by
  rcases s.eq_empty_or_nonempty with hempty | hne
  · rw [hempty, Set.ncard_empty]
    exact iff_of_false (fun ⟨a, ha⟩ => ha.mem) (Nat.not_lt_zero m)
  · obtain ⟨n, hn⟩ := exists_isGreatest hs hrank hne
    rw [ncard_eq hs hrank hn, Nat.lt_succ_iff]
    refine ⟨fun hm => hn.2 hm, ?_⟩
    intro hle
    obtain ⟨last, hlast⟩ := hn.1
    exact hlast.exists_le hle

end OrderedEnumeration
