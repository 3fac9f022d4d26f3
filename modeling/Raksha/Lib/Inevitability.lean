import Mathlib.Logic.Function.Iterate
import Mathlib.Tactic.ByContra
import Mathlib.Tactic.Choose
import Mathlib.Tactic.Push

/-!
# Inevitable goals

A walk follows a relation for as long as it can. A goal is inevitable when every walk gets there
without running into an obstacle or a dead end before. The inductive reading, in which the goal
is inevitable from all successors, is the same.
-/

namespace Inevitability

section

variable {A : Type*} (next : A → A → Prop) (goal obstacle : A → Prop)

/-- The sequence follows the relation, and stays where it cannot go on. -/
def Walk (walk : ℕ → A) : Prop :=
  ∀ n, next (walk n) (walk (n + 1)) ∨ (¬ ∃ b, next (walk n) b) ∧ walk (n + 1) = walk n

/-- Every walk from `a` reaches a goal, with neither an obstacle nor a dead end before it. -/
def AllWalksReach (a : A) : Prop :=
  ∀ walk, Walk next walk → walk 0 = a →
    ∃ n, goal (walk n) ∧ ∀ m < n, (∃ b, next (walk m) b) ∧ ¬ obstacle (walk m)

inductive Inevitable : A → Prop
  | goal {a : A} : goal a → Inevitable a
  | next {a : A} : ¬ obstacle a → (∃ b, next a b) → (∀ b, next a b → Inevitable b) →
      Inevitable a

variable {next goal obstacle}

theorem Inevitable.allWalksReach {a : A} (h : Inevitable next goal obstacle a) :
    AllWalksReach next goal obstacle a := by
  induction h with
  | goal hgoal =>
    intro walk _ hstart
    exact ⟨0, hstart ▸ hgoal, fun m hm => absurd hm (Nat.not_lt_zero m)⟩
  | @next a hclear hex _ ih =>
    intro walk hwalk hstart
    have hstep : next a (walk 1) := by
      rcases hwalk 0 with hnext | ⟨hdead, -⟩
      · rwa [hstart] at hnext
      · rw [hstart] at hdead
        exact absurd hex hdead
    obtain ⟨n, hgoal, hbefore⟩ :=
      ih (walk 1) hstep (fun n => walk (n + 1)) (fun n => hwalk (n + 1)) rfl
    refine ⟨n + 1, hgoal, ?_⟩
    intro m hm
    cases m with
    | zero =>
      rw [hstart]
      exact ⟨hex, hclear⟩
    | succ m => exact hbefore m (Nat.lt_of_succ_lt_succ hm)

variable (next goal obstacle) in
/-- From where the goal is not inevitable, a walk can avoid it: it goes on to such a successor,
or to any when it stands on an obstacle. -/
theorem exists_avoiding (a : A) : ∃ b, (next a b ∨ (¬ ∃ b, next a b) ∧ b = a) ∧
    (¬ Inevitable next goal obstacle a → (∃ b, next a b) → ¬ obstacle a →
      ¬ Inevitable next goal obstacle b) := by
  by_cases hex : ∃ b, next a b
  · by_cases hall : ∀ b, next a b → Inevitable next goal obstacle b
    · obtain ⟨b, hb⟩ := hex
      exact ⟨b, Or.inl hb, fun hnot hex hclear => absurd (.next hclear hex hall) hnot⟩
    · push Not at hall
      obtain ⟨b, hb, hnot⟩ := hall
      exact ⟨b, Or.inl hb, fun _ _ _ => hnot⟩
  · exact ⟨a, Or.inr ⟨hex, rfl⟩, fun _ h => absurd h hex⟩

theorem inevitable_iff (a : A) :
    Inevitable next goal obstacle a ↔ AllWalksReach next goal obstacle a := by
  refine ⟨Inevitable.allWalksReach, ?_⟩
  intro hreach
  by_contra hnot
  choose avoid hfollows havoids using exists_avoiding next goal obstacle
  let walk : ℕ → A := fun n => avoid^[n] a
  have hsucc : ∀ n, walk (n + 1) = avoid (walk n) := fun n => Function.iterate_succ_apply' avoid n a
  have hwalk : Walk next walk := by
    intro n
    rw [hsucc]
    exact hfollows (walk n)
  obtain ⟨n, hgoal, hbefore⟩ := hreach walk hwalk rfl
  have hnever : ∀ m ≤ n, ¬ Inevitable next goal obstacle (walk m) := by
    intro m
    induction m with
    | zero => exact fun _ => hnot
    | succ m ih =>
      intro hm
      obtain ⟨hex, hclear⟩ := hbefore m hm
      rw [hsucc]
      exact havoids (walk m) (ih (Nat.le_of_succ_le hm)) hex hclear
  exact hnever n (Nat.le_refl n) (.goal hgoal)

end

end Inevitability
