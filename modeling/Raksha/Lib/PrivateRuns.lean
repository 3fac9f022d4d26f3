import Mathlib.Analysis.SpecialFunctions.Exp
import Mathlib.Probability.ProbabilityMassFunction.Constructions

/-!
# Private runs

Two runs of a randomized program from related states. A relation is lifted to the distributions
of the outcomes at a price: the probabilities agree up to the exponential of the price. The prices
of successive steps add up.
-/

namespace PrivateRuns
open scoped ENNReal

/-- The factor by which probabilities may differ at a price. -/
noncomputable def factor (ε : ℝ) : ℝ≥0∞ := ENNReal.ofReal (Real.exp ε)

@[simp] theorem factor_zero : factor 0 = 1 := by simp [factor]

theorem factor_add (ε δ : ℝ) : factor (ε + δ) = factor ε * factor δ := by
  rw [factor, Real.exp_add, ENNReal.ofReal_mul (Real.exp_nonneg ε), factor, factor]

theorem factor_mono {ε δ : ℝ} (h : ε ≤ δ) : factor ε ≤ factor δ :=
  ENNReal.ofReal_le_ofReal (Real.exp_le_exp.mpr h)

section expectation

variable {α β : Type*}

noncomputable def expectation (p : PMF α) (f : α → ℝ≥0∞) : ℝ≥0∞ := tsum fun a => p a * f a

theorem expectation_mono (p : PMF α) {f g : α → ℝ≥0∞} (h : ∀ a, f a ≤ g a) :
    expectation p f ≤ expectation p g :=
  ENNReal.tsum_le_tsum fun a => mul_le_mul_right (h a) (p a)

@[simp] theorem expectation_const (p : PMF α) (c : ℝ≥0∞) : expectation p (fun _ => c) = c := by
  rw [expectation, ENNReal.tsum_mul_right, p.tsum_coe, one_mul]

theorem expectation_mul_left (p : PMF α) (c : ℝ≥0∞) (f : α → ℝ≥0∞) :
    expectation p (fun a => c * f a) = c * expectation p f := by
  simp only [expectation, mul_left_comm _ c]
  exact ENNReal.tsum_mul_left

@[simp] theorem expectation_pure (a : α) (f : α → ℝ≥0∞) : expectation (PMF.pure a) f = f a := by
  classical
  rw [expectation, tsum_eq_single a]
  · simp
  · intro b hb
    simp [PMF.pure_apply, hb]

theorem expectation_bind (p : PMF α) (k : α → PMF β) (f : β → ℝ≥0∞) :
    expectation (p.bind k) f = expectation p fun a => expectation (k a) f := by
  simp only [expectation, PMF.bind_apply, ← ENNReal.tsum_mul_right, ← ENNReal.tsum_mul_left]
  rw [ENNReal.tsum_comm]
  simp only [mul_assoc]

theorem expectation_map (p : PMF α) (h : α → β) (f : β → ℝ≥0∞) :
    expectation (p.map h) f = expectation p fun a => f (h a) := by
  simp only [PMF.map, expectation_bind, Function.comp_apply, expectation_pure]

theorem toOuterMeasure_eq_expectation (p : PMF α) (s : Set α) :
    p.toOuterMeasure s = expectation p (s.indicator 1) := by
  rw [PMF.toOuterMeasure_apply, expectation]
  refine tsum_congr fun a => ?_
  by_cases ha : a ∈ s <;> simp [ha]

end expectation

/-- What holds of related outcomes carries over at the price. -/
def Lifted {α β : Type*} (ε : ℝ) (R : α → β → Prop) (p : PMF α) (q : PMF β) : Prop :=
  ∀ (f : α → ℝ≥0∞) (g : β → ℝ≥0∞), (∀ a b, R a b → f a ≤ g b) →
    expectation p f ≤ factor ε * expectation q g

/-- No event is more probable than the other distribution allows at the price. -/
def DifferentiallyPrivate {α : Type*} (ε : ℝ) (p q : PMF α) : Prop :=
  ∀ s : Set α, p.toOuterMeasure s ≤ factor ε * q.toOuterMeasure s

section

variable {α β γ δ : Type*} {ε η : ℝ} {R : α → β → Prop} {S : γ → δ → Prop}

theorem Lifted.pure {a : α} {b : β} (h : R a b) : Lifted 0 R (PMF.pure a) (PMF.pure b) := by
  intro f g hfg
  rw [expectation_pure, expectation_pure, factor_zero, one_mul]
  exact hfg a b h

theorem Lifted.mono {R' : α → β → Prop} {p : PMF α} {q : PMF β} (h : Lifted ε R p q)
    (hprice : ε ≤ η) (himp : ∀ a b, R a b → R' a b) : Lifted η R' p q := by
  intro f g hfg
  calc expectation p f ≤ factor ε * expectation q g := h f g fun a b hab => hfg a b (himp a b hab)
    _ ≤ factor η * expectation q g := mul_le_mul_left (factor_mono hprice) _

theorem Lifted.bind {p : PMF α} {q : PMF β} {k : α → PMF γ} {l : β → PMF δ}
    (h : Lifted ε R p q) (hk : ∀ a b, R a b → Lifted η S (k a) (l b)) :
    Lifted (ε + η) S (p.bind k) (q.bind l) := by
  intro f g hfg
  have hstep : ∀ a b, R a b → expectation (k a) f ≤ factor η * expectation (l b) g :=
    fun a b hab => hk a b hab f g hfg
  calc expectation (p.bind k) f
      = expectation p fun a => expectation (k a) f := expectation_bind p k f
    _ ≤ factor ε * expectation q fun b => factor η * expectation (l b) g := h _ _ hstep
    _ = factor (ε + η) * expectation (q.bind l) g := by
        rw [expectation_mul_left, expectation_bind, factor_add, mul_assoc]

theorem Lifted.map {p : PMF α} {q : PMF β} {h : α → γ} {k : β → δ} (hlift : Lifted ε R p q)
    (himp : ∀ a b, R a b → S (h a) (k b)) : Lifted ε S (p.map h) (q.map k) := by
  intro f g hfg
  rw [expectation_map, expectation_map]
  exact hlift _ _ fun a b hab => hfg _ _ (himp a b hab)

/-- Outcomes without a relation cost nothing. -/
theorem Lifted.unrelated (p : PMF α) (q : PMF β) : Lifted 0 (fun _ _ => True) p q := by
  intro f g hfg
  have hbound : ∀ b, expectation p f ≤ g b := by
    intro b
    calc expectation p f ≤ expectation p fun _ => g b := expectation_mono p fun a => hfg a b trivial
      _ = g b := expectation_const p _
  calc expectation p f = expectation q fun _ => expectation p f := (expectation_const q _).symm
    _ ≤ expectation q g := expectation_mono q hbound
    _ = factor 0 * expectation q g := by rw [factor_zero, one_mul]

/-! ### Differential privacy -/

theorem differentiallyPrivate_iff {p q : PMF α} :
    DifferentiallyPrivate ε p q ↔ ∀ a, p a ≤ factor ε * q a := by
  constructor
  · intro h a
    have hevent := h {a}
    rwa [PMF.toOuterMeasure_apply_singleton, PMF.toOuterMeasure_apply_singleton] at hevent
  · intro h s
    rw [PMF.toOuterMeasure_apply, PMF.toOuterMeasure_apply, ← ENNReal.tsum_mul_left]
    refine ENNReal.tsum_le_tsum fun a => ?_
    by_cases ha : a ∈ s
    · rw [Set.indicator_of_mem ha, Set.indicator_of_mem ha]
      exact h a
    · rw [Set.indicator_of_notMem ha]
      exact zero_le

theorem DifferentiallyPrivate.lifted {p q : PMF α} (h : DifferentiallyPrivate ε p q) :
    Lifted ε Eq p q := by
  intro f g hfg
  rw [expectation, expectation, ← ENNReal.tsum_mul_left]
  refine ENNReal.tsum_le_tsum fun a => ?_
  calc p a * f a ≤ factor ε * q a * g a :=
        mul_le_mul' (differentiallyPrivate_iff.mp h a) (hfg a a rfl)
    _ = factor ε * (q a * g a) := mul_assoc _ _ _

theorem DifferentiallyPrivate.refl (p : PMF α) : DifferentiallyPrivate 0 p p := by
  intro s
  rw [factor_zero, one_mul]

theorem DifferentiallyPrivate.mono {p q : PMF α} (h : DifferentiallyPrivate ε p q)
    (hprice : ε ≤ η) : DifferentiallyPrivate η p q :=
  fun s => (h s).trans (mul_le_mul_left (factor_mono hprice) _)

theorem DifferentiallyPrivate.map {p q : PMF α} (h : DifferentiallyPrivate ε p q) (k : α → γ) :
    DifferentiallyPrivate ε (p.map k) (q.map k) := by
  intro s
  rw [PMF.toOuterMeasure_map_apply, PMF.toOuterMeasure_map_apply]
  exact h _

/-- What related outcomes agree on is private. -/
theorem Lifted.differentiallyPrivate {R : α → α → Prop} {p q : PMF α} (h : Lifted ε R p q)
    {observe : α → γ} (hobserve : ∀ a b, R a b → observe a = observe b) :
    DifferentiallyPrivate ε (p.map observe) (q.map observe) := by
  intro s
  rw [toOuterMeasure_eq_expectation, toOuterMeasure_eq_expectation]
  refine (h.map (S := Eq) hobserve) _ _ ?_
  rintro a b rfl
  exact le_refl _

end

/-! ### Sequences of steps -/

section

variable {α ι : Type*}

noncomputable def runs (step : ι → α → PMF α) : List ι → α → PMF α
  | [], a => PMF.pure a
  | i :: l, a => (step i a).bind (runs step l)

/-- Sequential composition. -/
theorem Lifted.runs {step : ι → α → PMF α} {R : α → α → Prop} {price : ι → ℝ} {l : List ι}
    (hstep : ∀ i ∈ l, ∀ a b, R a b → Lifted (price i) R (step i a) (step i b)) {a b : α}
    (h : R a b) : Lifted (l.map price).sum R (runs step l a) (runs step l b) := by
  induction l generalizing a b with
  | nil => exact .pure h
  | cons i l ih =>
    rw [List.map_cons, List.sum_cons]
    refine (hstep i (List.mem_cons_self ..) a b h).bind ?_
    intro a' b' h'
    exact ih (fun j hj => hstep j (List.mem_cons_of_mem _ hj)) h'

end

end PrivateRuns
