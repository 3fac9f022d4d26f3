import Mathlib.Data.List.Basic
import Mathlib.Data.Set.Finite.Basic

/-!
# Least models of definite rules

A stratum of a Datalog program is a set of ground rules over atoms. Negated and aggregated
atoms belong to earlier strata, so a rule that has them is there or not; only the positive
atoms of the stratum itself are premises.
-/

namespace Datalog

/-- `rule head premises`: a ground instance of a rule of the stratum. -/
abbrev RuleSet (A : Type*) : Type _ := A → List A → Prop

/-- The atoms of the least model. -/
inductive Derivable {A : Type*} (rules : RuleSet A) : A → Prop
  | intro {head : A} {premises : List A} : rules head premises →
      (∀ p ∈ premises, Derivable rules p) → Derivable rules head

/-- A set of atoms that the rules do not lead out of. -/
def Model {A : Type*} (rules : RuleSet A) (I : A → Prop) : Prop :=
  ∀ head premises, rules head premises → (∀ p ∈ premises, I p) → I head

section

variable {A : Type*} {rules : RuleSet A}

theorem Derivable.model : Model rules (Derivable rules) :=
  fun _ _ hrule hpremises => .intro hrule hpremises

theorem Derivable.least {I : A → Prop} (hmodel : Model rules I) {a : A}
    (h : Derivable rules a) : I a := by
  induction h with
  | intro hrule _ ih => exact hmodel _ _ hrule ih

/-- Induction over derivations that may use that the head itself is derivable. -/
theorem Derivable.least_of_derivable {I : A → Prop} (hstep : ∀ head premises,
    rules head premises → Derivable rules head → (∀ p ∈ premises, I p) → I head) {a : A}
    (h : Derivable rules a) : I a := by
  have hmodel : Model rules fun a => Derivable rules a ∧ I a := by
    intro head premises hrule hpremises
    have hhead := Derivable.model head premises hrule fun p hp => (hpremises p hp).1
    exact ⟨hhead, hstep head premises hrule hhead fun p hp => (hpremises p hp).2⟩
  exact (h.least hmodel).2

theorem derivable_iff (a : A) :
    Derivable rules a ↔ ∃ premises, rules a premises ∧ ∀ p ∈ premises, Derivable rules p := by
  constructor
  · rintro ⟨hrule, hpremises⟩
    exact ⟨_, hrule, hpremises⟩
  · rintro ⟨premises, hrule, hpremises⟩
    exact .intro hrule hpremises

theorem Derivable.fact {a : A} (h : rules a []) : Derivable rules a :=
  .intro h fun _ hp => absurd hp List.not_mem_nil

theorem Derivable.step {a b : A} (hrule : rules a [b]) (hb : Derivable rules b) :
    Derivable rules a := by
  refine .intro hrule ?_
  intro p hp
  rwa [List.mem_singleton.mp hp]

theorem Derivable.step₂ {a b c : A} (hrule : rules a [b, c]) (hb : Derivable rules b)
    (hc : Derivable rules c) : Derivable rules a := by
  refine .intro hrule ?_
  intro p hp
  rcases List.mem_cons.mp hp with rfl | hp
  · exact hb
  · rwa [List.mem_singleton.mp hp]

/-! ### Evaluation in rounds -/

/-- The atoms that are derived after `n` rounds over all rules. -/
def rounds (rules : RuleSet A) : ℕ → Set A
  | 0 => ∅
  | n + 1 => {a | ∃ premises, rules a premises ∧ ∀ p ∈ premises, p ∈ rounds rules n}

theorem rounds_subset_succ (n : ℕ) : rounds rules n ⊆ rounds rules (n + 1) := by
  induction n with
  | zero => exact Set.empty_subset _
  | succ n ih =>
    rintro a ⟨premises, hrule, hpremises⟩
    exact ⟨premises, hrule, fun p hp => ih (hpremises p hp)⟩

theorem rounds_mono {m n : ℕ} (h : m ≤ n) : rounds rules m ⊆ rounds rules n := by
  induction h with
  | refl => exact Set.Subset.refl _
  | step _ ih => exact Set.Subset.trans ih (rounds_subset_succ _)

theorem derivable_of_mem_rounds {n : ℕ} {a : A} (h : a ∈ rounds rules n) :
    Derivable rules a := by
  induction n generalizing a with
  | zero => cases h
  | succ n ih =>
    obtain ⟨premises, hrule, hpremises⟩ := h
    exact .intro hrule fun p hp => ih (hpremises p hp)

/-- Finitely many atoms that are derived in some round are all derived in one. -/
theorem exists_common_round {l : List A} (h : ∀ a ∈ l, ∃ n, a ∈ rounds rules n) :
    ∃ n, ∀ a ∈ l, a ∈ rounds rules n := by
  induction l with
  | nil => exact ⟨0, by simp⟩
  | cons a l ih =>
    obtain ⟨m, hm⟩ := h a (List.mem_cons_self ..)
    obtain ⟨n, hn⟩ := ih fun b hb => h b (List.mem_cons_of_mem _ hb)
    refine ⟨max m n, ?_⟩
    intro b hb
    rcases List.mem_cons.mp hb with rfl | hb
    · exact rounds_mono (le_max_left m n) hm
    · exact rounds_mono (le_max_right m n) (hn b hb)

theorem Derivable.exists_round {a : A} (h : Derivable rules a) : ∃ n, a ∈ rounds rules n := by
  induction h with
  | intro hrule _ ih =>
    obtain ⟨n, hn⟩ := exists_common_round ih
    exact ⟨n + 1, _, hrule, hn⟩

/-- The rounds of rules with finitely many consequences end with all of them. -/
theorem rounds_eventually (hfinite : {a | Derivable rules a}.Finite) :
    ∃ n, ∀ m ≥ n, rounds rules m = {a | Derivable rules a} := by
  have hall : ∀ a ∈ hfinite.toFinset.toList, ∃ n, a ∈ rounds rules n := by
    intro a ha
    rw [Finset.mem_toList, hfinite.mem_toFinset] at ha
    exact Derivable.exists_round ha
  obtain ⟨n, hn⟩ := exists_common_round hall
  refine ⟨n, fun m hm => Set.Subset.antisymm (fun _ => derivable_of_mem_rounds) ?_⟩
  intro a ha
  refine rounds_mono hm (hn a ?_)
  rw [Finset.mem_toList, hfinite.mem_toFinset]
  exact ha

end

end Datalog
