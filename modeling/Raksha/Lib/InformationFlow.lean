import Mathlib.Data.Set.Function
import Mathlib.Tactic

/-!
# Information flow

Operations run one after the other on an environment. Two runs see the same at the low places when
every operation computes what it writes there from low places. What an operation releases is
exempt: the releases are part of what the runs have to agree on.
-/

namespace InformationFlow

/-- What the operations write, and what they compute for it. -/
structure Machine (Op Loc M : Type*) where
  writes : Op → Set Loc
  compute : Op → (Loc → M) → Loc → M

variable {Op Loc M : Type*}

namespace Machine

section

variable (m : Machine Op Loc M)

open Classical in
noncomputable def step (op : Op) (env : Loc → M) (x : Loc) : M :=
  if x ∈ m.writes op then m.compute op env x else env x

noncomputable def run (schedule : List Op) (env : Loc → M) : Loc → M :=
  schedule.foldl (fun env op => m.step op env) env

open Classical in
/-- The values at the places that the operations of a run release. -/
noncomputable def releases (released : Op → Set Loc) :
    List Op → (Loc → M) → List (Loc → Option M)
  | [], _ => []
  | op :: rest, env =>
    (fun x => if x ∈ released op then some (m.step op env x) else none) ::
      releases released rest (m.step op env)

theorem step_of_mem {op : Op} {x : Loc} (h : x ∈ m.writes op) (env : Loc → M) :
    m.step op env x = m.compute op env x := if_pos h

theorem step_of_notMem {op : Op} {x : Loc} (h : x ∉ m.writes op) (env : Loc → M) :
    m.step op env x = env x := if_neg h

@[simp] theorem run_cons (op : Op) (rest : List Op) (env : Loc → M) :
    m.run (op :: rest) env = m.run rest (m.step op env) := rfl

end

/-- An operation of two machines writes to low places what follows from low places. -/
structure Shields (m m' : Machine Op Loc M) (low : Set Loc) (released : Op → Set Loc)
    (op : Op) : Prop where
  writes : m.writes op = m'.writes op
  compute : ∀ x ∈ m.writes op, x ∈ low → x ∉ released op →
    ∀ env env', Set.EqOn env env' low → m.compute op env x = m'.compute op env' x

variable {m m' : Machine Op Loc M} {low : Set Loc} {released : Op → Set Loc}

theorem Shields.eqOn_step {op : Op} (h : m.Shields m' low released op) {env env' : Loc → M}
    (henv : Set.EqOn env env' low)
    (hreleased : ∀ x ∈ released op, m.step op env x = m'.step op env' x) :
    Set.EqOn (m.step op env) (m'.step op env') low := by
  intro x hx
  by_cases hrelease : x ∈ released op
  · exact hreleased x hrelease
  · by_cases hwrite : x ∈ m.writes op
    · rw [step_of_mem m hwrite, step_of_mem m' (h.writes ▸ hwrite)]
      exact h.compute x hwrite hx hrelease env env' henv
    · rw [step_of_notMem m hwrite, step_of_notMem m' (h.writes ▸ hwrite)]
      exact henv hx

theorem releases_cons {op : Op} {rest : List Op} {env env' : Loc → M}
    (h : m.releases released (op :: rest) env = m'.releases released (op :: rest) env') :
    (∀ x ∈ released op, m.step op env x = m'.step op env' x) ∧
      m.releases released rest (m.step op env) = m'.releases released rest (m'.step op env') := by
  obtain ⟨hhead, hrest⟩ := List.cons.inj h
  refine ⟨?_, hrest⟩
  intro x hx
  have hvalue := congrFun hhead x
  rwa [if_pos hx, if_pos hx, Option.some.injEq] at hvalue

/-- Runs with the same releases keep agreeing on the low places. -/
theorem eqOn_run {schedule : List Op} (h : ∀ op ∈ schedule, m.Shields m' low released op)
    {env env' : Loc → M} (henv : Set.EqOn env env' low)
    (hreleases : m.releases released schedule env = m'.releases released schedule env') :
    Set.EqOn (m.run schedule env) (m'.run schedule env') low := by
  induction schedule generalizing env env' with
  | nil => exact henv
  | cons op rest ih =>
    obtain ⟨hreleased, hrest⟩ := releases_cons hreleases
    have hstep := (h op (List.mem_cons_self ..)).eqOn_step henv hreleased
    exact ih (fun op hop => h op (List.mem_cons_of_mem _ hop)) hstep hrest

end Machine

end InformationFlow
