import Mathlib.Data.List.Forall2

/-!
# Passes that fill a table

A pass over some input hands out entries of a table as it goes. An entry does not change any more,
so what a step gives can be judged by any later table. The rules compose steps one after the other
and over lists.
-/

namespace Raksha.Lib.GrowingTables

variable {S α β γ ε : Type}

/-- Takes the step for every element, with the table that the steps before have left. -/
def thread (step : S → α → Except ε (β × S)) : S → List α → Except ε (List β × S)
  | s, [] => .ok ([], s)
  | s, a :: l => do
    let (b, s) ← step s a
    let (bs, s) ← thread step s l
    return (b :: bs, s)

/-- A table that grows, with an invariant that the steps keep. -/
structure Growing (S : Type) where
  grows : S → S → Prop
  refl : ∀ s, grows s s
  trans : ∀ {a b c}, grows a b → grows b c → grows a c
  inv : S → Prop

variable (G : Growing S)

/-- The step succeeds and keeps the invariant, and every later table confirms its result. -/
def Works (step : S → Except ε (β × S)) (R : S → β → Prop) : Prop :=
  ∀ s, G.inv s → ∃ b s', step s = .ok (b, s') ∧ G.inv s' ∧ G.grows s s' ∧
    ∀ final, G.grows s' final → R final b

variable {G}

theorem Works.pure {b : β} {R : S → β → Prop} (h : ∀ final, R final b) :
    Works (ε := ε) G (fun s => .ok (b, s)) R :=
  fun s hs => ⟨b, s, rfl, hs, G.refl s, fun final _ => h final⟩

/-- What the second step gives may be judged together with what the first step gave. -/
theorem Works.bind {first : S → Except ε (β × S)} {second : β → S → Except ε (γ × S)}
    {R : S → β → Prop} {R' : S → γ → Prop} (hfirst : Works G first R)
    (hsecond : ∀ b, Works G (second b) fun final c => R final b → R' final c) :
    Works G (fun s => do let (b, s) ← first s; second b s) R' := by
  intro s hs
  obtain ⟨b, s₁, hb, hs₁, hgrows₁, hR⟩ := hfirst s hs
  obtain ⟨c, s₂, hc, hs₂, hgrows₂, hR'⟩ := hsecond b s₁ hs₁
  refine ⟨c, s₂, ?_, hs₂, G.trans hgrows₁ hgrows₂, ?_⟩
  · simp only [hb]
    exact hc
  · intro final hfinal
    exact hR' final hfinal (hR final (G.trans hgrows₂ hfinal))

theorem Works.map {step : S → Except ε (β × S)} {R : S → β → Prop} {R' : S → γ → Prop}
    (f : β → γ) (h : Works G step R) (hf : ∀ final b, R final b → R' final (f b)) :
    Works G (fun s => do let (b, s) ← step s; return (f b, s)) R' :=
  h.bind fun b => .pure fun final => hf final b

theorem works_thread {step : S → α → Except ε (β × S)} {R : S → α → β → Prop} {l : List α}
    (h : ∀ a ∈ l, Works G (fun s => step s a) fun final => R final a) :
    Works G (fun s => thread step s l) fun final bs => List.Forall₂ (R final) l bs := by
  induction l with
  | nil => exact .pure fun _ => .nil
  | cons a l ih =>
    have hrest := ih fun x hx => h x (List.mem_cons_of_mem _ hx)
    intro s hs
    obtain ⟨b, s₁, hb, hs₁, hgrows₁, hR⟩ := h a (List.mem_cons_self ..) s hs
    obtain ⟨bs, s₂, hbs, hs₂, hgrows₂, hRs⟩ := hrest s₁ hs₁
    refine ⟨b :: bs, s₂, ?_, hs₂, G.trans hgrows₁ hgrows₂, ?_⟩
    · simp only [thread, hb]
      change (do let (bs, s) ← thread step s₁ l; return (b :: bs, s)) = _
      simp only [hbs]
      rfl
    · intro final hfinal
      exact .cons (hR final (G.trans hgrows₂ hfinal)) (hRs final hfinal)

end Raksha.Lib.GrowingTables
