import Mathlib.Order.Lattice
import Mathlib.Order.BoundedOrder.Lattice
import Mathlib.Algebra.Order.BigOperators.Group.Finset
import Mathlib.Data.DFinsupp.WellFounded
import Mathlib.Tactic

/-!
# Chaotic iteration over a join semilattice

A worklist iteration that visits pending operations in any order, reads the states of the
inputs of the operation, and joins the transferred states into its results. A value has no
state before its first visit and then counts as `⊥`.

The results are about arbitrary runs: a run that ends with an empty worklist has reached a
post-fixpoint, families of states closed under joins and transfers are invariant, the values
with a state are the reachable ones, and runs over states of bounded rank are finite.
-/

namespace ChaoticIteration

universe u v w
variable {V : Type u} {O : Type v} {S : Type w}

/-- Operations with their input and result values. A transfer may be undefined (the program
aborts) and depends only on the states of the inputs. -/
structure System (V : Type u) (O : Type v) (S : Type w) where
  inputs : O → Set V
  results : O → Set V
  /-- The operations that are pending from the start. -/
  sources : Set O
  transfer : O → (V → S) → Option (V → S)
  local_transfer : ∀ o ρ ρ', (∀ v ∈ inputs o, ρ v = ρ' v) → transfer o ρ = transfer o ρ'

/-- The states computed so far and the pending operations. -/
structure Config (V : Type u) (O : Type v) (S : Type w) where
  states : V → Option S
  worklist : Finset O

variable [SemilatticeSup S] [OrderBot S]

/-- The current state of a value, `⊥` before its first visit. -/
def Config.current (c : Config V O S) (v : V) : S := (c.states v).getD ⊥

theorem Config.current_of_some {c : Config V O S} {v : V} {s : S} (h : c.states v = some s) :
    c.current v = s := by
  simp only [Config.current, h, Option.getD_some]

theorem Config.current_of_none {c : Config V O S} {v : V} (h : c.states v = none) :
    c.current v = ⊥ := by
  simp only [Config.current, h, Option.getD_none]

theorem Config.current_congr {c c' : Config V O S} {v : V} (h : c'.states v = c.states v) :
    c'.current v = c.current v := by
  simp only [Config.current, h]

/-- One visit of the operation `o` that transfers the states `y`. -/
structure Visit (sys : System V O S) (c : Config V O S) (o : O) (y : V → S)
    (c' : Config V O S) : Prop where
  selected : o ∈ c.worklist
  transferred : sys.transfer o c.current = some y
  result : ∀ v ∈ sys.results o, c'.states v = some (c.current v ⊔ y v)
  frame : ∀ v, v ∉ sys.results o → c'.states v = c.states v
  worklist : ∀ p, p ∈ c'.worklist ↔
    (p ∈ c.worklist ∧ p ≠ o) ∨ ∃ v ∈ sys.inputs p, c'.states v ≠ c.states v

/-- The configuration before the first visit, with the states of the entry values. -/
structure Initial (sys : System V O S) (entry : V → Option S) (c : Config V O S) : Prop where
  states : c.states = entry
  worklist : ∀ p, p ∈ c.worklist ↔ p ∈ sys.sources ∨ ∃ v ∈ sys.inputs p, entry v ≠ none

/-- Runs whose visits all satisfy `guard`. -/
inductive Run (sys : System V O S) (guard : O → (V → S) → Prop) (c : Config V O S) :
    Config V O S → Prop
  | refl : Run sys guard c c
  | visit {c₁ c₂ : Config V O S} {o : O} {y : V → S} :
      Run sys guard c c₁ → guard o c₁.current → Visit sys c₁ o y c₂ → Run sys guard c c₂

section Steps

variable {sys : System V O S} {c c' : Config V O S} {o : O} {y : V → S}

theorem Visit.le_current (h : Visit sys c o y c') (v : V) : c.current v ≤ c'.current v := by
  by_cases hv : v ∈ sys.results o
  · rw [Config.current_of_some (h.result v hv)]
    exact le_sup_left
  · exact (Config.current_congr (h.frame v hv)).ge

theorem Visit.transferred_le (h : Visit sys c o y c') {v : V} (hv : v ∈ sys.results o) :
    y v ≤ c'.current v := by
  rw [Config.current_of_some (h.result v hv)]
  exact le_sup_right

theorem Visit.states_ne_none (h : Visit sys c o y c') {v : V} (hv : c.states v ≠ none) :
    c'.states v ≠ none := by
  by_cases hr : v ∈ sys.results o
  · rw [h.result v hr]
    exact Option.some_ne_none _
  · rwa [h.frame v hr]

/-- An operation outside the worklist after a visit has unchanged inputs. -/
theorem Visit.unchanged_inputs (h : Visit sys c o y c') {p : O} (hp : p ∉ c'.worklist) :
    ∀ v ∈ sys.inputs p, c'.states v = c.states v := by
  intro v hv
  by_contra hne
  exact hp ((h.worklist p).mpr (Or.inr ⟨v, hv, hne⟩))

end Steps

section PostFixpoint

variable {sys : System V O S}

/-- An operation is due once it is a source or one of its inputs has a state. -/
def Due (sys : System V O S) (c : Config V O S) (o : O) : Prop :=
  o ∈ sys.sources ∨ ∃ v ∈ sys.inputs o, c.states v ≠ none

/-- The transferred states of a settled operation are below the states of its results. -/
def Settled (sys : System V O S) (c : Config V O S) (o : O) : Prop :=
  ∃ y, sys.transfer o c.current = some y ∧
    ∀ v ∈ sys.results o, c.states v ≠ none ∧ y v ≤ c.current v

theorem Visit.transfer_eq {c c' : Config V O S} {o p : O} {y : V → S}
    (h : Visit sys c o y c') (hp : p ∉ c'.worklist) :
    sys.transfer p c'.current = sys.transfer p c.current := by
  refine sys.local_transfer p _ _ ?_
  intro v hv
  exact Config.current_congr (h.unchanged_inputs hp v hv)

theorem Visit.settles {c c' : Config V O S} {o : O} {y : V → S} (h : Visit sys c o y c')
    (ho : o ∉ c'.worklist) : Settled sys c' o := by
  refine ⟨y, ?_, ?_⟩
  · rw [h.transfer_eq ho]
    exact h.transferred
  · intro v hv
    refine ⟨?_, h.transferred_le hv⟩
    rw [h.result v hv]
    exact Option.some_ne_none _

theorem Visit.preserves_settled {c c' : Config V O S} {o p : O} {y : V → S}
    (h : Visit sys c o y c') (hp : p ∉ c'.worklist) (hs : Settled sys c p) :
    Settled sys c' p := by
  obtain ⟨z, hz, hle⟩ := hs
  refine ⟨z, ?_, ?_⟩
  · rw [h.transfer_eq hp]
    exact hz
  · intro v hv
    exact ⟨h.states_ne_none (hle v hv).1, (hle v hv).2.trans (h.le_current v)⟩

/-- The loop invariant of the worklist: what is due and not pending is settled. -/
def PostInvariant (sys : System V O S) (c : Config V O S) : Prop :=
  ∀ p, p ∉ c.worklist → Due sys c p → Settled sys c p

theorem Initial.postInvariant {entry : V → Option S} {c : Config V O S}
    (h : Initial sys entry c) : PostInvariant sys c := by
  intro p hp hdue
  refine absurd ((h.worklist p).mpr ?_) hp
  rcases hdue with hsrc | ⟨v, hv, hne⟩
  · exact Or.inl hsrc
  · refine Or.inr ⟨v, hv, ?_⟩
    rwa [h.states] at hne

theorem Visit.postInvariant {c c' : Config V O S} {o : O} {y : V → S}
    (h : Visit sys c o y c') (hinv : PostInvariant sys c) : PostInvariant sys c' := by
  intro p hp hdue
  by_cases hpo : p = o
  · subst hpo
    exact h.settles hp
  · have hold : p ∉ c.worklist := by
      intro hmem
      exact hp ((h.worklist p).mpr (Or.inl ⟨hmem, hpo⟩))
    refine h.preserves_settled hp (hinv p hold ?_)
    rcases hdue with hsrc | ⟨v, hv, hne⟩
    · exact Or.inl hsrc
    · refine Or.inr ⟨v, hv, ?_⟩
      rwa [← h.unchanged_inputs hp v hv]

theorem Run.postInvariant {entry : V → Option S} {guard : O → (V → S) → Prop}
    {c₀ c : Config V O S} (h₀ : Initial sys entry c₀) (hrun : Run sys guard c₀ c) :
    PostInvariant sys c := by
  induction hrun with
  | refl => exact h₀.postInvariant
  | visit _ _ hv ih => exact hv.postInvariant ih

theorem Run.settled {entry : V → Option S} {guard : O → (V → S) → Prop}
    {c₀ c : Config V O S} (h₀ : Initial sys entry c₀) (hrun : Run sys guard c₀ c)
    (hempty : c.worklist = ∅) {o : O} (hdue : Due sys c o) : Settled sys c o := by
  refine hrun.postInvariant h₀ o ?_ hdue
  simp only [hempty, Finset.notMem_empty, not_false_eq_true]

/-- Values that are no operation's result keep their entry state. -/
theorem Run.entry_frame {entry : V → Option S} {guard : O → (V → S) → Prop}
    {c₀ c : Config V O S} (h₀ : Initial sys entry c₀) (hrun : Run sys guard c₀ c) {v : V}
    (hv : ∀ o, v ∉ sys.results o) : c.states v = entry v := by
  induction hrun with
  | refl => rw [h₀.states]
  | visit _ _ hvis ih => rw [hvis.frame v (hv _), ih]

end PostFixpoint

section Closed

/-- A family of states closed under joins and under the guarded transfers. -/
structure Closed (sys : System V O S) (guard : O → (V → S) → Prop) (I : V → S → Prop) :
    Prop where
  bot : ∀ v, I v ⊥
  sup : ∀ v a b, I v a → I v b → I v (a ⊔ b)
  transfer : ∀ o ρ y, guard o ρ → (∀ v ∈ sys.inputs o, I v (ρ v)) →
    sys.transfer o ρ = some y → ∀ v ∈ sys.results o, I v (y v)

variable {sys : System V O S} {guard : O → (V → S) → Prop} {I : V → S → Prop}

theorem Visit.closed {c c' : Config V O S} {o : O} {y : V → S} (hI : Closed sys guard I)
    (h : Visit sys c o y c') (hg : guard o c.current) (hc : ∀ v, I v (c.current v)) :
    ∀ v, I v (c'.current v) := by
  intro v
  by_cases hv : v ∈ sys.results o
  · rw [Config.current_of_some (h.result v hv)]
    exact hI.sup v _ _ (hc v) (hI.transfer o _ y hg (fun u _ => hc u) h.transferred v hv)
  · rw [Config.current_congr (h.frame v hv)]
    exact hc v

/-- A closed family that holds of the entry states holds in every run. -/
theorem Run.closed {entry : V → Option S} {c₀ c : Config V O S} (hI : Closed sys guard I)
    (h₀ : Initial sys entry c₀) (hentry : ∀ v s, entry v = some s → I v s)
    (hrun : Run sys guard c₀ c) : ∀ v, I v (c.current v) := by
  induction hrun with
  | refl =>
    intro v
    cases hs : entry v with
    | none =>
      rw [Config.current_of_none (by rw [h₀.states, hs])]
      exact hI.bot v
    | some s =>
      rw [Config.current_of_some (by rw [h₀.states, hs])]
      exact hentry v s hs
  | visit _ hg hv ih => exact hv.closed hI hg ih

end Closed

section Domain

variable {sys : System V O S}

/-- The values reachable from the entry values and from the sources. -/
inductive Reached (sys : System V O S) (entry : Set V) : V → Prop
  | entry {v : V} : v ∈ entry → Reached sys entry v
  | source {v : V} {o : O} : o ∈ sys.sources → v ∈ sys.results o → Reached sys entry v
  | result {v u : V} {o : O} : u ∈ sys.inputs o → Reached sys entry u → v ∈ sys.results o →
      Reached sys entry v

/-- Only reachable values get a state and only triggered operations become pending. -/
structure DomainInvariant (sys : System V O S) (entry : Set V) (c : Config V O S) : Prop where
  states : ∀ v, c.states v ≠ none → Reached sys entry v
  worklist : ∀ p ∈ c.worklist, p ∈ sys.sources ∨ ∃ v ∈ sys.inputs p, Reached sys entry v

theorem Visit.domainInvariant {entry : Set V} {c c' : Config V O S} {o : O} {y : V → S}
    (h : Visit sys c o y c') (hc : DomainInvariant sys entry c) :
    DomainInvariant sys entry c' := by
  have hstates : ∀ v, c'.states v ≠ none → Reached sys entry v := by
    intro v hv
    by_cases hr : v ∈ sys.results o
    · rcases hc.worklist o h.selected with hsrc | ⟨u, hu, hreach⟩
      · exact Reached.source hsrc hr
      · exact Reached.result hu hreach hr
    · rw [h.frame v hr] at hv
      exact hc.states v hv
  refine ⟨hstates, ?_⟩
  intro p hp
  rcases (h.worklist p).mp hp with ⟨hold, -⟩ | ⟨v, hv, hne⟩
  · exact hc.worklist p hold
  · refine Or.inr ⟨v, hv, hstates v ?_⟩
    intro hnone
    have hcn : c.states v ≠ none := fun hcn => hne (by rw [hnone, hcn])
    exact h.states_ne_none hcn hnone

theorem Run.domainInvariant {entry : V → Option S} {guard : O → (V → S) → Prop}
    {c₀ c : Config V O S} (h₀ : Initial sys entry c₀) (hrun : Run sys guard c₀ c) :
    DomainInvariant sys {v | entry v ≠ none} c := by
  induction hrun with
  | refl =>
    refine ⟨?_, ?_⟩
    · intro v hv
      rw [h₀.states] at hv
      exact Reached.entry hv
    · intro p hp
      rcases (h₀.worklist p).mp hp with hsrc | ⟨v, hv, hne⟩
      · exact Or.inl hsrc
      · exact Or.inr ⟨v, hv, Reached.entry hne⟩
  | visit _ _ hv ih => exact hv.domainInvariant ih

theorem Run.states_ne_none {guard : O → (V → S) → Prop} {c₀ c : Config V O S}
    (hrun : Run sys guard c₀ c) {v : V} (hv : c₀.states v ≠ none) : c.states v ≠ none := by
  induction hrun with
  | refl => exact hv
  | visit _ _ hvis ih => exact hvis.states_ne_none ih

/-- At the end of a run the values with a state are exactly the reachable ones. -/
theorem Run.states_ne_none_iff {entry : V → Option S} {guard : O → (V → S) → Prop}
    {c₀ c : Config V O S} (h₀ : Initial sys entry c₀) (hrun : Run sys guard c₀ c)
    (hempty : c.worklist = ∅) (v : V) :
    c.states v ≠ none ↔ Reached sys {v | entry v ≠ none} v := by
  refine ⟨(hrun.domainInvariant h₀).states v, ?_⟩
  intro hreach
  induction hreach with
  | entry hv =>
    refine hrun.states_ne_none ?_
    rw [h₀.states]
    exact hv
  | source hsrc hv =>
    obtain ⟨_, _, hle⟩ := hrun.settled h₀ hempty (Or.inl hsrc)
    exact (hle _ hv).1
  | result hu _ hv ih =>
    obtain ⟨_, _, hle⟩ := hrun.settled h₀ hempty (Or.inr ⟨_, hu, ih⟩)
    exact (hle _ hv).1

end Domain

section Termination

variable {sys : System V O S} {I : V → S → Prop}

/-- The rank of a state before and after its first visit. -/
def entryRank (rank : S → ℕ) : Option S → ℕ
  | none => rank ⊥ + 1
  | some s => rank s

/-- The summed ranks of the values that visits write. -/
def potential (rank : S → ℕ) (values : Finset V) (c : Config V O S) : ℕ :=
  ∑ v ∈ values, entryRank rank (c.states v)

/-- `rank` falls whenever a state of the family grows. -/
def RankFalls (rank : S → ℕ) (I : V → S → Prop) : Prop :=
  ∀ v a b, I v a → I v b → a < b → rank b < rank a

theorem RankFalls.entryRank_lt {rank : S → ℕ} (hrank : RankFalls rank I) {v : V}
    {c c' : Config V O S} (hc : I v (c.current v)) (hc' : I v (c'.current v))
    (hbot : I v ⊥) (hle : c.current v ≤ c'.current v) (hsome : c'.states v ≠ none)
    (hne : c'.states v ≠ c.states v) :
    entryRank rank (c'.states v) < entryRank rank (c.states v) := by
  obtain ⟨t, ht⟩ := Option.ne_none_iff_exists'.mp hsome
  rw [Config.current_of_some ht] at hc' hle
  cases hs : c.states v with
  | none =>
    simp only [ht, entryRank]
    rcases eq_or_lt_of_le (bot_le : ⊥ ≤ t) with heq | hlt
    · rw [heq]
      exact Nat.lt_succ_self _
    · exact (hrank v ⊥ t hbot hc' hlt).trans (Nat.lt_succ_self _)
  | some s =>
    rw [Config.current_of_some hs] at hc hle
    have hst : s ≠ t := by
      intro heq
      exact hne (by rw [ht, hs, heq])
    simp only [ht, entryRank]
    exact hrank v s t hc hc' (lt_of_le_of_ne hle hst)

/-- A visit that changes no state takes its operation off the worklist. -/
theorem Visit.worklist_ssubset {c c' : Config V O S} {o : O} {y : V → S}
    (h : Visit sys c o y c') (hsame : ∀ v, c'.states v = c.states v) :
    c'.worklist ⊂ c.worklist := by
  refine (Finset.ssubset_iff_of_subset ?_).mpr ⟨o, h.selected, ?_⟩
  · intro p hp
    rcases (h.worklist p).mp hp with ⟨hold, -⟩ | ⟨v, -, hne⟩
    · exact hold
    · exact absurd (hsame v) hne
  · intro ho
    rcases (h.worklist o).mp ho with ⟨-, hne⟩ | ⟨v, -, hne⟩
    · exact hne rfl
    · exact hne (hsame v)

/-- A visit lowers the potential, or keeps all states and shrinks the worklist. -/
theorem Visit.measure_lt {rank : S → ℕ} (hrank : RankFalls rank I) {values : Finset V}
    (hvalues : ∀ o, ∀ v ∈ sys.results o, v ∈ values) (hbot : ∀ v, I v ⊥)
    {c c' : Config V O S} {o : O} {y : V → S} (h : Visit sys c o y c')
    (hc : ∀ v, I v (c.current v)) (hc' : ∀ v, I v (c'.current v)) :
    Prod.Lex (· < ·) (· < ·) (potential rank values c', c'.worklist.card)
      (potential rank values c, c.worklist.card) := by
  have hrise : ∀ v, c'.states v ≠ c.states v →
      entryRank rank (c'.states v) < entryRank rank (c.states v) := by
    intro v hne
    have hmem : v ∈ sys.results o := by
      by_contra hv
      exact hne (h.frame v hv)
    refine hrank.entryRank_lt (hc v) (hc' v) (hbot v) (h.le_current v) ?_ hne
    rw [h.result v hmem]
    exact Option.some_ne_none _
  have hle : ∀ v ∈ values, entryRank rank (c'.states v) ≤ entryRank rank (c.states v) := by
    intro v _
    by_cases heq : c'.states v = c.states v
    · rw [heq]
    · exact (hrise v heq).le
  by_cases hsame : ∀ v, c'.states v = c.states v
  · have hpot : potential rank values c' = potential rank values c := by
      unfold potential
      exact Finset.sum_congr rfl (fun v _ => by rw [hsame v])
    rw [hpot]
    exact Prod.Lex.right _ (Finset.card_lt_card (h.worklist_ssubset hsame))
  · obtain ⟨v, hne⟩ := not_forall.mp hsame
    have hmem : v ∈ values := by
      refine hvalues o v ?_
      by_contra hv
      exact hne (h.frame v hv)
    exact Prod.Lex.left _ _ (Finset.sum_lt_sum hle ⟨v, hmem, hrise v hne⟩)

/-- No infinite sequence of visits stays inside a family of falling rank. -/
theorem visit_wellFounded {rank : S → ℕ} (hrank : RankFalls rank I) {values : Finset V}
    (hvalues : ∀ o, ∀ v ∈ sys.results o, v ∈ values) (hbot : ∀ v, I v ⊥) :
    WellFounded (fun c' c : Config V O S => (∀ v, I v (c.current v)) ∧
      (∀ v, I v (c'.current v)) ∧ ∃ o y, Visit sys c o y c') := by
  refine Subrelation.wf ?_ (InvImage.wf
    (fun c : Config V O S => (potential rank values c, c.worklist.card))
    (WellFounded.prod_lex Nat.lt_wfRel.wf Nat.lt_wfRel.wf))
  rintro c' c ⟨hc, hc', o, y, h⟩
  exact h.measure_lt hrank hvalues hbot hc hc'

end Termination

section Ascending

variable {sys : System V O S}

/-- The states of the given values, before and after their first visits. -/
def heights (values : Finset V) (c : Config V O S) (v : values) : WithBot S :=
  match c.states v with
  | none => ⊥
  | some s => s

theorem Visit.heights_le {c c' : Config V O S} {o : O} {y : V → S} (h : Visit sys c o y c')
    (values : Finset V) : heights values c ≤ heights values c' := by
  intro v
  by_cases hv : v.1 ∈ sys.results o
  · cases hs : c.states v with
    | none =>
      simp only [heights, hs]
      exact bot_le
    | some s =>
      simp only [heights, hs, h.result v hv, Config.current_of_some hs]
      exact WithBot.coe_le_coe.mpr le_sup_left
  · simp only [heights, h.frame v hv]
    exact le_rfl

omit [SemilatticeSup S] [OrderBot S] in
theorem states_eq_of_heights {values : Finset V} {c c' : Config V O S}
    (h : heights values c' = heights values c) {v : V} (hv : v ∈ values) :
    c'.states v = c.states v := by
  have hat : heights values c' ⟨v, hv⟩ = heights values c ⟨v, hv⟩ := congrFun h ⟨v, hv⟩
  cases hs : c.states v <;> cases hs' : c'.states v
  · rfl
  · simp [heights, hs, hs'] at hat
  · simp [heights, hs, hs'] at hat
  · simp only [heights, hs, hs', WithBot.coe_inj] at hat
    rw [hat]

omit [SemilatticeSup S] [OrderBot S] in
theorem heights_wellFoundedGT [Preorder S] [WellFoundedGT S] (values : Finset V) :
    WellFoundedGT (values → WithBot S) :=
  ⟨InvImage.wf (fun (f : values → WithBot S) v => OrderDual.toDual (f v))
    (wellFounded_lt : WellFounded fun f g : values → (WithBot S)ᵒᵈ => f < g)⟩

/-- No infinite sequence of visits writes finitely many values, when no chain of states ascends
forever. -/
theorem visit_wellFounded_of_ascending [WellFoundedGT S] (sys : System V O S)
    (values : Finset V) :
    WellFounded (fun c' c : Config V O S => ∃ o y, (∀ v ∈ sys.results o, v ∈ values) ∧
      Visit sys c o y c') := by
  have hascending : WellFoundedGT (values → WithBot S) := heights_wellFoundedGT values
  refine Subrelation.wf ?_ (InvImage.wf
    (fun c : Config V O S => (heights values c, c.worklist.card))
    (WellFounded.prod_lex wellFounded_gt Nat.lt_wfRel.wf))
  rintro c' c ⟨o, y, hvalues, h⟩
  rcases eq_or_lt_of_le (h.heights_le values) with heq | hlt
  · have hsame : ∀ v, c'.states v = c.states v := by
      intro v
      by_cases hv : v ∈ sys.results o
      · exact states_eq_of_heights heq.symm (hvalues v hv)
      · exact h.frame v hv
    have hmeasure : Prod.Lex (· > ·) (· < ·) (heights values c', c'.worklist.card)
        (heights values c, c.worklist.card) := by
      rw [← heq]
      exact .right _ (Finset.card_lt_card (h.worklist_ssubset hsame))
    exact hmeasure
  · exact .left _ _ hlt

end Ascending

end ChaoticIteration
