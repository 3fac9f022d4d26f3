import Raksha.Sql.Liveness

/-!
# The solution of a decoded module

Which tags a value ends up with, without reference to a run. Integrity tags only get lost while
the iteration proceeds, so the lost ones are derived inductively. Secrecy tags are derived from
these: a rule that adds or removes a secrecy tag applies when its premises are not lost.

Every run computes these integrity tags. The secrecy tags are these as well unless a step adds a
tag because its premises have not been lost yet.
-/

namespace Raksha.Sql
open Raksha.Common Raksha.Ir Raksha.Analysis Raksha.Taint AbstractIfcTags

/-- The live value ends up without the integrity tag. -/
inductive Lacks (module : Module) (rules : InferenceRules) : Value → TagId → Prop
  | operand {v : Value} {t : TagId} : module.IsOperand v → v.isOperationResult = false →
      Lacks module rules v t
  | default {op : Operation} {i : ℕ} {t : TagId} : op ∈ module.operations →
      HasDefaultOutput module op i → i < op.numberOfOutputs →
      Live module (op.getOutputValue i) → Lacks module rules (op.getOutputValue i) t
  | union {op : Operation} {k : ℕ} {t : TagId} : op ∈ module.operations →
      MarkedMerge module rules op .union k → AllInputsLive module op →
      0 < op.numberOfOutputs → (∀ u ∈ op.inputs.take k, Lacks module rules u t) →
      Lacks module rules (op.getOutputValue 0) t
  | intersect {op : Operation} {k : ℕ} {u : Value} {t : TagId} : op ∈ module.operations →
      MarkedMerge module rules op .intersect k → AllInputsLive module op →
      0 < op.numberOfOutputs → u ∈ op.inputs.take k → Lacks module rules u t →
      Lacks module rules (op.getOutputValue 0) t
  | intersectNone {op : Operation} {k : ℕ} {t : TagId} : op ∈ module.operations →
      MarkedMerge module rules op .intersect k → AllInputsLive module op →
      0 < op.numberOfOutputs → op.inputs.take k = [] →
      Lacks module rules (op.getOutputValue 0) t
  | transform {op : Operation} {kind : ModifyTag.Kind} {tag : TagId}
      {premises : List InputHasIntegrity} {u : Value} {t : TagId} : op ∈ module.operations →
      MarkedAs rules op (.transform kind tag premises) → 0 < op.numberOfOutputs →
      op.inputs.head? = some u → Lacks module rules u t →
      ¬ (kind = .addIntegrity ∧ t = tag) → Lacks module rules (op.getOutputValue 0) t
  | unsatisfied {op : Operation} {kind : ModifyTag.Kind} {tag : TagId}
      {premises : List InputHasIntegrity} {p : InputHasIntegrity} {u w : Value} {t : TagId} :
      op ∈ module.operations → MarkedAs rules op (.transform kind tag premises) →
      0 < op.numberOfOutputs → op.inputs.head? = some u → Lacks module rules u t →
      p ∈ premises → op.inputs[p.inputIndex]? = some w → Lacks module rules w p.tag →
      Lacks module rules (op.getOutputValue 0) t

def Satisfied (module : Module) (rules : InferenceRules) (op : Operation)
    (premises : List InputHasIntegrity) : Prop :=
  ∀ p ∈ premises, ∀ w, op.inputs[p.inputIndex]? = some w → ¬ Lacks module rules w p.tag

/-- The value ends up with the secrecy tag. -/
inductive MayHave (module : Module) (rules : InferenceRules) : Value → TagId → Prop
  | default {op : Operation} {u : Value} {i : ℕ} {t : TagId} : op ∈ module.operations →
      HasDefaultOutput module op i → i < op.numberOfOutputs → u ∈ op.inputs →
      MayHave module rules u t → MayHave module rules (op.getOutputValue i) t
  | merge {op : Operation} {u : Value} {t : TagId} : op ∈ module.operations →
      IsWrapped module op → AllInputsLive module op → 0 < op.numberOfOutputs →
      u ∈ op.inputs → MayHave module rules u t → MayHave module rules (op.getOutputValue 0) t
  | transform {op : Operation} {kind : ModifyTag.Kind} {tag : TagId}
      {premises : List InputHasIntegrity} {u : Value} {t : TagId} : op ∈ module.operations →
      MarkedAs rules op (.transform kind tag premises) → 0 < op.numberOfOutputs →
      op.inputs.head? = some u → MayHave module rules u t →
      ¬ (kind = .removeSecrecy ∧ t = tag ∧ Satisfied module rules op premises) →
      MayHave module rules (op.getOutputValue 0) t
  | add {op : Operation} {tag : TagId} {premises : List InputHasIntegrity} {u : Value} :
      op ∈ module.operations → MarkedAs rules op (.transform .addSecrecy tag premises) →
      0 < op.numberOfOutputs → op.inputs.head? = some u → Live module u →
      Satisfied module rules op premises → MayHave module rules (op.getOutputValue 0) tag

/-- The state has the integrity tags that are not lost; bottom has lost none. -/
theorem assumesIntegrity_iff (tag : TagId) (a : AbstractIfcTags) :
    AssumesIntegrity tag a ↔ a = bottom ∨ tag ∈ integrityOf a := by
  cases a with
  | bottom =>
    simp only [true_or, iff_true]
    intro s hs
    cases hs
  | tags s =>
    simp only [reduceCtorEq, false_or]
    exact ⟨fun h => h s rfl, fun h _ heq => by cases heq; exact h⟩

theorem assumesIntegrity_sup (tag : TagId) (a b : AbstractIfcTags) :
    AssumesIntegrity tag (a ⊔ b) ↔ AssumesIntegrity tag a ∧ AssumesIntegrity tag b := by
  rw [← join_eq_sup]
  simp only [assumesIntegrity_iff]
  cases a with
  | bottom => simp [join]
  | tags s =>
    cases b with
    | bottom => simp [join]
    | tags t => simp [join, of, integrityOf]

/-- A premise that does not hold names an input that has lost the required tag. -/
theorem not_premisesHold {premises : List InputHasIntegrity} {op : Operation}
    {ρ : Value → AbstractIfcTags} (h : ¬ PremisesHold premises (op.inputs.map ρ)) :
    ∃ p ∈ premises, ∃ w, op.inputs[p.inputIndex]? = some w ∧ ¬ AssumesIntegrity p.tag (ρ w) := by
  unfold PremisesHold at h
  push Not at h
  obtain ⟨p, hp, hlost⟩ := h
  refine ⟨p, hp, ?_⟩
  rw [List.getD_eq_getElem?_getD, List.getElem?_map] at hlost
  cases hw : op.inputs[p.inputIndex]? with
  | none =>
    rw [hw] at hlost
    exact absurd ((assumesIntegrity_iff _ _).mpr (Or.inl rfl)) hlost
  | some w =>
    rw [hw] at hlost
    exact ⟨w, rfl, hlost⟩

theorem PremisesHold.assumes {premises : List InputHasIntegrity} {op : Operation}
    {ρ : Value → AbstractIfcTags} (h : PremisesHold premises (op.inputs.map ρ))
    {p : InputHasIntegrity} (hp : p ∈ premises) {w : Value}
    (hw : op.inputs[p.inputIndex]? = some w) : AssumesIntegrity p.tag (ρ w) := by
  have hhold := h p hp
  rwa [List.getD_eq_getElem?_getD, List.getElem?_map, hw] at hhold

theorem lost_transformState {kind : ModifyTag.Kind} {tag t : TagId}
    {premises : List InputHasIntegrity} {inputs : List AbstractIfcTags} :
    ¬ AssumesIntegrity t (transformState kind tag premises inputs) ↔
      ¬ AssumesIntegrity t (inputs.getD 0 bottom) ∧
      ¬ (PremisesHold premises inputs ∧ kind = .addIntegrity ∧ t = tag) := by
  have hbot := transformState_ne_bottom kind tag premises inputs
  simp only [assumesIntegrity_iff, not_or]
  by_cases hx : inputs.getD 0 bottom = bottom
  · have hout : transformState kind tag premises inputs = bottom := by
      by_contra hne
      exact hbot.mp hne hx
    simp only [hout, hx, not_true_eq_false, false_and]
  · have hout := hbot.mpr hx
    simp only [hout, hx, not_false_eq_true, true_and]
    unfold transformState
    by_cases hhold : PremisesHold premises inputs
    · simp only [hhold, if_true, integrityOf_applyModifyTag kind tag _ hx, true_and]
      cases kind <;> simp [and_comm]
    · simp [hhold]

section

variable {expr : ExpressionArena} {module : Module} {rules : InferenceRules}

/-- What every run keeps: states that are not bottom are live, and lost integrity tags are
derivable. -/
structure WithinSolution (module : Module) (rules : InferenceRules) (v : Value)
    (a : AbstractIfcTags) : Prop where
  live : a ≠ bottom → Live module v
  lacks : ∀ t, ¬ AssumesIntegrity t a → Lacks module rules v t

theorem WithinSolution.bot (v : Value) : WithinSolution module rules v ⊥ :=
  ⟨fun h => absurd rfl h, fun t h =>
    absurd ((assumesIntegrity_iff t bottom).mpr (Or.inl rfl)) h⟩

theorem WithinSolution.sup {v : Value} {a b : AbstractIfcTags}
    (ha : WithinSolution module rules v a) (hb : WithinSolution module rules v b) :
    WithinSolution module rules v (a ⊔ b) := by
  refine ⟨?_, ?_⟩
  · intro hne
    by_cases hab : a = bottom
    · refine hb.live ?_
      rintro rfl
      rw [hab] at hne
      exact hne rfl
    · exact ha.live hab
  · intro t ht
    rw [assumesIntegrity_sup, not_and_or] at ht
    rcases ht with h | h
    · exact ha.lacks t h
    · exact hb.lacks t h

theorem ne_bottom_of_lost {t : TagId} {a : AbstractIfcTags} (h : ¬ AssumesIntegrity t a) :
    a ≠ bottom := by
  rintro rfl
  exact h ((assumesIntegrity_iff t bottom).mpr (Or.inl rfl))

theorem lost_of_notMem {t : TagId} {a : AbstractIfcTags} (hne : a ≠ bottom)
    (h : t ∉ integrityOf a) : ¬ AssumesIntegrity t a := by
  rw [assumesIntegrity_iff]
  rintro (hbot | hmem)
  · exact hne hbot
  · exact h hmem

theorem notMem_of_lost {t : TagId} {a : AbstractIfcTags} (h : ¬ AssumesIntegrity t a) :
    t ∉ integrityOf a := by
  intro hmem
  exact h ((assumesIntegrity_iff t a).mpr (Or.inr hmem))

theorem OutputCase.withinSolution {op : Operation} (hop : op ∈ module.operations)
    {ρ : Value → AbstractIfcTags} {i : ℕ} {out : AbstractIfcTags}
    (h : OutputCase expr module rules op (op.inputs.map ρ) i out) (hi : i < op.numberOfOutputs)
    (hinputs : ∀ u ∈ op.inputs, WithinSolution module rules u (ρ u)) :
    WithinSolution module rules (op.getOutputValue i) out := by
  have hlive : out ≠ bottom → Live module (op.getOutputValue i) := by
    intro hne
    exact h.live hop hi hne fun u hu => (hinputs u hu).live
  refine ⟨hlive, ?_⟩
  intro t ht
  have hne := ne_bottom_of_lost ht
  cases h with
  | default hdefault => exact Lacks.default hop hdefault hi (hlive hne)
  | merge kind k hzero hmarked =>
    subst hzero
    have hall := (mergeState_ne_bottom kind k _).mp hne
    have hready : AllInputsLive module op := fun u hu =>
      (hinputs u hu).live (hall _ (List.mem_map_of_mem hu))
    have hlost := notMem_of_lost ht
    rw [integrityOf_mergeState kind k _ hall, ← List.map_take, List.map_map] at hlost
    have hlacks : ∀ u ∈ op.inputs.take k, t ∉ integrityOf (ρ u) → Lacks module rules u t := by
      intro u hu hnot
      have hmem := List.mem_of_mem_take hu
      exact (hinputs u hmem).lacks t (lost_of_notMem (hall _ (List.mem_map_of_mem hmem)) hnot)
    cases kind with
    | union =>
      rw [mem_mergedIntegrity_union] at hlost
      refine Lacks.union hop hmarked hready hi ?_
      intro u hu
      refine hlacks u hu ?_
      intro hmem
      exact hlost ⟨_, List.mem_map_of_mem hu, hmem⟩
    | intersect =>
      rw [mem_mergedIntegrity_intersect] at hlost
      by_cases hnil : op.inputs.take k = []
      · exact Lacks.intersectNone hop hmarked hready hi hnil
      · simp only [ne_eq, List.map_eq_nil_iff, hnil, not_false_eq_true, true_and, List.mem_map,
          forall_exists_index, and_imp, forall_apply_eq_imp_iff₂, Function.comp_apply,
          not_forall] at hlost
        obtain ⟨u, hu, hnot⟩ := hlost
        exact Lacks.intersect hop hmarked hready hi hu (hlacks u hu hnot)
  | transform n rule kind tag premises hzero hname hspecial hrule hn hdecoded =>
    subst hzero
    obtain ⟨u, rest, hcons⟩ := List.exists_cons_of_ne_nil hdecoded.inputs
    have hhead : op.inputs.head? = some u := by rw [hcons, List.head?_cons]
    have hmem := List.mem_of_mem_head? hhead
    obtain ⟨hlost, hkept⟩ := lost_transformState.mp ht
    rw [getD_map_zero op ρ hhead] at hlost
    have hu := (hinputs u hmem).lacks t hlost
    by_cases hhold : PremisesHold premises (op.inputs.map ρ)
    · exact Lacks.transform hop hdecoded.marked hi hhead hu fun h => hkept ⟨hhold, h⟩
    · obtain ⟨p, hp, w, hw, hwlost⟩ := not_premisesHold hhold
      exact Lacks.unsatisfied hop hdecoded.marked hi hhead hu hp hw
        ((hinputs w (List.mem_of_getElem? hw)).lacks p.tag hwlost)

theorem Decoded.withinSolution (hd : Decoded expr module rules)
    {state : IterationState AbstractIfcTags}
    (hreach : Reachable (taintSemantics rules) module state) (v : Value) :
    WithinSolution module rules v (currentStates state.valueStates v) := by
  refine ReachableUnder.closed (I := WithinSolution module rules) WithinSolution.bot
    (fun v a b => WithinSolution.sup) ?_ ?_ hreach v
  · intro v hoperand hres
    exact ⟨fun _ => Live.operand hoperand hres, fun t _ => Lacks.operand hoperand hres⟩
  · intro op hop ρ outputs _ hin happly i hi
    exact (hd.transformer_output hop ρ happly hi).withinSolution hop hi hin

theorem MarkedAs.inferenceRules_eq {op : Operation} {mark mark' : Mark}
    (h : MarkedAs rules op mark) (h' : MarkedAs rules op mark') :
    mark.inferenceRules = mark'.inferenceRules := by
  have hrules := rulesForOutput_zero h
  rw [rulesForOutput_zero h', Option.some.injEq] at hrules
  exact hrules.symm

theorem Lacks.result_cases {op : Operation} (hop : op ∈ module.operations) {t : TagId}
    (h : Lacks module rules (op.getOutputValue 0) t) :
    HasDefaultOutput module op 0 ∨
    (∃ k, MarkedMerge module rules op .union k ∧ ∀ u ∈ op.inputs.take k,
      Lacks module rules u t) ∨
    (∃ k, MarkedMerge module rules op .intersect k ∧
      (op.inputs.take k = [] ∨ ∃ u ∈ op.inputs.take k, Lacks module rules u t)) ∨
    ∃ kind tag premises u, MarkedAs rules op (.transform kind tag premises) ∧
      op.inputs.head? = some u ∧ Lacks module rules u t ∧
      ¬ (kind = .addIntegrity ∧ t = tag ∧ Satisfied module rules op premises) := by
  generalize hv : op.getOutputValue 0 = v at h
  cases h with
  | operand _ hres =>
    rw [← hv] at hres
    cases hres
  | default hop' hdefault _ _ =>
    obtain ⟨rfl, rfl⟩ := module.eq_of_output hop hop' hv
    exact Or.inl hdefault
  | union hop' hmarked _ _ hall =>
    obtain ⟨rfl, -⟩ := module.eq_of_output hop hop' hv
    exact Or.inr (Or.inl ⟨_, hmarked, hall⟩)
  | intersect hop' hmarked _ _ hu hlacks =>
    obtain ⟨rfl, -⟩ := module.eq_of_output hop hop' hv
    exact Or.inr (Or.inr (Or.inl ⟨_, hmarked, Or.inr ⟨_, hu, hlacks⟩⟩))
  | intersectNone hop' hmarked _ _ hnil =>
    obtain ⟨rfl, -⟩ := module.eq_of_output hop hop' hv
    exact Or.inr (Or.inr (Or.inl ⟨_, hmarked, Or.inl hnil⟩))
  | transform hop' hmarked _ hhead hu hkept =>
    obtain ⟨rfl, -⟩ := module.eq_of_output hop hop' hv
    exact Or.inr (Or.inr (Or.inr ⟨_, _, _, _, hmarked, hhead, hu,
      fun h => hkept ⟨h.1, h.2.1⟩⟩))
  | unsatisfied hop' hmarked _ hhead hu hp hw hlost =>
    obtain ⟨rfl, -⟩ := module.eq_of_output hop hop' hv
    exact Or.inr (Or.inr (Or.inr ⟨_, _, _, _, hmarked, hhead, hu,
      fun h => h.2.2 _ hp _ hw hlost⟩))

theorem MarkedAs.not_default (hd : Decoded expr module rules) {op : Operation}
    (hop : op ∈ module.operations) {mark : Mark} (hmark : MarkedAs rules op mark) :
    ¬ HasDefaultOutput module op 0 := by
  intro hdefault
  obtain ⟨hwrapped, htransform⟩ := hdefault.resolve_left (· rfl)
  have hnone := hd.unmarked_of hop hwrapped htransform
  unfold Unmarked at hnone
  unfold MarkedAs at hmark
  rw [hnone] at hmark
  cases hmark

/-- An operation that is marked as a transform has been decoded as one. -/
theorem Decoded.of_marked_transform (hd : Decoded expr module rules) {op : Operation}
    (hop : op ∈ module.operations) {kind : ModifyTag.Kind} {tag : TagId}
    {premises : List InputHasIntegrity}
    (hmark : MarkedAs rules op (.transform kind tag premises)) :
    ∃ rule ∈ expr.sqlPolicyRules, DecodedTransform rules op rule kind tag premises := by
  have hwrapped : ¬ IsWrapped module op := by
    rintro ⟨T, hT, ruleName, hwraps⟩
    obtain ⟨k, hmerge⟩ := hd.markedMerge hT hwraps
    cases hmark.inferenceRules_eq hmerge.marked
  by_cases htransform : IsPolicyTransform op
  · obtain ⟨_, rule, kind', tag', premises', -, hrule, -, hdecoded⟩ :=
      hd.policyTransform hop htransform
    cases hmark.inferenceRules_eq hdecoded.marked
    exact ⟨rule, hrule, hdecoded⟩
  · exact absurd (Or.inr ⟨hwrapped, htransform⟩) (hmark.not_default hd hop)

theorem lacks_transform_iff (hd : Decoded expr module rules) {op : Operation}
    (hop : op ∈ module.operations) {kind : ModifyTag.Kind} {tag : TagId}
    {premises : List InputHasIntegrity} (hmark : MarkedAs rules op (.transform kind tag premises))
    (hi : 0 < op.numberOfOutputs) {u : Value} (hhead : op.inputs.head? = some u) (t : TagId) :
    Lacks module rules (op.getOutputValue 0) t ↔ Lacks module rules u t ∧
      ¬ (kind = .addIntegrity ∧ t = tag ∧ Satisfied module rules op premises) := by
  constructor
  · intro h
    rcases h.result_cases hop with hdefault | ⟨k, hmerge, -⟩ | ⟨k, hmerge, -⟩ |
      ⟨kind', tag', premises', u', hmark', hhead', hu, hkept⟩
    · exact absurd hdefault (hmark.not_default hd hop)
    · exact absurd (hmark.inferenceRules_eq hmerge.marked) (by simp [Mark.inferenceRules,
        mergeRules, transformRules])
    · exact absurd (hmark.inferenceRules_eq hmerge.marked) (by simp [Mark.inferenceRules,
        mergeRules, transformRules])
    · cases hmark.inferenceRules_eq hmark'
      rw [hhead'] at hhead
      cases hhead
      exact ⟨hu, hkept⟩
  · rintro ⟨hu, hkept⟩
    by_cases hadd : kind = .addIntegrity ∧ t = tag
    · obtain ⟨rfl, rfl⟩ := hadd
      have hunsat : ¬ Satisfied module rules op premises := fun hsat => hkept ⟨rfl, rfl, hsat⟩
      unfold Satisfied at hunsat
      push Not at hunsat
      obtain ⟨p, hp, w, hw, hlost⟩ := hunsat
      exact .unsatisfied hop hmark hi hhead hu hp hw hlost
    · exact .transform hop hmark hi hhead hu hadd

theorem MarkedMerge.unique {op : Operation} {kind kind' : MergeIntegrityTags.Kind} {k k' : ℕ}
    (h : MarkedMerge module rules op kind k) (h' : MarkedMerge module rules op kind' k') :
    kind = kind' ∧ k = k' := by
  have hrules := h.marked.inferenceRules_eq h'.marked
  simp only [Mark.inferenceRules, mergeRules, List.cons.injEq, InferenceRule.mk.injEq,
    Conclusion.mergeIntegrityTags.injEq] at hrules
  have hk := h.index
  rw [h'.index] at hk
  cases hk
  exact ⟨hrules.1.1.1, rfl⟩

theorem lacks_union_iff (hd : Decoded expr module rules) {op : Operation}
    (hop : op ∈ module.operations) {k : ℕ} (hmerge : MarkedMerge module rules op .union k)
    (hready : AllInputsLive module op) (hi : 0 < op.numberOfOutputs) (t : TagId) :
    Lacks module rules (op.getOutputValue 0) t ↔
      ∀ u ∈ op.inputs.take k, Lacks module rules u t := by
  constructor
  · intro h
    rcases h.result_cases hop with hdefault | ⟨k', hmerge', hall⟩ | ⟨k', hmerge', -⟩ |
      ⟨kind', tag', premises', u', hmark', -⟩
    · exact absurd hdefault (hmerge.marked.not_default hd hop)
    · obtain ⟨-, rfl⟩ := hmerge.unique hmerge'
      exact hall
    · cases (hmerge.unique hmerge').1
    · exact absurd (hmark'.inferenceRules_eq hmerge.marked) (by simp [Mark.inferenceRules,
        mergeRules, transformRules])
  · exact .union hop hmerge hready hi

theorem lacks_intersect_iff (hd : Decoded expr module rules) {op : Operation}
    (hop : op ∈ module.operations) {k : ℕ} (hmerge : MarkedMerge module rules op .intersect k)
    (hready : AllInputsLive module op) (hi : 0 < op.numberOfOutputs) (t : TagId) :
    Lacks module rules (op.getOutputValue 0) t ↔
      op.inputs.take k = [] ∨ ∃ u ∈ op.inputs.take k, Lacks module rules u t := by
  constructor
  · intro h
    rcases h.result_cases hop with hdefault | ⟨k', hmerge', -⟩ | ⟨k', hmerge', hcases⟩ |
      ⟨kind', tag', premises', u', hmark', -⟩
    · exact absurd hdefault (hmerge.marked.not_default hd hop)
    · cases (hmerge.unique hmerge').1
    · obtain ⟨-, rfl⟩ := hmerge.unique hmerge'
      exact hcases
    · exact absurd (hmark'.inferenceRules_eq hmerge.marked) (by simp [Mark.inferenceRules,
        mergeRules, transformRules])
  · rintro (hnil | ⟨u, hu, hlacks⟩)
    · exact .intersectNone hop hmerge hready hi hnil
    · exact .intersect hop hmerge hready hi hu hlacks

/-- A tag that a transform grants without preconditions is not lost. -/
theorem Lacks.not_of_granted (hd : Decoded expr module rules) {op : Operation}
    (hop : op ∈ module.operations) {t : TagId}
    (hmark : MarkedAs rules op (.transform .addIntegrity t [])) :
    ¬ Lacks module rules (op.getOutputValue 0) t := by
  intro h
  rcases h.result_cases hop with hdefault | ⟨k, hmerge, -⟩ | ⟨k, hmerge, -⟩ |
    ⟨kind, tag, premises, u, hmark', -, -, hkept⟩
  · exact hmark.not_default hd hop hdefault
  · cases hmark.inferenceRules_eq hmerge.marked
  · cases hmark.inferenceRules_eq hmerge.marked
  · cases hmark.inferenceRules_eq hmark'
    exact hkept ⟨rfl, rfl, fun p hp => absurd hp List.not_mem_nil⟩

/-- Where a secrecy tag of the first result of an operation comes from. -/
theorem MayHave.result_cases {op : Operation} (hop : op ∈ module.operations) {t : TagId}
    (h : MayHave module rules (op.getOutputValue 0) t) :
    ((HasDefaultOutput module op 0 ∨ IsWrapped module op) ∧
      ∃ u ∈ op.inputs, MayHave module rules u t) ∨
    ∃ kind tag premises u, MarkedAs rules op (.transform kind tag premises) ∧
      op.inputs.head? = some u ∧
      (MayHave module rules u t ∧
          ¬ (kind = .removeSecrecy ∧ t = tag ∧ Satisfied module rules op premises) ∨
        Live module u ∧ kind = .addSecrecy ∧ t = tag ∧ Satisfied module rules op premises) := by
  generalize hv : op.getOutputValue 0 = v at h
  cases h with
  | default hop' hdefault _ hu hmay =>
    obtain ⟨rfl, rfl⟩ := module.eq_of_output hop hop' hv
    exact Or.inl ⟨Or.inl hdefault, _, hu, hmay⟩
  | merge hop' hwrapped _ _ hu hmay =>
    obtain ⟨rfl, -⟩ := module.eq_of_output hop hop' hv
    exact Or.inl ⟨Or.inr hwrapped, _, hu, hmay⟩
  | transform hop' hmark _ hhead hmay hkept =>
    obtain ⟨rfl, -⟩ := module.eq_of_output hop hop' hv
    exact Or.inr ⟨_, _, _, _, hmark, hhead, Or.inl ⟨hmay, hkept⟩⟩
  | add hop' hmark _ hhead hlive hsat =>
    obtain ⟨rfl, -⟩ := module.eq_of_output hop hop' hv
    exact Or.inr ⟨_, _, _, _, hmark, hhead, Or.inr ⟨hlive, rfl, rfl, hsat⟩⟩

theorem MayHave.isOperationResult {v : Value} {t : TagId} (h : MayHave module rules v t) :
    v.isOperationResult = true := by
  cases h <;> rfl

theorem mayHave_default_iff (hd : Decoded expr module rules) {op : Operation}
    (hop : op ∈ module.operations) (hdefault : HasDefaultOutput module op 0)
    (hi : 0 < op.numberOfOutputs) (t : TagId) :
    MayHave module rules (op.getOutputValue 0) t ↔ ∃ u ∈ op.inputs, MayHave module rules u t := by
  constructor
  · intro h
    rcases h.result_cases hop with ⟨-, hu⟩ | ⟨kind, tag, premises, u, hmark, -⟩
    · exact hu
    · exact absurd hdefault (hmark.not_default hd hop)
  · rintro ⟨u, hu, hmay⟩
    exact .default hop hdefault hi hu hmay

theorem mayHave_transform_iff (hd : Decoded expr module rules) {op : Operation}
    (hop : op ∈ module.operations) {kind : ModifyTag.Kind} {tag : TagId}
    {premises : List InputHasIntegrity} (hmark : MarkedAs rules op (.transform kind tag premises))
    (hi : 0 < op.numberOfOutputs) {u : Value} (hhead : op.inputs.head? = some u)
    (hlive : Live module u) (t : TagId) :
    MayHave module rules (op.getOutputValue 0) t ↔
      (MayHave module rules u t ∧
          ¬ (kind = .removeSecrecy ∧ t = tag ∧ Satisfied module rules op premises)) ∨
        (kind = .addSecrecy ∧ t = tag ∧ Satisfied module rules op premises) := by
  constructor
  · intro h
    rcases h.result_cases hop with ⟨hdefault | ⟨T, hT, n, hwraps⟩, -⟩ |
      ⟨kind', tag', premises', u', hmark', hhead', hcases⟩
    · exact absurd hdefault (hmark.not_default hd hop)
    · obtain ⟨k, hmerge⟩ := hd.markedMerge hT hwraps
      exact absurd (hmark.inferenceRules_eq hmerge.marked) (by simp [Mark.inferenceRules,
        mergeRules, transformRules])
    · cases hmark.inferenceRules_eq hmark'
      rw [hhead'] at hhead
      cases hhead
      exact hcases.imp_right And.right
  · rintro (⟨hmay, hkept⟩ | ⟨rfl, rfl, hsat⟩)
    · exact .transform hop hmark hi hhead hmay hkept
    · exact .add hop hmark hi hhead hlive hsat

/-! ### The end of a run -/

section

variable {valueStates : ValueStateMap AbstractIfcTags}

theorem Decoded.withinSolution_end (hd : Decoded expr module rules)
    (h : ComputeIfcTags rules module valueStates) (v : Value) :
    WithinSolution module rules v (currentStates valueStates v) := by
  obtain ⟨state, hreach, -, rfl⟩ := h
  exact hd.withinSolution hreach v

theorem due_of_ne_bottom {op : Operation} {u : Value} (hu : u ∈ op.inputs)
    (hne : currentStates valueStates u ≠ bottom) :
    op.inputs = [] ∨ ∃ v ∈ op.inputs, valueStates.lookup v ≠ none :=
  Or.inr ⟨u, hu, lookup_ne_none_of_ne_bottom hne⟩

theorem due_of_all {op : Operation} (h : ∀ u ∈ op.inputs, currentStates valueStates u ≠ bottom) :
    op.inputs = [] ∨ ∃ v ∈ op.inputs, valueStates.lookup v ≠ none := by
  cases hinputs : op.inputs with
  | nil => exact Or.inl rfl
  | cons u rest =>
    have hu : u ∈ op.inputs := by
      rw [hinputs]
      exact List.mem_cons_self ..
    exact Or.inr ⟨u, List.mem_cons_self .., lookup_ne_none_of_ne_bottom (h u hu)⟩

theorem Live.of_default {op : Operation} {i : ℕ} (h : Live module (op.getOutputValue i))
    (hop : op ∈ module.operations) (hdefault : HasDefaultOutput module op i) :
    op.inputs = [] ∨ ∃ u ∈ op.inputs, Live module u := by
  generalize hv : op.getOutputValue i = v at h
  cases h with
  | operand _ hres =>
    rw [← hv] at hres
    cases hres
  | source hop' hnil hj =>
    obtain ⟨rfl, -⟩ := module.eq_of_output hop hop' hv
    exact Or.inl hnil
  | default hop' _ hu hlive hj =>
    obtain ⟨rfl, -⟩ := module.eq_of_output hop hop' hv
    exact Or.inr ⟨_, hu, hlive⟩
  | merge hop' hwrapped _ hj =>
    obtain ⟨rfl, rfl⟩ := module.eq_of_output hop hop' hv
    rcases hdefault with hne | ⟨hnot, -⟩
    · exact absurd rfl hne
    · exact absurd hwrapped hnot
  | transform hop' htransform _ _ hj =>
    obtain ⟨rfl, rfl⟩ := module.eq_of_output hop hop' hv
    rcases hdefault with hne | ⟨-, hnot⟩
    · exact absurd rfl hne
    · exact absurd htransform hnot

theorem lost_of_le {t : TagId} {a b : AbstractIfcTags} (hle : a ≤ b)
    (hlost : ¬ AssumesIntegrity t a) : ¬ AssumesIntegrity t b := by
  intro hb
  exact hlost (AssumesIntegrity.anti hle hb)

/-- A merge whose inputs are live loses the tags that it does not merge from them. -/
theorem Decoded.lost_of_merge (hd : Decoded expr module rules)
    (h : ComputeIfcTags rules module valueStates) {op : Operation} (hop : op ∈ module.operations)
    {kind : MergeIntegrityTags.Kind} {k : ℕ} (hmarked : MarkedMerge module rules op kind k)
    (hready : AllInputsLive module op) (hi : 0 < op.numberOfOutputs) {t : TagId}
    (hnot : t ∉ mergedIntegrity kind
      ((op.inputs.take k).map (integrityOf ∘ currentStates valueStates))) :
    ¬ AssumesIntegrity t (currentStates valueStates (op.getOutputValue 0)) := by
  have hall := fun u hu => hd.ne_bottom_of_live h (hready u hu)
  obtain ⟨out, hcase, hle⟩ := hd.settled_output h hop (due_of_all hall) hi
  rw [hcase.of_merge hmarked] at hle
  have hmap : ∀ s ∈ op.inputs.map (currentStates valueStates), s ≠ bottom := by
    intro s hs
    obtain ⟨u, hu, rfl⟩ := List.mem_map.mp hs
    exact hall u hu
  refine lost_of_le hle (lost_of_notMem ((mergeState_ne_bottom _ k _).mpr hmap) ?_)
  rwa [integrityOf_mergeState _ k _ hmap, ← List.map_take, List.map_map]

/-- A transform passes on that its first input has lost a tag, unless it adds the tag. -/
theorem Decoded.lost_of_transform (hd : Decoded expr module rules)
    (h : ComputeIfcTags rules module valueStates) {op : Operation} (hop : op ∈ module.operations)
    {kind : ModifyTag.Kind} {tag : TagId} {premises : List InputHasIntegrity}
    (hmark : MarkedAs rules op (.transform kind tag premises)) (hi : 0 < op.numberOfOutputs)
    {u : Value} (hhead : op.inputs.head? = some u) {t : TagId}
    (hlost : ¬ AssumesIntegrity t (currentStates valueStates u))
    (hadd : ¬ (PremisesHold premises (op.inputs.map (currentStates valueStates)) ∧
      kind = .addIntegrity ∧ t = tag)) :
    ¬ AssumesIntegrity t (currentStates valueStates (op.getOutputValue 0)) := by
  obtain ⟨out, hcase, hle⟩ := hd.settled_output h hop
    (due_of_ne_bottom (List.mem_of_mem_head? hhead) (ne_bottom_of_lost hlost)) hi
  rw [hcase.of_transform hd hop hmark] at hle
  refine lost_of_le hle (lost_transformState.mpr ⟨?_, hadd⟩)
  rwa [getD_map_zero op _ hhead]

/-- Everything derivable as lost is lost at the end of every run. -/
theorem Decoded.lost_of_lacks (hd : Decoded expr module rules)
    (h : ComputeIfcTags rules module valueStates) {v : Value} {t : TagId}
    (hlacks : Lacks module rules v t) :
    ¬ AssumesIntegrity t (currentStates valueStates v) := by
  induction hlacks with
  | operand hoperand hres =>
    have hlookup := h.lookup_operand hoperand hres
    rw [currentStates_eq, hlookup, Option.getD_some]
    exact lost_of_notMem (of_ne_bot ∅ ∅) (Finset.notMem_empty _)
  | @default op i t hop hdefault hi hlive =>
    have hne : op.inputs = [] ∨ ∃ u ∈ op.inputs, currentStates valueStates u ≠ bottom := by
      rcases hlive.of_default hop hdefault with hnil | ⟨u, hu, hlive⟩
      · exact Or.inl hnil
      · exact Or.inr ⟨u, hu, hd.ne_bottom_of_live h hlive⟩
    have hdue : op.inputs = [] ∨ ∃ v ∈ op.inputs, valueStates.lookup v ≠ none := by
      rcases hne with hnil | ⟨u, hu, hbot⟩
      · exact Or.inl hnil
      · exact due_of_ne_bottom hu hbot
    obtain ⟨out, hcase, hle⟩ := hd.settled_output h hop hdue hi
    rw [hcase.of_default hdefault] at hle
    refine lost_of_le hle (lost_of_notMem ?_ ?_)
    · refine (defaultState_ne_bottom _).mpr ?_
      rcases hne with hnil | ⟨u, hu, hbot⟩
      · exact Or.inl (List.map_eq_nil_iff.mpr hnil)
      · exact Or.inr ⟨_, List.mem_map_of_mem hu, hbot⟩
    · rw [integrityOf_defaultState]
      exact Finset.notMem_empty t
  | @union op k t hop hmarked hready hi _ ih =>
    refine hd.lost_of_merge h hop hmarked hready hi ?_
    rw [mem_mergedIntegrity_union]
    rintro ⟨tagSet, htagSet, hmem⟩
    obtain ⟨u, hu, rfl⟩ := List.mem_map.mp htagSet
    exact notMem_of_lost (ih u hu) hmem
  | @intersect op k u t hop hmarked hready hi hu _ ih =>
    refine hd.lost_of_merge h hop hmarked hready hi ?_
    rw [mem_mergedIntegrity_intersect]
    rintro ⟨-, hmem⟩
    exact notMem_of_lost ih (hmem _ (List.mem_map_of_mem hu))
  | @intersectNone op k t hop hmarked hready hi hnil =>
    refine hd.lost_of_merge h hop hmarked hready hi ?_
    rw [mem_mergedIntegrity_intersect, hnil]
    rintro ⟨hne, -⟩
    exact hne rfl
  | @transform op kind tag premises u t hop hmark hi hhead _ hkind ih =>
    exact hd.lost_of_transform h hop hmark hi hhead ih fun hadd => hkind hadd.2
  | @unsatisfied op kind tag premises p u w t hop hmark hi hhead _ hp hw _ ih ihw =>
    exact hd.lost_of_transform h hop hmark hi hhead ih fun hadd => ihw (hadd.1.assumes hp hw)

/-- At the end of every run the premises that hold are the satisfied ones. -/
theorem Decoded.premisesHold_iff (hd : Decoded expr module rules)
    (h : ComputeIfcTags rules module valueStates) (op : Operation)
    (premises : List InputHasIntegrity) :
    PremisesHold premises (op.inputs.map (currentStates valueStates)) ↔
      Satisfied module rules op premises := by
  constructor
  · intro hhold p hp w hw hlacks
    exact hd.lost_of_lacks h hlacks (hhold.assumes hp hw)
  · intro hsat
    by_contra hhold
    obtain ⟨p, hp, w, hw, hlost⟩ := not_premisesHold hhold
    exact hsat p hp w hw ((hd.withinSolution_end h w).lacks p.tag hlost)

/-- Everything derivable as a secrecy tag is a secrecy tag at the end of every run. -/
theorem Decoded.memSecrecy_of_mayHave (hd : Decoded expr module rules)
    (h : ComputeIfcTags rules module valueStates) {v : Value} {t : TagId}
    (hmay : MayHave module rules v t) : MemSecrecy t (currentStates valueStates v) := by
  induction hmay with
  | @default op u i t hop hdefault hi hu _ ih =>
    obtain ⟨out, hcase, hle⟩ := hd.settled_output h hop
      (due_of_ne_bottom hu (memSecrecy_ne_bottom ih)) hi
    rw [hcase.of_default hdefault] at hle
    exact MemSecrecy.mono hle ((memSecrecy_defaultState t _).mpr ⟨_, List.mem_map_of_mem hu, ih⟩)
  | @merge op u t hop hwrapped hready hi hu _ ih =>
    obtain ⟨out, hcase, hle⟩ := hd.settled_output h hop
      (due_of_ne_bottom hu (memSecrecy_ne_bottom ih)) hi
    obtain ⟨T, hT, ruleName, hwraps⟩ := hwrapped
    obtain ⟨k, hmarked⟩ := hd.markedMerge hT hwraps
    rw [hcase.of_merge hmarked] at hle
    refine MemSecrecy.mono hle
      ((memSecrecy_mergeState t _ k _).mpr ⟨?_, _, List.mem_map_of_mem hu, ih⟩)
    intro s hs
    obtain ⟨w, hw, rfl⟩ := List.mem_map.mp hs
    exact hd.ne_bottom_of_live h (hready w hw)
  | @transform op kind tag premises u t hop hmark hi hhead _ hkept ih =>
    obtain ⟨out, hcase, hle⟩ := hd.settled_output h hop
      (due_of_ne_bottom (List.mem_of_mem_head? hhead) (memSecrecy_ne_bottom ih)) hi
    rw [hcase.of_transform hd hop hmark] at hle
    refine MemSecrecy.mono hle ?_
    simp only [transformState]
    rw [getD_map_zero op _ hhead]
    split
    · next hhold =>
      refine (memSecrecy_applyModifyTag t kind tag _).mpr ?_
      cases kind with
      | addSecrecy => exact ⟨memSecrecy_ne_bottom ih, Or.inr ih⟩
      | addIntegrity => exact ih
      | removeSecrecy =>
        refine ⟨fun heq => hkept ⟨rfl, heq, (hd.premisesHold_iff h op premises).mp hhold⟩, ih⟩
    · exact ih
  | @add op tag premises u hop hmark hi hhead hlive hsat =>
    have hne := hd.ne_bottom_of_live h hlive
    obtain ⟨out, hcase, hle⟩ := hd.settled_output h hop
      (due_of_ne_bottom (List.mem_of_mem_head? hhead) hne) hi
    rw [hcase.of_transform hd hop hmark] at hle
    refine MemSecrecy.mono hle ?_
    simp only [transformState]
    rw [getD_map_zero op _ hhead, if_pos ((hd.premisesHold_iff h op premises).mpr hsat)]
    exact (memSecrecy_applyModifyTag tag .addSecrecy tag _).mpr ⟨hne, Or.inl rfl⟩

theorem Decoded.mem_integrityOf_iff (hd : Decoded expr module rules)
    (h : ComputeIfcTags rules module valueStates) (v : Value) (t : TagId) :
    t ∈ integrityOf (currentStates valueStates v) ↔
      Live module v ∧ ¬ Lacks module rules v t := by
  have hwithin := hd.withinSolution_end h v
  constructor
  · intro hmem
    have hne : currentStates valueStates v ≠ bottom := by
      intro hbot
      rw [hbot] at hmem
      exact absurd hmem (Finset.notMem_empty t)
    exact ⟨hwithin.live hne, fun hlacks => notMem_of_lost (hd.lost_of_lacks h hlacks) hmem⟩
  · rintro ⟨hlive, hnot⟩
    by_contra hmem
    exact hnot (hwithin.lacks t (lost_of_notMem (hd.ne_bottom_of_live h hlive) hmem))

end

end

end Raksha.Sql
