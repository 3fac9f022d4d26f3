import Raksha.Sql.StaticSolution

/-!
# Runs that add no secrecy tag too early

A precondition holds of an input that has not been processed yet. A transform that adds a secrecy
tag on the strength of such an input adds it for good, although the precondition is lost later.
A run without such a step computes the solution of the module.
-/

namespace Raksha.Sql
open Raksha.Common Raksha.Ir Raksha.Analysis Raksha.Taint AbstractIfcTags

/-- The step adds no secrecy tag under preconditions that are lost later. -/
def NoPrematureSecrecy (module : Module) (rules : InferenceRules) : Guard AbstractIfcTags :=
  fun op ρ => ∀ tag premises, MarkedAs rules op (.transform .addSecrecy tag premises) →
    (∃ u, op.inputs.head? = some u ∧ ρ u ≠ bottom) → PremisesHold premises (op.inputs.map ρ) →
    Satisfied module rules op premises

section

variable {expr : ExpressionArena} {module : Module} {rules : InferenceRules}

theorem MarkedMerge.isWrapped {op : Operation} {kind : MergeIntegrityTags.Kind} {k : ℕ}
    (h : MarkedMerge module rules op kind k) : IsWrapped module op := by
  obtain ⟨T, hT, ruleName, hwraps, -⟩ := h.wrapper
  exact ⟨T, hT, ruleName, hwraps⟩

theorem OutputCase.mayHave {op : Operation} (hop : op ∈ module.operations)
    {ρ : Value → AbstractIfcTags} {i : ℕ} {out : AbstractIfcTags}
    (h : OutputCase expr module rules op (op.inputs.map ρ) i out) (hi : i < op.numberOfOutputs)
    (hguard : NoPrematureSecrecy module rules op ρ)
    (hwithin : ∀ u ∈ op.inputs, WithinSolution module rules u (ρ u))
    (hinputs : ∀ u ∈ op.inputs, ∀ t, MemSecrecy t (ρ u) → MayHave module rules u t)
    {t : TagId} (ht : MemSecrecy t out) : MayHave module rules (op.getOutputValue i) t := by
  cases h with
  | default hdefault =>
    obtain ⟨s, hs, hmem⟩ := (memSecrecy_defaultState t _).mp ht
    obtain ⟨u, hu, rfl⟩ := List.mem_map.mp hs
    exact MayHave.default hop hdefault hi hu (hinputs u hu t hmem)
  | merge kind k hzero hmarked =>
    subst hzero
    obtain ⟨hall, s, hs, hmem⟩ := (memSecrecy_mergeState t kind k _).mp ht
    obtain ⟨u, hu, rfl⟩ := List.mem_map.mp hs
    have hready : AllInputsLive module op := fun w hw =>
      (hwithin w hw).live (hall _ (List.mem_map_of_mem hw))
    exact MayHave.merge hop hmarked.isWrapped hready hi hu (hinputs u hu t hmem)
  | transform n rule kind tag premises hzero hname hspecial hrule hn hdecoded =>
    subst hzero
    obtain ⟨u, rest, hcons⟩ := List.exists_cons_of_ne_nil hdecoded.inputs
    have hhead : op.inputs.head? = some u := by rw [hcons, List.head?_cons]
    have hu := List.mem_of_mem_head? hhead
    have hmark := hdecoded.marked
    simp only [transformState] at ht
    rw [getD_map_zero op ρ hhead] at ht
    by_cases hhold : PremisesHold premises (op.inputs.map ρ)
    · rw [if_pos hhold, memSecrecy_applyModifyTag] at ht
      cases kind with
      | addSecrecy =>
        obtain ⟨hne, rfl | hmem⟩ := ht
        · have hsat := hguard _ premises hmark ⟨u, hhead, hne⟩ hhold
          exact MayHave.add hop hmark hi hhead ((hwithin u hu).live hne) hsat
        · exact MayHave.transform hop hmark hi hhead (hinputs u hu t hmem)
            fun h => ModifyTag.Kind.noConfusion h.1
      | addIntegrity =>
        exact MayHave.transform hop hmark hi hhead (hinputs u hu t ht)
          fun h => ModifyTag.Kind.noConfusion h.1
      | removeSecrecy =>
        exact MayHave.transform hop hmark hi hhead (hinputs u hu t ht.2) fun h => ht.1 h.2.1
    · rw [if_neg hhold] at ht
      refine MayHave.transform hop hmark hi hhead (hinputs u hu t ht) ?_
      rintro ⟨-, -, hsat⟩
      obtain ⟨p, hp, w, hw, hlost⟩ := not_premisesHold hhold
      exact hsat p hp w hw ((hwithin w (List.mem_of_getElem? hw)).lacks p.tag hlost)

/-- Every state of a guarded run has only the secrecy tags of the solution. -/
theorem Decoded.mayHave_of_guarded (hd : Decoded expr module rules)
    {state : IterationState AbstractIfcTags}
    (hreach : ReachableUnder (NoPrematureSecrecy module rules) (taintSemantics rules) module
      state) {v : Value} {t : TagId} (ht : MemSecrecy t (currentStates state.valueStates v)) :
    MayHave module rules v t := by
  let I : Value → AbstractIfcTags → Prop := fun v a =>
    WithinSolution module rules v a ∧ ∀ t, MemSecrecy t a → MayHave module rules v t
  have hI : I v (currentStates state.valueStates v) := by
    refine ReachableUnder.closed (I := I) ?_ ?_ ?_ ?_ hreach v
    · intro v
      exact ⟨WithinSolution.bot v, fun t h => absurd rfl (memSecrecy_ne_bottom h)⟩
    · rintro v a b ⟨ha, hmayA⟩ ⟨hb, hmayB⟩
      refine ⟨ha.sup hb, ?_⟩
      intro t h
      rcases (memSecrecy_sup t a b).mp h with h | h
      · exact hmayA t h
      · exact hmayB t h
    · intro v hoperand hres
      refine ⟨⟨fun _ => Live.operand hoperand hres, fun t _ => Lacks.operand hoperand hres⟩, ?_⟩
      rintro t ⟨s, hs, hmem⟩
      cases hs
      exact absurd hmem (Finset.notMem_empty t)
    · intro op hop ρ outputs hguard hin happly i hi
      have hcase := hd.transformer_output hop ρ happly hi
      exact ⟨hcase.withinSolution hop hi fun u hu => (hin u hu).1,
        fun t h => hcase.mayHave hop hi hguard (fun u hu => (hin u hu).1)
          (fun u hu => (hin u hu).2) h⟩
  exact hI.2 t ht

variable {valueStates : ValueStateMap AbstractIfcTags}

theorem Decoded.memSecrecy_iff (hd : Decoded expr module rules)
    (h : ComputeFixpointUnder (NoPrematureSecrecy module rules) (taintSemantics rules) module
      valueStates) (v : Value) (t : TagId) :
    MemSecrecy t (currentStates valueStates v) ↔ MayHave module rules v t := by
  constructor
  · intro ht
    obtain ⟨state, hreach, -, rfl⟩ := h
    exact hd.mayHave_of_guarded hreach ht
  · exact hd.memSecrecy_of_mayHave h.computeFixpoint

/-- When no conditional rule of the module can add a secrecy tag too early, every run is
guarded. -/
theorem ComputeFixpoint.noPrematureSecrecy
    (hstatic : ∀ op ∈ module.operations, ∀ tag premises,
      MarkedAs rules op (.transform .addSecrecy tag premises) →
      Satisfied module rules op premises)
    (h : ComputeIfcTags rules module valueStates) :
    ComputeFixpointUnder (NoPrematureSecrecy module rules) (taintSemantics rules) module
      valueStates := by
  obtain ⟨state, ⟨nodes, init, hperm, hinit, hsteps⟩, hempty, hstates⟩ := h
  refine ⟨state, ⟨nodes, init, hperm, hinit, Relation.ReflTransGen.mono ?_ _ _ hsteps⟩, hempty,
    hstates⟩
  rintro s s' ⟨op, -, hiter⟩
  exact ⟨op, fun tag premises hmark _ _ => hstatic op hiter.1 tag premises hmark, hiter⟩

theorem eq_of_tags {a b : AbstractIfcTags} (hbot : a = bottom ↔ b = bottom)
    (hsecrecy : ∀ t, MemSecrecy t a ↔ MemSecrecy t b)
    (hintegrity : ∀ t, t ∈ integrityOf a ↔ t ∈ integrityOf b) : a = b := by
  cases a with
  | bottom => exact (hbot.mp rfl).symm
  | tags s =>
    cases b with
    | bottom => exact absurd (hbot.mpr rfl) (tags_ne_bot s)
    | tags t =>
      have hsec : s.secrecyTags = t.secrecyTags := by
        ext tag
        simpa [MemSecrecy] using hsecrecy tag
      have hint : s.integrityTags = t.integrityTags := by
        ext tag
        exact hintegrity tag
      cases s
      cases t
      simp only at hsec hint
      rw [hsec, hint]

theorem Decoded.lookup_unique (hd : Decoded expr module rules)
    {valueStates' : ValueStateMap AbstractIfcTags}
    (h : ComputeFixpointUnder (NoPrematureSecrecy module rules) (taintSemantics rules) module
      valueStates)
    (h' : ComputeFixpointUnder (NoPrematureSecrecy module rules) (taintSemantics rules) module
      valueStates') (v : Value) : valueStates.lookup v = valueStates'.lookup v := by
  have hnone : valueStates.lookup v ≠ none ↔ valueStates'.lookup v ≠ none :=
    (h.computeFixpoint.lookup_ne_none_iff v).trans (h'.computeFixpoint.lookup_ne_none_iff v).symm
  have hbot : valueStates.lookup v = some ⊥ ↔ valueStates'.lookup v = some ⊥ :=
    (hd.lookup_eq_bottom_iff h.computeFixpoint v).trans
      (hd.lookup_eq_bottom_iff h'.computeFixpoint v).symm
  have hsecrecy := fun t => (hd.memSecrecy_iff h v t).trans (hd.memSecrecy_iff h' v t).symm
  have hintegrity := fun t => (hd.mem_integrityOf_iff h.computeFixpoint v t).trans
    (hd.mem_integrityOf_iff h'.computeFixpoint v t).symm
  cases ha : valueStates.lookup v with
  | none =>
    rw [ha] at hnone
    exact (not_not.mp fun hne => hnone.mpr hne rfl).symm
  | some a =>
    obtain ⟨b, hb⟩ := Option.ne_none_iff_exists'.mp
      (hnone.mp (by rw [ha]; exact Option.some_ne_none a))
    simp only [currentStates_eq, ha, hb, Option.getD_some, Option.some.injEq] at *
    exact eq_of_tags hbot hsecrecy hintegrity

end

end Raksha.Sql
