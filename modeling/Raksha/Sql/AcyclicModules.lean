import Mathlib.Order.WellFoundedSet
import Raksha.Sql.GuardedRuns

/-!
# Acyclic modules

In a module without cycles among its operands, properties of values follow the data flow. All
values of such a module are live.
-/

namespace Raksha.Sql
open Raksha.Common Raksha.Ir Raksha.Analysis Raksha.Taint AbstractIfcTags

def Feeds (module : Module) (op op' : Operation) : Prop :=
  op ∈ module.operations ∧ op' ∈ module.operations ∧ ∃ i, op.getOutputValue i ∈ op'.inputs

def Acyclic (module : Module) : Prop :=
  ∀ op, ¬ Relation.TransGen (Feeds module) op op

def SingleResults (module : Module) : Prop :=
  ∀ op ∈ module.operations, op.numberOfOutputs = 1

instance (module : Module) : Decidable (SingleResults module) :=
  inferInstanceAs (Decidable (∀ op ∈ module.operations, _))

/-- A numbering of the operations that grows along the data flow rules out cycles. -/
theorem acyclic_of_rank {module : Module} (rank : Address → ℕ)
    (h : ∀ op ∈ module.operations, ∀ op' ∈ module.operations, ∀ v ∈ op'.inputs,
      ∀ i, v = op.getOutputValue i → rank op.address < rank op'.address) : Acyclic module := by
  have hgrow : ∀ op op', Relation.TransGen (Feeds module) op op' →
      rank op.address < rank op'.address := by
    intro op op' hpath
    induction hpath with
    | single hfeeds =>
      obtain ⟨hop, hop', i, hin⟩ := hfeeds
      exact h _ hop _ hop' _ hin i rfl
    | tail _ hfeeds ih =>
      obtain ⟨hop, hop', i, hin⟩ := hfeeds
      exact Nat.lt_trans ih (h _ hop _ hop' _ hin i rfl)
  intro op hcycle
  exact Nat.lt_irrefl _ (hgrow op op hcycle)

section

variable {module : Module}

theorem Acyclic.induction (hacyclic : Acyclic module) {motive : Operation → Prop}
    (hstep : ∀ op ∈ module.operations, (∀ op', Feeds module op' op → motive op') → motive op) :
    ∀ op ∈ module.operations, motive op := by
  have horder : IsStrictOrder Operation (Relation.TransGen (Feeds module)) :=
    { irrefl := hacyclic, trans := fun _ _ _ => Relation.TransGen.trans }
  have hfinite : {op | op ∈ module.operations}.Finite := List.finite_toSet module.operations
  have hwf := hfinite.wellFoundedOn (r := Relation.TransGen (Feeds module))
  intro op hop
  refine hwf.induction (P := motive) hop ?_
  intro op' hop' ih
  refine hstep op' hop' ?_
  intro op'' hfeeds
  exact ih op'' hfeeds.1 (.single hfeeds)

/-- Induction over the values of the module: operands that no operation computes, and results
after the inputs of their operation. -/
theorem Acyclic.values (hacyclic : Acyclic module) (hlinked : module.WellLinked)
    (hsingle : SingleResults module) {motive : Value → Prop}
    (hoperand : ∀ v, module.IsOperand v → v.isOperationResult = false → motive v)
    (hresult : ∀ op ∈ module.operations, (∀ u ∈ op.inputs, motive u) →
      motive (op.getOutputValue 0)) :
    (∀ op ∈ module.operations, motive (op.getOutputValue 0)) ∧
      ∀ v, module.IsOperand v → motive v := by
  have hall : ∀ op ∈ module.operations, motive (op.getOutputValue 0) := by
    refine hacyclic.induction ?_
    intro op hop ih
    refine hresult op hop ?_
    intro u hu
    cases hres : u.isOperationResult with
    | false => exact hoperand u ⟨op, hop, hu⟩ hres
    | true =>
      obtain ⟨op', hop', i, hi, rfl⟩ := hlinked op hop u hu hres
      rw [hsingle op' hop', Nat.lt_one_iff] at hi
      subst hi
      exact ih op' ⟨hop', hop, 0, hu⟩
  refine ⟨hall, ?_⟩
  rintro v ⟨op, hop, hv⟩
  cases hres : v.isOperationResult with
  | false => exact hoperand v ⟨op, hop, hv⟩ hres
  | true =>
    obtain ⟨op', hop', i, hi, rfl⟩ := hlinked op hop v hv hres
    rw [hsingle op' hop', Nat.lt_one_iff] at hi
    subst hi
    exact hall op' hop'

theorem IsPolicyTransform.head {expr : ExpressionArena} {rules : InferenceRules}
    (hd : Decoded expr module rules) {op : Operation} (hop : op ∈ module.operations)
    (h : IsPolicyTransform op) : ∃ u, op.inputs.head? = some u := by
  obtain ⟨_, _, kind, tag, premises, _, _, _, hdecoded⟩ := hd.policyTransform hop h
  obtain ⟨u, rest, hcons⟩ := List.exists_cons_of_ne_nil hdecoded.inputs
  exact ⟨u, by rw [hcons, List.head?_cons]⟩

theorem Acyclic.live {expr : ExpressionArena} {rules : InferenceRules}
    (hd : Decoded expr module rules) (hacyclic : Acyclic module) (hlinked : module.WellLinked)
    (hsingle : SingleResults module) :
    (∀ op ∈ module.operations, Live module (op.getOutputValue 0)) ∧
      ∀ v, module.IsOperand v → Live module v := by
  refine hacyclic.values hlinked hsingle (fun v hv hres => .operand hv hres) ?_
  intro op hop hinputs
  have hi : 0 < op.numberOfOutputs := by
    rw [hsingle op hop]
    exact Nat.one_pos
  by_cases hwrapped : IsWrapped module op
  · exact .merge hop hwrapped hinputs hi
  · by_cases htransform : IsPolicyTransform op
    · obtain ⟨u, hhead⟩ := htransform.head hd hop
      exact .transform hop htransform hhead (hinputs u (List.mem_of_mem_head? hhead)) hi
    · cases hin : op.inputs with
      | nil => exact .source hop hin hi
      | cons u rest =>
        have hu : u ∈ op.inputs := by
          rw [hin]
          exact List.mem_cons_self ..
        exact .default hop (Or.inr ⟨hwrapped, htransform⟩) hu (hinputs u hu) hi

/-- The values of an acyclic module lack every integrity tag without a name. -/
theorem Acyclic.lacks_unnamed {expr : ExpressionArena} {rules : InferenceRules}
    (hd : Decoded expr module rules) (hacyclic : Acyclic module) (hlinked : module.WellLinked)
    (hsingle : SingleResults module) {t : TagId}
    (hunnamed : ∀ name, rules.tags.lookup name ≠ some t) :
    (∀ op ∈ module.operations, Lacks module rules (op.getOutputValue 0) t) ∧
      ∀ v, module.IsOperand v → Lacks module rules v t := by
  have hlive := hacyclic.live hd hlinked hsingle
  refine hacyclic.values (motive := fun v => Lacks module rules v t) hlinked hsingle
    (fun v hv hres => .operand hv hres) ?_
  intro op hop hinputs
  have hi : 0 < op.numberOfOutputs := by
    rw [hsingle op hop]
    exact Nat.one_pos
  by_cases hwrapped : IsWrapped module op
  · obtain ⟨T, hT, ruleName, hwraps⟩ := hwrapped
    obtain ⟨k, hmerge⟩ := hd.markedMerge hT hwraps
    have hready : AllInputsLive module op := fun u hu => hlive.2 u ⟨op, hop, hu⟩
    have htake : ∀ u ∈ op.inputs.take k, Lacks module rules u t := fun u hu =>
      hinputs u (List.mem_of_mem_take hu)
    cases hkind : specialRuleKind ruleName with
    | union => exact .union hop (hkind ▸ hmerge) hready hi htake
    | intersect =>
      by_cases hnil : op.inputs.take k = []
      · exact .intersectNone hop (hkind ▸ hmerge) hready hi hnil
      · obtain ⟨u, hu⟩ := List.exists_mem_of_ne_nil _ hnil
        exact .intersect hop (hkind ▸ hmerge) hready hi hu (htake u hu)
  · by_cases htransform : IsPolicyTransform op
    · obtain ⟨_, rule, kind, tag, premises, -, -, -, hdecoded⟩ := hd.policyTransform hop htransform
      obtain ⟨u, hhead⟩ := htransform.head hd hop
      refine .transform hop hdecoded.marked hi hhead (hinputs u (List.mem_of_mem_head? hhead)) ?_
      rintro ⟨-, rfl⟩
      exact hunnamed _ hdecoded.tag
    · exact .default hop (Or.inr ⟨hwrapped, htransform⟩) hi (hlive.1 op hop)

end

end Raksha.Sql
