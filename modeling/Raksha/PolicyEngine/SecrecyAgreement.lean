import Raksha.PolicyEngine.IntegrityAgreement

/-!
# Agreement of the policy engines on secrecy tags

In a module without special rules, Datalog derives the secrecy tags of the solution of the
module. The symbols of the module must not look like members of one another: Datalog gives an
access path the tags of its members.
-/

namespace Raksha.PolicyEngine
open Datalog
open Raksha.Common Raksha.Ir Raksha.Analysis Raksha.Taint Raksha.Sql
  Raksha.Souffle.Evaluation

/-- No value has the symbol of another value followed by a dot and more. -/
def NoMembers (module : Module) (symbol : Value → String) : Prop :=
  ∀ v w, IsValue module v → IsValue module w → ¬ Souffle.StartsWithMember (symbol v) (symbol w)

/-- The operands that no operation computes are arbitrary values. -/
def AnyOrResults (module : Module) : Prop :=
  ∀ op ∈ module.operations, ∀ v ∈ op.inputs, v = .any ∨ module.IsResult v

instance (module : Module) : Decidable (AnyOrResults module) :=
  inferInstanceAs (Decidable (∀ op ∈ module.operations, ∀ v ∈ op.inputs, _ ∨ _))

def NoSpecialRules (module : Module) : Prop :=
  ∀ op ∈ module.operations, ¬ IsSpecialTransform op

section

variable {expr : ExpressionArena} {module : Module} {rules : InferenceRules}
  {symbol : Value → String} {e : Souffle.Evaluation}

theorem NoSpecialRules.not_wrapped (hspecial : NoSpecialRules module) (op : Operation) :
    ¬ IsWrapped module op := by
  rintro ⟨T, hT, ruleName, hwraps⟩
  exact hspecial T hT ⟨ruleName, hwraps.named, hwraps.special⟩

theorem NoSpecialRules.policyTransform (hspecial : NoSpecialRules module)
    (hd : Decoded expr module rules) {op : Operation} (hop : op ∈ module.operations)
    (htransform : IsTagTransformOp op) : IsPolicyTransform op := by
  obtain ⟨ruleName, hname⟩ := hd.named op hop htransform
  exact ⟨ruleName, hname, fun hrule => hspecial op hop ⟨ruleName, hname, hrule⟩⟩

/-- The symbols have nothing to do with the special access path. -/
structure PlainSymbols (module : Module) (symbol : Value → String) : Prop where
  noMembers : NoMembers module symbol
  notBase : ∀ v, IsValue module v → ¬ Souffle.StartsWithMember Souffle.arbitraryComputation (symbol v)
  notMember : ∀ v, ¬ Souffle.StartsWithMember (symbol v) Souffle.arbitraryComputation

theorem SqlFacts.noMemberResults (h : SqlFacts module symbol e)
    (hplain : PlainSymbols module symbol) : NoMemberResults module symbol e := by
  rintro w hw base ⟨hbase, -, hstarts⟩
  rcases h.isAccessPath_cases hbase with rfl | ⟨v, hv, rfl⟩
  · exact hplain.notBase w (Or.inr hw) hstarts
  · exact hplain.noMembers v w hv (Or.inr hw) hstarts

/-- Datalog gives the value the secrecy tags of the solution. -/
def SecrecyAgreesOn (module : Module) (rules : InferenceRules) (symbol : Value → String)
    (e : Souffle.Evaluation) (v : Value) : Prop :=
  ∀ tag, e.MayHaveTag (symbol v) "sql" tag ↔
    ∃ id, rules.tags.lookup tag = some id ∧ MayHave module rules v id

namespace Comparable

variable (h : Comparable expr module rules symbol e)

include h

theorem secrecyAgreesOn_operand (hplain : PlainSymbols module symbol) {v : Value}
    (hv : module.IsOperand v) (hres : v.isOperationResult = false) :
    SecrecyAgreesOn module rules symbol e v := by
  intro tag
  constructor
  · intro hmay
    obtain ⟨op, hop, heq⟩ := h.facts.mayHave_target (h.facts.noMemberResults hplain) hmay
    rw [← h.symbols.injective _ v (isResult_output h.single hop) (Or.inl hv) heq.symm] at hres
    cases hres
  · rintro ⟨id, -, hmay⟩
    rw [hmay.isOperationResult] at hres
    cases hres

theorem secrecyAgreesOn_default (hplain : PlainSymbols module symbol) {op : Operation}
    (hop : op ∈ module.operations) (htransform : ¬ IsTagTransformOp op)
    (hwrapped : ¬ IsWrapped module op)
    (hinputs : ∀ u ∈ op.inputs, SecrecyAgreesOn module rules symbol e u) :
    SecrecyAgreesOn module rules symbol e (op.getOutputValue 0) := by
  have hdefault : HasDefaultOutput module op 0 :=
    Or.inr ⟨hwrapped, fun ⟨n, hname, _⟩ => htransform hname.transform⟩
  intro tag
  rw [h.facts.mayHave_default_iff (h.facts.noMemberResults hplain) hop htransform]
  simp only [mayHave_default_iff h.decoded hop hdefault (h.hasOutput hop)]
  constructor
  · rintro ⟨u, hu, hmay⟩
    obtain ⟨id, hid, hu'⟩ := (hinputs u hu tag).mp hmay
    exact ⟨id, hid, u, hu, hu'⟩
  · rintro ⟨id, hid, u, hu, hmay⟩
    exact ⟨u, hu, (hinputs u hu tag).mpr ⟨id, hid, hmay⟩⟩

theorem secrecyAgreesOn_transform (hplain : PlainSymbols module symbol) {op : Operation}
    (hop : op ∈ module.operations) (htransform : IsPolicyTransform op)
    (hintegrity : ∀ u ∈ op.inputs, AgreesOn module rules symbol e u)
    (hinputs : ∀ u ∈ op.inputs, SecrecyAgreesOn module rules symbol e u) :
    SecrecyAgreesOn module rules symbol e (op.getOutputValue 0) := by
  obtain ⟨_, rule, kind, id, premises, hname, hrule, rfl, hdecoded⟩ :=
    h.decoded.policyTransform hop htransform
  obtain ⟨u, rest, hcons⟩ := List.exists_cons_of_ne_nil hdecoded.inputs
  have hhead : op.inputs.head? = some u := by rw [hcons, List.head?_cons]
  have hu := List.mem_of_mem_head? hhead
  intro tag
  have heffect := h.ruleEffect_iff hop hrule hname hdecoded hintegrity
  rw [h.facts.mayHave_transform_iff (h.facts.noMemberResults hplain) hop hhead hname.transform,
    h.facts.hasTag_iff hop, h.facts.removeTag_iff hop, heffect, heffect, hinputs u hu tag]
  simp only [mayHave_transform_iff h.decoded hop hdecoded.marked (h.hasOutput hop) hhead
    (h.live_input hop hu)]
  constructor
  · rintro (⟨hresult, hsat⟩ | ⟨⟨t, ht, hmay⟩, hkept⟩)
    · cases kind <;> cases hresult
      exact ⟨id, hdecoded.tag, Or.inr ⟨rfl, rfl, hsat⟩⟩
    · refine ⟨t, ht, Or.inl ⟨hmay, ?_⟩⟩
      rintro ⟨rfl, rfl, hsat⟩
      refine hkept ⟨?_, hsat⟩
      rw [h.decoded.table.injective hdecoded.tag ht]
      rfl
  · rintro ⟨t, ht, ⟨hmay, hkept⟩ | ⟨rfl, rfl, hsat⟩⟩
    · refine Or.inr ⟨⟨t, ht, hmay⟩, ?_⟩
      rintro ⟨hresult, hsat⟩
      cases kind <;> cases hresult
      refine hkept ⟨rfl, ?_, hsat⟩
      have htag := hdecoded.tag
      rw [ht] at htag
      exact Option.some.inj htag
    · rw [h.decoded.table.injective hdecoded.tag ht]
      exact Or.inl ⟨rfl, hsat⟩

theorem secrecyAgreesOn_values (hplain : PlainSymbols module symbol)
    (hspecial : NoSpecialRules module) :
    (∀ op ∈ module.operations, AgreesOn module rules symbol e (op.getOutputValue 0) ∧
      SecrecyAgreesOn module rules symbol e (op.getOutputValue 0)) ∧
    ∀ v, module.IsOperand v → AgreesOn module rules symbol e v ∧
      SecrecyAgreesOn module rules symbol e v := by
  refine h.acyclic.values (motive := fun v => AgreesOn module rules symbol e v ∧
    SecrecyAgreesOn module rules symbol e v) h.linked h.single ?_ ?_
  · intro v hv hres
    exact ⟨h.agreesOn_operand hv hres, h.secrecyAgreesOn_operand hplain hv hres⟩
  · intro op hop hinputs
    have hintegrity := fun u hu => (hinputs u hu).1
    have hsecrecy := fun u hu => (hinputs u hu).2
    by_cases htransform : IsTagTransformOp op
    · have hpolicy := hspecial.policyTransform h.decoded hop htransform
      exact ⟨h.agreesOn_transform hop hpolicy hintegrity,
        h.secrecyAgreesOn_transform hplain hop hpolicy hintegrity hsecrecy⟩
    · have hwrapped := hspecial.not_wrapped op
      exact ⟨h.agreesOn_default hop htransform hwrapped,
        h.secrecyAgreesOn_default hplain hop htransform hwrapped hsecrecy⟩

end Comparable

end

end Raksha.PolicyEngine
