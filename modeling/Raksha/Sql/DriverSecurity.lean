import Raksha.Sql.DriverVerdict

/-!
# What an accepted arena shows

The purpose of the driver: an arena is accepted exactly when the value of its last expression
cannot depend on labelled data, except through the expressions that remove the label. What the
expressions compute is a parameter.
-/

namespace Raksha.Sql.Decode
open Raksha.Common Raksha.Ir Raksha.PolicyEngine

/-- What the expressions under an id compute: the values of columns and literals, what a merge
makes of its direct and its control inputs, and what a transform makes of the value that it
transforms. -/
structure ArenaSemantics (M : Type*) where
  source : UInt64 → M
  merge : UInt64 → List M → List M → M
  transform : UInt64 → M → M

/-- The expressions whose values an expression reads. The preconditions of a transform refer to
others. -/
def Expression.operands : Expression → List UInt64
  | .mergeOperation merge => merge.inputs ++ merge.controlInputs
  | .tagTransform transform => [transform.transformedNode]
  | _ => []

theorem Expression.operands_subset (expression : Expression) :
    expression.operands ⊆ expression.references := by
  cases expression with
  | mergeOperation => exact fun _ hid => hid
  | tagTransform => exact fun _ hid => List.mem_cons.mpr (.inl (List.mem_singleton.mp hid))
  | exprVariantNotSet => exact List.nil_subset _
  | sourceTableColumn => exact List.nil_subset _
  | literal => exact List.nil_subset _

namespace ArenaSemantics

variable {M : Type*} (sem : ArenaSemantics M)

def expressionValue (values : UInt64 → M) (pair : IdExpressionPair) : M :=
  match pair.expression with
  | .mergeOperation merge =>
    sem.merge pair.id (merge.inputs.map values) (merge.controlInputs.map values)
  | .tagTransform transform => sem.transform pair.id (values transform.transformedNode)
  | _ => sem.source pair.id

def evaluate [Inhabited M] (arena : List IdExpressionPair) : UInt64 → M :=
  arena.foldl (fun values pair =>
    Function.update values pair.id (sem.expressionValue values pair)) fun _ => default

variable {sem}

theorem expressionValue_congr {values values' : UInt64 → M} {pair : IdExpressionPair}
    (h : ∀ id ∈ pair.expression.operands, values id = values' id) :
    sem.expressionValue values pair = sem.expressionValue values' pair := by
  unfold expressionValue
  cases hexpr : pair.expression with
  | mergeOperation merge =>
    rw [hexpr] at h
    have hdirect : merge.inputs.map values = merge.inputs.map values' :=
      List.map_congr_left fun id hid => h id (List.mem_append_left _ hid)
    have hcontrol : merge.controlInputs.map values = merge.controlInputs.map values' :=
      List.map_congr_left fun id hid => h id (List.mem_append_right _ hid)
    simp only [hdirect, hcontrol]
  | tagTransform transform =>
    rw [hexpr] at h
    simp only [h _ (List.mem_singleton_self _)]
  | exprVariantNotSet => rfl
  | sourceTableColumn => rfl
  | literal => rfl

theorem evaluate_eq [Inhabited M] {arena : List IdExpressionPair} (h : WellDeclared arena) :
    ∀ pair ∈ arena,
      sem.evaluate arena pair.id = sem.expressionValue (sem.evaluate arena) pair := by
  have hcongr : ∀ values values' pair,
      (∀ id ∈ pair.expression.references, values id = values' id) →
      sem.expressionValue values pair = sem.expressionValue values' pair :=
    fun _ _ pair hsame => expressionValue_congr fun id hid =>
      hsame id (pair.expression.operands_subset hid)
  exact foldl_update_eq hcongr _ h

end ArenaSemantics

section

variable (policy : Finset Souffle.SqlPolicyRule) (arena : List IdExpressionPair) (tag : String)

/-- The expression is a transform whose rule labels its value with the tag. -/
def Labels (pair : IdExpressionPair) : Prop :=
  ∃ transform, pair.expression = .tagTransform transform ∧
    tag ∈ (addedTags (transform.metRules policy (arenaTags policy arena))).confidentiality

/-- The expression is a transform whose rule removes the tag. -/
def Releases (pair : IdExpressionPair) : Prop :=
  ∃ transform, pair.expression = .tagTransform transform ∧
    tag ∈ removedTags (transform.metRules policy (arenaTags policy arena))

/-- The semantics differ in labelled data only, and what is released is the same. -/
structure DifferInLabelled {M : Type*} [Inhabited M] (sem sem' : ArenaSemantics M) : Prop where
  unlabelled : ∀ pair ∈ arena, ¬ Labels policy arena tag pair →
    ∀ values, sem.expressionValue values pair = sem'.expressionValue values pair
  released : ∀ pair ∈ arena, Releases policy arena tag pair →
    sem.evaluate arena pair.id = sem'.evaluate arena pair.id

/-- The value of the last expression is the same whatever the labelled data is. -/
def HidesLabelled : Prop :=
  ∀ last ∈ arena.getLast?, ∀ (M : Type) [Inhabited M] (sem sem' : ArenaSemantics M),
    DifferInLabelled policy arena tag sem sem' →
    sem.evaluate arena last.id = sem'.evaluate arena last.id

end

section

variable {policy : Finset Souffle.SqlPolicyRule} {arena : List IdExpressionPair} {tag : String}

theorem WellDeclared.induction (h : WellDeclared arena) {motive : UInt64 → Prop}
    (step : ∀ pair ∈ arena, (∀ id ∈ pair.expression.references, motive id) → motive pair.id) :
    ∀ pair ∈ arena, motive pair.id := by
  have hplace : ∀ (k : ℕ) (pair : IdExpressionPair), arena[k]? = some pair → motive pair.id := by
    intro k
    induction k using Nat.strong_induction_on with
    | h k ih =>
      intro pair hk
      refine step pair (List.mem_of_getElem? hk) fun id hid => ?_
      obtain ⟨-, j, hj, earlier, hearlier, rfl⟩ := h.declared k pair hk id hid
      exact ih j hj earlier hearlier
  intro pair hpair
  obtain ⟨k, hk⟩ := List.getElem?_of_mem hpair
  exact hplace k pair hk

theorem arenaTags_eq (h : WellDeclared arena) : ∀ pair ∈ arena,
    arenaTags policy arena pair.id = expressionTags policy arena (arenaTags policy arena) pair :=
  tagsUpTo_eq policy arena h

/-- An expression has a tag when it is labelled with it, or when an operand has it and it is not
removed. -/
theorem mem_confidentiality_iff (h : WellDeclared arena) {pair : IdExpressionPair}
    (hpair : pair ∈ arena) : tag ∈ (arenaTags policy arena pair.id).confidentiality ↔
      Labels policy arena tag pair ∨
        (∃ id ∈ pair.expression.operands, tag ∈ (arenaTags policy arena id).confidentiality) ∧
          ¬ Releases policy arena tag pair := by
  rw [arenaTags_eq h pair hpair]
  unfold expressionTags Labels Releases
  cases hexpr : pair.expression with
  | mergeOperation merge =>
    simp [mergeTags, Expression.operands]
  | tagTransform transform =>
    simp [transformTags, Expression.operands, or_comm]
  | exprVariantNotSet => simp [Expression.operands]
  | sourceTableColumn => simp [Expression.operands]
  | literal => simp [Expression.operands]

/-- Expressions without the tag show nothing of the labelled data. -/
theorem DifferInLabelled.evaluate_eq {M : Type*} [Inhabited M] {sem sem' : ArenaSemantics M}
    (hdiffer : DifferInLabelled policy arena tag sem sem') (h : WellDeclared arena) :
    ∀ pair ∈ arena, tag ∉ (arenaTags policy arena pair.id).confidentiality →
      sem.evaluate arena pair.id = sem'.evaluate arena pair.id := by
  refine h.induction (motive := fun id => tag ∉ (arenaTags policy arena id).confidentiality →
    sem.evaluate arena id = sem'.evaluate arena id) fun pair hpair ih htag => ?_
  by_cases hrelease : Releases policy arena tag pair
  · exact hdiffer.released pair hpair hrelease
  · have hlabels : ¬ Labels policy arena tag pair :=
      fun hlabels => htag ((mem_confidentiality_iff h hpair).mpr (.inl hlabels))
    have hoperands : ∀ id ∈ pair.expression.operands,
        sem.evaluate arena id = sem'.evaluate arena id :=
      fun id hid => ih id (pair.expression.operands_subset hid) fun hmem =>
        htag ((mem_confidentiality_iff h hpair).mpr (.inr ⟨⟨id, hid, hmem⟩, hrelease⟩))
    calc sem.evaluate arena pair.id
        = sem.expressionValue (sem.evaluate arena) pair := ArenaSemantics.evaluate_eq h pair hpair
      _ = sem.expressionValue (sem'.evaluate arena) pair :=
          ArenaSemantics.expressionValue_congr hoperands
      _ = sem'.expressionValue (sem'.evaluate arena) pair :=
          hdiffer.unlabelled pair hpair hlabels _
      _ = sem'.evaluate arena pair.id := (ArenaSemantics.evaluate_eq h pair hpair).symm

/-! ### Semantics that show the tags -/

def Expression.IsTransform (expression : Expression) : Prop :=
  ∃ transform, expression = .tagTransform transform

/-- The values say whether labelled data has come through: an expression has it from its
operands, and a transform adds it or removes it. -/
def tracing (labels releases : UInt64 → Bool) : ArenaSemantics Bool where
  source _ := false
  merge _ direct control := (direct ++ control).any id
  transform id value := labels id || (value && !releases id)

theorem expressionValue_tracing (labels releases values : UInt64 → Bool)
    (pair : IdExpressionPair) : (tracing labels releases).expressionValue values pair = true ↔
      (pair.expression.IsTransform ∧ labels pair.id = true) ∨
        (∃ id ∈ pair.expression.operands, values id = true) ∧
          ¬ (pair.expression.IsTransform ∧ releases pair.id = true) := by
  unfold ArenaSemantics.expressionValue
  cases hexpr : pair.expression with
  | mergeOperation merge =>
    simp [tracing, Expression.operands, Expression.IsTransform, or_and_right, exists_or]
  | tagTransform transform => simp [tracing, Expression.operands, Expression.IsTransform]
  | exprVariantNotSet => simp [tracing, Expression.operands, Expression.IsTransform]
  | sourceTableColumn => simp [tracing, Expression.operands, Expression.IsTransform]
  | literal => simp [tracing, Expression.operands, Expression.IsTransform]

theorem evaluate_unlabelled (h : WellDeclared arena) (releases : UInt64 → Bool) :
    ∀ pair ∈ arena, (tracing (fun _ => false) releases).evaluate arena pair.id = false := by
  refine h.induction (motive := fun id =>
    (tracing (fun _ => false) releases).evaluate arena id = false) fun pair hpair ih => ?_
  rw [ArenaSemantics.evaluate_eq h pair hpair, ← Bool.not_eq_true, expressionValue_tracing]
  rintro (⟨-, hlabel⟩ | ⟨⟨id, hid, hvalue⟩, -⟩)
  · cases hlabel
  · rw [ih id (pair.expression.operands_subset hid)] at hvalue
    cases hvalue

open Classical in
/-- Marks the ids of the expressions of a kind. -/
noncomputable def marks (arena : List IdExpressionPair) (kind : IdExpressionPair → Prop)
    (id : UInt64) : Bool :=
  decide (∃ pair ∈ arena, kind pair ∧ pair.id = id)

theorem marks_iff (h : WellDeclared arena) (kind : IdExpressionPair → Prop)
    {pair : IdExpressionPair} (hpair : pair ∈ arena) :
    marks arena kind pair.id = true ↔ kind pair := by
  simp only [marks, decide_eq_true_eq]
  constructor
  · rintro ⟨other, hother, hkind, hid⟩
    exact List.inj_on_of_nodup_map h.distinct hother hpair hid ▸ hkind
  · exact fun hkind => ⟨pair, hpair, hkind, rfl⟩

/-- The tracing semantics of a tag. -/
noncomputable def tracingTag (policy : Finset Souffle.SqlPolicyRule)
    (arena : List IdExpressionPair) (tag : String) : ArenaSemantics Bool :=
  tracing (marks arena (Labels policy arena tag)) (marks arena (Releases policy arena tag))

theorem evaluate_tracingTag (h : WellDeclared arena) : ∀ pair ∈ arena,
    ((tracingTag policy arena tag).evaluate arena pair.id = true ↔
      tag ∈ (arenaTags policy arena pair.id).confidentiality) := by
  refine h.induction (motive := fun id => (tracingTag policy arena tag).evaluate arena id = true ↔
    tag ∈ (arenaTags policy arena id).confidentiality) fun pair hpair ih => ?_
  have hlabels : pair.expression.IsTransform ∧
      marks arena (Labels policy arena tag) pair.id = true ↔ Labels policy arena tag pair := by
    rw [marks_iff h _ hpair, and_iff_right_iff_imp]
    exact fun ⟨transform, hexpr, _⟩ => ⟨transform, hexpr⟩
  have hreleases : pair.expression.IsTransform ∧
      marks arena (Releases policy arena tag) pair.id = true ↔ Releases policy arena tag pair := by
    rw [marks_iff h _ hpair, and_iff_right_iff_imp]
    exact fun ⟨transform, hexpr, _⟩ => ⟨transform, hexpr⟩
  rw [ArenaSemantics.evaluate_eq h pair hpair, tracingTag, expressionValue_tracing,
    hlabels, hreleases, mem_confidentiality_iff h hpair]
  refine or_congr_right (and_congr_left fun _ => exists_congr fun id => ?_)
  exact and_congr_right fun hid => ih id (pair.expression.operands_subset hid)

section

variable (hrules : ∀ rule ∈ policy, ∀ rule' ∈ policy,
  rule.policyRuleName = rule'.policyRuleName → rule = rule')
include hrules

/-- The name of a transform stands for one rule, which has one result. -/
theorem not_labels_of_releases {pair : IdExpressionPair} (h : Releases policy arena tag pair) :
    ¬ Labels policy arena tag pair := by
  rintro ⟨transform, hexpr, hadded⟩
  obtain ⟨transform', hexpr', hremoved⟩ := h
  obtain rfl : transform = transform' := by
    rw [hexpr] at hexpr'
    exact Expression.tagTransform.inj hexpr'
  obtain ⟨rule, hrule, hresult⟩ := (mem_addedTags_confidentiality _ _).mp hadded
  obtain ⟨rule', hrule', hresult'⟩ := (mem_removedTags _ _).mp hremoved
  obtain ⟨hpolicy, hname, -⟩ := Finset.mem_filter.mp hrule
  obtain ⟨hpolicy', hname', -⟩ := Finset.mem_filter.mp hrule'
  rw [hrules rule hpolicy rule' hpolicy' (hname.trans hname'.symm), hresult'] at hresult
  cases hresult

theorem differInLabelled_tracing (h : WellDeclared arena) : DifferInLabelled policy arena tag
    (tracing (fun _ => false) (marks arena (Releases policy arena tag)))
    (tracingTag policy arena tag) where
  unlabelled := by
    intro pair hpair hlabels values
    rw [Bool.eq_iff_iff, expressionValue_tracing, tracingTag, expressionValue_tracing,
      marks_iff h (Labels policy arena tag) hpair]
    exact or_congr_left ⟨fun hfalse => absurd hfalse.2 Bool.false_ne_true,
      fun hlabelled => absurd hlabelled.2 hlabels⟩
  released := by
    intro pair hpair hrelease
    rw [evaluate_unlabelled h _ pair hpair, eq_comm, ← Bool.not_eq_true,
      evaluate_tracingTag h pair hpair, mem_confidentiality_iff h hpair]
    rintro (hlabels | ⟨-, hkept⟩)
    · exact not_labels_of_releases hrules hrelease hlabels
    · exact hkept hrelease

end

/-- Whenever the driver returns a verdict for an arena whose strings need no escapes, it accepts
exactly the arenas whose last expression shows nothing of the data under any tag, except what a rule
that removes the tag releases. -/
theorem verify_secure (ord : Souffle.Symbol → ℕ) (hord : Function.Injective ord)
    (reader : FactsReader) (hreads : reader.ReadsWritten) (floatToString : BitVec 64 → String)
    (order : IterationOrder) (harena : UnescapedArena arena) {policyString : String}
    (hrules : ∀ rule ∈ reader.isSqlPolicyRule policyString,
      ∀ rule' ∈ reader.isSqlPolicyRule policyString,
      rule.policyRuleName = rule'.policyRuleName → rule = rule') {verdict : Bool}
    (hverify : verify ord hord reader floatToString order arena policyString = .ok verdict) :
    verdict = true ↔ ∀ tag, HidesLabelled (reader.isSqlPolicyRule policyString) arena tag := by
  obtain ⟨last, hlast, hdeclared⟩ := wellDeclared_of_verify hverify
  have hmem : last ∈ arena := List.mem_of_getLast? hlast
  rw [verify_eq_ok ord hord floatToString order hreads hrules hlast hdeclared harena,
    Except.ok.injEq] at hverify
  rw [← hverify, decide_eq_true_eq]
  constructor
  · rintro hempty tag last' hlast' M _ sem sem' hdiffer
    obtain rfl : last = last' := Option.some.inj (hlast.symm.trans hlast')
    refine hdiffer.evaluate_eq hdeclared last hmem ?_
    rw [hempty]
    exact Finset.notMem_empty tag
  · intro hhides
    rw [Finset.eq_empty_iff_forall_notMem]
    intro tag htag
    have hsame := hhides tag last hlast Bool _ _ (differInLabelled_tracing hrules hdeclared)
    rw [evaluate_unlabelled hdeclared _ last hmem, eq_comm,
      (evaluate_tracingTag hdeclared last hmem).mpr htag] at hsame
    cases hsame

end

/-- The value of a labelled literal depends on labelled data. -/
theorem labelledLiteral_shown :
    ¬ ∀ tag, HidesLabelled (addTagReader.isSqlPolicyRule addTagPolicy) labelledLiteral tag := by
  have hverdict : verify Souffle.symbolOrdinal Souffle.symbolOrdinal_injective addTagReader
      (fun _ => "") .same labelledLiteral addTagPolicy = .ok false := by
    rw [verify_eq_ok _ _ _ _ addTagReader_readsWritten (addTagReader_rules addTagPolicy) rfl
      labelledLiteral_wellDeclared labelledLiteral_unescaped]
    exact congrArg Except.ok (by decide +kernel)
  rw [← verify_secure Souffle.symbolOrdinal Souffle.symbolOrdinal_injective addTagReader
    addTagReader_readsWritten (fun _ => "") .same labelledLiteral_unescaped
    (addTagReader_rules addTagPolicy) hverdict]
  exact Bool.false_ne_true

end Raksha.Sql.Decode
