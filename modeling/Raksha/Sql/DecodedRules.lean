import Raksha.Sql.DecodeSqlPolicyRules

/-!
# What the decoder establishes

Every operation of a decoded module is unmarked, a merge wrapped by a tag transform with a
special rule, or a tag transform with a policy rule. The marks come from one pass over the
operations whose tables only grow.
-/

namespace Raksha.Sql
open Raksha.Common Raksha.Ir Raksha.Taint

/-- The rules that the decoder gives to an operation. -/
inductive Mark
  | merge (kind : MergeIntegrityTags.Kind) (controlInputStartIndex : ℕ)
  | transform (kind : ModifyTag.Kind) (tag : TagId) (premises : List InputHasIntegrity)

def Mark.inferenceRules : Mark → List InferenceRule
  | .merge kind controlInputStartIndex => mergeRules kind controlInputStartIndex
  | .transform kind tag premises => transformRules 0 kind tag premises

def MarkedAs (rules : InferenceRules) (operation : Operation) (mark : Mark) : Prop :=
  rules.getOutputRulesForOperation operation = some (singleOutputRules 0 mark.inferenceRules)

theorem markedAs_iff (rules : InferenceRules) (operation : Operation) (mark : Mark) :
    (rules.getOutputRulesForOperation operation).map AList.entries =
      some (singleOutputRules 0 mark.inferenceRules).entries ↔ MarkedAs rules operation mark := by
  unfold MarkedAs
  rw [Option.map_eq_some_iff]
  constructor
  · rintro ⟨outputRules, heq, hentries⟩
    rw [heq, AList.ext hentries]
  · intro heq
    exact ⟨_, heq, rfl⟩

instance (rules : InferenceRules) (operation : Operation) (mark : Mark) :
    Decidable (MarkedAs rules operation mark) :=
  decidable_of_iff _ (markedAs_iff rules operation mark)

def Unmarked (rules : InferenceRules) (operation : Operation) : Prop :=
  rules.getOutputRulesForOperation operation = none

/-- `T` is a tag transform with the given rule name. -/
structure HasRuleName (T : Operation) (ruleName : String) : Prop where
  transform : IsTagTransformOp T
  name : TagTransformOp.getRuleName T = .ok ruleName

/-- The special tag transform `T` wraps the merge operation. -/
structure Wraps (module : Module) (T merge : Operation) (ruleName : String) : Prop where
  named : HasRuleName T ruleName
  special : TagTransformOp.IsSpecialRule ruleName
  operand : ∃ index, T.inputs = [merge.getOutputValue index]
  owned : merge ∈ module.operations
  isMerge : IsMergeOp merge

/-- The premises are the preconditions of the rule, with the input index that the operation
names and the id of the required tag. -/
def PremisesMatch (rules : InferenceRules) (operation : Operation) :
    List SqlPolicyRule.Precondition → List InputHasIntegrity → Prop :=
  List.Forall₂ fun precondition premise =>
    precondition.argument ≠ TagTransformOp.ruleNameAttribute ∧
    operation.attributes.lookup precondition.argument = some (.int64 premise.inputIndex) ∧
    1 ≤ premise.inputIndex ∧ premise.inputIndex < operation.inputs.length ∧
    rules.tags.lookup precondition.requiredIntegrityTag = some premise.tag

/-- The tag transform has been decoded with the policy rule. -/
structure DecodedTransform (rules : InferenceRules) (operation : Operation)
    (rule : SqlPolicyRule) (kind : ModifyTag.Kind) (tag : TagId)
    (premises : List InputHasIntegrity) : Prop where
  marked : MarkedAs rules operation (.transform kind tag premises)
  inputs : operation.inputs ≠ []
  kind : getModifyTagKind rule.result.action = .ok kind
  tag : rules.tags.lookup rule.result.tag = some tag
  premises : PremisesMatch rules operation rule.preconditions premises

theorem PremisesMatch.extend {rules rules' : InferenceRules} {operation : Operation}
    {preconditions : List SqlPolicyRule.Precondition} {premises : List InputHasIntegrity}
    (hext : InferenceRulesBuilder.Extends rules rules')
    (h : PremisesMatch rules operation preconditions premises) :
    PremisesMatch rules' operation preconditions premises := by
  refine List.Forall₂.imp ?_ h
  rintro precondition premise ⟨hname, hattr, hlow, hhigh, htag⟩
  exact ⟨hname, hattr, hlow, hhigh, hext.tags _ _ htag⟩

theorem addPremise_spec (operation : Operation) (indices : FlatHashMap String ℕ)
    (hindices : TagTransformOp.getPreconditionInputIndices operation = .ok indices)
    (preconditions : List SqlPolicyRule.Precondition) (acc acc' : List InputHasIntegrity)
    (builder builder' : InferenceRulesBuilder)
    (h : preconditions.foldlM (addPremise indices) (acc, builder) = .ok (acc', builder')) :
    ∃ premises, acc' = acc ++ premises ∧ PremisesMatch builder' operation preconditions premises ∧
      builder.Extends builder' ∧ builder'.actions = builder.actions ∧
      builder'.actionRules = builder.actionRules ∧ (builder.TagTable → builder'.TagTable) := by
  induction preconditions generalizing acc builder with
  | nil =>
    simp only [List.foldlM_nil, Checked.pure_eq_ok, Prod.mk.injEq] at h
    obtain ⟨rfl, rfl⟩ := h
    exact ⟨[], by simp, .nil, InferenceRulesBuilder.Extends.refl _, rfl, rfl, fun ht => ht⟩
  | cons precondition preconditions ih =>
    simp only [List.foldlM_cons, Checked.bind_eq_ok] at h
    obtain ⟨⟨mid, builder₁⟩, hstep, hrest⟩ := h
    obtain ⟨⟨tag, builder₂⟩, hget⟩ :
        ∃ x, builder.getOrCreateTagId precondition.requiredIntegrityTag = x := ⟨_, rfl⟩
    simp only [addPremise, hget] at hstep
    cases hindex : indices.lookup precondition.argument with
    | none =>
      rw [hindex] at hstep
      cases hstep
    | some inputIndex =>
      rw [hindex] at hstep
      simp only [Checked.pure_eq_ok, Prod.mk.injEq] at hstep
      obtain ⟨rfl, rfl⟩ := hstep
      obtain ⟨htag, hext, hactions, hrules, htable⟩ :=
        InferenceRulesBuilder.getOrCreateTagId_spec _ _ _ _ hget
      obtain ⟨premises, rfl, hmatch, hext', hactions', hrules', htable'⟩ := ih _ _ hrest
      obtain ⟨hname, hattr, hlow, hhigh⟩ :=
        (TagTransformOp.getPreconditionInputIndices_lookup operation indices hindices _ _).mp hindex
      refine ⟨{ inputIndex, tag } :: premises, by simp, ?_, hext.trans _ _ _ hext', ?_, ?_, ?_⟩
      · exact .cons ⟨hname, hattr, hlow, hhigh, hext'.tags _ _ htag⟩ hmatch
      · rw [hactions', hactions]
      · rw [hrules', hrules]
      · exact fun ht => htable' (htable ht)

/-! ### One operation -/

/-- The address that the tag transform marks. -/
def Marks (T : Operation) (address : Address) : Prop :=
  ∃ ruleName, HasRuleName T ruleName ∧
    if TagTransformOp.IsSpecialRule ruleName then
      ∃ index, T.inputs = [.operationResult address index]
    else address = T.address

theorem markAndAdd_spec (builder builder₁ builder₂ builder' : InferenceRulesBuilder)
    (address : Address) (action : String) (rules : OutputRules)
    (hmark : builder.markOperationAsAction address action = .ok builder₁)
    (hext : builder₁.Extends builder₂) (hactions : builder₂.actions = builder₁.actions)
    (hadd : builder₂.addOutputRulesForAction action rules = .ok builder') :
    builder.Extends builder' ∧ builder'.actions.lookup address = some action ∧
      builder'.actionRules.lookup action = some rules ∧
      (∀ a, builder'.actions.lookup a ≠ none → a = address ∨ builder.actions.lookup a ≠ none) ∧
      builder'.tags = builder₂.tags ∧ builder'.tagNames = builder₂.tagNames := by
  obtain ⟨hfresh, rfl⟩ :=
    (InferenceRulesBuilder.markOperationAsAction_eq_ok _ _ _ _).mp hmark
  obtain ⟨hfresh', rfl⟩ :=
    (InferenceRulesBuilder.addOutputRulesForAction_eq_ok _ _ _ _).mp hadd
  simp only at hactions
  refine ⟨⟨?_, ?_, hext.tags⟩, ?_, ?_, ?_, rfl, rfl⟩
  · intro k a h
    exact hext.actions k a (InferenceRulesBuilder.lookup_insert_of_fresh _ _ _ hfresh k a h)
  · intro k r h
    exact InferenceRulesBuilder.lookup_insert_of_fresh _ _ _ hfresh' k r (hext.actionRules k r h)
  · rw [hactions, FlatHashMap.lookup_insertOrAssign, if_pos rfl]
  · rw [FlatHashMap.lookup_insertOrAssign, if_pos rfl]
  · intro a ha
    simp only [hactions, FlatHashMap.lookup_insertOrAssign] at ha
    by_cases heq : a = address
    · exact Or.inl heq
    · rw [if_neg heq] at ha
      exact Or.inr ha

/-- What decoding one operation adds to the tables. -/
structure DecodeStep (sqlPolicyRules : FlatHashMap String SqlPolicyRule) (module : Module)
    (operation : Operation) (builder builder' : InferenceRulesBuilder) : Prop where
  extend : builder.Extends builder'
  table : builder.TagTable → builder'.TagTable
  fresh : ∀ a, builder'.actions.lookup a ≠ none →
    Marks operation a ∨ builder.actions.lookup a ≠ none
  named : IsTagTransformOp operation → ∃ ruleName, HasRuleName operation ruleName
  special : ∀ ruleName, HasRuleName operation ruleName →
    TagTransformOp.IsSpecialRule ruleName → ∃ merge k, Wraps module operation merge ruleName ∧
      MergeOp.getControlInputStartIndex merge = .ok k ∧
      MarkedAs builder' merge (.merge (specialRuleKind ruleName) k)
  transform : ∀ ruleName, HasRuleName operation ruleName →
    ¬ TagTransformOp.IsSpecialRule ruleName → ∃ rule kind tag premises,
      sqlPolicyRules.lookup ruleName = some rule ∧
      DecodedTransform builder' operation rule kind tag premises

theorem markedAs_of_lookup {rules : InferenceRules} {operation : Operation} {mark : Mark}
    {action : String} (hactions : rules.actions.lookup operation.address = some action)
    (hrules : rules.actionRules.lookup action =
      some (singleOutputRules 0 mark.inferenceRules)) :
    MarkedAs rules operation mark := by
  simp only [MarkedAs, InferenceRules.getOutputRulesForOperation, hactions, Option.bind_some,
    InferenceRules.getOutputRulesForAction, hrules]

theorem decodeSpecialTagTransform_spec (module : Module) (T : Operation)
    (ruleName action : String) (builder builder' : InferenceRulesBuilder)
    (hname : HasRuleName T ruleName) (hspecial : TagTransformOp.IsSpecialRule ruleName)
    (h : decodeSpecialTagTransform module T ruleName action builder = .ok builder') :
    builder.Extends builder' ∧ (builder.TagTable → builder'.TagTable) ∧
    (∀ a, builder'.actions.lookup a ≠ none → Marks T a ∨ builder.actions.lookup a ≠ none) ∧
    ∃ merge k, Wraps module T merge ruleName ∧
      MergeOp.getControlInputStartIndex merge = .ok k ∧
      MarkedAs builder' merge (.merge (specialRuleKind ruleName) k) := by
  simp only [decodeSpecialTagTransform, Checked.bind_eq_ok, check_eq_ok, exists_const] at h
  obtain ⟨hlen, input, hinput, h⟩ := h
  have hinputs : T.inputs = [input] := by
    obtain ⟨v, hv⟩ := List.length_eq_one_iff.mp hlen
    have hhead := (TagTransformOp.getTransformedValue_eq_ok T input).mp hinput
    rw [hv, List.head?_cons, Option.some.injEq] at hhead
    rw [hv, hhead]
  cases input with
  | blockArgument block index => cases h
  | storedValue storage => cases h
  | any => cases h
  | operationResult address index =>
    simp only [Checked.bind_eq_ok] at h
    obtain ⟨builder₁, hmark, h⟩ := h
    cases hat : module.operationAt address with
    | none =>
      rw [hat] at h
      cases h
    | some merge =>
      rw [hat] at h
      simp only [Checked.bind_eq_ok, check_eq_ok, exists_const, addInferenceRuleForMerge] at h
      obtain ⟨hmerge, k, hk, hadd⟩ := h
      obtain ⟨hmem, rfl⟩ := (module.operationAt_eq_some _ _).mp hat
      obtain ⟨hext, hactions, hrules, hfresh, htags, hnames⟩ := markAndAdd_spec _ _ _ _ _ _ _
        hmark (InferenceRulesBuilder.Extends.refl _) rfl hadd
      obtain ⟨-, rfl⟩ := (InferenceRulesBuilder.markOperationAsAction_eq_ok _ _ _ _).mp hmark
      refine ⟨hext, ?_, ?_, merge, k, ?_, hk, ?_⟩
      · intro ht
        refine ⟨?_, ?_⟩
        · rw [htags, hnames]
          exact ht.lookup
        · rw [htags, hnames]
          exact ht.length
      · intro a ha
        rcases hfresh a ha with rfl | hold
        · refine Or.inl ⟨ruleName, hname, ?_⟩
          rw [if_pos hspecial]
          exact ⟨index, hinputs⟩
        · exact Or.inr hold
      · exact ⟨hname, hspecial, ⟨index, hinputs⟩, hmem, hmerge⟩
      · exact markedAs_of_lookup hactions hrules

theorem decodeTagTransform_spec (sqlPolicyRules : FlatHashMap String SqlPolicyRule)
    (T : Operation) (ruleName action : String) (builder builder' : InferenceRulesBuilder)
    (hname : HasRuleName T ruleName) (hspecial : ¬ TagTransformOp.IsSpecialRule ruleName)
    (h : decodeTagTransform sqlPolicyRules T ruleName action builder = .ok builder') :
    builder.Extends builder' ∧ (builder.TagTable → builder'.TagTable) ∧
    (∀ a, builder'.actions.lookup a ≠ none → Marks T a ∨ builder.actions.lookup a ≠ none) ∧
    ∃ rule kind tag premises, sqlPolicyRules.lookup ruleName = some rule ∧
      DecodedTransform builder' T rule kind tag premises := by
  simp only [decodeTagTransform, Checked.bind_eq_ok] at h
  obtain ⟨builder₁, hmark, h⟩ := h
  cases hrule : sqlPolicyRules.lookup ruleName with
  | none =>
    rw [hrule] at h
    cases h
  | some rule =>
    rw [hrule] at h
    simp only [addInferenceRuleForTagTransform, Checked.bind_eq_ok, Prod.exists] at h
    obtain ⟨indices, hindices, premises, builder₂, hpremises, index, hindex, kind, hkind, hadd⟩ := h
    simp only [TagTransformOp.getTransformedValueIndex, Checked.bind_eq_ok, check_eq_ok,
      exists_const, Checked.pure_eq_ok] at hindex
    obtain ⟨hinputs, rfl⟩ := hindex
    obtain ⟨⟨tag, builder₃⟩, hget⟩ : ∃ x, builder₂.getOrCreateTagId rule.result.tag = x :=
      ⟨_, rfl⟩
    rw [hget] at hadd
    obtain ⟨ps, hps, hmatch, hext₁, hact₁, hrul₁, htable₁⟩ :=
      addPremise_spec T indices hindices _ _ _ _ _ hpremises
    rw [List.nil_append] at hps
    subst hps
    obtain ⟨htag, hext₂, hact₂, hrul₂, htable₂⟩ :=
      InferenceRulesBuilder.getOrCreateTagId_spec _ _ _ _ hget
    obtain ⟨hext, hactions, hrules, hfresh, htags, hnames⟩ := markAndAdd_spec _ _ _ _ _ _ _
      hmark (hext₁.trans _ _ _ hext₂) (hact₂.trans hact₁) hadd
    obtain ⟨-, rfl⟩ := (InferenceRulesBuilder.markOperationAsAction_eq_ok _ _ _ _).mp hmark
    obtain ⟨-, rfl⟩ := (InferenceRulesBuilder.addOutputRulesForAction_eq_ok _ _ _ _).mp hadd
    refine ⟨hext, ?_, ?_, rule, kind, tag, premises, rfl, ?_, hinputs, hkind, htag, ?_⟩
    · intro ht
      have ht₃ := htable₂ (htable₁ ⟨ht.lookup, ht.length⟩)
      exact ⟨ht₃.lookup, ht₃.length⟩
    · intro a ha
      rcases hfresh a ha with rfl | hold
      · refine Or.inl ⟨ruleName, hname, ?_⟩
        rw [if_neg hspecial]
      · exact Or.inr hold
    · exact markedAs_of_lookup hactions hrules
    · exact hmatch.extend ⟨fun k a hk => hext₂.actions k a hk, fun k r hk =>
        InferenceRulesBuilder.lookup_insert_of_fresh _ _ _
          ((InferenceRulesBuilder.addOutputRulesForAction_eq_ok _ _ _ _).mp hadd).1 k r
          (hext₂.actionRules k r hk), hext₂.tags⟩

theorem HasRuleName.unique {T : Operation} {n m : String} (hn : HasRuleName T n)
    (hm : HasRuleName T m) : n = m := by
  have h := hn.name
  rw [hm.name] at h
  cases h
  rfl

theorem decodeOperation_spec (sqlPolicyRules : FlatHashMap String SqlPolicyRule)
    (module : Module) (state state' : DecoderState) (operation : Operation)
    (h : decodeOperation sqlPolicyRules module state operation = .ok state') :
    DecodeStep sqlPolicyRules module operation state.rulesBuilder state'.rulesBuilder := by
  unfold decodeOperation at h
  by_cases htransform : IsTagTransformOp operation
  · simp only [htransform, if_true, Checked.bind_eq_ok] at h
    obtain ⟨ruleName, hname, h⟩ := h
    have hrule : HasRuleName operation ruleName := ⟨htransform, hname⟩
    by_cases hspecial : TagTransformOp.IsSpecialRule ruleName
    · simp only [hspecial, if_true, Checked.bind_eq_ok, Checked.pure_eq_ok] at h
      obtain ⟨builder', hbuilder, rfl⟩ := h
      obtain ⟨hext, htable, hfresh, hmerge⟩ :=
        decodeSpecialTagTransform_spec _ _ _ _ _ _ hrule hspecial hbuilder
      refine ⟨hext, htable, hfresh, fun _ => ⟨ruleName, hrule⟩, ?_, ?_⟩
      · intro n hn _
        rw [hn.unique hrule]
        exact hmerge
      · intro n hn hnot
        rw [hn.unique hrule] at hnot
        exact absurd hspecial hnot
    · simp only [hspecial, if_false, Checked.bind_eq_ok, Checked.pure_eq_ok] at h
      obtain ⟨builder', hbuilder, rfl⟩ := h
      obtain ⟨hext, htable, hfresh, hdecoded⟩ :=
        decodeTagTransform_spec _ _ _ _ _ _ hrule hspecial hbuilder
      refine ⟨hext, htable, hfresh, fun _ => ⟨ruleName, hrule⟩, ?_, ?_⟩
      · intro n hn hsp
        rw [hn.unique hrule] at hsp
        exact absurd hsp hspecial
      · intro n hn _
        rw [hn.unique hrule]
        exact hdecoded
  · simp only [htransform, if_false, Checked.pure_eq_ok] at h
    subst h
    exact ⟨InferenceRulesBuilder.Extends.refl _, fun ht => ht, fun _ ha => Or.inr ha,
      fun ht => absurd ht htransform, fun _ hn => absurd hn.transform htransform,
      fun _ hn => absurd hn.transform htransform⟩

/-! ### The whole module -/

theorem MarkedAs.extend {rules rules' : InferenceRules} {operation : Operation} {mark : Mark}
    (hext : InferenceRulesBuilder.Extends rules rules') (h : MarkedAs rules operation mark) :
    MarkedAs rules' operation mark := by
  unfold MarkedAs InferenceRules.getOutputRulesForOperation at h
  obtain ⟨action, haction, hrules⟩ := Option.bind_eq_some_iff.mp h
  exact markedAs_of_lookup (hext.actions _ _ haction) (hext.actionRules _ _ hrules)

theorem DecodedTransform.extend {rules rules' : InferenceRules} {operation : Operation}
    {rule : SqlPolicyRule} {kind : ModifyTag.Kind} {tag : TagId}
    {premises : List InputHasIntegrity} (hext : InferenceRulesBuilder.Extends rules rules')
    (h : DecodedTransform rules operation rule kind tag premises) :
    DecodedTransform rules' operation rule kind tag premises :=
  ⟨h.marked.extend hext, h.inputs, h.kind, hext.tags _ _ h.tag, h.premises.extend hext⟩

theorem addSqlPolicyRule_spec (rules : List SqlPolicyRule)
    (table table' : FlatHashMap String SqlPolicyRule)
    (htable : ∀ name rule, table.lookup name = some rule → rule.name = name)
    (h : rules.foldlM addSqlPolicyRule table = .ok table') :
    ∀ name rule, table'.lookup name = some rule ↔
      table.lookup name = some rule ∨ (rule ∈ rules ∧ rule.name = name) := by
  induction rules generalizing table with
  | nil =>
    simp only [List.foldlM_nil, Checked.pure_eq_ok] at h
    subst h
    simp
  | cons r rules ih =>
    simp only [List.foldlM_cons, Checked.bind_eq_ok] at h
    obtain ⟨mid, hmid, hrest⟩ := h
    simp only [addSqlPolicyRule, Checked.bind_eq_ok, check_eq_ok, exists_const,
      Checked.pure_eq_ok, FlatHashMap.tryInsert_snd] at hmid
    obtain ⟨hfresh, hmid⟩ := hmid
    rw [FlatHashMap.tryInsert_of_notMem _ _ _ hfresh] at hmid
    subst hmid
    have hnone := (FlatHashMap.lookup_eq_none_iff table r.name).mpr hfresh
    intro name rule
    rw [ih _ ?_ hrest, FlatHashMap.lookup_insertOrAssign, List.mem_cons]
    · by_cases hname : name = r.name
      · subst hname
        rw [if_pos rfl, hnone]
        constructor
        · rintro (heq | ⟨hmem, heq⟩)
          · cases heq
            exact Or.inr ⟨Or.inl rfl, rfl⟩
          · exact Or.inr ⟨Or.inr hmem, heq⟩
        · rintro (heq | ⟨rfl | hmem, heq⟩)
          · cases heq
          · exact Or.inl rfl
          · exact Or.inr ⟨hmem, heq⟩
      · rw [if_neg hname]
        refine or_congr_right ⟨?_, ?_⟩
        · rintro ⟨hmem, heq⟩
          exact ⟨Or.inr hmem, heq⟩
        · rintro ⟨rfl | hmem, heq⟩
          · exact absurd heq.symm hname
          · exact ⟨hmem, heq⟩
    · intro n q hq
      rw [FlatHashMap.lookup_insertOrAssign] at hq
      split at hq
      · next heq =>
        cases hq
        exact heq.symm
      · exact htable n q hq

/-- What an accepted decoding tells about every operation of the module. -/
structure Decoded (expr : ExpressionArena) (module : Module) (rules : InferenceRules) :
    Prop where
  table : InferenceRulesBuilder.TagTable rules
  named : ∀ op ∈ module.operations, IsTagTransformOp op → ∃ ruleName, HasRuleName op ruleName
  special : ∀ op ∈ module.operations, ∀ ruleName, HasRuleName op ruleName →
    TagTransformOp.IsSpecialRule ruleName → ∃ merge k, Wraps module op merge ruleName ∧
      MergeOp.getControlInputStartIndex merge = .ok k ∧
      MarkedAs rules merge (.merge (specialRuleKind ruleName) k)
  transform : ∀ op ∈ module.operations, ∀ ruleName, HasRuleName op ruleName →
    ¬ TagTransformOp.IsSpecialRule ruleName → ∃ rule kind tag premises,
      rule ∈ expr.sqlPolicyRules ∧ rule.name = ruleName ∧
      DecodedTransform rules op rule kind tag premises
  unmarked : ∀ op, (∀ T ∈ module.operations, ¬ Marks T op.address) → Unmarked rules op
  distinct : ∀ r ∈ expr.sqlPolicyRules, ∀ r' ∈ expr.sqlPolicyRules, r.name = r'.name → r = r'

theorem decodeSqlPolicyRules_spec (expr : ExpressionArena) (module : Module)
    (seedTags : List String) (rules : InferenceRules)
    (h : decodeSqlPolicyRules expr module seedTags = .ok rules) :
    Decoded expr module rules := by
  simp only [decodeSqlPolicyRules, Checked.bind_eq_ok, Checked.pure_eq_ok] at h
  obtain ⟨builder, hseed, table, htable, state, hfold, rfl⟩ := h
  obtain ⟨hseedTable, hactions, -⟩ := InferenceRulesBuilder.ofSeedTags_spec seedTags builder hseed
  have hlookup := addSqlPolicyRule_spec expr.sqlPolicyRules ∅ table (by simp) htable
  simp only [AList.lookup_empty, reduceCtorEq, false_or] at hlookup
  have hsteps := Checked.foldlM_step
    (fun s s' : DecoderState => s.rulesBuilder.Extends s'.rulesBuilder)
    (fun s => InferenceRulesBuilder.Extends.refl _)
    (fun a b c => InferenceRulesBuilder.Extends.trans _ _ _)
    (decodeOperation table module) module.operations
    (fun s op _ s' hs => (decodeOperation_spec table module s s' op hs).extend) hfold
  have hinvariant := Checked.foldlM_invariant
    (fun s : DecoderState => s.rulesBuilder.TagTable ∧ ∀ a,
      s.rulesBuilder.actions.lookup a ≠ none → ∃ T ∈ module.operations, Marks T a)
    (decodeOperation table module) module.operations (by
      rintro s ⟨ht, hmarks⟩ op hop s' hs
      have hstep := decodeOperation_spec table module s s' op hs
      refine ⟨hstep.table ht, ?_⟩
      intro a ha
      rcases hstep.fresh a ha with hmark | hold
      · exact ⟨op, hop, hmark⟩
      · exact hmarks a hold) (b := { rulesBuilder := builder })
      ⟨hseedTable, by simp [hactions]⟩ hfold
  have hop : ∀ op ∈ module.operations, ∃ builder', builder'.Extends state.rulesBuilder ∧
      ∃ builder₀, DecodeStep table module op builder₀ builder' := by
    intro op hmem
    obtain ⟨s, s', -, hs, hext⟩ := hsteps.2 op hmem
    exact ⟨s'.rulesBuilder, hext, s.rulesBuilder, decodeOperation_spec table module s s' op hs⟩
  refine ⟨hinvariant.1, ?_, ?_, ?_, ?_, ?_⟩
  · intro op hmem
    obtain ⟨_, -, _, hstep⟩ := hop op hmem
    exact hstep.named
  · intro op hmem ruleName hname hspecial
    obtain ⟨_, hext, _, hstep⟩ := hop op hmem
    obtain ⟨merge, k, hwraps, hk, hmark⟩ := hstep.special ruleName hname hspecial
    exact ⟨merge, k, hwraps, hk, hmark.extend hext⟩
  · intro op hmem ruleName hname hspecial
    obtain ⟨_, hext, _, hstep⟩ := hop op hmem
    obtain ⟨rule, kind, tag, premises, hrule, hdecoded⟩ :=
      hstep.transform ruleName hname hspecial
    obtain ⟨hin, heq⟩ := (hlookup ruleName rule).mp hrule
    exact ⟨rule, kind, tag, premises, hin, heq, hdecoded.extend hext⟩
  · intro op hnone
    have haction : state.rulesBuilder.actions.lookup op.address = none := by
      by_contra hsome
      obtain ⟨T, hT, hmark⟩ := hinvariant.2 op.address hsome
      exact hnone T hT hmark
    simp only [Unmarked, InferenceRules.getOutputRulesForOperation, InferenceRulesBuilder.build,
      haction, Option.bind_none]
  · intro r hr r' hr' hname
    have h₁ := (hlookup r.name r).mpr ⟨hr, rfl⟩
    have h₂ := (hlookup r.name r').mpr ⟨hr', hname.symm⟩
    exact Option.some.inj (h₁.symm.trans h₂)

/-! ### The marks of a module -/

/-- The operation is a merge that some special tag transform wraps. -/
def IsWrapped (module : Module) (op : Operation) : Prop :=
  ∃ T ∈ module.operations, ∃ ruleName, Wraps module T op ruleName

/-- The operation is a tag transform with a policy rule. -/
def IsPolicyTransform (op : Operation) : Prop :=
  ∃ ruleName, HasRuleName op ruleName ∧ ¬ TagTransformOp.IsSpecialRule ruleName

/-- A wrapped merge carries the kind of its wrapper and the start index of its control inputs. -/
structure MarkedMerge (module : Module) (rules : InferenceRules) (op : Operation)
    (kind : MergeIntegrityTags.Kind) (k : ℕ) : Prop where
  index : MergeOp.getControlInputStartIndex op = .ok k
  marked : MarkedAs rules op (.merge kind k)
  wrapper : ∃ T ∈ module.operations, ∃ ruleName,
    Wraps module T op ruleName ∧ specialRuleKind ruleName = kind

theorem Decoded.markedMerge {expr : ExpressionArena} {module : Module} {rules : InferenceRules}
    (hd : Decoded expr module rules) {T op : Operation} {ruleName : String}
    (hT : T ∈ module.operations) (hw : Wraps module T op ruleName) :
    ∃ k, MarkedMerge module rules op (specialRuleKind ruleName) k := by
  obtain ⟨merge, k, hwraps, hk, hmark⟩ := hd.special T hT ruleName hw.named hw.special
  obtain ⟨i, hi⟩ := hw.operand
  obtain ⟨j, hj⟩ := hwraps.operand
  rw [hi, List.singleton_inj] at hj
  obtain ⟨rfl, -⟩ := module.eq_of_output hw.owned hwraps.owned hj
  exact ⟨k, hk, hmark, T, hT, ruleName, hw, rfl⟩

/-- Operations that are neither wrapped nor policy transforms are unmarked. -/
theorem Decoded.unmarked_of {expr : ExpressionArena} {module : Module} {rules : InferenceRules}
    (hd : Decoded expr module rules) {op : Operation} (hop : op ∈ module.operations)
    (hwrapped : ¬ IsWrapped module op) (htransform : ¬ IsPolicyTransform op) :
    Unmarked rules op := by
  refine hd.unmarked op ?_
  rintro T hT ⟨ruleName, hname, hmarks⟩
  by_cases hspecial : TagTransformOp.IsSpecialRule ruleName
  · rw [if_pos hspecial] at hmarks
    obtain ⟨i, hi⟩ := hmarks
    obtain ⟨merge, k, hwraps, -, -⟩ := hd.special T hT ruleName hname hspecial
    obtain ⟨j, hj⟩ := hwraps.operand
    rw [hi, List.singleton_inj] at hj
    obtain ⟨rfl, -⟩ := module.eq_of_output hop hwraps.owned hj
    exact hwrapped ⟨T, hT, ruleName, hwraps⟩
  · rw [if_neg hspecial] at hmarks
    have heq := module.address_injective hop hT hmarks
    subst heq
    exact htransform ⟨ruleName, hname, hspecial⟩

theorem Decoded.policyTransform {expr : ExpressionArena} {module : Module}
    {rules : InferenceRules} (hd : Decoded expr module rules) {op : Operation}
    (hop : op ∈ module.operations) (h : IsPolicyTransform op) :
    ∃ ruleName rule kind tag premises, HasRuleName op ruleName ∧ rule ∈ expr.sqlPolicyRules ∧
      rule.name = ruleName ∧ DecodedTransform rules op rule kind tag premises := by
  obtain ⟨ruleName, hname, hspecial⟩ := h
  obtain ⟨rule, kind, tag, premises, hrule, heq, hdecoded⟩ :=
    hd.transform op hop ruleName hname hspecial
  exact ⟨ruleName, rule, kind, tag, premises, hname, hrule, heq, hdecoded⟩

end Raksha.Sql
