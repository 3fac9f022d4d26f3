import Raksha.Sql.DecodedRules

/-!
# The actions of a decoded module

Every marked operation has an action of its own: the decoder refuses to add rules for an action
twice and to mark an operation twice.
-/

namespace Raksha.Sql
open Raksha.Common Raksha.Ir Raksha.Taint

/-! ### One operation -/

/-- One marked operation and the rules of its action enter the tables. -/
structure AddsAction (builder builder' : InferenceRulesBuilder) (address : Address)
    (action : String) (rules : OutputRules) : Prop where
  unmarked : address ∉ builder.actions
  unused : action ∉ builder.actionRules
  actions : builder'.actions = builder.actions.insertOrAssign address action
  actionRules : builder'.actionRules = builder.actionRules.insertOrAssign action rules

theorem addsAction_of_markAndAdd {builder builder₁ builder₂ builder' : InferenceRulesBuilder}
    {address : Address} {action : String} {rules : OutputRules}
    (hmark : builder.markOperationAsAction address action = .ok builder₁)
    (hactions : builder₂.actions = builder₁.actions)
    (hrules : builder₂.actionRules = builder₁.actionRules)
    (hadd : builder₂.addOutputRulesForAction action rules = .ok builder') :
    AddsAction builder builder' address action rules := by
  obtain ⟨hunmarked, rfl⟩ := (InferenceRulesBuilder.markOperationAsAction_eq_ok _ _ _ _).mp hmark
  obtain ⟨hunused, rfl⟩ := (InferenceRulesBuilder.addOutputRulesForAction_eq_ok _ _ _ _).mp hadd
  simp only at hactions hrules
  rw [hrules] at hunused
  refine ⟨hunmarked, hunused, hactions, ?_⟩
  simp only [hrules]

theorem decodeSpecialTagTransform_addsAction {module : Module} {T : Operation}
    {ruleName action : String} {builder builder' : InferenceRulesBuilder}
    (h : decodeSpecialTagTransform module T ruleName action builder = .ok builder') :
    ∃ address index rules, T.inputs = [.operationResult address index] ∧
      AddsAction builder builder' address action rules := by
  simp only [decodeSpecialTagTransform, Checked.bind_eq_ok, check_eq_ok, exists_const] at h
  obtain ⟨hlen, input, hinput, h⟩ := h
  obtain ⟨v, hv⟩ := List.length_eq_one_iff.mp hlen
  have hhead := (TagTransformOp.getTransformedValue_eq_ok T input).mp hinput
  rw [hv, List.head?_cons, Option.some.injEq] at hhead
  subst hhead
  cases v with
  | blockArgument block index => cases h
  | storedValue storage => cases h
  | any => cases h
  | operationResult address index =>
    simp only [Checked.bind_eq_ok] at h
    obtain ⟨builder₁, hmark, h⟩ := h
    cases hat : module.operationAt address with
    | none =>
      rw [hat] at h
      cases h
    | some merge =>
      rw [hat] at h
      simp only [Checked.bind_eq_ok, check_eq_ok, exists_const, addInferenceRuleForMerge] at h
      obtain ⟨-, k, -, hadd⟩ := h
      exact ⟨address, index, _, hv, addsAction_of_markAndAdd hmark rfl rfl hadd⟩

theorem decodeTagTransform_addsAction {sqlPolicyRules : FlatHashMap String SqlPolicyRule}
    {T : Operation} {ruleName action : String} {builder builder' : InferenceRulesBuilder}
    (h : decodeTagTransform sqlPolicyRules T ruleName action builder = .ok builder') :
    ∃ rules, AddsAction builder builder' T.address action rules := by
  simp only [decodeTagTransform, Checked.bind_eq_ok] at h
  obtain ⟨builder₁, hmark, h⟩ := h
  cases hrule : sqlPolicyRules.lookup ruleName with
  | none =>
    rw [hrule] at h
    cases h
  | some rule =>
    rw [hrule] at h
    simp only [addInferenceRuleForTagTransform, Checked.bind_eq_ok, Prod.exists] at h
    obtain ⟨indices, hindices, premises, builder₂, hpremises, index, -, kind, -, hadd⟩ := h
    obtain ⟨⟨tag, builder₃⟩, hget⟩ : ∃ x, builder₂.getOrCreateTagId rule.result.tag = x :=
      ⟨_, rfl⟩
    rw [hget] at hadd
    obtain ⟨-, -, -, -, hactions, hrules, -⟩ := addPremise_spec T indices hindices _ _ _ _ _ hpremises
    obtain ⟨-, -, hactions', hrules', -⟩ :=
      InferenceRulesBuilder.getOrCreateTagId_spec _ _ _ _ hget
    exact ⟨_, addsAction_of_markAndAdd hmark (hactions'.trans hactions) (hrules'.trans hrules) hadd⟩

/-- A tag transform adds an action for the operation that it marks, any other operation none. -/
theorem decodeOperation_addsAction {sqlPolicyRules : FlatHashMap String SqlPolicyRule}
    {module : Module} {state state' : DecoderState} {operation : Operation}
    (h : decodeOperation sqlPolicyRules module state operation = .ok state') :
    ((∀ address, ¬ Marks operation address) ∧ state' = state) ∨
    ∃ address action rules, (∀ a, Marks operation a ↔ a = address) ∧
      AddsAction state.rulesBuilder state'.rulesBuilder address action rules := by
  unfold decodeOperation at h
  by_cases htransform : IsTagTransformOp operation
  · simp only [htransform, if_true, Checked.bind_eq_ok] at h
    obtain ⟨ruleName, hname, h⟩ := h
    have hrule : HasRuleName operation ruleName := ⟨htransform, hname⟩
    refine Or.inr ?_
    by_cases hspecial : TagTransformOp.IsSpecialRule ruleName
    · simp only [hspecial, if_true, Checked.bind_eq_ok, Checked.pure_eq_ok] at h
      obtain ⟨builder', hbuilder, rfl⟩ := h
      obtain ⟨address, index, rules, hinputs, hadds⟩ :=
        decodeSpecialTagTransform_addsAction hbuilder
      refine ⟨address, _, rules, ?_, hadds⟩
      intro a
      constructor
      · rintro ⟨n, hn, hmarks⟩
        rw [hn.unique hrule, if_pos hspecial, hinputs] at hmarks
        obtain ⟨index', heq⟩ := hmarks
        cases heq
        rfl
      · rintro rfl
        refine ⟨ruleName, hrule, ?_⟩
        rw [if_pos hspecial]
        exact ⟨index, hinputs⟩
    · simp only [hspecial, if_false, Checked.bind_eq_ok, Checked.pure_eq_ok] at h
      obtain ⟨builder', hbuilder, rfl⟩ := h
      obtain ⟨rules, hadds⟩ := decodeTagTransform_addsAction hbuilder
      refine ⟨operation.address, _, rules, ?_, hadds⟩
      intro a
      constructor
      · rintro ⟨n, hn, hmarks⟩
        rw [hn.unique hrule, if_neg hspecial] at hmarks
        exact hmarks
      · rintro rfl
        refine ⟨ruleName, hrule, ?_⟩
        rw [if_neg hspecial]
  · simp only [htransform, if_false, Checked.pure_eq_ok] at h
    refine Or.inl ⟨?_, h.symm⟩
    rintro address ⟨n, hn, -⟩
    exact htransform hn.transform

/-! ### The whole module -/

/-- Every mark has an action of its own, and the rules of the action are there. -/
structure OwnActions (builder : InferenceRulesBuilder) : Prop where
  injective : ∀ a a' action, builder.actions.lookup a = some action →
    builder.actions.lookup a' = some action → a = a'
  ruled : ∀ a action, builder.actions.lookup a = some action → action ∈ builder.actionRules

theorem OwnActions.addsAction {builder builder' : InferenceRulesBuilder} {address : Address}
    {action : String} {rules : OutputRules} (h : OwnActions builder)
    (hadds : AddsAction builder builder' address action rules) : OwnActions builder' := by
  have hlookup : ∀ a action', builder'.actions.lookup a = some action' →
      a = address ∧ action' = action ∨ builder.actions.lookup a = some action' := by
    intro a action' ha
    rw [hadds.actions, FlatHashMap.lookup_insertOrAssign] at ha
    split at ha
    · next heq =>
      cases ha
      exact Or.inl ⟨heq, rfl⟩
    · exact Or.inr ha
  refine ⟨?_, ?_⟩
  · intro a a' action' ha ha'
    rcases hlookup a action' ha with ⟨rfl, rfl⟩ | hold
    · rcases hlookup a' action' ha' with ⟨rfl, -⟩ | hold'
      · rfl
      · exact absurd (h.ruled a' action' hold') hadds.unused
    · rcases hlookup a' action' ha' with ⟨rfl, rfl⟩ | hold'
      · exact absurd (h.ruled a action' hold) hadds.unused
      · exact h.injective a a' action' hold hold'
  · intro a action' ha
    rw [hadds.actionRules]
    rcases hlookup a action' ha with ⟨-, rfl⟩ | hold
    · exact (AList.mem_insert _).mpr (Or.inl rfl)
    · exact (AList.mem_insert _).mpr (Or.inr (h.ruled a action' hold))

/-- No two operations of an accepted module mark the same operation. -/
theorem foldlM_decodeOperation_marks {sqlPolicyRules : FlatHashMap String SqlPolicyRule}
    {module : Module} {operations : List Operation} {state state' : DecoderState}
    (h : operations.foldlM (decodeOperation sqlPolicyRules module) state = .ok state') :
    operations.Pairwise fun T T' => ∀ a, Marks T a → ¬ Marks T' a := by
  refine Checked.foldlM_pairwise
    (fun (s : DecoderState) T => ∀ a, Marks T a → a ∈ s.rulesBuilder.actions) ?_ ?_ h
  · intro s T _ s' hs a ha
    rcases decodeOperation_addsAction hs with ⟨hnone, -⟩ | ⟨address, action, rules, hmarks, hadds⟩
    · exact absurd ha (hnone a)
    · rw [hadds.actions, (hmarks a).mp ha]
      exact (AList.mem_insert _).mpr (Or.inl rfl)
  · intro s T s' hT T' _ hs
    rcases decodeOperation_addsAction hs with ⟨hnone, rfl⟩ | ⟨address, action, rules, hmarks, hadds⟩
    · exact ⟨hT, fun a _ => hnone a⟩
    · refine ⟨?_, ?_⟩
      · intro a ha
        rw [hadds.actions]
        exact (AList.mem_insert _).mpr (Or.inr (hT a ha))
      · intro a ha hmark
        have haddress := (hmarks a).mp hmark
        subst haddress
        exact hadds.unmarked (hT a ha)

/-- What an accepted decoding tells about the tables of actions and tags. -/
structure DecodedTables (module : Module) (seedTags : List String) (rules : InferenceRules) :
    Prop where
  own : OwnActions rules
  marked : ∀ a ∈ rules.actions, ∃ T ∈ module.operations, Marks T a
  once : ∀ T ∈ module.operations, ∀ T' ∈ module.operations, ∀ a, Marks T a → Marks T' a → T = T'
  seeds : seedTags <+: rules.tagNames

theorem ofSeedTags_tagNames {seedTags : List String} {builder : InferenceRulesBuilder}
    (h : InferenceRulesBuilder.ofSeedTags seedTags = .ok builder) :
    builder.tagNames = seedTags := by
  refine Checked.foldlM_invariant (fun b : InferenceRulesBuilder => b.tagNames = seedTags)
    InferenceRulesBuilder.seedTag seedTags ?_ (b := { tagNames := seedTags }) rfl h
  intro b hb tagName _ b' hb'
  simp only [InferenceRulesBuilder.seedTag, Checked.bind_eq_ok, check_eq_ok, exists_const,
    Checked.pure_eq_ok] at hb'
  obtain ⟨-, rfl⟩ := hb'
  exact hb

theorem tagNames_prefix {builder builder' : InferenceRulesBuilder} (ht : builder.TagTable)
    (ht' : builder'.TagTable) (hext : builder.Extends builder') :
    builder.tagNames <+: builder'.tagNames := by
  rw [List.prefix_iff_getElem?]
  intro i hi
  have hname : builder.tagNames[i]? = some builder.tagNames[i] := List.getElem?_eq_getElem hi
  exact (ht'.lookup _ i).mp (hext.tags _ i ((ht.lookup _ i).mpr hname))

theorem decodeSqlPolicyRules_tables {expr : ExpressionArena} {module : Module}
    {seedTags : List String} {rules : InferenceRules}
    (h : decodeSqlPolicyRules expr module seedTags = .ok rules) :
    DecodedTables module seedTags rules := by
  have hdecoded := decodeSqlPolicyRules_spec expr module seedTags rules h
  simp only [decodeSqlPolicyRules, Checked.bind_eq_ok, Checked.pure_eq_ok] at h
  obtain ⟨builder, hseed, table, -, state, hfold, rfl⟩ := h
  obtain ⟨hseedTable, hactions, -⟩ := InferenceRulesBuilder.ofSeedTags_spec seedTags builder hseed
  have hinvariant := Checked.foldlM_invariant
    (fun s : DecoderState => builder.Extends s.rulesBuilder ∧ OwnActions s.rulesBuilder ∧
      ∀ a ∈ s.rulesBuilder.actions, ∃ T ∈ module.operations, Marks T a)
    (decodeOperation table module) module.operations (by
      rintro s ⟨hext, hown, hmarked⟩ op hop s' hs
      refine ⟨hext.trans _ _ _ (decodeOperation_spec table module s s' op hs).extend, ?_⟩
      rcases decodeOperation_addsAction hs with ⟨-, rfl⟩ | ⟨address, action, rules, hmarks, hadds⟩
      · exact ⟨hown, hmarked⟩
      · refine ⟨hown.addsAction hadds, ?_⟩
        intro a ha
        rw [hadds.actions] at ha
        rcases (AList.mem_insert _).mp ha with rfl | hold
        · exact ⟨op, hop, (hmarks a).mpr rfl⟩
        · exact hmarked a hold) (b := { rulesBuilder := builder })
      ⟨.refl _, ⟨by simp [hactions], by simp [hactions]⟩, by simp [hactions]⟩ hfold
  obtain ⟨hext, hown, hmarked⟩ := hinvariant
  refine ⟨hown, hmarked, ?_, ?_⟩
  · intro T hT T' hT' a ha ha'
    by_contra hne
    have hsymm : Std.Symm fun T T' : Operation => ∀ a, Marks T a → ¬ Marks T' a :=
      ⟨fun _ _ hdisjoint a hright hleft => hdisjoint a hleft hright⟩
    exact (foldlM_decodeOperation_marks hfold).forall hT hT' hne a ha ha'
  · have hnames := tagNames_prefix hseedTable hdecoded.table hext
    rw [ofSeedTags_tagNames hseed] at hnames
    exact hnames

/-! ### Faithfulness -/

/-- The operation is marked with an action that no other operation has. -/
def HasOwnAction (rules : InferenceRules) (operation : Operation) : Prop :=
  ∃ action, rules.actions.lookup operation.address = some action ∧
    ∀ a, rules.actions.lookup a = some action → a = operation.address

theorem OwnActions.hasOwnAction {rules : InferenceRules} (h : OwnActions rules)
    {operation : Operation} {mark : Mark} (hmark : MarkedAs rules operation mark) :
    HasOwnAction rules operation := by
  unfold MarkedAs InferenceRules.getOutputRulesForOperation at hmark
  obtain ⟨action, haction, -⟩ := Option.bind_eq_some_iff.mp hmark
  exact ⟨action, haction, fun a ha => h.injective a operation.address action ha haction⟩

theorem Wraps.marks {module : Module} {T merge : Operation} {ruleName : String}
    (h : Wraps module T merge ruleName) : Marks T merge.address := by
  obtain ⟨index, hinputs⟩ := h.operand
  refine ⟨ruleName, h.named, ?_⟩
  rw [if_pos h.special]
  exact ⟨index, hinputs⟩

/-- An operation that is marked is a wrapped merge or a tag transform with a policy rule. -/
theorem Decoded.of_marks {expr : ExpressionArena} {module : Module} {rules : InferenceRules}
    (hd : Decoded expr module rules) {T op : Operation} (hT : T ∈ module.operations)
    (hop : op ∈ module.operations) (h : Marks T op.address) :
    IsWrapped module op ∨ IsPolicyTransform op := by
  obtain ⟨ruleName, hname, hmarks⟩ := h
  by_cases hspecial : TagTransformOp.IsSpecialRule ruleName
  · rw [if_pos hspecial] at hmarks
    obtain ⟨index, hinputs⟩ := hmarks
    obtain ⟨merge, -, hwraps, -, -⟩ := hd.special T hT ruleName hname hspecial
    obtain ⟨index', hinputs'⟩ := hwraps.operand
    rw [hinputs, List.singleton_inj] at hinputs'
    obtain ⟨rfl, -⟩ := module.eq_of_output hop hwraps.owned hinputs'
    exact Or.inl ⟨T, hT, ruleName, hwraps⟩
  · rw [if_neg hspecial] at hmarks
    rw [module.address_injective hop hT hmarks]
    exact Or.inr ⟨ruleName, hname, hspecial⟩

/-- Decoding gives every operation the rules that the policy states for it, and nothing else. -/
theorem decodeSqlPolicyRules_faithful (expr : ExpressionArena) (module : Module)
    (seedTags : List String) (rules : InferenceRules)
    (h : decodeSqlPolicyRules expr module seedTags = .ok rules) :
    (∀ T ∈ module.operations, ∀ ruleName, HasRuleName T ruleName →
      ¬ TagTransformOp.IsSpecialRule ruleName →
      HasOwnAction rules T ∧
      ∃ rule ∈ expr.sqlPolicyRules, rule.name = ruleName ∧ ∃ kind tag premises,
        getModifyTagKind rule.result.action = .ok kind ∧
        rules.getTagId rule.result.tag = some tag ∧
        PremisesMatch rules T rule.preconditions premises ∧
        rules.rulesForOutput T 0 = some
          [{ conclusion := .copyInput 0, premises := [] },
           { conclusion := .modifyTag kind tag, premises }]) ∧
    (∀ T ∈ module.operations, ∀ ruleName, HasRuleName T ruleName →
      TagTransformOp.IsSpecialRule ruleName →
      ∃ merge k, Wraps module T merge ruleName ∧ HasOwnAction rules merge ∧
        MergeOp.getControlInputStartIndex merge = .ok k ∧
        rules.rulesForOutput merge 0 = some
          [{ conclusion := .mergeIntegrityTags (specialRuleKind ruleName) (List.range k),
             premises := [] }] ∧
        ∀ T' ∈ module.operations, ∀ ruleName', Wraps module T' merge ruleName' → T' = T) ∧
    (∀ op ∈ module.operations, ¬ IsWrapped module op → ¬ IsPolicyTransform op →
      op.address ∉ rules.actions) ∧
    (∀ a a' action, rules.actions.lookup a = some action →
      rules.actions.lookup a' = some action → a = a') ∧
    (∀ name id, rules.getTagId name = some id ↔ rules.getTagName id = some name) ∧
    (∀ id, (∃ name, rules.getTagId name = some id) ↔ id < rules.tags.entries.length) ∧
    seedTags <+: rules.tagNames := by
  have hdecoded := decodeSqlPolicyRules_spec expr module seedTags rules h
  have htables := decodeSqlPolicyRules_tables h
  have hrules : ∀ op (mark : Mark), MarkedAs rules op mark →
      rules.rulesForOutput op 0 = some mark.inferenceRules := by
    intro op mark hmark
    rw [InferenceRules.rulesForOutput, hmark, Option.bind_some]
    exact List.dlookup_cons_eq _ _ _
  refine ⟨?_, ?_, ?_, htables.own.injective, hdecoded.table.lookup, ?_, htables.seeds⟩
  · intro T hT ruleName hname hspecial
    obtain ⟨rule, kind, tag, premises, hrule, heq, htransform⟩ :=
      hdecoded.transform T hT ruleName hname hspecial
    exact ⟨htables.own.hasOwnAction htransform.marked, rule, hrule, heq, kind, tag, premises,
      htransform.kind, htransform.tag, htransform.premises, hrules T _ htransform.marked⟩
  · intro T hT ruleName hname hspecial
    obtain ⟨merge, k, hwraps, hk, hmark⟩ := hdecoded.special T hT ruleName hname hspecial
    refine ⟨merge, k, hwraps, htables.own.hasOwnAction hmark, hk, hrules merge _ hmark, ?_⟩
    intro T' hT' ruleName' hwraps'
    exact htables.once T' hT' T hT merge.address hwraps'.marks hwraps.marks
  · intro op hop hwrapped htransform hmem
    obtain ⟨T, hT, hmarks⟩ := htables.marked op.address hmem
    rcases hdecoded.of_marks hT hop hmarks with h' | h'
    · exact hwrapped h'
    · exact htransform h'
  · intro id
    have hname : (∃ name, rules.getTagId name = some id) ↔ (rules.tagNames[id]?).isSome = true :=
      (exists_congr fun name => hdecoded.table.lookup name id).trans Option.isSome_iff_exists.symm
    rw [hname, hdecoded.table.length, isSome_getElem?]

/-- Rule names that look like actions: `add` is used twice, and `add_1` is a name of its own. -/
def suffixedNames : Module where
  blocks := [⟨[
    { address := 0, op := ⟨literalOpName, 1⟩ },
    { address := 1, op := ⟨tagTransformOpName, 1⟩
      attributes := AList.singleton TagTransformOp.ruleNameAttribute (.string "add")
      inputs := [.operationResult 0 0] },
    { address := 2, op := ⟨tagTransformOpName, 1⟩
      attributes := AList.singleton TagTransformOp.ruleNameAttribute (.string "add")
      inputs := [.operationResult 1 0] },
    { address := 3, op := ⟨tagTransformOpName, 1⟩
      attributes := AList.singleton TagTransformOp.ruleNameAttribute (.string "add_1")
      inputs := [.operationResult 2 0] }]⟩]
  distinct := by decide

def suffixedRules : ExpressionArena where
  sqlPolicyRules := [
    { name := "add", result := ⟨.addConfidentiality, "secret"⟩ },
    { name := "add_1", result := ⟨.addIntegrity, "trusted"⟩ }]

theorem suffixedNames_ownActions :
    (decodedRules suffixedRules suffixedNames).actions.lookup 1 ≠
      (decodedRules suffixedRules suffixedNames).actions.lookup 3 := by
  have hinjective := (decodeSqlPolicyRules_faithful suffixedRules suffixedNames [] _
    (decodedRules_of_isOk (by decide +kernel))).2.2.2.1
  intro heq
  obtain ⟨action, haction⟩ := Option.isSome_iff_exists.mp (by decide +kernel :
    ((decodedRules suffixedRules suffixedNames).actions.lookup 1).isSome = true)
  exact absurd (hinjective 1 3 action haction (heq ▸ haction)) (by decide)

end Raksha.Sql
