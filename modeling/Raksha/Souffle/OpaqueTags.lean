import Raksha.Souffle.ViolatesPolicy

/-!
# Opaque tags

The rules for opaque wrapping make new tags by concatenation inside a recursion. The bound on the
length of a wrapped tag keeps the tags finitely many, so that the evaluation ends; a tag that
reaches the bound is reported.
-/

namespace Raksha.Souffle
open Datalog

/-! ### The tags of the input -/

def resultTags : SqlPolicyRuleResult → Finset Tag
  | .addIntegrityTag _ => ∅
  | .removeConfidentialityTag tag => {tag}
  | .addConfidentialityTag tag => {tag}

def attributeTags (attr : Attribute) : Finset Tag :=
  match attr.attrPayload with
  | .stringAttributePayload str => {str}
  | _ => ∅

/-- The tags that occur in claims, in policy rules and in attributes of operations. -/
def inputTags (facts : Facts) : Finset Tag :=
  facts.saysHasTag.image (fun claim => claim.2.2.2) ∪
    (facts.isSqlPolicyRule.biUnion (fun rule => resultTags rule.result) ∪
      facts.isOperation.biUnion fun op => op.attributes.toFinset.biUnion attributeTags)

theorem mem_inputTags_saysHasTag {facts : Facts} {speaker owner : Principal} {path : AccessPath}
    {tag : Tag} (h : (speaker, path, owner, tag) ∈ facts.saysHasTag) : tag ∈ inputTags facts :=
  Finset.mem_union_left _ (Finset.mem_image.mpr ⟨_, h, rfl⟩)

theorem mem_inputTags_result {facts : Facts} {ruleName : Symbol} {result : SqlPolicyRuleResult}
    {tag : Tag} (h : SqlPolicyRuleNameHasResult facts ruleName result)
    (htag : tag ∈ resultTags result) : tag ∈ inputTags facts := by
  obtain ⟨rule, hrule, -, rfl⟩ := h
  refine Finset.mem_union_right _ (Finset.mem_union_left _ ?_)
  exact Finset.mem_biUnion.mpr ⟨rule, hrule, htag⟩

theorem mem_inputTags_attribute {facts : Facts} {op : Operation} {name : Symbol} {tag : Tag}
    (h : HasStringAttribute facts.isOperation op name tag) : tag ∈ inputTags facts := by
  obtain ⟨hop, hattr⟩ := (operationHasAttribute_iff _ _).mp h
  refine Finset.mem_union_right _ (Finset.mem_union_right _ ?_)
  exact Finset.mem_biUnion.mpr ⟨op, hop, Finset.mem_biUnion.mpr
    ⟨_, List.mem_toFinset.mpr hattr, Finset.mem_singleton_self _⟩⟩

theorem mem_inputTags_tagOperation {facts : Facts} {operator : Operator} {op : Operation}
    {tag : Tag} (h : ArcsJsOperationHasTag facts.isOperation operator op tag) :
    tag ∈ inputTags facts := by
  obtain ⟨argument, -, -, hattr⟩ := h
  exact mem_inputTags_attribute hattr

theorem mem_inputTags_downgradeFrom {facts : Facts} {op : Operation} {tag : Tag}
    (h : ArcsJsUserConsentHasDowngradeFromTag facts.isOperation op tag) :
    tag ∈ inputTags facts := by
  obtain ⟨toTag, data, intent, -, -, -, hattr, -⟩ := h
  exact mem_inputTags_attribute hattr

theorem mem_inputTags_downgradeTo {facts : Facts} {op : Operation} {tag : Tag}
    (h : ArcsJsUserConsentHasDowngradeToTag facts.isOperation op tag) :
    tag ∈ inputTags facts := by
  obtain ⟨fromTag, data, intent, -, -, -, -, hattr⟩ := h
  exact mem_inputTags_attribute hattr

namespace Evaluation

variable (e : Evaluation)

/-- A tag that some access path may have. -/
def DerivedTag (tag : Tag) : Prop :=
  ∃ path owner, e.MayHaveTag path owner tag

/-- A tag of the input, or a short derived tag with the prefix. -/
def TagOrigin (tag : Tag) : Prop :=
  tag ∈ inputTags e.facts ∨
    ∃ wrapped, e.DerivedTag wrapped ∧ wrapped.utf8ByteSize < arcsJsMaxTagLength ∧
      tag = opaqueTag wrapped

variable {e}

/-- What holds of every derived atom. -/
def TagAtomMeaning (e : Evaluation) : TagAtom → Prop
  | .mayHaveTag path owner tag => e.MayHaveTag path owner tag ∧ e.TagOrigin tag ∧
      e.IsAccessPath path ∧
      owner ∈ insert sqlActor (e.facts.saysHasTag.image fun claim => claim.2.2.1)
  | .arcsJsHasOpaqueConfiguration conditionalTag tag => e.TagOrigin tag ∧ e.DerivedTag tag ∧
      tag.utf8ByteSize < arcsJsMaxTagLength ∧ conditionalTag = opaqueTag tag

theorem hasTag_meaning {path : AccessPath} {owner : Principal} {tag : Tag}
    (h : HasTag e path owner tag) : e.TagOrigin tag ∧ e.IsAccessPath path ∧
      owner ∈ insert sqlActor (e.facts.saysHasTag.image fun claim => claim.2.2.1) := by
  cases h with
  | declared hclaim =>
    exact ⟨.inl (mem_inputTags_saysHasTag hclaim), .saysHasTag hclaim,
      Finset.mem_insert_of_mem (Finset.mem_image.mpr ⟨_, hclaim, rfl⟩)⟩
  | tagTransform _ _ hresult _ _ hadds =>
    exact ⟨.inl (mem_inputTags_result hadds (Finset.mem_singleton_self _)), .result hresult,
      Finset.mem_insert_self ..⟩

theorem tagRule_meaning {head : TagAtom} {premises : List TagAtom}
    (hrule : TagRule e head premises)
    (hderived : ∀ p ∈ premises, Derivable (TagRule e) p)
    (h : ∀ p ∈ premises, TagAtomMeaning e p) : TagAtomMeaning e head := by
  have hhead : Derivable (TagRule e) head := .intro hrule hderived
  cases hrule with
  | hasTag hhas => exact ⟨hhead, hasTag_meaning hhas⟩
  | propagated hedge =>
    obtain ⟨-, horigin, -, howner⟩ := h _ (List.mem_singleton.mpr rfl)
    exact ⟨hhead, horigin, .target hedge, howner⟩
  | member hbase =>
    obtain ⟨-, horigin, -, howner⟩ := h _ (List.mem_singleton.mpr rfl)
    exact ⟨hhead, horigin, hbase, howner⟩
  | claimed _ htag _ hargument =>
    obtain ⟨_, -, hoperand, -⟩ := hargument
    exact ⟨hhead, .inl (mem_inputTags_tagOperation htag), .operand hoperand,
      Finset.mem_insert_self ..⟩
  | opaqueConfiguration _ _ _ hlength =>
    obtain ⟨hmay, horigin, -, -⟩ := h _ (List.mem_singleton.mpr rfl)
    exact ⟨horigin, ⟨_, _, hmay⟩, hlength, rfl⟩
  | wrapOpaque _ _ _ hresult =>
    rw [List.forall_mem_cons, List.forall_mem_singleton] at h
    obtain ⟨⟨-, -, -, howner⟩, -, hderivedTag, hlength, rfl⟩ := h
    exact ⟨hhead, .inr ⟨_, hderivedTag, hlength, rfl⟩, .result hresult, howner⟩
  | unwrapOpaque _ _ _ hresult =>
    rw [List.forall_mem_cons, List.forall_mem_singleton] at h
    obtain ⟨⟨-, -, -, howner⟩, horigin, -⟩ := h
    exact ⟨hhead, horigin, .result hresult, howner⟩
  | downgraded _ htag _ hresult =>
    exact ⟨hhead, .inl (mem_inputTags_downgradeTo htag), .result hresult,
      Finset.mem_insert_self ..⟩

theorem tagAtomMeaning {atom : TagAtom} (h : Derivable (TagRule e) atom) :
    TagAtomMeaning e atom := by
  induction h with
  | intro hrule hpremises ih => exact tagRule_meaning hrule hpremises ih

theorem DerivedTag.origin {tag : Tag} (h : e.DerivedTag tag) : e.TagOrigin tag := by
  obtain ⟨path, owner, hmay⟩ := h
  exact (tagAtomMeaning hmay).2.1

theorem IsTag.origin {tag : Tag} (h : e.IsTag tag) : e.TagOrigin tag := by
  cases h with
  | saysHasTag hclaim => exact .inl (mem_inputTags_saysHasTag hclaim)
  | addConfidentialityTag _ hresult =>
    exact .inl (mem_inputTags_result hresult (Finset.mem_singleton_self _))
  | removeConfidentialityTag _ hresult =>
    exact .inl (mem_inputTags_result hresult (Finset.mem_singleton_self _))
  | claimed _ htag => exact .inl (mem_inputTags_tagOperation htag)
  | checked _ htag => exact .inl (mem_inputTags_tagOperation htag)
  | checkedNot _ htag => exact .inl (mem_inputTags_tagOperation htag)
  | wrapped _ hconfiguration =>
    obtain ⟨-, hderived, hlength, heq⟩ := tagAtomMeaning hconfiguration
    exact .inr ⟨_, hderived, hlength, heq⟩
  | downgradeFrom _ htag => exact .inl (mem_inputTags_downgradeFrom htag)
  | downgradeTo _ htag => exact .inl (mem_inputTags_downgradeTo htag)

/-! ### Finitely many tags -/

theorem utf8ByteSize_opaqueTag (tag : Tag) :
    (opaqueTag tag).utf8ByteSize = 7 + tag.utf8ByteSize := by
  have hprefix : "opaque_".utf8ByteSize = 7 := by decide
  rw [opaqueTag, String.utf8ByteSize_append, hprefix]

theorem utf8ByteSize_iterate (k : ℕ) (tag : Tag) :
    (opaqueTag^[k] tag).utf8ByteSize = 7 * k + tag.utf8ByteSize := by
  induction k with
  | zero => simp
  | succ k ih =>
    rw [Function.iterate_succ_apply', utf8ByteSize_opaqueTag, ih]
    omega

theorem DerivedTag.exists_iterate {tag : Tag} (h : e.DerivedTag tag) :
    ∃ k < 30, ∃ origin ∈ inputTags e.facts, tag = opaqueTag^[k] origin := by
  obtain ⟨n, hn⟩ : ∃ n, tag.utf8ByteSize = n := ⟨_, rfl⟩
  induction n using Nat.strong_induction_on generalizing tag with
  | _ n ih =>
    rcases h.origin with hinput | ⟨wrapped, hwrapped, hlength, rfl⟩
    · exact ⟨0, by omega, tag, hinput, rfl⟩
    · rw [utf8ByteSize_opaqueTag] at hn
      obtain ⟨k, -, origin, horigin, rfl⟩ := ih _ (by omega) hwrapped rfl
      -- the wrapped tag is short, and each prefix adds to its length
      rw [utf8ByteSize_iterate, arcsJsMaxTagLength] at hlength
      refine ⟨k + 1, by omega, origin, horigin, ?_⟩
      rw [Function.iterate_succ_apply']

theorem derivedTag_finite (e : Evaluation) : {tag | e.DerivedTag tag}.Finite := by
  refine ((Finset.range 30 ×ˢ inputTags e.facts).image
    fun (k, origin) => opaqueTag^[k] origin).finite_toSet.subset ?_
  intro tag h
  obtain ⟨k, hk, origin, horigin, rfl⟩ := DerivedTag.exists_iterate h
  exact Finset.mem_coe.mpr (Finset.mem_image.mpr
    ⟨(k, origin), Finset.mem_product.mpr ⟨Finset.mem_range.mpr hk, horigin⟩, rfl⟩)

theorem isTag_finite (e : Evaluation) : {tag | e.IsTag tag}.Finite := by
  refine ((inputTags e.facts).finite_toSet.union ((derivedTag_finite e).image opaqueTag)).subset ?_
  intro tag h
  rcases IsTag.origin h with hinput | ⟨wrapped, hwrapped, -, rfl⟩
  · exact .inl hinput
  · exact .inr ⟨wrapped, hwrapped, rfl⟩

theorem tagAtom_finite (e : Evaluation) : {atom | Derivable (TagRule e) atom}.Finite := by
  have hpaths := (pathSymbols e.facts).finite_toSet
  have howners := (insert sqlActor
    (e.facts.saysHasTag.image fun claim => claim.2.2.1)).finite_toSet
  have htags := derivedTag_finite e
  refine (((hpaths.prod (howners.prod htags)).image
    fun (path, owner, tag) => TagAtom.mayHaveTag path owner tag).union
    (htags.image fun tag => TagAtom.arcsJsHasOpaqueConfiguration (opaqueTag tag) tag)).subset ?_
  intro atom h
  have hmeaning := tagAtomMeaning h
  cases atom with
  | mayHaveTag path owner tag =>
    obtain ⟨hmay, -, hpath, howner⟩ := hmeaning
    exact .inl ⟨(path, owner, tag), ⟨hpath.mem_pathSymbols, howner, path, owner, hmay⟩, rfl⟩
  | arcsJsHasOpaqueConfiguration conditionalTag tag =>
    obtain ⟨-, hderived, -, rfl⟩ := hmeaning
    exact .inr ⟨tag, hderived, rfl⟩

/-- Opaque wrapping makes new tags of short derived tags only, so that the recursive rules derive
finitely many facts and their evaluation ends, and it reports every tag that it does not wrap. -/
theorem opaqueWrapping_bounded (e : Evaluation) :
    (∀ tag, (∃ path owner, e.MayHaveTag path owner tag) ∨ e.IsTag tag →
      tag ∈ inputTags e.facts ∨ ∃ wrapped, (∃ path owner, e.MayHaveTag path owner wrapped) ∧
        wrapped.utf8ByteSize < 200 ∧ tag = "opaque_" ++ wrapped) ∧
    {atom | Derivable (TagRule e) atom}.Finite ∧ {tag | e.IsTag tag}.Finite ∧
    (∃ n, ∀ m ≥ n, rounds (TagRule e) m = {atom | Derivable (TagRule e) atom}) ∧
    (.arcsJsOpaque ∈ e.program → ∀ op source index result owner tag,
      IsOperationOf e.facts.isOperation arcsJsWrapOpaque op →
      OperationHasOperandAtIndex e.facts.isOperation op source index →
      OperationHasResult e.facts.isOperation op result →
      e.MayHaveTag source owner tag → 200 ≤ tag.utf8ByteSize →
      ∃ message, e.ViolatesPolicy result arcsJsConstructionPolicy message) := by
  refine ⟨?_, tagAtom_finite e, isTag_finite e, rounds_eventually (tagAtom_finite e), ?_⟩
  · rintro tag (hderived | htag)
    · exact DerivedTag.origin hderived
    · exact IsTag.origin htag
  · intro hfile op source index result owner tag hop hoperand hresult hmay hlength
    exact ⟨_, .deeplyNested hfile hop hoperand hmay hlength hresult⟩

end Evaluation

end Raksha.Souffle
