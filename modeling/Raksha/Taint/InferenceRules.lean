import Raksha.Ir.Module
import Raksha.Taint.AbstractIfcTags

/-!
# Inference rules

The rules that describe the taint behaviour of single operations
(`analysis/taint/inference_rule.h`, `inference_rules.h`) and the builder that assembles them
(`inference_rules_builder.h`).
-/

namespace Raksha.Taint
open Raksha.Common Raksha.Ir

/-- Premise: the input has the integrity tag. -/
structure InputHasIntegrity where
  inputIndex : ℕ
  tag : TagId
deriving DecidableEq

inductive MergeIntegrityTags.Kind
  | union
  | intersect
deriving DecidableEq

inductive ModifyTag.Kind
  | addSecrecy
  | removeSecrecy
  | addIntegrity
deriving DecidableEq

inductive Conclusion
  | copyInput (inputIndex : ℕ)
  | modifyTag (kind : ModifyTag.Kind) (tag : TagId)
  | mergeIntegrityTags (kind : MergeIntegrityTags.Kind) (inputIndices : List ℕ)
deriving DecidableEq

structure InferenceRule where
  conclusion : Conclusion
  premises : List InputHasIntegrity
deriving DecidableEq

/-- From an output index to the rules that are applied in turn. -/
abbrev OutputRules : Type := FlatHashMap ℕ (List InferenceRule)

structure InferenceRules where
  actionRules : FlatHashMap String OutputRules := ∅
  actions : FlatHashMap Address String := ∅
  tags : FlatHashMap String TagId := ∅
  tagNames : List String := []

namespace InferenceRules

def getTagId (rules : InferenceRules) (tag : String) : Option TagId := rules.tags.lookup tag

def getTagName (rules : InferenceRules) (tag : TagId) : Option String := rules.tagNames[tag]?

def getOutputRulesForAction (rules : InferenceRules) (action : String) : Option OutputRules :=
  rules.actionRules.lookup action

def getOutputRulesForOperation (rules : InferenceRules) (operation : Operation) :
    Option OutputRules :=
  (rules.actions.lookup operation.address).bind rules.getOutputRulesForAction

/-- The rules for one output of an operation, when there are any. -/
def rulesForOutput (rules : InferenceRules) (operation : Operation) (index : ℕ) :
    Option (List InferenceRule) :=
  (rules.getOutputRulesForOperation operation).bind fun outputRules => outputRules.lookup index

end InferenceRules

/-! ### The builder

The builder fills the same four tables. Construction seeds the tag table. -/

abbrev InferenceRulesBuilder : Type := InferenceRules

namespace InferenceRulesBuilder

def seedTag (builder : InferenceRulesBuilder) (tagName : String) :
    Checked InferenceRulesBuilder := do
  let (tags, success) := builder.tags.tryInsert tagName builder.tags.entries.length
  check (success = true) ("Duplicate seed tag '" ++ tagName ++ "'")
  return { builder with tags }

def ofSeedTags (seedTagNames : List String) : Checked InferenceRulesBuilder :=
  seedTagNames.foldlM seedTag { tagNames := seedTagNames }

def build (builder : InferenceRulesBuilder) : InferenceRules := builder

def markOperationAsAction (builder : InferenceRulesBuilder) (operation : Address)
    (action : String) : Checked InferenceRulesBuilder := do
  let (actions, success) := builder.actions.tryInsert operation action
  check (success = true) ("Duplicate operation inserted for '" ++ action ++ "'")
  return { builder with actions }

def addOutputRulesForAction (builder : InferenceRulesBuilder) (action : String)
    (rule : OutputRules) : Checked InferenceRulesBuilder := do
  let (actionRules, success) := builder.actionRules.tryInsert action rule
  check (success = true) ("Duplicate inference rule inserted for '" ++ action ++ "'")
  return { builder with actionRules }

def getOrCreateTagId (builder : InferenceRulesBuilder) (tag : String) :
    TagId × InferenceRulesBuilder :=
  match builder.tags.lookup tag with
  | some id => (id, builder)
  | none =>
    let id := builder.tags.entries.length
    (id, { builder with
      tags := builder.tags.insertOrAssign tag id
      tagNames := builder.tagNames ++ [tag] })

theorem markOperationAsAction_eq_ok (builder builder' : InferenceRulesBuilder)
    (operation : Address) (action : String) :
    builder.markOperationAsAction operation action = .ok builder' ↔
      operation ∉ builder.actions ∧
      builder' = { builder with actions := builder.actions.insertOrAssign operation action } := by
  simp only [markOperationAsAction, Checked.bind_eq_ok, check_eq_ok, Checked.pure_eq_ok,
    FlatHashMap.tryInsert_snd, exists_const]
  constructor
  · rintro ⟨hmem, rfl⟩
    rw [FlatHashMap.tryInsert_of_notMem _ _ _ hmem]
    exact ⟨hmem, rfl⟩
  · rintro ⟨hmem, rfl⟩
    rw [FlatHashMap.tryInsert_of_notMem _ _ _ hmem]
    exact ⟨hmem, rfl⟩

theorem addOutputRulesForAction_eq_ok (builder builder' : InferenceRulesBuilder)
    (action : String) (rule : OutputRules) :
    builder.addOutputRulesForAction action rule = .ok builder' ↔
      action ∉ builder.actionRules ∧
      builder' =
        { builder with actionRules := builder.actionRules.insertOrAssign action rule } := by
  simp only [addOutputRulesForAction, Checked.bind_eq_ok, check_eq_ok, Checked.pure_eq_ok,
    FlatHashMap.tryInsert_snd, exists_const]
  constructor
  · rintro ⟨hmem, rfl⟩
    rw [FlatHashMap.tryInsert_of_notMem _ _ _ hmem]
    exact ⟨hmem, rfl⟩
  · rintro ⟨hmem, rfl⟩
    rw [FlatHashMap.tryInsert_of_notMem _ _ _ hmem]
    exact ⟨hmem, rfl⟩

/-! ### What the builder keeps -/

/-- `builder'` has all entries of `builder`. -/
structure Extends (builder builder' : InferenceRulesBuilder) : Prop where
  actions : ∀ k a, builder.actions.lookup k = some a → builder'.actions.lookup k = some a
  actionRules : ∀ k r, builder.actionRules.lookup k = some r →
    builder'.actionRules.lookup k = some r
  tags : ∀ k t, builder.tags.lookup k = some t → builder'.tags.lookup k = some t

theorem Extends.refl (builder : InferenceRulesBuilder) : builder.Extends builder :=
  ⟨fun _ _ h => h, fun _ _ h => h, fun _ _ h => h⟩

theorem Extends.trans (a b c : InferenceRulesBuilder) (hab : a.Extends b) (hbc : b.Extends c) :
    a.Extends c :=
  ⟨fun k x h => hbc.actions k x (hab.actions k x h),
    fun k x h => hbc.actionRules k x (hab.actionRules k x h),
    fun k x h => hbc.tags k x (hab.tags k x h)⟩

/-- The tag table and the list of tag names are inverse to each other. -/
structure TagTable (builder : InferenceRulesBuilder) : Prop where
  lookup : ∀ name id, builder.tags.lookup name = some id ↔ builder.tagNames[id]? = some name
  length : builder.tags.entries.length = builder.tagNames.length

theorem TagTable.injective {builder : InferenceRulesBuilder} (h : builder.TagTable)
    {name name' : String} {id : TagId} (hname : builder.tags.lookup name = some id)
    (hname' : builder.tags.lookup name' = some id) : name = name' := by
  have h₁ := (h.lookup name id).mp hname
  have h₂ := (h.lookup name' id).mp hname'
  exact Option.some.inj (h₁.symm.trans h₂)

theorem lookup_insert_of_fresh {κ α : Type} [DecidableEq κ] (m : FlatHashMap κ α) (key : κ)
    (value : α) (hfresh : key ∉ m) (k : κ) (a : α) (h : m.lookup k = some a) :
    (m.insertOrAssign key value).lookup k = some a := by
  rw [FlatHashMap.lookup_insertOrAssign]
  split
  · next heq =>
    subst heq
    rw [(FlatHashMap.lookup_eq_none_iff m k).mpr hfresh] at h
    cases h
  · exact h

theorem getOrCreateTagId_spec (builder builder' : InferenceRulesBuilder) (tag : String)
    (id : TagId) (h : builder.getOrCreateTagId tag = (id, builder')) :
    builder'.tags.lookup tag = some id ∧ builder.Extends builder' ∧
    builder'.actions = builder.actions ∧ builder'.actionRules = builder.actionRules ∧
    (builder.TagTable → builder'.TagTable) := by
  unfold getOrCreateTagId at h
  cases hlookup : builder.tags.lookup tag with
  | some found =>
    rw [hlookup] at h
    cases h
    exact ⟨hlookup, Extends.refl builder, rfl, rfl, fun ht => ht⟩
  | none =>
    rw [hlookup] at h
    simp only [Prod.mk.injEq] at h
    obtain ⟨rfl, rfl⟩ := h
    have hfresh : tag ∉ builder.tags := (FlatHashMap.lookup_eq_none_iff _ _).mp hlookup
    refine ⟨?_, ⟨fun _ _ h => h, fun _ _ h => h, ?_⟩, rfl, rfl, ?_⟩
    · rw [FlatHashMap.lookup_insertOrAssign, if_pos rfl]
    · exact lookup_insert_of_fresh _ _ _ hfresh
    · intro ht
      refine ⟨?_, ?_⟩
      · intro name i
        rw [FlatHashMap.lookup_insertOrAssign, ht.length, getElem?_concat_eq_some, ← ht.lookup]
        by_cases hname : name = tag
        · subst hname
          simp [hlookup, eq_comm]
        · simp [hname, Ne.symm hname]
      · have hcons := AList.entries_insert_of_notMem (b := builder.tags.entries.length) hfresh
        change (AList.insert tag _ builder.tags).entries.length = _
        rw [hcons, List.length_cons, List.length_append, List.length_singleton, ht.length]

theorem ofSeedTags_spec (seedTagNames : List String) (builder : InferenceRulesBuilder)
    (h : ofSeedTags seedTagNames = .ok builder) :
    builder.TagTable ∧ builder.actions = ∅ ∧ builder.actionRules = ∅ := by
  -- After the seeds `done`, the table inverts `done`; `tagNames` is set from the start.
  have hloop : ∀ (rest done : List String) (b b' : InferenceRulesBuilder),
      (∀ name id, b.tags.lookup name = some id ↔ done[id]? = some name) →
      b.tags.entries.length = done.length → rest.foldlM seedTag b = .ok b' →
      (∀ name id, b'.tags.lookup name = some id ↔ (done ++ rest)[id]? = some name) ∧
      b'.tags.entries.length = (done ++ rest).length ∧ b'.tagNames = b.tagNames ∧
      b'.actions = b.actions ∧ b'.actionRules = b.actionRules := by
    intro rest
    induction rest with
    | nil =>
      intro done b b' hlookup hlen h
      simp only [List.foldlM_nil, Checked.pure_eq_ok] at h
      subst h
      simpa using ⟨hlookup, hlen⟩
    | cons tagName rest ih =>
      intro done b b' hlookup hlen h
      simp only [List.foldlM_cons, Checked.bind_eq_ok] at h
      obtain ⟨mid, hmid, hrest⟩ := h
      simp only [seedTag, Checked.bind_eq_ok, check_eq_ok, exists_const, Checked.pure_eq_ok,
        FlatHashMap.tryInsert_snd] at hmid
      obtain ⟨hfresh, hmid⟩ := hmid
      rw [FlatHashMap.tryInsert_of_notMem _ _ _ hfresh] at hmid
      subst hmid
      have hnone := (FlatHashMap.lookup_eq_none_iff b.tags tagName).mpr hfresh
      have hresult := ih (done ++ [tagName]) _ b' ?_ ?_ hrest
      · simpa using hresult
      · intro name i
        rw [FlatHashMap.lookup_insertOrAssign, hlen, getElem?_concat_eq_some, ← hlookup]
        by_cases hname : name = tagName
        · subst hname
          simp [hnone, eq_comm]
        · simp [hname, Ne.symm hname]
      · have hcons := AList.entries_insert_of_notMem (b := b.tags.entries.length) hfresh
        change (AList.insert tagName _ b.tags).entries.length = _
        rw [hcons, List.length_cons, List.length_append, List.length_singleton, hlen]
  obtain ⟨hlookup, hlen, hnames, hactions, hrules⟩ :=
    hloop seedTagNames [] { tagNames := seedTagNames } builder (by simp) rfl h
  refine ⟨⟨?_, ?_⟩, hactions, hrules⟩
  · rw [hnames]
    exact hlookup
  · rw [hnames]
    exact hlen

end InferenceRulesBuilder

end Raksha.Taint
