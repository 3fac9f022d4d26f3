import Raksha.Sql.DecodeExpressionArena

/-!
# Decoded arenas

Which arenas are decoded, and what the top-level block and the storages say about the expressions.
The arena is read in its order, so the results are by induction on the pairs that are read so far.
-/

namespace Raksha.Sql.Decode
open Raksha.Common Raksha.Ir

/-! ### Arenas -/

def Expression.references : Expression → List UInt64
  | .mergeOperation merge => merge.inputs ++ merge.controlInputs
  | .tagTransform transform =>
    transform.transformedNode :: transform.tagPreconditions.entries.map Sigma.snd
  | _ => []

/-- What an expression must have apart from its references. -/
def Expression.Complete : Expression → Prop
  | .exprVariantNotSet => False
  | .sourceTableColumn column => column.columnPath ≠ ""
  | .literal text => text.literalStr ≠ ""
  | .mergeOperation merge => merge.inputs ≠ []
  | .tagTransform transform => transform.transformRuleName ≠ "" ∧
      TagTransformOp.ruleNameAttribute ∉ transform.tagPreconditions

def Expression.IsColumn : Expression → Prop
  | .sourceTableColumn _ => True
  | _ => False

instance : DecidablePred Expression.IsColumn := fun expr =>
  match expr with
  | .sourceTableColumn _ => isTrue trivial
  | .exprVariantNotSet | .literal _ | .mergeOperation _ | .tagTransform _ => isFalse id

theorem Expression.isColumn_iff (expr : Expression) :
    expr.IsColumn ↔ ∃ column, expr = .sourceTableColumn column := by
  cases expr <;> simp [IsColumn]

/-- Complete expressions under distinct ids, whose references are declared earlier. -/
structure WellDeclared (pairs : List IdExpressionPair) : Prop where
  complete : ∀ pair ∈ pairs, pair.expression.Complete
  distinct : (pairs.map IdExpressionPair.id).Nodup
  declared : ∀ (k : ℕ) (pair : IdExpressionPair), pairs[k]? = some pair →
    ∀ id ∈ pair.expression.references, id ≠ 0 ∧
      ∃ j < k, ∃ earlier : IdExpressionPair, pairs[j]? = some earlier ∧ earlier.id = id

/-! ### Decoded expressions -/

/-- What an operation says about a merge. -/
structure DescribesMerge (values : UInt64 → Option Value) (mergeOperation : MergeOperation)
    (operation : Operation) : Prop where
  operator : operation.op = { name := mergeOpName }
  attributes : operation.attributes =
    AList.singleton MergeOp.controlInputStartIndex (.int64 mergeOperation.inputs.length)
  inputs : List.Forall₂ (fun id value => values id = some value)
    (mergeOperation.inputs ++ mergeOperation.controlInputs) operation.inputs

/-- What an operation says about a tag transform, in any order of its preconditions. -/
structure DescribesTagTransform (values : UInt64 → Option Value) (tagTransform : TagTransform)
    (operation : Operation) : Prop where
  operator : operation.op = { name := tagTransformOpName }
  ruleName : operation.attributes.lookup TagTransformOp.ruleNameAttribute =
    some (.string tagTransform.transformRuleName)
  transformed : ∃ value, operation.inputs[0]? = some value ∧
    values tagTransform.transformedNode = some value
  preconditions : ∀ name id, tagTransform.tagPreconditions.lookup name = some id →
    ∃ (index : ℕ) (value : Value), 1 ≤ index ∧
      operation.attributes.lookup name = some (.int64 index) ∧
      operation.inputs[index]? = some value ∧ values id = some value
  others : ∀ name, name ≠ TagTransformOp.ruleNameAttribute →
    name ∉ tagTransform.tagPreconditions → operation.attributes.lookup name = none
  inputs : operation.inputs.length = tagTransform.tagPreconditions.entries.length + 1
  indices : ∀ name name' (index : ℤ), operation.attributes.lookup name = some (.int64 index) →
    operation.attributes.lookup name' = some (.int64 index) → name = name'

/-- What an operation says about its expression, with the values of the ids. -/
def Describes (values : UInt64 → Option Value) : Expression → Operation → Prop
  | .exprVariantNotSet, _ | .sourceTableColumn _, _ => False
  | .literal literal, operation =>
    operation.op = { name := literalOpName } ∧ operation.attributes =
      AList.singleton LiteralOp.literalStringAttrName (.string literal.literalStr) ∧
    operation.inputs = []
  | .mergeOperation mergeOperation, operation => DescribesMerge values mergeOperation operation
  | .tagTransform tagTransform, operation =>
    DescribesTagTransform values tagTransform operation

theorem Describes.mono {values values' : UInt64 → Option Value} {expr : Expression}
    {operation : Operation} (h : Describes values expr operation)
    (hle : ∀ id value, values id = some value → values' id = some value) :
    Describes values' expr operation := by
  cases expr with
  | exprVariantNotSet => exact h
  | sourceTableColumn sourceTableColumn => exact h
  | literal literal => exact h
  | mergeOperation mergeOperation =>
    exact { h with inputs := h.inputs.imp hle }
  | tagTransform tagTransform =>
    have h : DescribesTagTransform values tagTransform operation := h
    refine { h with transformed := ?_, preconditions := ?_ }
    · obtain ⟨value, hinput, hvalue⟩ := h.transformed
      exact ⟨value, hinput, hle _ _ hvalue⟩
    · intro name id hname
      obtain ⟨index, value, hpos, hattr, hinput, hvalue⟩ := h.preconditions name id hname
      exact ⟨index, value, hpos, hattr, hinput, hle _ _ hvalue⟩

/-- An expression and its operation, whose result is the value of the id. -/
structure DecodedOperation (values : UInt64 → Option Value) (pair : IdExpressionPair)
    (operation : Operation) : Prop where
  value : values pair.id = some (operation.getOutputValue 0)
  describes : Describes values pair.expression operation

/-- What the decoder makes of an arena. -/
structure DecodedArena (pairs : List IdExpressionPair) (value : Value)
    (decoderContext : DecoderContext) : Prop where
  /-- One operation for every expression that is not a column, then the output of the last. -/
  block : ∃ operations sqlOutput,
    decoderContext.operations = operations ++ [sqlOutput] ∧
    List.Forall₂ (DecodedOperation decoderContext.idToValue.lookup)
      (pairs.filter fun pair => ¬ pair.expression.IsColumn) operations ∧
    sqlOutput.op = { name := sqlOutputOpName } ∧ sqlOutput.attributes = ∅ ∧
    (∃ last output, pairs.getLast? = some last ∧
      decoderContext.idToValue.lookup last.id = some output ∧ sqlOutput.inputs = [output]) ∧
    value = sqlOutput.getOutputValue 0
  addresses : (decoderContext.operations.map Operation.address).Nodup
  /-- A column is the storage that the context has for its path. -/
  columns : ∀ pair ∈ pairs, ∀ column, pair.expression = .sourceTableColumn column →
    ∃ storage, decoderContext.idToValue.lookup pair.id = some (.storedValue storage) ∧
      decoderContext.irContext.storages.lookup column.columnPath = some storage
  storages : ∀ pair ∈ pairs, ∀ pair' ∈ pairs, ∀ column column',
    pair.expression = .sourceTableColumn column →
    pair'.expression = .sourceTableColumn column' →
    (decoderContext.idToValue.lookup pair.id = decoderContext.idToValue.lookup pair'.id ↔
      column.columnPath = column'.columnPath)

/-! ### Reading the attributes back -/

theorem DescribesMerge.getControlInputStartIndex {values : UInt64 → Option Value}
    {mergeOperation : MergeOperation} {operation : Operation}
    (h : DescribesMerge values mergeOperation operation) :
    MergeOp.getControlInputStartIndex operation = .ok mergeOperation.inputs.length := by
  rw [MergeOp.getControlInputStartIndex_eq_ok, h.attributes]
  exact FlatHashMap.dlookup_cons [] _ _ _

theorem getPreconditionInputIndices_of {operation : Operation}
    (h : ∀ name attr, operation.attributes.lookup name = some attr →
      name ≠ TagTransformOp.ruleNameAttribute →
      ∃ index : ℕ, attr = .int64 index ∧ 1 ≤ index ∧ index < operation.inputs.length) :
    ∃ indices, TagTransformOp.getPreconditionInputIndices operation = .ok indices := by
  have hloop : ∀ (entries : List (Σ _ : String, Attribute)),
      (∀ entry ∈ entries, operation.attributes.lookup entry.1 = some entry.2) →
      ∀ result, ∃ indices,
        entries.foldlM (TagTransformOp.addPreconditionInputIndex operation) result =
          .ok indices := by
    intro entries
    induction entries with
    | nil => exact fun _ result => ⟨result, rfl⟩
    | cons entry entries ih =>
      intro hentries result
      have hrest := ih fun other hother => hentries other (List.mem_cons_of_mem _ hother)
      obtain ⟨mid, hmid⟩ : ∃ mid,
          TagTransformOp.addPreconditionInputIndex operation result entry = .ok mid := by
        unfold TagTransformOp.addPreconditionInputIndex
        by_cases hname : entry.1 = TagTransformOp.ruleNameAttribute
        · rw [if_pos hname]
          exact ⟨result, rfl⟩
        · obtain ⟨index, hattr, hlow, hhigh⟩ :=
            h entry.1 entry.2 (hentries entry (List.mem_cons_self ..)) hname
          rw [if_neg hname, hattr]
          simp only [Attribute.getInt64?, Checked.bind_eq_ok, check_eq_ok, exists_const,
            Checked.pure_eq_ok]
          exact ⟨_, ⟨by omega, by omega⟩, rfl⟩
      obtain ⟨indices, hindices⟩ := hrest mid
      refine ⟨indices, ?_⟩
      rw [List.foldlM_cons, hmid]
      exact hindices
  refine hloop operation.attributes.entries ?_ ∅
  intro entry hentry
  exact (List.mem_dlookup_iff operation.attributes.nodupKeys).mpr hentry

/-- The accessor finds the input of every precondition, and nothing else. -/
theorem DescribesTagTransform.getPreconditionInputIndices {values : UInt64 → Option Value}
    {tagTransform : TagTransform} {operation : Operation}
    (h : DescribesTagTransform values tagTransform operation)
    (hreserved : TagTransformOp.ruleNameAttribute ∉ tagTransform.tagPreconditions) :
    ∃ indices, TagTransformOp.getPreconditionInputIndices operation = .ok indices ∧
      ∀ name, (∃ id, tagTransform.tagPreconditions.lookup name = some id ∧
        ∃ index value, indices.lookup name = some index ∧
          operation.inputs[index]? = some value ∧ values id = some value) ∨
        (name ∉ tagTransform.tagPreconditions ∧ indices.lookup name = none) := by
  have hindex : ∀ name attr, operation.attributes.lookup name = some attr →
      name ≠ TagTransformOp.ruleNameAttribute →
      ∃ index : ℕ, attr = .int64 index ∧ 1 ≤ index ∧ index < operation.inputs.length := by
    intro name attr hattr hne
    have hmem : name ∈ tagTransform.tagPreconditions := by
      by_contra hmem
      rw [h.others name hne hmem] at hattr
      cases hattr
    obtain ⟨id, hid⟩ :=
      Option.ne_none_iff_exists'.mp ((FlatHashMap.mem_iff_lookup _ _).mp hmem)
    obtain ⟨index, value, hpos, hlookup, hinput, -⟩ := h.preconditions name id hid
    rw [hattr, Option.some.injEq] at hlookup
    exact ⟨index, hlookup, hpos, (List.getElem?_eq_some_iff.mp hinput).1⟩
  obtain ⟨indices, hindices⟩ := getPreconditionInputIndices_of hindex
  refine ⟨indices, hindices, fun name => ?_⟩
  have hspec :=
    TagTransformOp.getPreconditionInputIndices_lookup operation indices hindices name
  cases hid : tagTransform.tagPreconditions.lookup name with
  | some id =>
    obtain ⟨index, value, hpos, hlookup, hinput, hvalue⟩ := h.preconditions name id hid
    have hne : name ≠ TagTransformOp.ruleNameAttribute := by
      rintro rfl
      rw [(FlatHashMap.lookup_eq_none_iff _ _).mpr hreserved] at hid
      cases hid
    have hlt := (List.getElem?_eq_some_iff.mp hinput).1
    exact Or.inl ⟨id, rfl, index, value, (hspec index).mpr ⟨hne, hlookup, hpos, hlt⟩, hinput,
      hvalue⟩
  | none =>
    have hmem := (FlatHashMap.lookup_eq_none_iff _ _).mp hid
    refine Or.inr ⟨hmem, Option.eq_none_iff_forall_ne_some.mpr fun index hindex => ?_⟩
    obtain ⟨hne, hlookup, -⟩ := (hspec index).mp hindex
    rw [h.others name hne hmem] at hlookup
    cases hlookup

/-! ### Values of references -/

/-- The reference can be read off the context. -/
def Known (context : DecoderContext) (id : UInt64) : Prop :=
  id ≠ 0 ∧ id ∈ context.idToValue

theorem known_iff (context : DecoderContext) (id : UInt64) :
    Known context id ↔ ∃ value, context.getValue id = .ok value := by
  simp only [Known, DecoderContext.getValue_eq_ok, exists_and_left, FlatHashMap.mem_iff_lookup,
    Option.ne_none_iff_exists']

theorem mapM_getValue {context : DecoderContext} {ids : List UInt64} {values : List Value}
    (h : ids.mapM context.getValue = .ok values) :
    (∀ id ∈ ids, Known context id) ∧
    List.Forall₂ (fun id value => context.idToValue.lookup id = some value) ids values := by
  have hvalues := Checked.mapM_eq_ok h
  refine ⟨?_, hvalues.imp fun id value hvalue => ?_⟩
  · intro id hid
    obtain ⟨k, hk⟩ := List.getElem?_of_mem hid
    obtain ⟨value, -, hvalue⟩ := forall₂_left hvalues.flip hk
    exact (known_iff context id).mpr ⟨value, hvalue⟩
  · exact ((DecoderContext.getValue_eq_ok _ _ _).mp hvalue).2

theorem mapM_getValue_of {context : DecoderContext} {ids : List UInt64}
    (h : ∀ id ∈ ids, Known context id) :
    ∃ values, ids.mapM context.getValue = .ok values ∧
      List.Forall₂ (fun id value => context.idToValue.lookup id = some value) ids values := by
  obtain ⟨values, hvalues⟩ := Checked.mapM_of fun id hid => (known_iff context id).mp (h id hid)
  exact ⟨values, hvalues, (mapM_getValue hvalues).2⟩

/-! ### One expression -/

/-- What the decoder does to its context for one expression. -/
structure DecodesTo (context : DecoderContext) (expr : Expression) (value : Value)
    (context' : DecoderContext) : Prop where
  idToValue : context'.idToValue = context.idToValue
  operators : context'.irContext.operators = context.irContext.operators
  storages : ∀ name address, context.irContext.storages.lookup name = some address →
    context'.irContext.storages.lookup name = some address
  column : ∀ column, expr = .sourceTableColumn column → context'.operations = context.operations ∧
    ∃ storage, value = .storedValue storage ∧
      context'.irContext.storages.lookup column.columnPath = some storage
  operation : ¬ expr.IsColumn → ∃ operation : Operation,
    context'.operations = context.operations ++ [operation] ∧
    operation.address = context.operations.length ∧ value = operation.getOutputValue 0 ∧
    Describes context.idToValue.lookup expr operation

theorem decodesTo_withOperation {context : DecoderContext} {expr : Expression}
    {operation : Operation} (hcolumn : ¬ expr.IsColumn)
    (haddress : operation.address = context.operations.length)
    (hdescribes : Describes context.idToValue.lookup expr operation) :
    DecodesTo context expr (DecoderContext.wrapOperationResultValue operation)
      (context.withOperation operation) where
  idToValue := rfl
  operators := rfl
  storages := fun _ _ h => h
  column := by
    rintro column rfl
    exact absurd trivial hcolumn
  operation := fun _ => ⟨operation, rfl, haddress, rfl, hdescribes⟩

theorem decodeSourceTableColumn_eq_ok (column : SourceTableColumn) (context : DecoderContext) :
    (column.columnPath ≠ "" → ∃ added, decodeSourceTableColumn column context = .ok added) ∧
    ∀ value context', decodeSourceTableColumn column context = .ok (value, context') →
      column.columnPath ≠ "" ∧ DecodesTo context (.sourceTableColumn column) value context' := by
  obtain ⟨storage, irContext, hstorage, hoperators, hlookup, hkeep⟩ :=
    context.getOrCreateStorage_spec column.columnPath
  unfold decodeSourceTableColumn
  simp only [Checked.bind_eq_ok, check_eq_ok, exists_const, Checked.pure_eq_ok, hstorage,
    Except.ok.injEq, exists_eq_left']
  refine ⟨fun hpath => ⟨_, hpath, rfl⟩, ?_⟩
  rintro value context' ⟨hpath, heq⟩
  obtain ⟨rfl, rfl⟩ := Prod.mk.inj heq
  refine ⟨hpath, rfl, hoperators, hkeep, ?_, fun hcolumn => absurd trivial hcolumn⟩
  intro other hother
  cases hother
  exact ⟨rfl, storage, rfl, hlookup⟩

theorem decodeLiteral_eq_ok (literal : Literal) {context : DecoderContext}
    (hregistered : context.Registered) :
    (literal.literalStr ≠ "" → ∃ added, decodeLiteral literal context = .ok added) ∧
    ∀ value context', decodeLiteral literal context = .ok (value, context') →
      literal.literalStr ≠ "" ∧ DecodesTo context (.literal literal) value context' := by
  have hop := hregistered literalOpName (by simp)
  unfold decodeLiteral DecoderContext.makeLiteralOperation
  simp only [Checked.bind_eq_ok, check_eq_ok, exists_const, Checked.pure_eq_ok,
    DecoderContext.addOperation_eq_ok, LiteralOp.create, hop, Except.ok.injEq, exists_eq_left']
  refine ⟨fun hliteral => ⟨_, hliteral, rfl⟩, ?_⟩
  rintro value context' ⟨hliteral, heq⟩
  obtain ⟨rfl, rfl⟩ := Prod.mk.inj heq
  exact ⟨hliteral, decodesTo_withOperation id rfl ⟨rfl, rfl, rfl⟩⟩

theorem decodeMergeOperation_eq_ok (mergeOperation : MergeOperation) {context : DecoderContext}
    (hregistered : context.Registered) :
    (mergeOperation.inputs ≠ [] →
      (∀ id ∈ mergeOperation.inputs ++ mergeOperation.controlInputs, Known context id) →
      ∃ added, decodeMergeOperation mergeOperation context = .ok added) ∧
    ∀ value context', decodeMergeOperation mergeOperation context = .ok (value, context') →
      mergeOperation.inputs ≠ [] ∧
      (∀ id ∈ mergeOperation.inputs ++ mergeOperation.controlInputs, Known context id) ∧
      DecodesTo context (.mergeOperation mergeOperation) value context' := by
  have hop := hregistered mergeOpName (by simp)
  unfold decodeMergeOperation DecoderContext.makeMergeOperation
  simp only [Checked.bind_eq_ok, check_eq_ok, exists_const, Checked.pure_eq_ok,
    DecoderContext.addOperation_eq_ok, MergeOp.create, hop, Except.ok.injEq, exists_eq_left',
    Nat.one_le_iff_ne_zero, ne_eq, List.length_eq_zero_iff]
  constructor
  · intro hinputs hknown
    obtain ⟨direct, hdirect, hdirectValues⟩ := mapM_getValue_of
      fun id hid => hknown id (List.mem_append_left _ hid)
    obtain ⟨control, hcontrol, -⟩ := mapM_getValue_of
      fun id hid => hknown id (List.mem_append_right _ hid)
    have hlength := hdirectValues.length_eq
    have hdirectNe : direct ≠ [] := by
      rw [← List.length_pos_iff, ← hlength]
      exact List.length_pos_iff.mpr hinputs
    exact ⟨_, hinputs, _, ⟨direct, hdirect, control, hcontrol, _,
      ⟨Or.inl hdirectNe, hlength ▸ mergeOperation.fits, rfl⟩, rfl⟩, rfl⟩
  · rintro value context' ⟨hinputs, _,
      ⟨direct, hdirect, control, hcontrol, operation, ⟨-, -, rfl⟩, rfl⟩, heq⟩
    obtain ⟨rfl, rfl⟩ := Prod.mk.inj heq
    obtain ⟨hdirectKnown, hdirectValues⟩ := mapM_getValue hdirect
    obtain ⟨hcontrolKnown, hcontrolValues⟩ := mapM_getValue hcontrol
    refine ⟨hinputs, ?_, decodesTo_withOperation id rfl ⟨rfl, ?_, ?_⟩⟩
    · intro id hid
      rcases List.mem_append.mp hid with hid | hid
      · exact hdirectKnown id hid
      · exact hcontrolKnown id hid
    · rw [hdirectValues.length_eq]
    · exact List.rel_append hdirectValues hcontrolValues

/-- The pairs of the preconditions with their values, at the places of the entries. -/
theorem mapM_preconditionValuePair {context : DecoderContext}
    {entries : List (Σ _ : String, UInt64)} {preconditions : List (String × Value)}
    (h : entries.mapM context.preconditionValuePair = .ok preconditions) :
    (∀ entry ∈ entries, Known context entry.2) ∧
    List.Forall₂ (fun entry precondition => precondition.1 = entry.1 ∧
      context.idToValue.lookup entry.2 = some precondition.2) entries preconditions := by
  have hpairs : List.Forall₂ (fun (entry : Σ _ : String, UInt64) (precondition : String × Value) =>
      precondition.1 = entry.1 ∧ context.getValue entry.2 = .ok precondition.2)
      entries preconditions := by
    refine (Checked.mapM_eq_ok h).imp fun entry precondition hpair => ?_
    simp only [DecoderContext.preconditionValuePair, Checked.bind_eq_ok,
      Checked.pure_eq_ok] at hpair
    obtain ⟨value, hvalue, rfl⟩ := hpair
    exact ⟨rfl, hvalue⟩
  refine ⟨?_, hpairs.imp fun entry precondition hpair =>
    ⟨hpair.1, ((DecoderContext.getValue_eq_ok _ _ _).mp hpair.2).2⟩⟩
  intro entry hentry
  obtain ⟨k, hk⟩ := List.getElem?_of_mem hentry
  obtain ⟨precondition, -, -, hvalue⟩ := forall₂_left hpairs.flip hk
  exact (known_iff context entry.2).mpr ⟨_, hvalue⟩

theorem map_fst_eq_keys {context : DecoderContext} {entries : List (Σ _ : String, UInt64)}
    {preconditions : List (String × Value)}
    (h : List.Forall₂ (fun entry precondition => precondition.1 = entry.1 ∧
      context.idToValue.lookup entry.2 = some precondition.2) entries preconditions) :
    preconditions.map Prod.fst = entries.keys := by
  induction h with
  | nil => rfl
  | cons hpair _ ih =>
    rw [List.map_cons, List.keys_cons, ih, hpair.1]

theorem lookup_singleton_ruleName (ruleName name : String) (attr : Attribute) :
    AList.lookup name (AList.singleton TagTransformOp.ruleNameAttribute
      (.string ruleName) : NamedAttributeMap) = some attr ↔
      name = TagTransformOp.ruleNameAttribute ∧ attr = .string ruleName := by
  have hlookup : AList.lookup name (AList.singleton TagTransformOp.ruleNameAttribute
      (.string ruleName) : NamedAttributeMap) =
      if name = TagTransformOp.ruleNameAttribute then some (.string ruleName) else none :=
    FlatHashMap.dlookup_cons [] _ name _
  rw [hlookup]
  split
  · next heq => simp only [heq, Option.some.injEq, true_and, eq_comm]
  · next hne => simp only [hne, false_and, reduceCtorEq]

theorem notMem_singleton_ruleName {ruleName name : String}
    (h : name ≠ TagTransformOp.ruleNameAttribute) :
    name ∉ (AList.singleton TagTransformOp.ruleNameAttribute (.string ruleName) :
      NamedAttributeMap) := by
  rw [← FlatHashMap.lookup_eq_none_iff, Option.eq_none_iff_forall_ne_some]
  intro attr hattr
  exact h ((lookup_singleton_ruleName ruleName name attr).mp hattr).1

/-- The attributes and inputs that the loop over the preconditions collects, for a map with the
entries of the preconditions. -/
theorem describesTagTransform_of {context : DecoderContext} {tagTransform : TagTransform}
    {preconditions : FlatHashMap String UInt64} {pairs : List (String × Value)} {value : Value}
    {collected : TagTransformOp.Collected} {address : Address}
    (hperm : preconditions.entries.Perm tagTransform.tagPreconditions.entries)
    (hpairs : List.Forall₂ (fun entry precondition => precondition.1 = entry.1 ∧
      context.idToValue.lookup entry.2 = some precondition.2) preconditions.entries pairs)
    (hvalue : context.idToValue.lookup tagTransform.transformedNode = some value)
    (hloop : pairs.foldlM TagTransformOp.addPrecondition
      ⟨[value], AList.singleton TagTransformOp.ruleNameAttribute
        (.string tagTransform.transformRuleName), 1⟩ = .ok collected) :
    DescribesTagTransform context.idToValue.lookup tagTransform
      { address, op := { name := tagTransformOpName }, attributes := collected.attributes,
        inputs := collected.inputs } := by
  obtain ⟨-, hinputs, hattributes⟩ := TagTransformOp.addPreconditions_spec hloop
  simp only [lookup_singleton_ruleName, List.singleton_append] at hinputs hattributes
  have hplace : ∀ name (index : ℤ), collected.attributes.lookup name = some (.int64 index) →
      ∃ k value, pairs[k]? = some (name, value) ∧ index = ((1 + k : ℕ) : ℤ) := by
    intro name index hname
    rcases (hattributes name _).mp hname with ⟨-, habsurd⟩ | ⟨k, value, hk, hindex⟩
    · cases habsurd
    · exact ⟨k, value, hk, Attribute.int64.inj hindex⟩
  refine ⟨rfl, ?_, ?_, ?_, ?_, ?_, ?_⟩
  · exact (hattributes _ _).mpr (Or.inl ⟨rfl, rfl⟩)
  · exact ⟨value, by rw [hinputs]; rfl, hvalue⟩
  · intro name id hname
    rw [← AList.perm_lookup hperm, AList.lookup, ← Option.mem_def,
      List.mem_dlookup_iff preconditions.nodupKeys] at hname
    obtain ⟨k, hk⟩ := List.getElem?_of_mem hname
    obtain ⟨⟨_, input⟩, hpair, rfl, hinput⟩ := forall₂_left hpairs.flip hk
    refine ⟨1 + k, input, by omega, ?_, ?_, hinput⟩
    · exact (hattributes _ _).mpr (Or.inr ⟨k, input, hpair, rfl⟩)
    · rw [hinputs, Nat.add_comm, List.getElem?_cons_succ, List.getElem?_map, hpair]
      rfl
  · intro name hne hmem
    rw [Option.eq_none_iff_forall_ne_some]
    intro attr hattr
    rcases (hattributes name attr).mp hattr with ⟨heq, -⟩ | ⟨k, input, hk, -⟩
    · exact hne heq
    · obtain ⟨⟨key, id⟩, hentry, heq, -⟩ := forall₂_left hpairs hk
      obtain rfl : name = key := heq
      have hentry := hperm.mem_iff.mp (List.mem_of_getElem? hentry)
      exact hmem (AList.mem_keys.mp (List.mem_map_of_mem (f := Sigma.fst) hentry))
  · simp only [hinputs, List.length_cons, List.length_map, ← hpairs.length_eq,
      hperm.length_eq]
  · intro name name' index hname hname'
    obtain ⟨k, input, hk, hindex⟩ := hplace name index hname
    obtain ⟨k', input', hk', hindex'⟩ := hplace name' index hname'
    have heq : k = k' := by omega
    subst heq
    rw [hk, Option.some.injEq, Prod.mk.injEq] at hk'
    exact hk'.1

theorem decodeTagTransform_of (order : IterationOrder) {tagTransform : TagTransform}
    {context : DecoderContext} (hregistered : context.Registered)
    (hcomplete : (Expression.tagTransform tagTransform).Complete)
    (hknown : ∀ id ∈ (Expression.tagTransform tagTransform).references, Known context id) :
    ∃ added, decodeTagTransform order tagTransform context = .ok added := by
  have hop := hregistered tagTransformOpName (by simp)
  have hperm := order.perm context.operations.length tagTransform.tagPreconditions
  obtain ⟨hruleName, hreserved⟩ := hcomplete
  simp only [Expression.references, List.mem_cons, List.mem_map] at hknown
  have htransformed := hknown _ (Or.inl rfl)
  obtain ⟨value, hvalue⟩ := (known_iff context _).mp htransformed
  obtain ⟨pairs, hpairs⟩ := Checked.mapM_of (f := context.preconditionValuePair)
    (l := (order.copy context.operations.length tagTransform.tagPreconditions).entries) (by
      intro entry hentry
      obtain ⟨input, hinput⟩ := (known_iff context entry.2).mp
        (hknown _ (Or.inr ⟨entry, hperm.mem_iff.mp hentry, rfl⟩))
      refine ⟨(entry.1, input), ?_⟩
      simp only [DecoderContext.preconditionValuePair, hinput]
      rfl)
  have hvalues := (mapM_preconditionValuePair hpairs).2
  have hkeys := map_fst_eq_keys hvalues
  have hnodup : (pairs.map Prod.fst).Nodup := by
    rw [hkeys]
    exact AList.keys_nodup _
  obtain ⟨collected, hloop⟩ := @TagTransformOp.addPreconditions_of pairs
    ⟨[value], AList.singleton TagTransformOp.ruleNameAttribute
      (.string tagTransform.transformRuleName), 1⟩ hnodup (by
      intro precondition hprecondition
      refine notMem_singleton_ruleName fun heq => hreserved ?_
      have hkey := List.mem_map_of_mem (f := Prod.fst) hprecondition
      rw [hkeys, heq] at hkey
      exact AList.mem_keys.mp ((hperm.map Sigma.fst).mem_iff.mp hkey))
  have hlength : pairs.length < int64Max := by
    rw [← hvalues.length_eq, hperm.length_eq]
    exact tagTransform.fits
  unfold decodeTagTransform DecoderContext.makeTagTransformOperation
  simp only [Checked.bind_eq_ok, check_eq_ok, exists_const, Checked.pure_eq_ok,
    DecoderContext.addOperation_eq_ok, TagTransformOp.create, hop, Except.ok.injEq,
    exists_eq_left']
  exact ⟨_, htransformed.1, hruleName, _, ⟨pairs, hpairs, value, hvalue, _,
    ⟨hlength, collected, hloop, rfl⟩, rfl⟩, rfl⟩

theorem decodeTagTransform_spec (order : IterationOrder) {tagTransform : TagTransform}
    {context context' : DecoderContext} {value : Value} (hregistered : context.Registered)
    (h : decodeTagTransform order tagTransform context = .ok (value, context')) :
    (Expression.tagTransform tagTransform).Complete ∧
      (∀ id ∈ (Expression.tagTransform tagTransform).references, Known context id) ∧
      DecodesTo context (.tagTransform tagTransform) value context' := by
  have hop := hregistered tagTransformOpName (by simp)
  have hperm := order.perm context.operations.length tagTransform.tagPreconditions
  unfold decodeTagTransform DecoderContext.makeTagTransformOperation at h
  simp only [Checked.bind_eq_ok, check_eq_ok, exists_const, Checked.pure_eq_ok,
    DecoderContext.addOperation_eq_ok, TagTransformOp.create, hop, Except.ok.injEq,
    exists_eq_left'] at h
  obtain ⟨-, hruleName, _,
    ⟨pairs, hpairs, transformed, htransformed, operation, ⟨-, collected, hloop, rfl⟩, rfl⟩, heq⟩ := h
  obtain ⟨rfl, rfl⟩ := Prod.mk.inj heq
  obtain ⟨hknown, hvalues⟩ := mapM_preconditionValuePair hpairs
  have hkeys := map_fst_eq_keys hvalues
  have hvalue := ((DecoderContext.getValue_eq_ok _ _ _).mp htransformed).2
  refine ⟨⟨hruleName, ?_⟩, ?_, decodesTo_withOperation id rfl
    (describesTagTransform_of hperm hvalues hvalue hloop)⟩
  · intro hreserved
    have hkey : TagTransformOp.ruleNameAttribute ∈ pairs.map Prod.fst := by
      rw [hkeys]
      exact (hperm.map Sigma.fst).mem_iff.mpr (AList.mem_keys.mpr hreserved)
    obtain ⟨precondition, hprecondition, hname⟩ := List.mem_map.mp hkey
    refine (TagTransformOp.addPreconditions_spec hloop).1 _ hprecondition ?_
    rw [hname, FlatHashMap.mem_iff_lookup,
      (lookup_singleton_ruleName _ _ _).mpr ⟨rfl, rfl⟩]
    exact Option.some_ne_none _
  · simp only [Expression.references, List.mem_cons, List.mem_map]
    rintro id (rfl | ⟨entry, hentry, rfl⟩)
    · exact (known_iff context _).mpr ⟨transformed, htransformed⟩
    · exact hknown entry (hperm.mem_iff.mpr hentry)

/-- An expression is decoded exactly when it is complete and its references are known. -/
theorem decodeExpression_spec (order : IterationOrder) (expr : Expression)
    {context : DecoderContext} (hregistered : context.Registered) :
    (expr.Complete → (∀ id ∈ expr.references, Known context id) →
      ∃ added, decodeExpression order expr context = .ok added) ∧
    ∀ value context', decodeExpression order expr context = .ok (value, context') →
      expr.Complete ∧ (∀ id ∈ expr.references, Known context id) ∧
      DecodesTo context expr value context' := by
  cases expr with
  | exprVariantNotSet => exact ⟨fun h => absurd h id, fun _ _ h => by cases h⟩
  | sourceTableColumn column =>
    obtain ⟨hof, hspec⟩ := decodeSourceTableColumn_eq_ok column context
    refine ⟨fun hcomplete _ => hof hcomplete, fun value context' h => ?_⟩
    obtain ⟨hcomplete, hdecodes⟩ := hspec value context' h
    exact ⟨hcomplete, fun _ hid => absurd hid List.not_mem_nil, hdecodes⟩
  | literal literal =>
    obtain ⟨hof, hspec⟩ := decodeLiteral_eq_ok literal hregistered
    refine ⟨fun hcomplete _ => hof hcomplete, fun value context' h => ?_⟩
    obtain ⟨hcomplete, hdecodes⟩ := hspec value context' h
    exact ⟨hcomplete, fun _ hid => absurd hid List.not_mem_nil, hdecodes⟩
  | mergeOperation mergeOperation => exact decodeMergeOperation_eq_ok mergeOperation hregistered
  | tagTransform tagTransform =>
    exact ⟨decodeTagTransform_of order hregistered,
      fun _ _ => decodeTagTransform_spec order hregistered⟩

/-! ### The pairs of an arena -/

theorem wellDeclared_nil : WellDeclared [] where
  complete := fun _ h => absurd h List.not_mem_nil
  distinct := List.nodup_nil
  declared := fun k pair h => by cases h

theorem wellDeclared_concat (pairs : List IdExpressionPair) (pair : IdExpressionPair) :
    WellDeclared (pairs ++ [pair]) ↔ WellDeclared pairs ∧ pair.expression.Complete ∧
      pair.id ∉ pairs.map IdExpressionPair.id ∧
      ∀ id ∈ pair.expression.references, id ≠ 0 ∧ id ∈ pairs.map IdExpressionPair.id := by
  constructor
  · intro h
    have hdistinct := h.distinct
    rw [List.map_append, List.map_singleton, List.nodup_append] at hdistinct
    refine ⟨⟨?_, hdistinct.1, ?_⟩, h.complete pair (by simp), ?_, ?_⟩
    · intro other hother
      exact h.complete other (List.mem_append_left _ hother)
    · intro k other hk id hid
      have hlt := (List.getElem?_eq_some_iff.mp hk).1
      obtain ⟨hne, j, hj, earlier, hearlier, heq⟩ := h.declared k other
        (by rwa [List.getElem?_append_left hlt]) id hid
      rw [List.getElem?_append_left (hj.trans hlt)] at hearlier
      exact ⟨hne, j, hj, earlier, hearlier, heq⟩
    · intro hmem
      exact hdistinct.2.2 _ hmem _ (List.mem_singleton_self _) rfl
    · intro id hid
      obtain ⟨hne, j, hj, earlier, hearlier, heq⟩ := h.declared pairs.length pair
        List.getElem?_concat_length id hid
      rw [List.getElem?_append_left hj] at hearlier
      exact ⟨hne, heq ▸ List.mem_map_of_mem (List.mem_of_getElem? hearlier)⟩
  · rintro ⟨h, hcomplete, hfresh, hreferences⟩
    refine ⟨?_, ?_, ?_⟩
    · intro other hother
      rcases List.mem_append.mp hother with hother | hother
      · exact h.complete other hother
      · rw [List.mem_singleton.mp hother]
        exact hcomplete
    · rw [List.map_append, List.map_singleton, List.nodup_append]
      refine ⟨h.distinct, List.nodup_singleton _, ?_⟩
      rintro id hid _ hsame rfl
      exact hfresh (List.mem_singleton.mp hsame ▸ hid)
    · intro k other hk id hid
      rcases (getElem?_concat_eq_some pairs pair other k).mp hk with hk | ⟨rfl, rfl⟩
      · obtain ⟨hne, j, hj, earlier, hearlier, heq⟩ := h.declared k other hk id hid
        have hlt := (List.getElem?_eq_some_iff.mp hearlier).1
        exact ⟨hne, j, hj, earlier, by rwa [List.getElem?_append_left hlt], heq⟩
      · obtain ⟨hne, hmem⟩ := hreferences id hid
        obtain ⟨earlier, hearlier, heq⟩ := List.mem_map.mp hmem
        obtain ⟨j, hj⟩ := List.getElem?_of_mem hearlier
        have hlt := (List.getElem?_eq_some_iff.mp hj).1
        exact ⟨hne, j, hlt, earlier, by rwa [List.getElem?_append_left hlt], heq⟩

/-- What the loop has done when it has read the pairs. -/
structure Decoded (pairs : List IdExpressionPair) (state : Option Value × DecoderContext) :
    Prop where
  wellDeclared : WellDeclared pairs
  registered : state.2.Registered
  topLevel : state.1 = pairs.getLast?.bind fun pair => state.2.idToValue.lookup pair.id
  ids : ∀ id, id ∈ state.2.idToValue ↔ id ∈ pairs.map IdExpressionPair.id
  operations : List.Forall₂ (DecodedOperation state.2.idToValue.lookup)
    (pairs.filter fun pair => ¬ pair.expression.IsColumn) state.2.operations
  addresses : state.2.operations.map Operation.address = List.range state.2.operations.length
  columns : ∀ pair ∈ pairs, ∀ column, pair.expression = .sourceTableColumn column →
    ∃ storage, state.2.idToValue.lookup pair.id = some (.storedValue storage) ∧
      state.2.irContext.storages.lookup column.columnPath = some storage

theorem decoded_nil {irContext : IRContext} {context : DecoderContext}
    (h : DecoderContext.create irContext = .ok context) : Decoded [] (none, context) := by
  obtain ⟨hregistered, hvalues, hoperations⟩ := DecoderContext.create_spec h
  refine ⟨wellDeclared_nil, hregistered, rfl, ?_, ?_, ?_, ?_⟩
  · intro id
    simp only [hvalues, AList.notMem_empty, List.map_nil, List.not_mem_nil]
  · rw [hoperations]
    exact .nil
  · rw [hoperations]
    rfl
  · exact fun pair hpair => absurd hpair List.not_mem_nil

theorem decodeIdExpressionPair_eq_ok (order : IterationOrder)
    (state state' : Option Value × DecoderContext) (pair : IdExpressionPair) :
    decodeIdExpressionPair order state pair = .ok state' ↔ ∃ value context,
      decodeExpression order pair.expression state.2 = .ok (value, context) ∧
      pair.id ∉ context.idToValue ∧ state' = (some value,
        { context with idToValue := context.idToValue.insertOrAssign pair.id value }) := by
  unfold decodeIdExpressionPair
  simp only [Checked.bind_eq_ok, Checked.pure_eq_ok, DecoderContext.registerValue_eq_ok,
    Prod.exists]
  constructor
  · rintro ⟨value, context, hdecode, _, ⟨hfresh, rfl⟩, rfl⟩
    exact ⟨value, context, hdecode, hfresh, rfl⟩
  · rintro ⟨value, context, hdecode, hfresh, rfl⟩
    exact ⟨value, context, hdecode, _, ⟨hfresh, rfl⟩, rfl⟩

theorem Decoded.step {order : IterationOrder} {pairs : List IdExpressionPair}
    {pair : IdExpressionPair} {state state' : Option Value × DecoderContext}
    (h : Decoded pairs state) (hstep : decodeIdExpressionPair order state pair = .ok state') :
    Decoded (pairs ++ [pair]) state' := by
  obtain ⟨value, context, hdecode, hfresh, rfl⟩ :=
    (decodeIdExpressionPair_eq_ok order state state' pair).mp hstep
  obtain ⟨hcomplete, hknown, hdecodes⟩ :=
    (decodeExpression_spec order pair.expression h.registered).2 value context hdecode
  have hvalues := hdecodes.idToValue
  have hnew : state.2.idToValue.lookup pair.id = none := by
    rw [← hvalues]
    exact (FlatHashMap.lookup_eq_none_iff _ _).mpr hfresh
  have hmono : ∀ id value', state.2.idToValue.lookup id = some value' →
      (context.idToValue.insertOrAssign pair.id value).lookup id = some value' := by
    intro id value' hlookup
    have hne : id ≠ pair.id := by
      rintro rfl
      rw [hnew] at hlookup
      cases hlookup
    rw [FlatHashMap.lookup_insertOrAssign, if_neg hne, hvalues, hlookup]
  have hself : (context.idToValue.insertOrAssign pair.id value).lookup pair.id = some value := by
    rw [FlatHashMap.lookup_insertOrAssign, if_pos rfl]
  have hold := h.operations.imp fun other operation (hother : DecodedOperation _ _ _) =>
    (⟨hmono _ _ hother.value, hother.describes.mono hmono⟩ :
      DecodedOperation (context.idToValue.insertOrAssign pair.id value).lookup other operation)
  refine ⟨?_, ?_, ?_, ?_, ?_, ?_, ?_⟩
  · refine (wellDeclared_concat pairs pair).mpr ⟨h.wellDeclared, hcomplete, ?_, ?_⟩
    · rw [← h.ids, ← hvalues]
      exact hfresh
    · intro id hid
      obtain ⟨hne, hmem⟩ := hknown id hid
      exact ⟨hne, (h.ids id).mp hmem⟩
  · intro name hname
    have hop := h.registered name hname
    unfold requireOperator IRContext.getOperator at hop ⊢
    rwa [hdecodes.operators]
  · simp only [List.getLast?_concat, Option.bind_some, hself]
  · intro id
    simp only [FlatHashMap.insertOrAssign, AList.mem_insert, hvalues, h.ids, List.map_append,
      List.map_singleton, List.mem_append, List.mem_singleton, or_comm]
  · by_cases hcolumn : pair.expression.IsColumn
    · obtain ⟨column, hexpr⟩ := (Expression.isColumn_iff _).mp hcolumn
      simp only [List.filter_append, hcolumn, not_true, decide_false, List.filter_cons_of_neg,
        Bool.false_eq_true, not_false_eq_true, List.filter_nil, List.append_nil,
        (hdecodes.column column hexpr).1]
      exact hold
    · obtain ⟨operation, hoperations, -, rfl, hdescribes⟩ := hdecodes.operation hcolumn
      simp only [List.filter_append, hcolumn, not_false_eq_true, decide_true,
        List.filter_cons_of_pos, List.filter_nil, hoperations]
      exact List.rel_append hold (.cons ⟨hself, hdescribes.mono hmono⟩ .nil)
  · by_cases hcolumn : pair.expression.IsColumn
    · obtain ⟨column, hexpr⟩ := (Expression.isColumn_iff _).mp hcolumn
      simp only [(hdecodes.column column hexpr).1]
      exact h.addresses
    · obtain ⟨operation, hoperations, haddress, -, -⟩ := hdecodes.operation hcolumn
      simp only [hoperations, List.map_append, h.addresses, List.map_singleton, haddress,
        List.length_append, List.length_singleton, List.range_succ]
  · intro other hother column hexpr
    rcases List.mem_append.mp hother with hother | hother
    · obtain ⟨storage, hlookup, hstorage⟩ := h.columns other hother column hexpr
      exact ⟨storage, hmono _ _ hlookup, hdecodes.storages _ _ hstorage⟩
    · obtain rfl := List.mem_singleton.mp hother
      obtain ⟨-, storage, rfl, hstorage⟩ := hdecodes.column column hexpr
      exact ⟨storage, hself, hstorage⟩

theorem decoded_of_foldlM {order : IterationOrder} {irContext : IRContext}
    {context : DecoderContext} (hfresh : DecoderContext.create irContext = .ok context)
    {pairs : List IdExpressionPair} {state : Option Value × DecoderContext}
    (h : pairs.foldlM (decodeIdExpressionPair order) (none, context) = .ok state) :
    Decoded pairs state := by
  induction pairs using List.reverseRecOn generalizing state with
  | nil =>
    simp only [List.foldlM_nil, Checked.pure_eq_ok] at h
    exact h ▸ decoded_nil hfresh
  | append_singleton pairs pair ih =>
    simp only [List.foldlM_append, List.foldlM_cons, List.foldlM_nil, bind_pure,
      Checked.bind_eq_ok] at h
    obtain ⟨mid, hmid, hstep⟩ := h
    exact (ih hmid).step hstep

theorem foldlM_of_wellDeclared (order : IterationOrder) {irContext : IRContext}
    {context : DecoderContext} (hfresh : DecoderContext.create irContext = .ok context)
    {pairs : List IdExpressionPair} (h : WellDeclared pairs) :
    ∃ state, pairs.foldlM (decodeIdExpressionPair order) (none, context) = .ok state := by
  induction pairs using List.reverseRecOn with
  | nil => exact ⟨_, rfl⟩
  | append_singleton pairs pair ih =>
    obtain ⟨hpairs, hcomplete, hnew, hreferences⟩ := (wellDeclared_concat pairs pair).mp h
    obtain ⟨state, hstate⟩ := ih hpairs
    have hdecoded := decoded_of_foldlM hfresh hstate
    obtain ⟨hof, hspec⟩ := decodeExpression_spec order pair.expression hdecoded.registered
    obtain ⟨⟨value, context'⟩, hdecode⟩ := hof hcomplete fun id hid =>
      ⟨(hreferences id hid).1, (hdecoded.ids id).mpr (hreferences id hid).2⟩
    have hvalues := (hspec value context' hdecode).2.2.idToValue
    have hnew' : pair.id ∉ context'.idToValue := by
      rw [hvalues, hdecoded.ids]
      exact hnew
    have hstep := (decodeIdExpressionPair_eq_ok order state _ pair).mpr
      ⟨value, context', hdecode, hnew', rfl⟩
    refine ⟨(some value,
      { context' with idToValue := context'.idToValue.insertOrAssign pair.id value }), ?_⟩
    simp only [List.foldlM_append, List.foldlM_cons, List.foldlM_nil, bind_pure,
      Checked.bind_eq_ok]
    exact ⟨state, hstate, hstep⟩

/-! ### The arena -/

theorem Decoded.storages {pairs : List IdExpressionPair} {state : Option Value × DecoderContext}
    (h : Decoded pairs state) {pair pair' : IdExpressionPair} (hpair : pair ∈ pairs)
    (hpair' : pair' ∈ pairs) {column column' : SourceTableColumn}
    (hexpr : pair.expression = .sourceTableColumn column)
    (hexpr' : pair'.expression = .sourceTableColumn column') :
    state.2.idToValue.lookup pair.id = state.2.idToValue.lookup pair'.id ↔
      column.columnPath = column'.columnPath := by
  obtain ⟨storage, hlookup, hstorage⟩ := h.columns pair hpair column hexpr
  obtain ⟨storage', hlookup', hstorage'⟩ := h.columns pair' hpair' column' hexpr'
  rw [hlookup, hlookup', Option.some.injEq, Value.storedValue.injEq]
  constructor
  · rintro rfl
    exact state.2.irContext.storages_injective _ _ _ hstorage hstorage'
  · intro hpath
    rw [hpath, hstorage', Option.some.injEq] at hstorage
    exact hstorage.symm

theorem Decoded.topLevel_of_last {pairs : List IdExpressionPair}
    {state : Option Value × DecoderContext} (h : Decoded pairs state) {last : IdExpressionPair}
    (hlast : pairs.getLast? = some last) :
    ∃ value, state.1 = some value ∧ state.2.idToValue.lookup last.id = some value := by
  have hmem := List.mem_of_getLast? hlast
  have hid := (h.ids last.id).mpr (List.mem_map_of_mem hmem)
  obtain ⟨value, hvalue⟩ :=
    Option.ne_none_iff_exists'.mp ((FlatHashMap.mem_iff_lookup _ _).mp hid)
  refine ⟨value, ?_, hvalue⟩
  rw [h.topLevel, hlast, Option.bind_some, hvalue]

theorem makeSqlOutputOperation_eq_ok {context : DecoderContext}
    (hregistered : context.Registered) (value : Value) :
    context.makeSqlOutputOperation value =
      .ok ({ address := context.operations.length, op := { name := sqlOutputOpName },
             inputs := [value] },
        context.withOperation
          { address := context.operations.length, op := { name := sqlOutputOpName },
            inputs := [value] }) := by
  have hop := hregistered sqlOutputOpName (by simp)
  simp only [DecoderContext.makeSqlOutputOperation, DecoderContext.addOperation_eq_ok,
    SqlOutputOp.create, Checked.bind_eq_ok, Checked.pure_eq_ok, hop, Except.ok.injEq,
    exists_eq_left']

theorem Decoded.arena {pairs : List IdExpressionPair} {state : Option Value × DecoderContext}
    (h : Decoded pairs state) {last : IdExpressionPair} (hlast : pairs.getLast? = some last)
    {output : Value} (houtput : state.2.idToValue.lookup last.id = some output)
    {sqlOutput : Operation} (hsqlOutput : sqlOutput =
      { address := state.2.operations.length, op := { name := sqlOutputOpName },
        inputs := [output] }) :
    DecodedArena pairs (sqlOutput.getOutputValue 0) (state.2.withOperation sqlOutput) where
  block := by
    refine ⟨state.2.operations, sqlOutput, rfl, h.operations, ?_, ?_, ⟨last, output, hlast,
      houtput, ?_⟩, rfl⟩
    · rw [hsqlOutput]
    · rw [hsqlOutput]
    · rw [hsqlOutput]
  addresses := by
    have haddress : sqlOutput.address = state.2.operations.length := by rw [hsqlOutput]
    rw [DecoderContext.withOperation, List.map_append, List.map_singleton, h.addresses, haddress,
      ← List.range_succ]
    exact List.nodup_range
  columns := h.columns
  storages := fun _ hpair _ hpair' _ _ hexpr hexpr' => h.storages hpair hpair' hexpr hexpr'

/-- Decoding on a new context succeeds exactly for the arenas with complete expressions under
distinct ids that refer to earlier ones, and the result then says what the expressions say. -/
theorem decodeExpressionArena_faithful (order : IterationOrder) (irContext : IRContext)
    (context : DecoderContext) (hfresh : DecoderContext.create irContext = .ok context)
    (pairs : List IdExpressionPair) :
    ((∃ added, decodeExpressionArena order pairs context = .ok added) ↔
      pairs ≠ [] ∧ WellDeclared pairs) ∧
    ∀ value context', decodeExpressionArena order pairs context = .ok (value, context') →
      DecodedArena pairs value context' := by
  have hspec : ∀ added, decodeExpressionArena order pairs context = .ok added →
      pairs ≠ [] ∧ WellDeclared pairs ∧ DecodedArena pairs added.1 added.2 := by
    intro added h
    simp only [decodeExpressionArena, Checked.bind_eq_ok] at h
    obtain ⟨state, hloop, houtput⟩ := h
    have hdecoded := decoded_of_foldlM hfresh hloop
    cases hlast : pairs.getLast? with
    | none =>
      have htop : state.1 = none := by rw [hdecoded.topLevel, hlast, Option.bind_none]
      rw [htop] at houtput
      cases houtput
    | some last =>
      obtain ⟨output, htop, hvalue⟩ := hdecoded.topLevel_of_last hlast
      simp only [htop, makeSqlOutputOperation_eq_ok hdecoded.registered, Checked.bind_eq_ok,
        Except.ok.injEq, exists_eq_left', Checked.pure_eq_ok] at houtput
      subst houtput
      refine ⟨?_, hdecoded.wellDeclared, hdecoded.arena hlast hvalue rfl⟩
      rintro rfl
      cases hlast
  refine ⟨⟨?_, ?_⟩, fun value context' h => (hspec _ h).2.2⟩
  · rintro ⟨added, h⟩
    exact ⟨(hspec added h).1, (hspec added h).2.1⟩
  · rintro ⟨hne, hdeclared⟩
    obtain ⟨state, hloop⟩ := foldlM_of_wellDeclared order hfresh hdeclared
    have hdecoded := decoded_of_foldlM hfresh hloop
    obtain ⟨last, hlast⟩ := Option.ne_none_iff_exists'.mp
      (fun h => hne (List.getLast?_eq_none_iff.mp h))
    obtain ⟨output, htop, -⟩ := hdecoded.topLevel_of_last hlast
    simp only [decodeExpressionArena, hloop, Checked.bind_eq_ok, Except.ok.injEq,
      exists_eq_left', htop, makeSqlOutputOperation_eq_ok hdecoded.registered,
      Checked.pure_eq_ok, exists_eq']

/-- The hash maps iterate in the order of the maps of the messages. -/
def IterationOrder.same : IterationOrder where
  copy := fun _ m => m
  perm := fun _ _ => List.Perm.refl _

/-- A column and its transform under a rule, with the column itself as precondition. -/
def transformedColumn : List IdExpressionPair :=
  [⟨1, .sourceTableColumn ⟨"T.c"⟩⟩] ++
    [⟨2, .tagTransform ⟨1, "rule", AList.singleton "p" 1, by decide⟩⟩]

theorem notMem_singleton_precondition : TagTransformOp.ruleNameAttribute ∉
    (AList.singleton "p" 1 : FlatHashMap String UInt64) := by
  rw [← FlatHashMap.lookup_eq_none_iff]
  rfl

theorem transformedColumn_wellDeclared : WellDeclared transformedColumn := by
  refine (wellDeclared_concat _ _).mpr
    ⟨(wellDeclared_concat [] _).mpr ⟨wellDeclared_nil, ?_, ?_, ?_⟩, ⟨?_, ?_⟩, ?_, ?_⟩
  · exact (by decide : "T.c" ≠ "")
  · exact List.not_mem_nil
  · exact fun _ hid => absurd hid List.not_mem_nil
  · exact (by decide : "rule" ≠ "")
  · exact notMem_singleton_precondition
  · exact fun hid => absurd (List.mem_singleton.mp hid) (by decide : (2 : UInt64) ≠ 1)
  · intro id hid
    obtain rfl : id = 1 := (List.mem_cons.mp hid).elim (fun h => h) List.mem_singleton.mp
    exact ⟨by decide, List.mem_singleton_self _⟩

theorem transformedColumn_decoded : ∃ context added,
    DecoderContext.create IRContext.empty = .ok context ∧
    decodeExpressionArena .same transformedColumn context = .ok added ∧
    DecodedArena transformedColumn added.1 added.2 := by
  obtain ⟨context, hfresh⟩ : ∃ context, DecoderContext.create IRContext.empty = .ok context :=
    ⟨_, rfl⟩
  obtain ⟨hiff, hdecoded⟩ :=
    decodeExpressionArena_faithful .same IRContext.empty context hfresh transformedColumn
  obtain ⟨added, hadded⟩ := hiff.mpr ⟨List.cons_ne_nil _ _, transformedColumn_wellDeclared⟩
  exact ⟨context, added, hfresh, hadded, hdecoded added.1 added.2 hadded⟩

end Raksha.Sql.Decode
