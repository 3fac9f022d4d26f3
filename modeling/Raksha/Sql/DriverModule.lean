import Raksha.Sql.DecodedExpressions
import Raksha.Sql.Driver

/-!
# The module that the driver lowers

The top-level block of a decoded arena, what its operations say about the expressions, and the
facts that Datalog starts from.
-/

namespace Raksha.Sql.Decode
open Raksha.Common Raksha.Ir Raksha.PolicyEngine

/-! ### The module of an arena -/

/-- The operation that `MakeSqlOutputOperation` adds. -/
def sqlOutputOperation (context : DecoderContext) (value : Value) : Operation where
  address := context.operations.length
  op := { name := sqlOutputOpName }
  inputs := [value]

theorem decodeExpressionArena_eq_ok (order : IterationOrder) {irContext : IRContext}
    {context : DecoderContext} (hfresh : DecoderContext.create irContext = .ok context)
    (arena : List IdExpressionPair) (added : Value × DecoderContext) :
    decodeExpressionArena order arena context = .ok added ↔ ∃ state last output,
      arena.foldlM (decodeIdExpressionPair order) (none, context) = .ok state ∧
      arena.getLast? = some last ∧ state.2.idToValue.lookup last.id = some output ∧
      wrapOperationResultValue (sqlOutputOperation state.2 output,
        state.2.withOperation (sqlOutputOperation state.2 output)) = added := by
  simp only [decodeExpressionArena, Checked.bind_eq_ok]
  constructor
  · rintro ⟨state, hloop, houtput⟩
    have hdecoded := decoded_of_foldlM hfresh hloop
    cases hlast : arena.getLast? with
    | none =>
      have htop : state.1 = none := by rw [hdecoded.topLevel, hlast, Option.bind_none]
      rw [htop] at houtput
      cases houtput
    | some last =>
      obtain ⟨output, htop, hvalue⟩ := hdecoded.topLevel_of_last hlast
      simp only [htop, makeSqlOutputOperation_eq_ok hdecoded.registered, Checked.bind_eq_ok,
        Except.ok.injEq, exists_eq_left', Checked.pure_eq_ok] at houtput
      exact ⟨state, last, output, hloop, rfl, hvalue, houtput⟩
  · rintro ⟨state, last, output, hloop, hlast, hvalue, rfl⟩
    have hdecoded := decoded_of_foldlM hfresh hloop
    obtain ⟨output', htop, hvalue'⟩ := hdecoded.topLevel_of_last hlast
    rw [hvalue, Option.some.injEq] at hvalue'
    subst hvalue'
    refine ⟨state, hloop, ?_⟩
    simp only [htop, makeSqlOutputOperation_eq_ok hdecoded.registered, Checked.bind_eq_ok,
      Except.ok.injEq, exists_eq_left', Checked.pure_eq_ok, sqlOutputOperation]

/-- The module with an operation for every expression that is not a column, and the output of the
last expression. -/
structure ModuleOf (arena : List IdExpressionPair) (values : UInt64 → Option Value)
    (sqlOutput : Operation) (module : Module) : Prop where
  wellDeclared : WellDeclared arena
  expression : ∀ pair ∈ arena,
    (pair.expression.IsColumn ∧ ∃ storage, values pair.id = some (.storedValue storage)) ∨
    ∃ op ∈ module.operations, DecodedOperation values pair op
  operation : ∀ op ∈ module.operations,
    op = sqlOutput ∨ ∃ pair ∈ arena, DecodedOperation values pair op
  injective : ∀ pair ∈ arena, ∀ pair' ∈ arena, ∀ op : Operation,
    values pair.id = some (op.getOutputValue 0) →
    values pair'.id = some (op.getOutputValue 0) → pair = pair'
  output_mem : sqlOutput ∈ module.operations
  output_op : sqlOutput.op = { name := sqlOutputOpName }
  output_inputs : ∃ last value, arena.getLast? = some last ∧ values last.id = some value ∧
    sqlOutput.inputs = [value]

theorem Decoded.expression {pairs : List IdExpressionPair} {state : Option Value × DecoderContext}
    (h : Decoded pairs state) {pair : IdExpressionPair} (hpair : pair ∈ pairs) :
    (pair.expression.IsColumn ∧
      ∃ storage, state.2.idToValue.lookup pair.id = some (.storedValue storage)) ∨
    ∃ (k : ℕ) (op : Operation),
      (pairs.filter fun pair => ¬ pair.expression.IsColumn)[k]? = some pair ∧
      state.2.operations[k]? = some op ∧
      DecodedOperation state.2.idToValue.lookup pair op := by
  by_cases hcolumn : pair.expression.IsColumn
  · obtain ⟨column, hexpr⟩ := (Expression.isColumn_iff _).mp hcolumn
    obtain ⟨storage, hlookup, -⟩ := h.columns pair hpair column hexpr
    exact Or.inl ⟨hcolumn, storage, hlookup⟩
  · have hmem : pair ∈ pairs.filter fun pair => ¬ pair.expression.IsColumn :=
      List.mem_filter.mpr ⟨hpair, by simpa using hcolumn⟩
    obtain ⟨k, hk⟩ := List.getElem?_of_mem hmem
    obtain ⟨op, hop, hdecoded⟩ := forall₂_left h.operations.flip hk
    exact Or.inr ⟨k, op, hk, hop, hdecoded⟩

theorem Decoded.addresses_nodup {pairs : List IdExpressionPair}
    {state : Option Value × DecoderContext} (h : Decoded pairs state) :
    (state.2.operations.map Operation.address).Nodup := by
  rw [h.addresses]
  exact List.nodup_range

/-- Two expressions with the same result are the same. -/
theorem Decoded.injective {pairs : List IdExpressionPair} {state : Option Value × DecoderContext}
    (h : Decoded pairs state) {pair pair' : IdExpressionPair} (hpair : pair ∈ pairs)
    (hpair' : pair' ∈ pairs) {op : Operation}
    (hvalue : state.2.idToValue.lookup pair.id = some (op.getOutputValue 0))
    (hvalue' : state.2.idToValue.lookup pair'.id = some (op.getOutputValue 0)) : pair = pair' := by
  have hplace : ∀ other ∈ pairs, state.2.idToValue.lookup other.id = some (op.getOutputValue 0) →
      ∃ k : ℕ, (pairs.filter fun pair => ¬ pair.expression.IsColumn)[k]? = some other ∧
        (state.2.operations.map Operation.address)[k]? = some op.address := by
    intro other hother hresult
    rcases h.expression hother with ⟨-, storage, hstored⟩ | ⟨k, op', hk, hop', hdecoded⟩
    · rw [hresult] at hstored
      cases hstored
    · have hsame := hdecoded.value
      rw [hresult, Option.some.injEq, Operation.getOutputValue_inj] at hsame
      exact ⟨k, hk, by rw [List.getElem?_map, hop', Option.map_some, hsame.1]⟩
  obtain ⟨k, hk, haddress⟩ := hplace pair hpair hvalue
  obtain ⟨k', hk', haddress'⟩ := hplace pair' hpair' hvalue'
  obtain ⟨hlt, -⟩ := List.getElem?_eq_some_iff.mp haddress
  obtain rfl : k = k' :=
    (List.getElem?_inj hlt h.addresses_nodup).mp (by rw [haddress, haddress'])
  rw [hk, Option.some.injEq] at hk'
  exact hk'

theorem Decoded.built {pairs : List IdExpressionPair} {state : Option Value × DecoderContext}
    (h : Decoded pairs state) {last : IdExpressionPair} (hlast : pairs.getLast? = some last)
    {output : Value} (houtput : state.2.idToValue.lookup last.id = some output) :
    ∃ module, (state.2.withOperation (sqlOutputOperation state.2 output)).buildTopLevelBlock =
        .ok module ∧
      ModuleOf pairs state.2.idToValue.lookup (sqlOutputOperation state.2 output) module := by
  have hnodup : ((state.2.withOperation (sqlOutputOperation state.2 output)).operations.map
      Operation.address).Nodup := by
    rw [DecoderContext.withOperation, List.map_append, List.map_singleton, h.addresses,
      sqlOutputOperation, ← List.range_succ]
    exact List.nodup_range
  refine ⟨_, dif_pos hnodup, ?_⟩
  have hoperations : ∀ op, op ∈ Module.operations
      { blocks := [⟨(state.2.withOperation (sqlOutputOperation state.2 output)).operations⟩],
        distinct := by simpa using hnodup } ↔
      op ∈ state.2.operations ∨ op = sqlOutputOperation state.2 output := by
    intro op
    simp [Module.operations, DecoderContext.withOperation]
  constructor
  · exact h.wellDeclared
  · intro pair hpair
    rcases h.expression hpair with hcolumn | ⟨k, op, -, hop, hdecoded⟩
    · exact Or.inl hcolumn
    · exact Or.inr ⟨op, (hoperations op).mpr (Or.inl (List.mem_of_getElem? hop)), hdecoded⟩
  · intro op hop
    rcases (hoperations op).mp hop with hop | rfl
    · obtain ⟨k, hk⟩ := List.getElem?_of_mem hop
      obtain ⟨pair, hpair, hdecoded⟩ := forall₂_left h.operations hk
      exact Or.inr ⟨pair, (List.mem_filter.mp (List.mem_of_getElem? hpair)).1, hdecoded⟩
    · exact Or.inl rfl
  · exact fun pair hpair pair' hpair' op hvalue hvalue' => h.injective hpair hpair' hvalue hvalue'
  · exact (hoperations _).mpr (Or.inr rfl)
  · rfl
  · exact ⟨last, output, hlast, houtput, rfl⟩

/-! ### The facts of the module -/

/-- The preconditions of a transform take up all places behind the first. -/
theorem DescribesTagTransform.inputs_known {values : UInt64 → Option Value}
    {tagTransform : TagTransform} {operation : Operation}
    (h : DescribesTagTransform values tagTransform operation) {v : Value}
    (hv : v ∈ operation.inputs) :
    ∃ id ∈ (Expression.tagTransform tagTransform).references, values id = some v := by
  obtain ⟨i, hi⟩ := List.getElem?_of_mem hv
  have hplace : ∀ entry ∈ tagTransform.tagPreconditions.entries, ∃ index : ℕ, 1 ≤ index ∧
      operation.attributes.lookup entry.1 = some (.int64 index) ∧
      ∃ value, operation.inputs[index]? = some value ∧ values entry.2 = some value := by
    intro entry hentry
    obtain ⟨index, value, hpos, hlookup, hinput, hvalue⟩ := h.preconditions entry.1 entry.2
      ((List.mem_dlookup_iff tagTransform.tagPreconditions.nodupKeys).mpr hentry)
    exact ⟨index, hpos, hlookup, value, hinput, hvalue⟩
  choose! place hpos hlookup hvalue using hplace
  have hnodup : (tagTransform.tagPreconditions.entries.map place).Nodup := by
    have hentries := List.Nodup.of_map Sigma.fst tagTransform.tagPreconditions.nodupKeys
    refine List.Nodup.map_on ?_ hentries
    intro entry hentry other hother heq
    refine tagTransform.tagPreconditions.nodupKeys.eq_of_fst_eq hentry hother ?_
    exact h.indices _ _ (place entry) (hlookup entry hentry) (heq ▸ hlookup other hother)
  have hlength := h.inputs
  have hall : (tagTransform.tagPreconditions.entries.map place).toFinset =
      Finset.Icc 1 tagTransform.tagPreconditions.entries.length := by
    refine Finset.eq_of_subset_of_card_le ?_ ?_
    · intro index hindex
      obtain ⟨entry, hentry, rfl⟩ := List.mem_map.mp (List.mem_toFinset.mp hindex)
      obtain ⟨value, hinput, -⟩ := hvalue entry hentry
      have hlt := (List.getElem?_eq_some_iff.mp hinput).1
      exact Finset.mem_Icc.mpr ⟨hpos entry hentry, by omega⟩
    · rw [List.toFinset_card_of_nodup hnodup, List.length_map, Nat.card_Icc]
      omega
  cases i with
  | zero =>
    obtain ⟨value, hinput, hnode⟩ := h.transformed
    rw [hi, Option.some.injEq] at hinput
    exact ⟨_, List.mem_cons_self .., hinput ▸ hnode⟩
  | succ i =>
    have hlt := (List.getElem?_eq_some_iff.mp hi).1
    have hmem : i + 1 ∈ (tagTransform.tagPreconditions.entries.map place).toFinset := by
      rw [hall]
      exact Finset.mem_Icc.mpr ⟨by omega, by omega⟩
    obtain ⟨entry, hentry, heq⟩ := List.mem_map.mp (List.mem_toFinset.mp hmem)
    obtain ⟨value, hinput, hknown⟩ := hvalue entry hentry
    rw [heq, hi, Option.some.injEq] at hinput
    exact ⟨entry.2, List.mem_cons_of_mem _ (List.mem_map_of_mem (f := Sigma.snd) hentry),
      hinput ▸ hknown⟩

theorem Describes.inputs_known {values : UInt64 → Option Value} {expr : Expression}
    {operation : Operation} (h : Describes values expr operation) {v : Value}
    (hv : v ∈ operation.inputs) : ∃ id ∈ expr.references, values id = some v := by
  cases expr with
  | exprVariantNotSet => exact absurd h id
  | sourceTableColumn column => exact absurd h id
  | literal text =>
    rw [h.2.2] at hv
    exact absurd hv List.not_mem_nil
  | mergeOperation merge =>
    have h : DescribesMerge values merge operation := h
    obtain ⟨i, hi⟩ := List.getElem?_of_mem hv
    obtain ⟨id, hid, hvalue⟩ := forall₂_left h.inputs hi
    exact ⟨id, List.mem_of_getElem? hid, hvalue⟩
  | tagTransform transform => exact DescribesTagTransform.inputs_known h hv

theorem Describes.numberOfOutputs {values : UInt64 → Option Value} {expr : Expression}
    {operation : Operation} (h : Describes values expr operation) :
    operation.numberOfOutputs = 1 ∧ operation.op.name ≠ sqlOutputOpName := by
  have hop : ∃ name ∈ [literalOpName, mergeOpName, tagTransformOpName],
      operation.op = { name } := by
    cases expr with
    | exprVariantNotSet => exact absurd h id
    | sourceTableColumn column => exact absurd h id
    | literal text => exact ⟨literalOpName, by simp, h.1⟩
    | mergeOperation merge => exact ⟨mergeOpName, by simp, DescribesMerge.operator h⟩
    | tagTransform transform =>
      exact ⟨tagTransformOpName, by simp, DescribesTagTransform.operator h⟩
  obtain ⟨name, hname, hop⟩ := hop
  refine ⟨by rw [Operation.numberOfOutputs, hop], ?_⟩
  rw [hop]
  have hnames : ∀ name ∈ [literalOpName, mergeOpName, tagTransformOpName],
      name ≠ sqlOutputOpName := by decide
  exact hnames name hname

theorem DescribesTagTransform.hasRuleName_iff {values : UInt64 → Option Value}
    {transform : TagTransform} {T : Operation}
    (hdescribes : DescribesTagTransform values transform T) (ruleName : String) :
    HasRuleName T ruleName ↔ ruleName = transform.transformRuleName := by
  have hname : HasRuleName T transform.transformRuleName :=
    ⟨by rw [IsTagTransformOp, hdescribes.operator],
      (TagTransformOp.getRuleName_eq_ok T _).mpr hdescribes.ruleName⟩
  constructor
  · intro hother
    exact hother.unique hname
  · rintro rfl
    exact hname

namespace ModuleOf

variable {arena : List IdExpressionPair} {values : UInt64 → Option Value} {sqlOutput : Operation}
  {module : Module} (h : ModuleOf arena values sqlOutput module)

include h

theorem single : SingleResults module := by
  intro op hop
  rcases h.operation op hop with rfl | ⟨pair, -, hdecoded⟩
  · rw [Operation.numberOfOutputs, h.output_op]
  · exact hdecoded.describes.numberOfOutputs.1

theorem reference {pair : IdExpressionPair} (hpair : pair ∈ arena) {id : UInt64}
    (hid : id ∈ pair.expression.references) : ∃ earlier ∈ arena, earlier.id = id := by
  obtain ⟨k, hk⟩ := List.getElem?_of_mem hpair
  obtain ⟨-, j, -, earlier, hearlier, heq⟩ := h.wellDeclared.declared k pair hk id hid
  exact ⟨earlier, List.mem_of_getElem? hearlier, heq⟩

theorem isResult_of_value {pair : IdExpressionPair} (hpair : pair ∈ arena) {v : Value}
    (hv : values pair.id = some v) (hres : v.isOperationResult = true) : module.IsResult v := by
  rcases h.expression pair hpair with ⟨-, storage, hstored⟩ | ⟨op, hop, hdecoded⟩
  · rw [hv, Option.some.injEq] at hstored
    rw [hstored] at hres
    cases hres
  · have hvalue := hdecoded.value
    rw [hv, Option.some.injEq] at hvalue
    rw [hvalue]
    exact isResult_output h.single hop

theorem linked : module.WellLinked := by
  intro op hop v hv hres
  rcases h.operation op hop with rfl | ⟨pair, hpair, hdecoded⟩
  · obtain ⟨last, value, hlast, hvalue, hinputs⟩ := h.output_inputs
    rw [hinputs, List.mem_singleton] at hv
    subst hv
    exact h.isResult_of_value (List.mem_of_getLast? hlast) hvalue hres
  · obtain ⟨id, hid, hvalue⟩ := hdecoded.describes.inputs_known hv
    obtain ⟨earlier, hearlier, rfl⟩ := h.reference hpair hid
    exact h.isResult_of_value hearlier hvalue hres

/-- The facts that Datalog starts from, where the file of the module is read back. -/
theorem sqlFacts (ord : Souffle.Symbol → ℕ) (hord : Function.Injective ord) {reader : FactsReader}
    {floatToString : BitVec 64 → String} {storageName : Address → String}
    (hread : reader.isOperation (dumpFacts floatToString (lowerModule storageName {} module).1) =
      (lowerModule storageName {} module).1.toFinset) (policyString : String) :
    SqlFacts module (symbolOf storageName (finalNames storageName {} module))
      (policyEvaluation ord hord reader floatToString storageName module policyString) where
  program := rfl
  isOperation := by
    intro fact
    rw [policyEvaluation, hread, List.mem_toFinset, lowerModule_spec, List.mem_map]
  edge := rfl
  hasAppliedIntegrityTag := rfl
  removeIntegrityTag := rfl
  saysHasTag := rfl
  saysRemoveTag := rfl
  linked := h.linked
  single := h.single
  symbols := ownSymbols_of_distinct storageName SsaNames.temporaries_empty
    (distinctSymbols_fresh storageName module)

/-! ### Tag transforms -/

theorem decoded_transform {T : Operation} (hT : T ∈ module.operations)
    (htransform : IsTagTransformOp T) : ∃ pair ∈ arena, ∃ transform,
      pair.expression = .tagTransform transform ∧ DescribesTagTransform values transform T ∧
      values pair.id = some (T.getOutputValue 0) := by
  unfold IsTagTransformOp at htransform
  rcases h.operation T hT with rfl | ⟨pair, hpair, hvalue, hdescribes⟩
  · rw [h.output_op] at htransform
    exact absurd htransform (by decide)
  · cases hexpr : pair.expression with
    | exprVariantNotSet =>
      rw [hexpr] at hdescribes
      exact absurd hdescribes id
    | sourceTableColumn column =>
      rw [hexpr] at hdescribes
      exact absurd hdescribes id
    | literal text =>
      rw [hexpr] at hdescribes
      rw [hdescribes.1] at htransform
      exact absurd htransform (by decide)
    | mergeOperation merge =>
      rw [hexpr] at hdescribes
      rw [DescribesMerge.operator hdescribes] at htransform
      exact absurd htransform (by decide)
    | tagTransform transform =>
      rw [hexpr] at hdescribes
      exact ⟨pair, hpair, transform, hexpr, hdescribes, hvalue⟩

/-- The transforms over the merge of the module are those of the arena. -/
theorem hasITagRule_iff {pair : IdExpressionPair} (hpair : pair ∈ arena) {op : Operation}
    (hvalue : values pair.id = some (op.getOutputValue 0)) (ruleName : String) :
    HasITagRule module op ruleName ↔ AppliesRule arena ruleName pair.id := by
  constructor
  · rintro ⟨T, hT, hname, hhead⟩
    obtain ⟨pair', hpair', transform, hexpr, hdescribes, -⟩ :=
      h.decoded_transform hT hname.transform
    refine ⟨pair', hpair', ?_⟩
    rw [hexpr]
    refine ⟨((hdescribes.hasRuleName_iff ruleName).mp hname).symm, ?_⟩
    obtain ⟨value, hinput, hnode⟩ := hdescribes.transformed
    rw [List.head?_eq_getElem?, hinput, Option.some.injEq] at hhead
    subst hhead
    have hreference : transform.transformedNode ∈ pair'.expression.references := by
      rw [hexpr]
      exact List.mem_cons_self ..
    obtain ⟨earlier, hearlier, hid⟩ := h.reference hpair' hreference
    rw [← hid] at hnode ⊢
    rw [h.injective earlier hearlier pair hpair op hnode hvalue]
  · rintro ⟨pair', hpair', happlies⟩
    cases hexpr : pair'.expression with
    | tagTransform transform =>
      rw [hexpr] at happlies
      obtain ⟨rfl, hnode⟩ := happlies
      rcases h.expression pair' hpair' with ⟨hcolumn, -⟩ | ⟨T, hT, -, hdescribes⟩
      · rw [hexpr] at hcolumn
        exact absurd hcolumn id
      · rw [hexpr] at hdescribes
        have hdescribes : DescribesTagTransform values transform T := hdescribes
        obtain ⟨value, hinput, hvalue'⟩ := hdescribes.transformed
        rw [hnode, hvalue, Option.some.injEq] at hvalue'
        exact ⟨T, hT, (hdescribes.hasRuleName_iff _).mpr rfl, by
          rw [List.head?_eq_getElem?, hinput, hvalue']⟩
    | exprVariantNotSet => rw [hexpr] at happlies; exact absurd happlies id
    | sourceTableColumn column => rw [hexpr] at happlies; exact absurd happlies id
    | literal text => rw [hexpr] at happlies; exact absurd happlies id
    | mergeOperation merge => rw [hexpr] at happlies; exact absurd happlies id

end ModuleOf

end Raksha.Sql.Decode
