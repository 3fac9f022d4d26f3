import Raksha.Sql.DriverModule

/-!
# The facts file of an arena

Where the strings of an arena need no escapes, no symbol that the driver writes for it needs any:
the names of results are numbered, and all other symbols are fixed or from the arena.
-/

namespace Raksha.Sql.Decode
open Raksha.Common Raksha.Ir Raksha.PolicyEngine

/-- The storage of a column has the path of the column as its name. -/
theorem storageName_of_lookup {context : IRContext} {name : String} {storage : Address}
    (h : context.storages.lookup name = some storage) : context.storageName storage = name := by
  have hmem : ⟨name, storage⟩ ∈ context.storages.entries := AList.mem_lookup_iff.mp h
  rw [IRContext.storageName]
  cases hfind : context.storages.entries.find? fun entry => entry.2 = storage with
  | none => exact absurd (List.find?_eq_none.mp hfind _ hmem) (by simp)
  | some entry =>
    have hstorage := List.find?_some hfind
    have hentry := AList.mem_lookup_iff.mpr (List.mem_of_find?_eq_some hfind)
    rw [of_decide_eq_true hstorage] at hentry
    exact context.storages_injective _ _ _ hentry h

/-- The storages of an arena have paths of columns as their names. -/
theorem Decoded.unescaped_storageName {arena : List IdExpressionPair}
    {state : Option Value × DecoderContext} (h : Decoded arena state)
    (harena : UnescapedArena arena) : ∀ pair ∈ arena, ∀ storage,
      state.2.idToValue.lookup pair.id = some (.storedValue storage) →
      Unescaped (state.2.irContext.storageName storage) := by
  intro pair hpair storage hstored
  rcases h.expression hpair with ⟨hcolumn, -⟩ | ⟨-, op, -, -, hdecoded⟩
  · obtain ⟨column, hexpr⟩ := (Expression.isColumn_iff _).mp hcolumn
    obtain ⟨storage', hlookup, hpath⟩ := h.columns pair hpair column hexpr
    rw [hstored, Option.some.injEq, Value.storedValue.injEq] at hlookup
    subst hlookup
    have hunescaped := harena pair hpair
    rw [hexpr] at hunescaped
    rw [storageName_of_lookup hpath]
    exact hunescaped
  · have hvalue := hdecoded.value
    rw [hstored] at hvalue
    cases hvalue

/-! ### Symbols of the facts -/

theorem unescaped_result (storageName : Address → String) {module : Module} {v : Value}
    (hv : module.IsResult v) :
    Unescaped (symbolOf storageName (finalNames storageName {} module) v) := by
  obtain ⟨n, hn⟩ := symbolOf_fresh storageName module hv
  have hpercent : Unescaped "%" := by decide
  rw [hn]
  exact hpercent.append (unescaped_toString n)

theorem unescapedPayload_place {place : ℕ} (h : place ≤ int64Max) :
    UnescapedPayload (getPayloadForAttribute (.int64 place)) := by
  have hlt : place < 2 ^ 63 := Nat.lt_of_le_of_lt h (by decide)
  exact ⟨by omega, by exact_mod_cast hlt⟩

theorem lookup_singleton_eq {name name' : String} {attr attr' : Attribute}
    (h : (AList.singleton (β := fun _ => Attribute) name attr).lookup name' = some attr') :
    name' = name ∧ attr' = attr := by
  have hmem := List.mem_singleton.mp (AList.mem_lookup_iff.mp h)
  cases hmem
  exact ⟨rfl, rfl⟩

theorem Describes.attributes {values : UInt64 → Option Value} {expression : Expression}
    {operation : Operation} (h : Describes values expression operation)
    (hunescaped : expression.Unescaped) {name : String} {attr : Attribute}
    (hlookup : operation.attributes.lookup name = some attr) :
    Unescaped name ∧ UnescapedPayload (getPayloadForAttribute attr) := by
  cases expression with
  | exprVariantNotSet => exact absurd h id
  | sourceTableColumn column => exact absurd h id
  | literal text =>
    rw [h.2.1] at hlookup
    obtain ⟨rfl, rfl⟩ := lookup_singleton_eq hlookup
    exact ⟨by decide, hunescaped⟩
  | mergeOperation merge =>
    rw [DescribesMerge.attributes h] at hlookup
    obtain ⟨rfl, rfl⟩ := lookup_singleton_eq hlookup
    exact ⟨by decide, unescapedPayload_place merge.fits.le⟩
  | tagTransform transform =>
    have h : DescribesTagTransform values transform operation := h
    by_cases hname : name = TagTransformOp.ruleNameAttribute
    · subst hname
      rw [h.ruleName] at hlookup
      cases hlookup
      exact ⟨by decide, hunescaped.1⟩
    · have hmem : name ∈ transform.tagPreconditions := by
        by_contra hnone
        rw [h.others name hname hnone] at hlookup
        cases hlookup
      obtain ⟨id, hid⟩ :=
        Option.ne_none_iff_exists'.mp ((FlatHashMap.mem_iff_lookup _ _).mp hmem)
      obtain ⟨index, value, -, hattr, hinput, -⟩ := h.preconditions name id hid
      rw [hattr] at hlookup
      cases hlookup
      have hlt := (List.getElem?_eq_some_iff.mp hinput).1
      rw [h.inputs] at hlt
      exact ⟨hunescaped.2 ⟨name, id⟩ (AList.mem_lookup_iff.mp hid),
        unescapedPayload_place (Nat.le_trans (Nat.le_of_lt_succ hlt) transform.fits.le)⟩

theorem Describes.operatorName {values : UInt64 → Option Value} {expression : Expression}
    {operation : Operation} (h : Describes values expression operation) :
    Unescaped operation.op.name := by
  cases expression with
  | exprVariantNotSet => exact absurd h id
  | sourceTableColumn column => exact absurd h id
  | literal text =>
    rw [h.1]
    decide
  | mergeOperation merge =>
    rw [DescribesMerge.operator h]
    decide
  | tagTransform transform =>
    rw [DescribesTagTransform.operator h]
    decide

namespace ModuleOf

variable {arena : List IdExpressionPair} {values : UInt64 → Option Value} {sqlOutput : Operation}
  {module : Module} (h : ModuleOf arena values sqlOutput module) {storageName : Address → String}

include h

theorem unescaped_value (hstorages : ∀ pair ∈ arena, ∀ storage,
      values pair.id = some (.storedValue storage) → Unescaped (storageName storage))
    {pair : IdExpressionPair} (hpair : pair ∈ arena) {v : Value} (hv : values pair.id = some v) :
    Unescaped (symbolOf storageName (finalNames storageName {} module) v) := by
  rcases h.expression pair hpair with ⟨-, storage, hstored⟩ | ⟨op, hop, hdecoded⟩
  · rw [hv, Option.some.injEq] at hstored
    subst hstored
    have hstore : Unescaped "store:" := by decide
    exact (hstore.append (hstorages pair hpair storage hv)).append (by decide)
  · have hvalue := hdecoded.value
    rw [hv, Option.some.injEq] at hvalue
    subst hvalue
    exact unescaped_result storageName (isResult_output h.single hop)

/-- The facts of the module can be written to a file. -/
theorem unescaped (harena : UnescapedArena arena) (hattributes : sqlOutput.attributes = ∅)
    (hstorages : ∀ pair ∈ arena, ∀ storage,
      values pair.id = some (.storedValue storage) → Unescaped (storageName storage)) :
    ∀ fact ∈ (lowerModule storageName {} module).1, UnescapedOperation fact := by
  intro fact hfact
  rw [lowerModule_spec, List.mem_map] at hfact
  obtain ⟨op, hop, rfl⟩ := hfact
  have hactor : Unescaped "sql" := by decide
  have hresults : ∀ name ∈ (List.range op.numberOfOutputs).map fun i =>
      symbolOf storageName (finalNames storageName {} module) (op.getOutputValue i),
      Unescaped name := by
    intro name hname
    obtain ⟨i, hi, rfl⟩ := List.mem_map.mp hname
    exact unescaped_result storageName ⟨op, hop, i, List.mem_range.mp hi, rfl⟩
  rcases h.operation op hop with rfl | ⟨pair, hpair, hdecoded⟩
  · obtain ⟨last, value, hlast, hvalue, hinputs⟩ := h.output_inputs
    have hname : Unescaped op.op.name := by
      rw [h.output_op]
      decide
    refine ⟨hactor, hname, hresults, ?_, ?_⟩
    · rw [operationFact, hinputs, List.map_singleton]
      intro name hname
      rw [List.mem_singleton.mp hname]
      exact h.unescaped_value hstorages (List.mem_of_getLast? hlast) hvalue
    · intro attr hattr
      obtain ⟨payload, hlookup, -⟩ := (mem_lowerAttributes _ _).mp hattr
      rw [hattributes] at hlookup
      cases hlookup
  · have hdescribes := hdecoded.describes
    refine ⟨hactor, hdescribes.operatorName, hresults, ?_, ?_⟩
    · intro name hname
      obtain ⟨v, hv, rfl⟩ := List.mem_map.mp hname
      obtain ⟨id, hid, hvalue⟩ := hdescribes.inputs_known hv
      obtain ⟨earlier, hearlier, rfl⟩ := h.reference hpair hid
      exact h.unescaped_value hstorages hearlier hvalue
    · intro attr hattr
      obtain ⟨payload, hlookup, hpayload⟩ := (mem_lowerAttributes _ _).mp hattr
      rw [hpayload]
      exact hdescribes.attributes (harena pair hpair) hlookup

end ModuleOf

end Raksha.Sql.Decode
