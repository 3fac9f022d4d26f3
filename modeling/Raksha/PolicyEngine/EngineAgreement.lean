import Raksha.PolicyEngine.ScheduleIndependence
import Raksha.PolicyEngine.SecrecyAgreement
import Raksha.PolicyEngine.TaintSoundness

/-!
# Agreement of the policy engines

On acyclic modules without special rules and without conditional rules that add secrecy tags,
the fixpoint iteration and the Datalog program give every value the same tags and reach the same
verdict.
-/

namespace Raksha.PolicyEngine
open Datalog
open Raksha.Common Raksha.Ir Raksha.Analysis Raksha.Taint Raksha.Sql
  Raksha.Souffle.Evaluation AbstractIfcTags

/-- The rules that add secrecy tags have no preconditions. -/
def UnconditionalSecrecy (expr : ExpressionArena) : Prop :=
  ∀ rule ∈ expr.sqlPolicyRules, rule.result.action = .addConfidentiality → rule.preconditions = []

instance (expr : ExpressionArena) : Decidable (UnconditionalSecrecy expr) :=
  inferInstanceAs (Decidable (∀ rule ∈ expr.sqlPolicyRules, _ → _))

/-- Symbols of a module whose other operands are arbitrary values. -/
theorem plainSymbols_of_names {storageName : Address → String} {module : Module}
    {names : SsaNames} (hnames : names.Temporaries)
    (hfound : ∀ v, module.IsResult v → ∃ id, names.find? v = some id)
    (hany : AnyOrResults module)
    (hmembers : NoMembers module (symbolOf storageName names)) :
    PlainSymbols module (symbolOf storageName names) := by
  refine ⟨hmembers, ?_, ?_⟩
  · intro v hv hstarts
    have hhead : ∀ text : String, Souffle.StartsWithMember Souffle.arbitraryComputation text →
        text.toList.head? = some 'A' := by
      rintro text ⟨-, htake⟩
      cases hlist : text.toList with
      | nil =>
        rw [hlist, List.take_nil] at htake
        exact absurd htake (by decide)
      | cons c rest =>
        rw [hlist] at htake
        have hfirst := congrArg List.head? htake
        rw [List.take_succ_cons, List.head?_cons] at hfirst
        rw [List.head?_cons, ← hfirst]
        decide
    have hresult : ∀ v, module.IsResult v →
        ¬ Souffle.StartsWithMember Souffle.arbitraryComputation (symbolOf storageName names v) := by
      intro v hv hstarts
      obtain ⟨id, hid⟩ := hfound v hv
      obtain ⟨rest, rfl⟩ := hnames.2 v id hid
      obtain ⟨op, -, i, -, rfl⟩ := hv
      have hchar := hhead _ hstarts
      simp only [symbolOf, Operation.getOutputValue] at hid hchar
      rw [hid, Option.getD_some] at hchar
      simp at hchar
    rcases hv with ⟨op, hop, hu⟩ | hv
    · rcases hany op hop v hu with rfl | hv
      · exact absurd (hhead _ hstarts) (by simp [symbolOf])
      · exact hresult v hv hstarts
    · exact hresult v hv hstarts
  · rintro v ⟨-, htake⟩
    have hdot : '.' ∈ (symbolOf storageName names v ++ ".").toList := by simp
    rw [htake] at hdot
    exact absurd (List.mem_of_mem_take hdot) (by decide)

theorem noMembers_fresh (storageName : Address → String) {module : Module}
    (hany : AnyOrResults module) :
    NoMembers module (symbolOf storageName (finalNames storageName {} module)) := by
  have hvalue : ∀ v, IsValue module v →
      '.' ∉ (symbolOf storageName (finalNames storageName {} module) v).toList := by
    rintro v (⟨op, hop, hu⟩ | hv)
    · rcases hany op hop v hu with rfl | hv
      · exact by simp [symbolOf]
      · exact dot_notMem_fresh storageName module hv
    · exact dot_notMem_fresh storageName module hv
  rintro v w - hw ⟨-, htake⟩
  have hdot : '.' ∈ (symbolOf storageName (finalNames storageName {} module) v ++ ".").toList := by
    simp
  rw [htake] at hdot
  exact hvalue w hw (List.mem_of_mem_take hdot)

theorem AnyOrResults.wellLinked {module : Module} (h : AnyOrResults module) :
    module.WellLinked := by
  intro op hop v hv hres
  rcases h op hop v hv with rfl | hresult
  · cases hres
  · exact hresult

section

variable {expr : ExpressionArena} {module : Module} {rules : InferenceRules}
  {symbol : Value → String} {e : Souffle.Evaluation}

theorem UnconditionalSecrecy.satisfied (hexpr : UnconditionalSecrecy expr)
    (hd : Decoded expr module rules) {op : Operation} (hop : op ∈ module.operations)
    {tag : TagId} {premises : List InputHasIntegrity}
    (hmark : MarkedAs rules op (.transform .addSecrecy tag premises)) :
    Satisfied module rules op premises := by
  obtain ⟨rule, hrule, hdecoded⟩ := hd.of_marked_transform hop hmark
  have haction : rule.result.action = .addConfidentiality := by
    have hkind := hdecoded.kind
    cases haction : rule.result.action <;> rw [haction] at hkind <;> cases hkind
  have hpremises := hdecoded.premises
  rw [hexpr rule hrule haction] at hpremises
  cases hpremises
  intro p hp
  cases hp

theorem MayHave.named (hd : Decoded expr module rules) {v : Value} {t : TagId}
    (hmay : MayHave module rules v t) : ∃ name, rules.tags.lookup name = some t := by
  induction hmay with
  | default _ _ _ _ _ ih => exact ih
  | merge _ _ _ _ _ _ ih => exact ih
  | transform _ _ _ _ _ _ ih => exact ih
  | add hop hmark _ _ _ _ =>
    obtain ⟨rule, -, hdecoded⟩ := hd.of_marked_transform hop hmark
    exact ⟨_, hdecoded.tag⟩

namespace Comparable

variable (h : Comparable expr module rules symbol e)

include h

theorem secrecyAgreesOn_run {v : Value} (hagrees : SecrecyAgreesOn module rules symbol e v)
    {valueStates : ValueStateMap AbstractIfcTags}
    (hrun : ComputeFixpointUnder (NoPrematureSecrecy module rules) (taintSemantics rules) module
      valueStates) {s : IfcTags} (hlookup : valueStates.lookup v = some (.tags s)) :
    HasTagNames rules s.secrecyTags (e.MayHaveTag (symbol v) "sql") := by
  have hmem : ∀ t, t ∈ s.secrecyTags ↔ MayHave module rules v t := by
    intro t
    have hiff := h.decoded.memSecrecy_iff hrun v t
    rw [currentStates_eq, hlookup, Option.getD_some] at hiff
    rw [← hiff]
    simp [MemSecrecy]
  refine ⟨?_, ?_⟩
  · intro name
    simp only [hagrees name, hmem, h.decoded.table.lookup, and_comm]
  · intro t ht
    obtain ⟨name, hname⟩ := MayHave.named h.decoded ((hmem t).mp ht)
    exact (List.getElem?_eq_some_iff.mp ((h.decoded.table.lookup name t).mp hname)).1

/-! ### Violations -/

theorem mayHave_sqlOutput_iff (hplain : PlainSymbols module symbol)
    (hspecial : NoSpecialRules module) {op : Operation} (hop : op ∈ module.operations)
    (hname : op.op.name = sqlOutputOpName) (tag : String) :
    e.MayHaveTag (symbol (op.getOutputValue 0)) "sql" tag ↔
      ∃ u ∈ op.inputs, e.MayHaveTag (symbol u) "sql" tag := by
  have htransform : ¬ IsTagTransformOp op := by
    unfold IsTagTransformOp
    rw [hname]
    decide
  have hdefault : HasDefaultOutput module op 0 :=
    Or.inr ⟨hspecial.not_wrapped op, fun ⟨n, hn, _⟩ => htransform hn.transform⟩
  obtain ⟨hresults, hoperands⟩ := h.secrecyAgreesOn_values hplain hspecial
  rw [(hresults op hop).2 tag]
  simp only [mayHave_default_iff h.decoded hop hdefault (h.hasOutput hop)]
  constructor
  · rintro ⟨id, hid, u, hu, hmay⟩
    exact ⟨u, hu, ((hoperands u ⟨op, hop, hu⟩).2 tag).mpr ⟨id, hid, hmay⟩⟩
  · rintro ⟨u, hu, hmay⟩
    obtain ⟨id, hid, hu'⟩ := ((hoperands u ⟨op, hop, hu⟩).2 tag).mp hmay
    exact ⟨id, hid, u, hu, hu'⟩

/-- The verdict, when the run gives every operand the secrecy tags that Datalog derives. -/
theorem checkEgresses_iff (hplain : PlainSymbols module symbol) (hspecial : NoSpecialRules module)
    {valueStates : ValueStateMap AbstractIfcTags}
    (hinput : ∀ v, module.IsOperand v → ∃ s, valueStates.lookup v = some (.tags s) ∧
      HasTagNames rules s.secrecyTags (e.MayHaveTag (symbol v) "sql")) :
    ∃ verdict, checkEgresses {sqlOutputOpName} module valueStates = .ok verdict ∧
      (verdict = true ↔ ¬ ∃ path name text, e.ViolatesPolicy path name text) := by
  obtain ⟨verdict, hok, hiff⟩ := checkEgresses_eq_ok {sqlOutputOpName} module valueStates (by
    rintro v ⟨op, hop, -, hv⟩ hbot
    obtain ⟨s, hlookup, -⟩ := hinput v ⟨op, hop, hv⟩
    rw [hlookup] at hbot
    cases hbot)
  refine ⟨verdict, hok, hiff.trans ?_⟩
  rw [h.facts.violatesPolicy_iff]
  constructor
  · rintro hclean ⟨op, hop, hname, tag, hmay⟩
    obtain ⟨u, hu, hmay⟩ := (h.mayHave_sqlOutput_iff hplain hspecial hop hname tag).mp hmay
    obtain ⟨s, hlookup, htags, -⟩ := hinput u ⟨op, hop, hu⟩
    obtain ⟨id, hid, -⟩ := (htags tag).mp hmay
    rw [hclean u ⟨op, hop, Finset.mem_singleton.mpr hname, hu⟩ s hlookup] at hid
    exact absurd hid (Finset.notMem_empty id)
  · rintro hnone u ⟨op, hop, hname, hu⟩ s hlookup
    obtain ⟨s', hlookup', htags, hnamed⟩ := hinput u ⟨op, hop, hu⟩
    rw [hlookup, Option.some.injEq, AbstractIfcTags.tags.injEq] at hlookup'
    subst hlookup'
    refine Finset.eq_empty_of_forall_notMem ?_
    intro id hid
    obtain ⟨tag, hmay⟩ : ∃ tag, e.MayHaveTag (symbol u) "sql" tag :=
      ⟨_, (htags _).mpr ⟨id, hid, List.getElem?_eq_getElem (hnamed id hid)⟩⟩
    refine hnone ⟨op, hop, Finset.mem_singleton.mp hname, tag, ?_⟩
    exact (h.mayHave_sqlOutput_iff hplain hspecial hop (Finset.mem_singleton.mp hname) _).mpr
      ⟨u, hu, hmay⟩

end Comparable

end

/-- Every run of the fixpoint iteration gives every result the tags that Datalog derives, and the
verdict is true exactly when Datalog derives no violation. -/
theorem policyEngines_agree (expr : ExpressionArena) (module : Module) (seedTags : List String)
    (rules : InferenceRules) (hdecode : decodeSqlPolicyRules expr module seedTags = .ok rules)
    (hany : AnyOrResults module) (hacyclic : Acyclic module) (hsingle : SingleResults module)
    (hspecial : NoSpecialRules module) (hexpr : UnconditionalSecrecy expr)
    (ord : Souffle.Symbol → ℕ) (hord : Function.Injective ord) (storageName : Address → String)
    (names : SsaNames) (hnames : names.Temporaries)
    (hdistinct : DistinctSymbols module
      (symbolOf storageName (finalNames storageName names module)))
    (hmembers : NoMembers module (symbolOf storageName (finalNames storageName names module)))
    (valueStates : ValueStateMap AbstractIfcTags)
    (hrun : ComputeIfcTags rules module valueStates) :
    let e := sqlEvaluation ord hord storageName names expr module
    let symbol := symbolOf storageName (finalNames storageName names module)
    (∀ v, module.IsResult v → ∃ s, valueStates.lookup v = some (.tags s) ∧
      HasTagNames rules s.secrecyTags (e.MayHaveTag (symbol v) "sql") ∧
      HasTagNames rules s.integrityTags (e.MustHaveIntegrityTag (symbol v) "sql")) ∧
    ∃ verdict, checkEgresses {sqlOutputOpName} module valueStates = .ok verdict ∧
      (verdict = true ↔ ¬ ∃ path name text, e.ViolatesPolicy path name text) := by
  intro e symbol
  have h : Comparable expr module rules symbol e := comparable_of_lowered hdecode hany.wellLinked
    hacyclic hsingle ord hord storageName hnames hdistinct
  have hplain : PlainSymbols module symbol :=
    plainSymbols_of_names (finalNames_temporaries storageName hnames module)
      (fun v hv => lowerModule_find? storageName names module hv) hany hmembers
  obtain ⟨hresults, hoperands⟩ := h.secrecyAgreesOn_values hplain hspecial
  have hguarded := ComputeFixpoint.noPrematureSecrecy
    (fun op hop tag premises hmark => hexpr.satisfied h.decoded hop hmark) hrun
  refine ⟨?_, ?_⟩
  · rintro v ⟨op, hop, i, hi, rfl⟩
    rw [hsingle op hop, Nat.lt_one_iff] at hi
    subst hi
    obtain ⟨hintegrity, hsecrecy⟩ := hresults op hop
    obtain ⟨s, hlookup, htags⟩ :=
      (h.agreesOn_iff hrun (Or.inr (isResult_output hsingle hop))).mp hintegrity
    exact ⟨s, hlookup, h.secrecyAgreesOn_run hsecrecy hguarded hlookup, htags⟩
  · refine h.checkEgresses_iff hplain hspecial ?_
    intro v hv
    obtain ⟨s, hlookup, -⟩ := (h.agreesOn_iff hrun (Or.inl hv)).mp (hoperands v hv).1
    exact ⟨s, hlookup, h.secrecyAgreesOn_run (hoperands v hv).2 hguarded hlookup⟩

/-- `%0 = op(<<ANY>>)`, `%1 = sql.tag_transform[rule_name: "add"](%0)`,
`%2 = sql.sql_output(%1)`. -/
def taggedOutput : Module where
  blocks := [⟨[
    { address := 0, op := ⟨"op", 1⟩, inputs := [.any] },
    { address := 1, op := ⟨tagTransformOpName, 1⟩
      attributes := AList.singleton TagTransformOp.ruleNameAttribute (.string "add")
      inputs := [.operationResult 0 0] },
    { address := 2, op := ⟨sqlOutputOpName, 1⟩, inputs := [.operationResult 1 0] }]⟩]
  distinct := by decide

theorem taggedOutput_acyclic : Acyclic taggedOutput := by
  refine acyclic_of_rank id ?_
  intro op hop op' hop' v hv i heq
  have hearlier : ∀ op ∈ taggedOutput.operations, ∀ v ∈ op.inputs,
      v = .any ∨ ∃ a < op.address, v = .operationResult a 0 := by
    decide +kernel
  rcases hearlier op' hop' v hv with hany | ⟨a, ha, hvalue⟩
  · rw [heq] at hany
    cases hany
  · rw [heq] at hvalue
    cases hvalue
    exact ha

theorem taggedOutput_noSpecialRules : NoSpecialRules taggedOutput := by
  have hnames : ∀ op ∈ taggedOutput.operations,
      (TagTransformOp.getRuleName op).toOption = none ∨
        (TagTransformOp.getRuleName op).toOption = some "add" := by
    decide +kernel
  rintro op hop ⟨ruleName, hname, hspecial⟩
  have hcases := hnames op hop
  rw [hname.name] at hcases
  rcases hcases with hnone | hadd
  · cases hnone
  · cases hadd
    exact absurd hspecial (by decide)

/-- The engines agree on the rejection of a tagged output. -/
theorem taggedOutput_agree : ∃ valueStates verdict,
    ComputeIfcTags (decodedRules ⟨[addTagRule]⟩ taggedOutput) taggedOutput valueStates ∧
    checkEgresses {sqlOutputOpName} taggedOutput valueStates = .ok verdict ∧
    (verdict = true ↔ ¬ ∃ path name text,
      (sqlEvaluation Souffle.symbolOrdinal Souffle.symbolOrdinal_injective (fun _ => "") {} ⟨[addTagRule]⟩
        taggedOutput).ViolatesPolicy path name text) := by
  obtain ⟨valueStates, hstates⟩ := Checked.exists_eq_ok_of_isOk
    (x := runSchedule (taintSemantics (decodedRules ⟨[addTagRule]⟩ taggedOutput)) taggedOutput
      [0, 1, 2]) (by decide +kernel)
  have hrun := runSchedule_returns hstates
  have hany : AnyOrResults taggedOutput := by decide +kernel
  obtain ⟨verdict, hok, hiff⟩ := (policyEngines_agree ⟨[addTagRule]⟩ taggedOutput [] _
    (decodedRules_of_isOk (by decide +kernel)) hany taggedOutput_acyclic (by decide +kernel)
    taggedOutput_noSpecialRules (by decide +kernel) Souffle.symbolOrdinal Souffle.symbolOrdinal_injective
    (fun _ => "") {} SsaNames.temporaries_empty (distinctSymbols_fresh _ _)
    (noMembers_fresh _ hany) valueStates hrun).2
  exact ⟨valueStates, verdict, hrun, hok, hiff⟩

end Raksha.PolicyEngine
