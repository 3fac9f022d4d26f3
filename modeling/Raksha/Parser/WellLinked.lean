import Raksha.Parser.ParsedModules
import Raksha.Parser.TokenTexts

/-!
# Well-linked programs

The parse trees that the visitor accepts, among those without floating point numbers: names are
assigned once and used where they are assigned, and operators keep their number of results.
-/

namespace Raksha.Parser
open Raksha.Common Raksha.Ir

/-! ### Parse trees of the grammar -/

/-- The text has the tokens of the parse tree. Every operation of the grammar has a result. -/
structure Derives (progText : String) (context : ModuleContext) : Prop where
  results : ∀ block ∈ context.block, ∀ operation ∈ block.operation, operation.result ≠ []
  tokens : irTokens progText.toList = context.tokens

theorem Derives.irProgram {progText : String} {context : ModuleContext}
    (h : Derives progText context) :
    IrParser.irProgram (irTokens progText.toList) = some context := by
  rw [h.tokens]
  exact irProgram_tokens context h.results

/-- The attribute is a number below `2 ^ 63` or a string. -/
def IsPlainPayload : AttributePayloadContext → Prop
  | .floatAttribute _ => False
  | .numAttribute numLiteral => Nat.ofDigitChars 10 numLiteral.toList 0 < 2 ^ 63
  | .stringAttribute _ => True

instance : DecidablePred IsPlainPayload := fun payload =>
  match payload with
  | .floatAttribute _ => .isFalse not_false
  | .numAttribute _ => inferInstanceAs (Decidable (_ < _))
  | .stringAttribute _ => .isTrue trivial

def ModuleContext.operations (context : ModuleContext) : List OperationContext :=
  context.block.flatMap BlockContext.operation

structure WellLinked (context : ModuleContext) : Prop where
  assignedOnce : ∀ block ∈ context.block, (block.operation.flatMap OperationContext.result).Nodup
  argumentsAssigned : ∀ block ∈ context.block, ∀ operation ∈ block.operation, ∀ name,
    .namedTempValue name ∈ operation.argumentList →
    name ∈ block.operation.flatMap OperationContext.result
  attributesDistinct : ∀ operation ∈ context.operations,
    (operation.attributeList.map AttributeContext.name).Nodup
  sameCounts : ∀ operation ∈ context.operations, ∀ other ∈ context.operations,
    other.operatorName = operation.operatorName → other.result.length = operation.result.length

/-- The operation with this position in the block assigns the name to its result with this index. -/
def Assigns (context : BlockContext) (name : String) (k i : ℕ) : Prop :=
  ∃ operation, context.operation[k]? = some operation ∧ operation.result[i]? = some name

/-- The value of an argument is `Any`, or the one result that its name is assigned to. -/
def Links (context : BlockContext) (block : Block) : ValueContext → Value → Prop
  | .anyValue, v => v = .any
  | .namedTempValue name, v => ∃ k i, (∀ k' i', Assigns context name k' i' ↔ k' = k ∧ i' = i) ∧
    ∃ operation, block.operations[k]? = some operation ∧ v = operation.getOutputValue i

/-- The inputs of all operations of the module, in the order of the text. -/
def Linked (context : ModuleContext) (module : Module) : Prop :=
  List.Forall₂ (fun (c : BlockContext) block => List.Forall₂ (fun (o : OperationContext) operation =>
    List.Forall₂ (Links c block) o.argumentList operation.inputs) c.operation block.operations)
    context.block module.blocks

/-! ### Links -/

theorem assigns_unique {context : BlockContext}
    (h : (context.operation.flatMap OperationContext.result).Nodup) {name : String} {k i k' i' : ℕ}
    (hassigns : Assigns context name k i) (hassigns' : Assigns context name k' i') :
    k' = k ∧ i' = i := by
  obtain ⟨operation, hk, hi⟩ := hassigns
  obtain ⟨operation', hk', hi'⟩ := hassigns'
  obtain ⟨hown, hdisjoint⟩ := List.nodup_flatMap.mp h
  obtain ⟨hlt, hget⟩ := List.getElem?_eq_some_iff.mp hk
  obtain ⟨hlt', hget'⟩ := List.getElem?_eq_some_iff.mp hk'
  have hname : name ∈ operation.result := List.mem_of_getElem? hi
  have hname' : name ∈ operation'.result := List.mem_of_getElem? hi'
  have hsame : k' = k := by
    rcases Nat.lt_trichotomy k k' with hlow | heq | hhigh
    · have hapart := List.pairwise_iff_getElem.mp hdisjoint k k' hlt hlt' hlow
      simp only [hget, hget'] at hapart
      exact absurd hname' (hapart hname)
    · exact heq.symm
    · have hapart := List.pairwise_iff_getElem.mp hdisjoint k' k hlt' hlt hhigh
      simp only [hget, hget'] at hapart
      exact absurd hname (hapart hname')
  subst hsame
  cases hk.symm.trans hk'
  obtain ⟨hbound, hname⟩ := List.getElem?_eq_some_iff.mp hi
  obtain ⟨hbound', hname'⟩ := List.getElem?_eq_some_iff.mp hi'
  have hnodup := hown operation (List.mem_of_getElem? hk)
  exact ⟨rfl, hnodup.getElem_inj_iff.mp (hname'.trans hname.symm)⟩

namespace IrVisitor

variable {simpleAtod : String → Option (BitVec 64)}

theorem BlockOf.links {context : BlockContext} {block : Block}
    (h : BlockOf simpleAtod context block) {argument : ValueContext} {v : Value}
    (hrefers : Refers (assignedAll context.operation block.operations) argument v) :
    Links context block argument v := by
  cases argument with
  | anyValue => exact hrefers
  | namedTempValue name =>
    obtain ⟨k, operation, op, i, hk, hop, hi, rfl⟩ := mem_assignedAll.mp hrefers
    refine ⟨k, i, fun k' i' => ⟨?_, ?_⟩, op, hop, rfl⟩
    · exact fun hassigns => assigns_unique h.nodup ⟨operation, hk, hi⟩ hassigns
    · rintro ⟨rfl, rfl⟩
      exact ⟨operation, hk, hi⟩

theorem Parsed.linked {context : ModuleContext} {state : State}
    (h : Parsed simpleAtod context.block state) {module : Module}
    (hblocks : module.blocks = state.blocks) : Linked context module := by
  rw [Linked, hblocks]
  exact h.blocks.imp fun c block hblock =>
    hblock.inputs.imp fun o operation hinputs => hinputs.imp fun argument v => hblock.links

/-! ### Operators -/

/-- Registered operators stay registered. -/
def Keeps (operators operators' : FlatHashMap String Operator) : Prop :=
  ∀ name op, operators.lookup name = some op → operators'.lookup name = some op

theorem maybeRegisterOperator_lookup {operators operators' : FlatHashMap String Operator}
    {name : String} {count : ℕ} {op : Operator}
    (h : maybeRegisterOperator operators name count = .ok (op, operators')) :
    Keeps operators operators' ∧ op.numberOfReturnValues = count ∧
      operators'.lookup name = some op := by
  rw [maybeRegisterOperator] at h
  split at h
  · next hnone =>
    cases h
    refine ⟨?_, rfl, by rw [FlatHashMap.lookup_insertOrAssign, if_pos rfl]⟩
    intro other op hop
    rw [FlatHashMap.lookup_insertOrAssign, if_neg, hop]
    rintro rfl
    rw [hnone] at hop
    cases hop
  · next hsome =>
    simp only [Checked.bind_eq_ok, check_eq_ok, exists_const, Checked.pure_eq_ok,
      Prod.mk.injEq] at h
    obtain ⟨hcount, rfl, rfl⟩ := h
    exact ⟨fun _ _ hop => hop, hcount, hsome⟩

/-- The operator of the operation is registered with its number of results. -/
def Counted (operators : FlatHashMap String Operator) (context : OperationContext) : Prop :=
  ∃ op, operators.lookup context.operatorName = some op ∧
    op.numberOfReturnValues = context.result.length

theorem Counted.mono {operators operators' : FlatHashMap String Operator}
    {context : OperationContext} (h : Counted operators context) (hkeeps : Keeps operators operators') :
    Counted operators' context := by
  obtain ⟨op, hlookup, hcount⟩ := h
  exact ⟨op, hkeeps _ _ hlookup, hcount⟩

theorem createOperation_counted {state state' : BlockState} {context : OperationContext}
    (h : createOperation simpleAtod state context = .ok state') :
    Keeps state.operators state'.operators ∧ Counted state'.operators context := by
  simp only [createOperation, Checked.bind_eq_ok, Checked.pure_eq_ok, Prod.exists] at h
  obtain ⟨parts, hparts, op, operators, hop, temporaries, -, rfl⟩ := h
  obtain ⟨attributes, -, rfl⟩ := visitOperation_eq_ok.mp hparts
  obtain ⟨hkeeps, hcount, hlookup⟩ := maybeRegisterOperator_lookup hop
  rw [List.length_map] at hcount
  exact ⟨hkeeps, op, hlookup, hcount⟩

theorem visitBlock_counted {state state' : State} {context : BlockContext}
    (h : visitBlock simpleAtod state context = .ok state') :
    Keeps state.operators state'.operators ∧
      ∀ operation ∈ context.operation, Counted state'.operators operation := by
  simp only [visitBlock, Checked.bind_eq_ok, Checked.pure_eq_ok] at h
  obtain ⟨blockState, hpass, ssaNames, -, operations, -, rfl⟩ := h
  obtain ⟨hkeeps, hsteps⟩ := Checked.foldlM_step
    (fun s s' : BlockState => Keeps s.operators s'.operators) (fun _ _ _ hop => hop)
    (fun _ _ _ h h' name op hop => h' name op (h name op hop)) _ _
    (fun s _ _ s' hs => (createOperation_counted hs).1) hpass
  refine ⟨hkeeps, fun operation hoperation => ?_⟩
  obtain ⟨s, s', -, hstep, hafter⟩ := hsteps operation hoperation
  exact (createOperation_counted hstep).2.mono hafter

theorem visitModule_counted {context : ModuleContext} {state : State}
    (h : visitModule simpleAtod context = .ok state) :
    ∀ operation ∈ context.operations, Counted state.operators operation := by
  obtain ⟨-, hsteps⟩ := Checked.foldlM_step
    (fun s s' : State => Keeps s.operators s'.operators) (fun _ _ _ hop => hop)
    (fun _ _ _ h h' name op hop => h' name op (h name op hop)) _ _
    (fun s _ _ s' hs => (visitBlock_counted hs).1) h
  intro operation hoperation
  obtain ⟨block, hblock, hoperation⟩ := List.mem_flatMap.mp hoperation
  obtain ⟨s, s', -, hstep, hafter⟩ := hsteps block hblock
  exact ((visitBlock_counted hstep).2 operation hoperation).mono hafter

/-! ### Acceptance -/

theorem Parsed.wellLinked {context : ModuleContext} {state : State}
    (h : Parsed simpleAtod context.block state)
    (hcounted : ∀ operation ∈ context.operations, Counted state.operators operation) :
    WellLinked context where
  assignedOnce := by
    intro block hblock
    obtain ⟨b, hb⟩ := List.mem_iff_getElem?.mp hblock
    obtain ⟨built, -, hof⟩ := forall₂_left h.blocks.flip hb
    exact hof.nodup
  argumentsAssigned := by
    intro block hblock operation hoperation name hname
    obtain ⟨b, hb⟩ := List.mem_iff_getElem?.mp hblock
    obtain ⟨built, -, hof⟩ := forall₂_left h.blocks.flip hb
    obtain ⟨k, hk⟩ := List.mem_iff_getElem?.mp hoperation
    obtain ⟨op, -, hinputs⟩ := forall₂_left hof.inputs.flip hk
    obtain ⟨j, hj⟩ := List.mem_iff_getElem?.mp hname
    obtain ⟨v, -, hrefers⟩ := forall₂_left hinputs.flip hj
    obtain ⟨_, assigning, _, i, hassigning, -, hi, -⟩ := mem_assignedAll.mp hrefers
    exact List.mem_flatMap.mpr
      ⟨assigning, List.mem_of_getElem? hassigning, List.mem_of_getElem? hi⟩
  attributesDistinct := by
    intro operation hoperation
    obtain ⟨block, hblock, hoperation⟩ := List.mem_flatMap.mp hoperation
    obtain ⟨b, hb⟩ := List.mem_iff_getElem?.mp hblock
    obtain ⟨built, -, hof⟩ := forall₂_left h.blocks.flip hb
    obtain ⟨k, hk⟩ := List.mem_iff_getElem?.mp hoperation
    obtain ⟨op, -, hop⟩ := forall₂_left hof.operations.flip hk
    exact ((FlatHashMap.insertsNew addAttribute_eq_ok).foldlM hop.attributes).1
  sameCounts := by
    intro operation hoperation other hother hname
    obtain ⟨op, hlookup, hcount⟩ := hcounted operation hoperation
    obtain ⟨op', hlookup', hcount'⟩ := hcounted other hother
    rw [hname, hlookup] at hlookup'
    cases hlookup'
    exact hcount'.symm.trans hcount

end IrVisitor

/-! ### Programs -/

section

variable {progText : String} {context : ModuleContext}

/-- The payloads that are not floating point numbers are understood. -/
theorem Derives.payload (h : Derives progText context) (simpleAtod : String → Option (BitVec 64))
    {operation : OperationContext} (hoperation : operation ∈ context.operations)
    {attr : AttributeContext} (hattribute : attr ∈ operation.attributeList)
    (hplain : IsPlainPayload attr.attributePayload) :
    ∃ value, IrVisitor.visitAttributePayload simpleAtod attr.attributePayload = .ok value := by
  obtain ⟨block, hblock, hoperation⟩ := List.mem_flatMap.mp hoperation
  cases hpayload : attr.attributePayload with
  | floatAttribute text =>
    rw [hpayload] at hplain
    exact hplain.elim
  | numAttribute text =>
    rw [hpayload] at hplain
    refine ⟨.int64 (Nat.ofDigitChars 10 text.toList 0), ?_⟩
    simp only [IrVisitor.visitAttributePayload, IrVisitor.visitNumAttribute, simpleAtoi,
      if_pos (show Nat.ofDigitChars 10 text.toList 0 < 2 ^ 63 from hplain)]
  | stringAttribute text =>
    have htoken : ⟨.stringLiteral, text⟩ ∈ irTokens progText.toList := by
      rw [h.tokens]
      refine mem_tokens_of_operation hblock hoperation (mem_tokens_of_attribute hattribute ?_)
      rw [AttributeContext.tokens, hpayload]
      exact List.mem_cons_of_mem _ (List.mem_cons_of_mem _ (List.mem_singleton_self _))
    obtain ⟨body, -, hbody⟩ := stringLiteral_text htoken rfl
    refine ⟨.string (String.ofList body), ?_⟩
    simp only at hbody
    simp only [IrVisitor.visitAttributePayload, IrVisitor.visitStringLiteral, hbody,
      Checked.bind_eq_ok, check_eq_ok, exists_const, Checked.pure_eq_ok, List.tail_cons,
      List.dropLast_concat]
    refine ⟨_, ⟨?_, rfl, ?_, rfl⟩, rfl⟩
    · simp
    · rw [← List.cons_append, List.getLast?_concat]

theorem WellLinked.accepted (h : WellLinked context) (hderives : Derives progText context)
    (hplain : ∀ operation ∈ context.operations, ∀ attr ∈ operation.attributeList,
      IsPlainPayload attr.attributePayload) (simpleAtod : String → Option (BitVec 64))
    {before : List BlockContext} {block : BlockContext} {after : List BlockContext}
    (hblocks : context.block = before ++ block :: after) :
    IrVisitor.Accepted simpleAtod (before.flatMap BlockContext.operation) block := by
  have hblock : block ∈ context.block := by
    rw [hblocks]
    exact List.mem_append_right _ (List.mem_cons_self ..)
  have hmem : ∀ operation ∈ block.operation, operation ∈ context.operations :=
    fun operation hoperation => List.mem_flatMap.mpr ⟨block, hblock, hoperation⟩
  have hearlier : ∀ other ∈ before.flatMap BlockContext.operation ++ block.operation,
      other ∈ context.operations := by
    intro other hother
    rcases List.mem_append.mp hother with hother | hother
    · obtain ⟨b, hb, hother⟩ := List.mem_flatMap.mp hother
      refine List.mem_flatMap.mpr ⟨b, ?_, hother⟩
      rw [hblocks]
      exact List.mem_append_left _ hb
    · exact hmem other hother
  refine ⟨?_, ?_, h.assignedOnce block hblock, h.argumentsAssigned block hblock⟩
  · intro operation hoperation
    exact IrVisitor.visitAttributeList_of (h.attributesDistinct operation (hmem _ hoperation))
      fun attr hattribute => hderives.payload simpleAtod (hmem _ hoperation) hattribute
        (hplain operation (hmem _ hoperation) attr hattribute)
  · intro operation hoperation other hother
    exact h.sameCounts operation (hmem _ hoperation) other (hearlier other hother)

/-- A program is accepted just when it is well-linked, and then its inputs are those of the text. -/
theorem parseProgram_iff_wellLinked (simpleAtod : String → Option (BitVec 64)) {progText : String}
    {context : ModuleContext} (hderives : Derives progText context)
    (hplain : ∀ operation ∈ context.operations, ∀ attr ∈ operation.attributeList,
      IsPlainPayload attr.attributePayload) :
    ((∃ result, parseProgram simpleAtod progText = .ok result) ↔ WellLinked context) ∧
    ∀ result, parseProgram simpleAtod progText = .ok result → Linked context result.module := by
  have hvisited : ∀ {result}, parseProgram simpleAtod progText = .ok result →
      ∃ state, IrVisitor.visitModule simpleAtod context = .ok state ∧
        result.module.blocks = state.blocks := by
    intro result hparse
    obtain ⟨context', state, hcontext, hvisit, -, hblocks, -⟩ := parseProgram_eq_ok.mp hparse
    cases hderives.irProgram.symm.trans hcontext
    exact ⟨state, hvisit, hblocks⟩
  refine ⟨⟨?_, ?_⟩, ?_⟩
  · rintro ⟨result, hparse⟩
    obtain ⟨state, hvisit, -⟩ := hvisited hparse
    exact (IrVisitor.visitModule_spec hvisit).wellLinked (IrVisitor.visitModule_counted hvisit)
  · intro hlinked
    obtain ⟨state, hvisit⟩ : ∃ state, IrVisitor.visitModule simpleAtod context = .ok state :=
      IrVisitor.visitModule_of
        fun before block after hblocks => hlinked.accepted hderives hplain simpleAtod hblocks
    let result : IrProgramParserResult := ⟨state.operators,
      ⟨state.blocks, (IrVisitor.visitModule_spec hvisit).distinct⟩, state.ssaNames⟩
    exact ⟨result, parseProgram_eq_ok.mpr
      ⟨context, state, hderives.irProgram, hvisit, rfl, rfl, rfl⟩⟩
  · intro result hparse
    obtain ⟨state, hvisit, hblocks⟩ := hvisited hparse
    exact (IrVisitor.visitModule_spec hvisit).linked hblocks

end

/-- Two operations that use each other. -/
def knotContext : ModuleContext where
  moduleId := "m"
  block := [⟨"b", [
    ⟨["%0", "%x"], "f", [⟨"n", .numAttribute "007"⟩], [.namedTempValue "%1", .anyValue]⟩,
    ⟨["%1"], "g", [], [.namedTempValue "%x", .namedTempValue "%1"]⟩]⟩]

theorem knotContext_accepted : ∃ result, parseProgram (fun _ => none)
    "module m \x7b block b \x7b %0,%x = f[n:007](%1, <<ANY>>) // f\n%1=g[](%x,%1)\x7d \x7d" =
      .ok result := by
  have hderives : Derives
      "module m \x7b block b \x7b %0,%x = f[n:007](%1, <<ANY>>) // f\n%1=g[](%x,%1)\x7d \x7d"
      knotContext := ⟨by decide, by decide +kernel⟩
  refine (parseProgram_iff_wellLinked (fun _ => none) hderives ?_).1.mpr ⟨?_, ?_, ?_, ?_⟩
  · decide
  · decide
  · intro block hblock operation hoperation name hname
    fin_cases hblock
    fin_cases hoperation <;> simp only [List.mem_cons, ValueContext.namedTempValue.injEq,
      reduceCtorEq, List.not_mem_nil, or_false] at hname
    · rw [hname]
      decide
    · rcases hname with rfl | rfl <;> decide
  · decide
  · decide

end Raksha.Parser
