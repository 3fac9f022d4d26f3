import Raksha.AuthLogic.GeneratedDeclarations
import Raksha.AuthLogic.GuardedRules
import Raksha.AuthLogic.RangeRestriction
import Raksha.AuthLogic.SouffleEmitter

/-!
# Unbroken texts

The texts of a program of the grammar have no parenthesis, no comma and no line break in them. The
insertion of universes and the lowering keep it so.
-/

namespace Raksha.AuthLogic
open Raksha.Lib.Lexing

/-! ### Texts -/

/-- What the emitter puts between texts. -/
def breaks : List Char := ['(', ')', ',', '\n']

structure IsUnbroken (text : String) : Prop where
  ne : text.toList ≠ []
  chars : ∀ c ∈ text.toList, c ∉ breaks

theorem notMem_breaks_of_false (kind : Char → Bool) (h : breaks.all (fun c => !kind c) = true)
    {c : Char} (hc : kind c = true) : c ∉ breaks := by
  intro hmem
  have hnot := List.all_eq_true.mp h c hmem
  rw [hc] at hnot
  cases hnot

theorem isUnbroken_of_check {text : String}
    (h : (!text.toList.isEmpty && text.toList.all fun c => !breaks.contains c) = true) :
    IsUnbroken text := by
  obtain ⟨hne, hall⟩ := Bool.and_eq_true_iff.mp h
  refine ⟨?_, ?_⟩
  · intro hnil
    rw [hnil] at hne
    cases hne
  · intro c hc hmem
    have hnot := List.all_eq_true.mp hall c hc
    rw [List.contains_iff_mem.mpr hmem] at hnot
    cases hnot

theorem isVariable_of_check {text : String} (h : (text.toList.head?.any isVariableStart &&
    text.toList.tail.all isVariableRest) = true) : IsVariable text := by
  obtain ⟨hstart, hrest⟩ := Bool.and_eq_true_iff.mp h
  cases htext : text.toList with
  | nil =>
    rw [htext] at hstart
    cases hstart
  | cons c rest =>
    rw [htext] at hstart hrest
    exact ⟨c, rest, htext, hstart, List.all_eq_true.mp hrest⟩

theorem IsUnbroken.append {text text' : String} (h : IsUnbroken text) (h' : IsUnbroken text') :
    IsUnbroken (text ++ text') where
  ne := by
    rw [String.toList_append]
    exact List.append_ne_nil_of_left_ne_nil h.ne _
  chars := by
    intro c hc
    rw [String.toList_append, List.mem_append] at hc
    exact hc.elim (h.chars c) (h'.chars c)

theorem isUnbroken_of_quoted {text : String} {inner : List Char}
    (htext : text.toList = '"' :: (inner ++ ['"'])) (h : ∀ c ∈ inner, c ∉ breaks) :
    IsUnbroken text where
  ne := by
    rw [htext]
    exact List.cons_ne_nil _ _
  chars := by
    have hquote : '"' ∉ breaks := by decide
    intro c hc
    rw [htext] at hc
    rcases List.mem_cons.mp hc with rfl | hc
    · exact hquote
    · rcases List.mem_append.mp hc with hc | hc
      · exact h c hc
      · rw [List.mem_singleton.mp hc]
        exact hquote

theorem IsVariable.isUnbroken {text : String} (h : IsVariable text) : IsUnbroken text := by
  obtain ⟨c, rest, htext, hc, hrest⟩ := h
  refine ⟨?_, ?_⟩
  · rw [htext]
    exact List.cons_ne_nil _ _
  · intro d hd
    rw [htext] at hd
    rcases List.mem_cons.mp hd with rfl | hd
    · exact notMem_breaks_of_false isVariableStart (by decide) hc
    · exact notMem_breaks_of_false isVariableRest (by decide) (hrest d hd)

theorem IsNumber.isUnbroken {text : String} (h : IsNumber text) : IsUnbroken text where
  ne := h.1
  chars c hc := notMem_breaks_of_false Char.isDigit (by decide) (h.2 c hc)

section

variable {text : List Char} {token : Token}

theorem stringLiteral_isUnbroken (h : token ∈ authLogicTokens text)
    (htype : token.type = .stringLiteral) : IsUnbroken token.text := by
  obtain ⟨c, inner, hc, hinner, htext⟩ := stringLiteral_chars h htype
  refine isUnbroken_of_quoted htext fun d hd => ?_
  rcases List.mem_cons.mp hd with rfl | hd
  · exact notMem_breaks_of_false isConstantStart (by decide) hc
  · exact notMem_breaks_of_false isConstantRest (by decide) (hinner d hd)

/-- The line breaks of a constant over several lines are dropped. -/
theorem multilineStringLiteral_isUnbroken (h : token ∈ authLogicTokens text)
    (htype : token.type = .multilineStringLiteral) :
    IsUnbroken (sanitizeMultilineStringForPredicateArgument token.text) := by
  obtain ⟨c, inner, hc, hinner, htext⟩ := multilineStringLiteral_chars h htype
  refine isUnbroken_of_quoted htext fun d hd => ?_
  obtain ⟨hmem, hline⟩ := List.mem_filter.mp hd
  have hline : d ≠ '\n' := of_decide_eq_true hline
  have hkind : (isMultilineRest d && d != '\n' || isMultilineStart d && d != '\n') = true := by
    rcases List.mem_cons.mp hmem with rfl | hd
    · simp [hc, hline]
    · simp [hinner d hd, hline]
  exact notMem_breaks_of_false (fun d =>
    isMultilineRest d && d != '\n' || isMultilineStart d && d != '\n') (by decide) hkind

end

/-! ### Syntax trees -/

def Predicate.IsUnbroken (predicate : Predicate) : Prop :=
  ∀ text ∈ predicate.name :: predicate.args, AuthLogic.IsUnbroken text

structure Fact.IsUnbroken (fact : Fact) : Prop where
  chain : ∀ delegatee ∈ fact.delegationChain, AuthLogic.IsUnbroken delegatee.name
  base : fact.base.IsUnbroken

structure Assertion.IsUnbroken (assertion : Assertion) : Prop where
  lhs : assertion.lhs.IsUnbroken
  rhs : ∀ condition ∈ assertion.rhs, (baseFactPredicate condition).IsUnbroken

structure RelationDeclaration.IsUnbroken (declaration : RelationDeclaration) : Prop where
  name : AuthLogic.IsUnbroken declaration.relationName
  arguments : ∀ argument ∈ declaration.arguments, IsVariable argument.argumentName ∧
    AuthLogic.IsUnbroken argument.argumentType.name

structure Program.IsUnbroken (program : Program) : Prop where
  declarations : ∀ declaration ∈ program.relationDeclarations, declaration.IsUnbroken
  said : ∀ said ∈ program.said, AuthLogic.IsUnbroken said.1.name ∧ said.2.IsUnbroken
  queries : ∀ query ∈ program.queries, IsVariable query.name ∧
    AuthLogic.IsUnbroken query.principal.name ∧ query.fact.IsUnbroken

section

variable {text : List Char}

theorem unbroken_predArg {context : PredArgContext} (h : context.tokens ⊆ authLogicTokens text) :
    IsUnbroken (constructPredArg context) := by
  have hmem := fun t (ht : t ∈ context.tokens) => h ht
  obtain literal | literal | name | literal := context <;>
    simp only [PredArgContext.tokens, List.mem_singleton, forall_eq] at hmem
  · exact stringLiteral_isUnbroken hmem rfl
  · have hunbroken := multilineStringLiteral_isUnbroken hmem rfl
    exact hunbroken
  · exact (variable_text hmem rfl).1.isUnbroken
  · exact (numLiteral_text hmem rfl).isUnbroken

theorem unbroken_predicate {context : PredicateContext}
    (h : context.tokens ⊆ authLogicTokens text) : (constructPredicate context).IsUnbroken := by
  have hlater := (List.append_subset.mp h).2
  obtain ⟨hname, hlater⟩ := List.cons_subset.mp hlater
  have hargs := (List.append_subset.mp (List.cons_subset.mp hlater).2).1
  intro text htext
  rcases List.mem_cons.mp htext with rfl | harg
  · exact (variable_text hname rfl).1.isUnbroken
  · obtain ⟨predArg, hpredArg, rfl⟩ := List.mem_map.mp harg
    exact unbroken_predArg (List.Subset.trans (tokens_subset_separated _ _ hpredArg) hargs)

theorem unbroken_attribute {principal : Principal} {predicate : Predicate}
    (hprincipal : IsUnbroken principal.name) (h : predicate.IsUnbroken) :
    (attributeToDLIR ⟨principal, predicate⟩).IsUnbroken := by
  intro text htext
  have hname : "" ++ predicate.name = predicate.name := String.empty_append
  rcases List.mem_cons.mp htext with rfl | harg
  · exact hname ▸ h _ (List.mem_cons_self ..)
  · rcases List.mem_cons.mp harg with rfl | harg
    · exact hprincipal
    · exact h _ (List.mem_cons_of_mem _ harg)

theorem unbroken_of_attribute {attr : Attribute} (h : (attributeToDLIR attr).IsUnbroken) :
    IsUnbroken attr.principal.name ∧ attr.predicate.IsUnbroken := by
  have hempty : "" ++ attr.predicate.name = attr.predicate.name := String.empty_append
  have harg : ∀ arg ∈ attr.principal.name :: attr.predicate.args, IsUnbroken arg :=
    fun arg harg => h arg (List.mem_cons_of_mem _ harg)
  refine ⟨harg _ (List.mem_cons_self ..), ?_⟩
  intro text htext
  rcases List.mem_cons.mp htext with rfl | hmem
  · exact hempty ▸ h _ (List.mem_cons_self ..)
  · exact harg text (List.mem_cons_of_mem _ hmem)

theorem unbroken_canActAs {left right : Principal} (hleft : IsUnbroken left.name)
    (hright : IsUnbroken right.name) : (canActAsToDLIR ⟨left, right⟩).IsUnbroken := by
  have hname : IsUnbroken "canActAs" := isUnbroken_of_check (by decide)
  intro text htext
  rcases List.mem_cons.mp htext with rfl | harg
  · exact hname
  · rcases List.mem_pair.mp harg with rfl | rfl
    · exact hleft
    · exact hright

theorem unbroken_flatFact {context : FlatFactContext} (h : context.tokens ⊆ authLogicTokens text) :
    (baseFactPredicate (constructFlatFact context)).IsUnbroken := by
  cases context with
  | predFact predicate => exact unbroken_predicate h
  | prinFact principal verbphrase =>
    obtain ⟨hprincipal, hverbphrase⟩ := List.cons_subset.mp h
    have hunbroken := stringLiteral_isUnbroken hprincipal rfl
    cases verbphrase with
    | predphrase predicate => exact unbroken_attribute hunbroken (unbroken_predicate hverbphrase)
    | actsAsPhrase principal' =>
      exact unbroken_canActAs hunbroken (stringLiteral_isUnbroken
        ((List.cons_subset.mp hverbphrase).2 (List.mem_singleton_self _)) rfl)

theorem unbroken_binop (binop : BinopContext) : IsUnbroken (fixed binop.type).text := by
  cases binop <;> exact isUnbroken_of_check (by decide)

theorem unbroken_rvalue {context : RvalueContext} (h : context.tokens ⊆ authLogicTokens text) :
    (baseFactPredicate (constructRvalue context)).IsUnbroken := by
  cases context with
  | flatFactRvalue flatFact => exact unbroken_flatFact h
  | binopRvalue left binop right =>
    obtain ⟨hleft, hlater⟩ := List.append_subset.mp h
    have hright := (List.cons_subset.mp hlater).2
    intro text htext
    rcases List.mem_cons.mp htext with rfl | harg
    · exact unbroken_binop binop
    · rcases List.mem_pair.mp harg with rfl | rfl
      · exact unbroken_predArg hleft
      · exact unbroken_predArg hright

theorem unbroken_fact {context : FactContext} (h : context.tokens ⊆ authLogicTokens text)
    {chain : List Principal} (hchain : ∀ delegatee ∈ chain, IsUnbroken delegatee.name) :
    (constructFact chain context).IsUnbroken := by
  induction context generalizing chain with
  | flatFactFact flatFact => exact ⟨hchain, unbroken_flatFact h⟩
  | canSayFact principal fact ih =>
    obtain ⟨hprincipal, hlater⟩ := List.cons_subset.mp h
    refine ih (List.cons_subset.mp hlater).2 ?_
    intro delegatee hdelegatee
    rcases List.mem_cons.mp hdelegatee with rfl | hdelegatee
    · exact stringLiteral_isUnbroken hprincipal rfl
    · exact hchain delegatee hdelegatee

theorem unbroken_assertion {context : AssertionContext}
    (h : context.tokens ⊆ authLogicTokens text) : (constructAssertion context).IsUnbroken := by
  have hnone : ∀ delegatee ∈ ([] : List Principal), IsUnbroken delegatee.name :=
    fun _ hdelegatee => absurd hdelegatee List.not_mem_nil
  cases context with
  | factAssertion fact =>
    exact ⟨unbroken_fact (List.append_subset.mp h).1 hnone,
      fun _ hcondition => absurd hcondition List.not_mem_nil⟩
  | hornClauseAssertion fact rvalue rvalues =>
    obtain ⟨hfact, hlater⟩ := List.append_subset.mp h
    have hrvalues := (List.append_subset.mp (List.cons_subset.mp hlater).2).1
    refine ⟨unbroken_fact hfact hnone, ?_⟩
    intro condition hcondition
    obtain ⟨context, hcontext, rfl⟩ := List.mem_map.mp hcondition
    exact unbroken_rvalue (List.Subset.trans (tokens_subset_separated _ _ hcontext) hrvalues)

theorem unbroken_saysAssertion {context : SaysAssertionContext}
    (h : context.tokens ⊆ authLogicTokens text) :
    IsUnbroken (constructSaysAssertion context).principal.name ∧
      ∀ assertion ∈ (constructSaysAssertion context).assertions, assertion.IsUnbroken := by
  cases context with
  | saysSingle principal assertion exportTo =>
    obtain ⟨hprincipal, hlater⟩ := List.cons_subset.mp h
    have hassertion := (List.append_subset.mp (List.cons_subset.mp hlater).2).1
    refine ⟨stringLiteral_isUnbroken hprincipal rfl, ?_⟩
    intro constructed hconstructed
    rw [List.mem_singleton.mp hconstructed]
    exact unbroken_assertion hassertion
  | saysMulti principal assertion assertions exportTo =>
    obtain ⟨hprincipal, hlater⟩ := List.cons_subset.mp h
    have hassertions := (List.append_subset.mp
      (List.cons_subset.mp (List.cons_subset.mp hlater).2).2).1
    refine ⟨stringLiteral_isUnbroken hprincipal rfl, ?_⟩
    intro constructed hconstructed
    obtain ⟨context, hcontext, rfl⟩ := List.mem_map.mp hconstructed
    refine unbroken_assertion (?_ : _ ⊆ authLogicTokens text)
    exact List.Subset.trans
      (fun t ht => List.mem_flatMap.mpr ⟨context, hcontext, ht⟩) hassertions

theorem unbroken_param {param : String × AuthLogicTypeContext}
    (h : paramTokens param ⊆ authLogicTokens text) : IsVariable param.1 ∧
      IsUnbroken (constructArgumentType param.2).name := by
  obtain ⟨hname, hlater⟩ := List.cons_subset.mp h
  refine ⟨(variable_text hname rfl).1, ?_⟩
  cases htype : param.2 with
  | numberType => exact isUnbroken_of_check (by decide)
  | principalType => exact isUnbroken_of_check (by decide)
  | customType name =>
    have hmem := (List.cons_subset.mp hlater).2
    rw [htype] at hmem
    exact (variable_text (hmem (List.mem_singleton_self _)) rfl).1.isUnbroken

theorem unbroken_relationDeclaration {context : RelationDeclarationContext}
    (h : context.tokens ⊆ authLogicTokens text) :
    (constructRelationDeclaration context).IsUnbroken := by
  have hlater := (List.append_subset.mp (List.cons_subset.mp h).2).2
  obtain ⟨hname, hlater⟩ := List.cons_subset.mp hlater
  have hparams := (List.append_subset.mp (List.cons_subset.mp hlater).2).1
  refine ⟨(variable_text hname rfl).1.isUnbroken, ?_⟩
  intro argument hargument
  obtain ⟨param, hparam, rfl⟩ := List.mem_map.mp hargument
  exact unbroken_param (List.Subset.trans (tokens_subset_separated _ _ hparam) hparams)

end

section

variable {program : Program} (h : program.Derivable)
include h

theorem Program.Derivable.unbroken_spoken : ∀ saysAssertion ∈ program.saysAssertions,
    AuthLogic.IsUnbroken saysAssertion.principal.name ∧
      ∀ assertion ∈ saysAssertion.assertions, assertion.IsUnbroken := by
  obtain ⟨progText, context, hderives, rfl⟩ := h
  intro saysAssertion hmem
  obtain ⟨c, hc, rfl⟩ := List.mem_map.mp hmem
  refine unbroken_saysAssertion (?_ : _ ⊆ authLogicTokens progText.toList)
  intro t ht
  rw [hderives]
  exact List.mem_flatMap.mpr ⟨_, ProgramContext.mem_saysAssertion hc, ht⟩

theorem Program.Derivable.isUnbroken : program.IsUnbroken := by
  have hspoken := h.unbroken_spoken
  obtain ⟨progText, context, hderives, rfl⟩ := h
  have hstatement : ∀ statement ∈ context.statement :: context.statements,
      statement.tokens ⊆ authLogicTokens progText.toList := by
    intro statement hmem t ht
    rw [hderives]
    exact List.mem_flatMap.mpr ⟨statement, hmem, ht⟩
  refine ⟨?_, ?_, ?_⟩
  · intro declaration hdeclaration
    obtain ⟨c, hc, rfl⟩ := List.mem_map.mp hdeclaration
    exact unbroken_relationDeclaration (hstatement _ (ProgramContext.mem_relationDeclaration hc))
  · intro said hsaid
    obtain ⟨saysAssertion, hmem, hsaid⟩ := List.mem_flatMap.mp hsaid
    obtain ⟨assertion, hassertion, rfl⟩ := List.mem_map.mp hsaid
    obtain ⟨hspeaker, hassertions⟩ := hspoken saysAssertion hmem
    exact ⟨hspeaker, hassertions assertion hassertion⟩
  · intro query hquery
    obtain ⟨c, hc, rfl⟩ := List.mem_map.mp hquery
    have htokens := hstatement _ (ProgramContext.mem_query hc)
    obtain ⟨hname, hlater⟩ := List.cons_subset.mp htokens
    have hlater := (List.cons_subset.mp (List.cons_subset.mp hlater).2).2
    obtain ⟨hprincipal, hlater⟩ := List.cons_subset.mp hlater
    have hfact := (List.append_subset.mp (List.cons_subset.mp hlater).2).1
    exact ⟨(variable_text hname rfl).1, stringLiteral_isUnbroken hprincipal rfl,
      unbroken_fact hfact (fun _ hdelegatee => absurd hdelegatee List.not_mem_nil)⟩

end

/-! ### Insertion of universes -/

theorem unbroken_principal : IsUnbroken "Principal" := isUnbroken_of_check (by decide)

theorem unbroken_universeName {argType : ArgumentType} (h : IsUnbroken argType.name) :
    IsUnbroken (typeToUniverseName argType) := by
  have his : IsUnbroken "is" := isUnbroken_of_check (by decide)
  cases argType with
  | number => exact isUnbroken_of_check (by decide)
  | principal => exact isUnbroken_of_check (by decide)
  | custom name => exact his.append h

theorem unbroken_membership {elementName : String} {argType : ArgumentType}
    (helement : IsUnbroken elementName) (h : IsUnbroken argType.name) :
    (baseFactPredicate (makeUniverseMembershipFact elementName argType)).IsUnbroken := by
  intro text htext
  rcases List.mem_pair.mp htext with rfl | rfl
  · exact unbroken_universeName h
  · exact helement

section

variable {declEnv : AList fun _ : String => RelationDeclaration}
  (henv : ∀ name declaration, declEnv.lookup name = some declaration → declaration.IsUnbroken)

include henv

theorem unbroken_predicateTypings {predicate : Predicate} (hpredicate : predicate.IsUnbroken)
    {typings : List (String × ArgumentType)}
    (h : predicateTypings declEnv predicate = some typings) :
    ∀ typing ∈ typings, IsUnbroken typing.1 ∧ IsUnbroken typing.2.name := by
  have harg : ∀ arg ∈ predicate.args, IsUnbroken arg :=
    fun arg harg => hpredicate arg (List.mem_cons_of_mem _ harg)
  have hnumber : IsUnbroken "Number" := isUnbroken_of_check (by decide)
  intro typing htyping
  rw [predicateTypings] at h
  split at h
  · cases h
    obtain ⟨arg, hmem, rfl⟩ := List.mem_map.mp htyping
    exact ⟨harg arg hmem, hnumber⟩
  · obtain ⟨declaration, hlookup, h⟩ := Option.bind_eq_some_iff.mp h
    obtain ⟨⟨arg, i⟩, hindexed, hresult⟩ := exists_of_mapM_mem h htyping
    obtain ⟨argument, hargument, hresult⟩ := Option.bind_eq_some_iff.mp hresult
    cases hresult
    have hmem := List.mem_of_getElem? (List.mem_zipIdx_iff_getElem?.mp hindexed)
    exact ⟨harg arg hmem,
      ((henv _ _ hlookup).arguments argument (List.mem_of_getElem? hargument)).2⟩

theorem unbroken_baseFactTypings {baseFact : BaseFact}
    (hbase : (baseFactPredicate baseFact).IsUnbroken) {typings : List (String × ArgumentType)}
    (h : baseFactTypings declEnv baseFact = some typings) :
    ∀ typing ∈ typings, IsUnbroken typing.1 ∧ IsUnbroken typing.2.name := by
  have harg : ∀ arg ∈ (baseFactPredicate baseFact).args, IsUnbroken arg :=
    fun arg harg => hbase arg (List.mem_cons_of_mem _ harg)
  intro typing htyping
  cases baseFact with
  | predicate predicate => exact unbroken_predicateTypings henv hbase h typing htyping
  | attr attr =>
    obtain ⟨inner, hinner, h⟩ := Option.bind_eq_some_iff.mp h
    cases h
    rcases List.mem_cons.mp htyping with rfl | htyping
    · exact ⟨harg _ (List.mem_cons_self ..), unbroken_principal⟩
    · exact unbroken_predicateTypings henv (unbroken_of_attribute hbase).2 hinner typing htyping
  | canActAs canActAs =>
    cases h
    rcases List.mem_pair.mp htyping with rfl | rfl
    · exact ⟨harg _ (List.mem_cons_self ..), unbroken_principal⟩
    · exact ⟨harg _ (List.mem_cons_of_mem _ (List.mem_singleton_self _)), unbroken_principal⟩

theorem unbroken_factTypings {fact : Fact} (hfact : fact.IsUnbroken)
    {typings : List (String × ArgumentType)} (h : factTypings declEnv fact = some typings) :
    ∀ typing ∈ typings, IsUnbroken typing.1 ∧ IsUnbroken typing.2.name := by
  obtain ⟨inner, hinner, h⟩ := Option.bind_eq_some_iff.mp h
  cases h
  intro typing htyping
  rcases List.mem_append.mp htyping with hchain | htyping
  · obtain ⟨delegatee, hdelegatee, rfl⟩ := List.mem_map.mp hchain
    exact ⟨hfact.chain delegatee hdelegatee, unbroken_principal⟩
  · exact unbroken_baseFactTypings henv hfact.base hinner typing htyping

theorem unbroken_assertionTypings {assertion : Assertion} (hassertion : assertion.IsUnbroken)
    {typings : List (String × ArgumentType)}
    (h : assertionTypings declEnv assertion = some typings) :
    ∀ typing ∈ typings, IsUnbroken typing.1 ∧ IsUnbroken typing.2.name := by
  obtain ⟨fact, hfact, h⟩ := Option.bind_eq_some_iff.mp h
  obtain ⟨rhs, hrhs, h⟩ := Option.bind_eq_some_iff.mp h
  cases h
  intro typing htyping
  rcases List.mem_append.mp htyping with htyping | htyping
  · exact unbroken_factTypings henv hassertion.lhs hfact typing htyping
  · obtain ⟨conditionTypings, hmem, htyping⟩ := List.mem_flatten.mp htyping
    obtain ⟨condition, hcondition, hresult⟩ := exists_of_mapM_mem hrhs hmem
    exact unbroken_baseFactTypings henv (hassertion.rhs condition hcondition) hresult typing htyping

theorem unbroken_programTypings {program : Program} (h : program.Derivable)
    {typings : List (String × ArgumentType)}
    (htypings : programTypings declEnv program = some typings) :
    ∀ typing ∈ typings, IsUnbroken typing.1 ∧ IsUnbroken typing.2.name := by
  obtain ⟨spoken, hspoken, htypings⟩ := Option.bind_eq_some_iff.mp htypings
  obtain ⟨asked, hasked, htypings⟩ := Option.bind_eq_some_iff.mp htypings
  cases htypings
  intro typing htyping
  rcases List.mem_append.mp htyping with htyping | htyping
  · obtain ⟨own, hown, htyping⟩ := List.mem_flatten.mp htyping
    obtain ⟨saysAssertion, hmem, hsays⟩ := exists_of_mapM_mem hspoken hown
    obtain ⟨hspeaker, hassertions⟩ := h.unbroken_spoken saysAssertion hmem
    obtain ⟨inner, hinner, hsays⟩ := Option.bind_eq_some_iff.mp hsays
    cases hsays
    rcases List.mem_cons.mp htyping with rfl | htyping
    · exact ⟨hspeaker, unbroken_principal⟩
    · obtain ⟨ownTypings, hownTypings, htyping⟩ := List.mem_flatten.mp htyping
      obtain ⟨assertion, hassertion, hresult⟩ := exists_of_mapM_mem hinner hownTypings
      exact unbroken_assertionTypings henv (hassertions assertion hassertion) hresult typing htyping
  · obtain ⟨own, hown, htyping⟩ := List.mem_flatten.mp htyping
    obtain ⟨query, hmem, hquery⟩ := exists_of_mapM_mem hasked hown
    obtain ⟨-, hspeaker, hfact⟩ := h.isUnbroken.queries query hmem
    obtain ⟨fact, hfactTypings, hquery⟩ := Option.bind_eq_some_iff.mp hquery
    cases hquery
    rcases List.mem_cons.mp htyping with rfl | htyping
    · exact ⟨hspeaker, unbroken_principal⟩
    · exact unbroken_factTypings henv hfact hfactTypings typing htyping

end

theorem unbroken_typings {program : Program} (h : program.Derivable) :
    ∀ typing ∈ program.typings, IsUnbroken typing.1 ∧ IsUnbroken typing.2.name := by
  unfold Program.typings
  cases henv : declarationEnvironment program with
  | none => exact fun _ htyping => absurd htyping List.not_mem_nil
  | some declEnv =>
    rw [Option.bind_some]
    cases htypings : programTypings declEnv program with
    | none => exact fun _ htyping => absurd htyping List.not_mem_nil
    | some typings =>
      refine unbroken_programTypings (fun name declaration hlookup => ?_) h htypings
      exact h.isUnbroken.declarations declaration (declared_of_lookup henv hlookup).1

section

variable {program program' : Program}
  {literalOrder : List (String × ArgumentType) → List (String × ArgumentType)}
  {declarationOrder : List RelationDeclaration → List RelationDeclaration}
  (horder : ∀ l, (literalOrder l).Perm l) (hdeclarationOrder : ∀ l, (declarationOrder l).Perm l)
  (h : program.Derivable)
  (hinsert : insertUniverseRelations literalOrder declarationOrder program = some program')

include hdeclarationOrder h hinsert in
theorem unbroken_insertedDeclarations :
    ∀ declaration ∈ program'.relationDeclarations, declaration.IsUnbroken := by
  have hdeclarations := h.isUnbroken.declarations
  obtain ⟨declEnv, -, hinsert⟩ := Option.bind_eq_some_iff.mp hinsert
  obtain ⟨typeEnv, -, hinsert⟩ := Option.bind_eq_some_iff.mp hinsert
  obtain ⟨saysAssertions, -, hinsert⟩ := Option.bind_eq_some_iff.mp hinsert
  cases hinsert
  have huniverse : ∀ argType : ArgumentType, IsUnbroken argType.name →
      (typeToUniverseDeclaration argType).IsUnbroken := by
    intro argType hname
    refine ⟨unbroken_universeName hname, ?_⟩
    have hvariable : IsVariable "x" := isVariable_of_check (by decide)
    intro argument hargument
    rw [List.mem_singleton.mp hargument]
    exact ⟨hvariable, hname⟩
  intro declaration hdeclaration
  rcases List.mem_append.mp hdeclaration with hdeclaration | hdeclaration
  · exact hdeclarations declaration hdeclaration
  · rw [(hdeclarationOrder _).mem_iff, getUniverseDeclarations, List.mem_dedup,
      List.mem_append] at hdeclaration
    rcases hdeclaration with hdeclared | hbuiltIn
    · obtain ⟨declared, hmem, hdeclared⟩ := List.mem_flatMap.mp hdeclared
      obtain ⟨argument, hargument, rfl⟩ := List.mem_map.mp hdeclared
      exact huniverse _ ((hdeclarations declared hmem).arguments argument hargument).2
    · rcases List.mem_pair.mp hbuiltIn with rfl | rfl
      · exact huniverse _ (isUnbroken_of_check (by decide))
      · exact huniverse _ (isUnbroken_of_check (by decide))

include horder hdeclarationOrder h hinsert in
theorem unbroken_inserted : program'.IsUnbroken := by
  obtain ⟨constants, haccepted⟩ := insertUniverseRelations_accepted horder h.lexed hinsert
  have htypings := unbroken_typings h
  obtain ⟨said, hguards, hsaid⟩ := haccepted.said
  refine ⟨unbroken_insertedDeclarations hdeclarationOrder h hinsert, ?_, ?_⟩
  · intro said' hsaid'
    rw [hsaid, List.mem_append] at hsaid'
    rcases hsaid' with hdefining | hguarded
    · obtain ⟨principal, hprincipal, -, typing, htyping, rfl⟩ := mem_universeSaid.mp hdefining
      have hspeaker := (htypings _ ((haccepted.mem_constants _).mp hprincipal).1).1
      have hmember := htypings _ ((haccepted.mem_constants _).mp htyping).1
      refine ⟨hspeaker, ⟨⟨?_, unbroken_membership hmember.1 hmember.2⟩, ?_⟩⟩
      · exact fun _ hdelegatee => absurd hdelegatee List.not_mem_nil
      · exact fun _ hcondition => absurd hcondition List.not_mem_nil
    · obtain ⟨said, hmem, hspeaker, hlhs, hrhs⟩ := forall₂_mem_right hguards hguarded
      obtain ⟨hunbroken, hassertion⟩ := h.isUnbroken.said said hmem
      refine ⟨hspeaker ▸ hunbroken, hlhs ▸ hassertion.lhs, ?_⟩
      intro condition hcondition
      rw [hrhs, List.mem_append] at hcondition
      rcases hcondition with huniverse | hcondition
      · obtain ⟨typing, htyping, rfl⟩ := List.mem_map.mp huniverse
        have hmember := htypings typing
          (haccepted.heads said hmem (List.mem_filter.mp htyping).1)
        exact unbroken_membership hmember.1 hmember.2
      · exact hassertion.rhs condition hcondition
  · rw [haccepted.queries]
    exact h.isUnbroken.queries

end

/-! ### Lowering -/

/-- A predicate that is printed as a name with arguments. -/
structure Predicate.Printable (predicate : Predicate) : Prop where
  start : ∃ c rest, predicate.name.toList = c :: rest ∧ isVariableStart c = true
  unbroken : predicate.IsUnbroken

def Rule.Printable (rule : Rule) : Prop :=
  ∀ predicate ∈ rule.lhs :: rule.rhs, predicate.Printable

theorem unbroken_pushPrincipal {modifier : String} (hmodifier : IsUnbroken modifier)
    {principal : Principal} (hprincipal : IsUnbroken principal.name) {predicate : Predicate}
    (h : predicate.IsUnbroken) : (pushPrincipal modifier principal predicate).IsUnbroken := by
  intro text htext
  rcases List.mem_cons.mp htext with rfl | harg
  · exact hmodifier.append (h _ (List.mem_cons_self ..))
  · rcases List.mem_cons.mp harg with rfl | harg
    · exact hprincipal
    · exact h _ (List.mem_cons_of_mem _ harg)

theorem unbroken_says : IsUnbroken "says_" := isUnbroken_of_check (by decide)

theorem unbroken_canSay : IsUnbroken "canSay_" := isUnbroken_of_check (by decide)

theorem unbroken_freshName (n : ℕ) : IsUnbroken (freshName n) := (freshName_isVariable n).isUnbroken

theorem printable_spoken {speaker : Principal} (hspeaker : IsUnbroken speaker.name)
    {predicate : Predicate} (h : predicate.IsUnbroken) :
    (pushPrincipal "says_" speaker predicate).Printable where
  start := by
    refine ⟨'s', "ays_".toList ++ predicate.name.toList, ?_, rfl⟩
    rw [show (pushPrincipal "says_" speaker predicate).name = "says_" ++ predicate.name from rfl,
      String.toList_append]
    rfl
  unbroken := unbroken_pushPrincipal unbroken_says hspeaker h

theorem unbroken_dummyVar : IsUnbroken "\"dummy_var\"" := isUnbroken_of_check (by decide)

theorem printable_dummy : dummyPredicate.Printable where
  start := ⟨'g', "rounded_dummy".toList, by decide, rfl⟩
  unbroken := by
    have hname : IsUnbroken "grounded_dummy" := isUnbroken_of_check (by decide)
    intro text htext
    rcases List.mem_pair.mp htext with rfl | rfl
    · exact hname
    · exact unbroken_dummyVar

theorem printable_spokenRules (n : ℕ) {speaker : Principal} (hspeaker : IsUnbroken speaker.name)
    {baseFact : BaseFact} (h : (baseFactPredicate baseFact).IsUnbroken) :
    ∀ rule ∈ spokenRules n speaker baseFact, rule.Printable := by
  have harg : ∀ arg ∈ (baseFactPredicate baseFact).args, IsUnbroken arg :=
    fun arg harg => h arg (List.mem_cons_of_mem _ harg)
  have hfresh := unbroken_freshName (n + 1)
  intro rule hrule predicate hpredicate
  cases baseFact with
  | predicate p => exact absurd hrule List.not_mem_nil
  | attr attr =>
    rw [List.mem_singleton.mp hrule] at hpredicate
    obtain ⟨hprincipal, hinner⟩ := unbroken_of_attribute h
    rcases List.mem_cons.mp hpredicate with rfl | hpredicate
    · exact printable_spoken hspeaker (unbroken_attribute hfresh hinner)
    · rcases List.mem_pair.mp hpredicate with rfl | rfl
      · exact printable_spoken hspeaker (unbroken_canActAs hfresh hprincipal)
      · exact printable_spoken hspeaker h
  | canActAs canActAs =>
    rw [List.mem_singleton.mp hrule] at hpredicate
    have hleft : IsUnbroken canActAs.leftPrincipal.name := harg _ (List.mem_cons_self ..)
    have hright : IsUnbroken canActAs.rightPrincipal.name :=
      harg _ (List.mem_cons_of_mem _ (List.mem_singleton_self _))
    rcases List.mem_cons.mp hpredicate with rfl | hpredicate
    · exact printable_spoken hspeaker (unbroken_canActAs hfresh hright)
    · rcases List.mem_pair.mp hpredicate with rfl | rfl
      · exact printable_spoken hspeaker (unbroken_canActAs hfresh hleft)
      · exact printable_spoken hspeaker h

theorem printable_delegationRules (n : ℕ) {speaker : Principal}
    (hspeaker : IsUnbroken speaker.name) {chain : List Principal}
    (hchain : ∀ delegatee ∈ chain, IsUnbroken delegatee.name) {inner : Predicate}
    (h : inner.IsUnbroken) :
    (∀ rule ∈ delegationRules speaker n chain inner, rule.Printable) ∧
      (chainPredicate chain inner).IsUnbroken := by
  induction chain generalizing n inner with
  | nil => exact ⟨fun _ hrule => absurd hrule List.not_mem_nil, h⟩
  | cons delegatee chain ih =>
    have hfresh := unbroken_freshName (n + 1)
    obtain ⟨hrules, hpredicate⟩ := ih (n + 1)
      (fun d hd => hchain d (List.mem_cons_of_mem _ hd))
      (unbroken_pushPrincipal unbroken_canSay (hchain delegatee (List.mem_cons_self ..)) h)
    refine ⟨?_, hpredicate⟩
    intro rule hrule
    rcases List.mem_cons.mp hrule with rfl | hrule
    · intro predicate hpredicate
      rcases List.mem_cons.mp hpredicate with rfl | hpredicate
      · exact printable_spoken hspeaker h
      · rcases List.mem_pair.mp hpredicate with rfl | rfl
        · exact printable_spoken hfresh h
        · exact printable_spoken hspeaker (unbroken_pushPrincipal unbroken_canSay hfresh h)
    · exact hrules rule hrule

theorem Fact.IsUnbroken.printable {fact : Fact} (h : fact.IsUnbroken) (n : ℕ) {speaker : Principal}
    (hspeaker : AuthLogic.IsUnbroken speaker.name) :
    (∀ rule ∈ fact.generatedRules n speaker, rule.Printable) ∧ fact.toPredicate.IsUnbroken := by
  obtain ⟨hdelegation, hpredicate⟩ :=
    printable_delegationRules (n + fact.baseFact.freshVars) hspeaker h.chain h.base
  refine ⟨?_, hpredicate⟩
  intro rule hrule
  rcases List.mem_append.mp hrule with hrule | hrule
  · exact printable_spokenRules n hspeaker h.base rule hrule
  · exact hdelegation rule hrule

theorem Assertion.IsUnbroken.printable {assertion : Assertion} (h : assertion.IsUnbroken) (n : ℕ)
    {speaker : Principal} (hspeaker : AuthLogic.IsUnbroken speaker.name) :
    ∀ rule ∈ assertion.rules n speaker, rule.Printable := by
  obtain ⟨hgenerated, hlhs⟩ := h.lhs.printable (n + assertion.conditionVars) hspeaker
  intro rule hrule
  rcases List.mem_append.mp hrule with hrule | hrule
  · exact hgenerated rule hrule
  · rw [List.mem_singleton.mp hrule]
    intro predicate hpredicate
    rcases List.mem_cons.mp hpredicate with rfl | hpredicate
    · exact printable_spoken hspeaker hlhs
    · obtain ⟨condition, hcondition, rfl⟩ := List.mem_map.mp hpredicate
      exact printable_spoken hspeaker (h.rhs condition hcondition)

theorem Program.IsUnbroken.printable {program : Program} (h : program.IsUnbroken)
    (order : List (String × ℕ) → List (String × ℕ)) :
    ∀ rule ∈ (lower order program).rules, rule.Printable := by
  intro rule hrule
  rw [lower_rules, List.append_assoc, List.mem_append] at hrule
  rcases hrule with hrule | hrule
  · obtain ⟨block, hblock, hrule⟩ := List.mem_flatten.mp hrule
    rw [loweredAssertions_eq] at hblock
    obtain ⟨n, said, hsaid, rfl⟩ := mem_mapDrawn hblock
    obtain ⟨hspeaker, hassertion⟩ := h.said said hsaid
    exact hassertion.printable n hspeaker rule hrule
  rcases List.mem_append.mp hrule with hrule | hrule
  · obtain ⟨query, hquery, rfl⟩ := List.mem_map.mp hrule
    obtain ⟨hname, hspeaker, hfact⟩ := h.queries query hquery
    intro predicate hpredicate
    rcases List.mem_cons.mp hpredicate with rfl | hpredicate
    · obtain ⟨c, rest, htext, hstart, -⟩ := id hname
      refine ⟨⟨c, rest, htext, hstart⟩, ?_⟩
      intro text htext
      rcases List.mem_pair.mp htext with rfl | rfl
      · exact hname.isUnbroken
      · exact unbroken_dummyVar
    · rcases List.mem_pair.mp hpredicate with rfl | rfl
      · exact printable_spoken hspeaker (hfact.printable 0 hspeaker).2
      · exact printable_dummy
  · rw [List.mem_singleton.mp hrule]
    intro predicate hpredicate
    rw [List.mem_singleton.mp hpredicate]
    exact printable_dummy

/-! ### Declarations -/

theorem unbroken_extended {declaration : RelationDeclaration} (h : declaration.IsUnbroken)
    {modifier : String} (hmodifier : IsUnbroken modifier) {argument : Argument}
    (hargument : IsVariable argument.argumentName) (htype : argument.argumentType = .principal) :
    (RelationDeclaration.mk (modifier ++ declaration.relationName) false
      (argument :: declaration.arguments)).IsUnbroken where
  name := hmodifier.append h.name
  arguments := by
    intro other hother
    rcases List.mem_cons.mp hother with rfl | hother
    · rw [htype]
      exact ⟨hargument, isUnbroken_of_check (by decide)⟩
    · exact h.arguments other hother

theorem isVariable_delegatee (i : ℕ) : IsVariable ("delegatee" ++ Nat.repr i) := by
  refine ⟨'d', "elegatee".toList ++ (Nat.repr i).toList, ?_, rfl, ?_⟩
  · rw [String.toList_append]
    rfl
  · intro c hc
    rcases List.mem_append.mp hc with hc | hc
    · exact List.all_eq_true.mp (by decide : "elegatee".toList.all isVariableRest = true) c hc
    · simp [isVariableRest, isDigit_of_mem_toString hc]

theorem unbroken_canSayDeclaration (i : ℕ) {declaration : RelationDeclaration}
    (h : declaration.IsUnbroken) : (canSayDeclaration i declaration).IsUnbroken :=
  unbroken_extended h unbroken_canSay (isVariable_delegatee i) rfl

theorem unbroken_canSayDeclarationsAt {declaration : RelationDeclaration}
    (h : declaration.IsUnbroken) (depth : ℕ) {declarations : List RelationDeclaration}
    (hbefore : ∀ declaration ∈ declarations, declaration.IsUnbroken) :
    ∀ result ∈ canSayDeclarationsAt declaration depth declarations, result.IsUnbroken := by
  unfold canSayDeclarationsAt
  generalize List.range' 1 depth = depths
  induction depths generalizing declarations with
  | nil => exact hbefore
  | cons i depths ih =>
    intro result hresult
    rw [List.foldl_cons] at hresult
    refine ih ?_ result hresult
    intro other hother
    split at hother
    · rcases List.mem_append.mp hother with hother | hother
      · exact hbefore other hother
      · rw [List.mem_singleton.mp hother]
        exact unbroken_canSayDeclaration i h
    · rcases List.mem_append.mp hother with hother | hother
      · exact hbefore other hother
      · obtain ⟨shorter, hshorter, rfl⟩ := Option.map_eq_some_iff.mp (Option.mem_toList.mp hother)
        exact unbroken_canSayDeclaration i (hbefore shorter (List.mem_of_getElem? hshorter))

theorem unbroken_getCanSayDeclarations {typeEnvironment : String → Option RelationDeclaration}
    (h : ∀ name declaration, typeEnvironment name = some declaration → declaration.IsUnbroken)
    (canSayDepth : List (String × ℕ)) :
    ∀ declaration ∈ getCanSayDeclarations typeEnvironment canSayDepth, declaration.IsUnbroken := by
  have hfold : ∀ made : List RelationDeclaration,
      (∀ declaration ∈ made, declaration.IsUnbroken) →
      ∀ declaration ∈ canSayDepth.foldl (addCanSayDeclarations typeEnvironment) made,
        declaration.IsUnbroken := by
    induction canSayDepth with
    | nil => exact fun _ hbefore => hbefore
    | cons entry canSayDepth ih =>
      intro made hbefore
      rw [List.foldl_cons]
      refine ih _ ?_
      unfold addCanSayDeclarations
      cases hlookup : typeEnvironment entry.1 with
      | none => exact hbefore
      | some declaration =>
        exact unbroken_canSayDeclarationsAt (h entry.1 declaration hlookup) entry.2 hbefore
  rw [getCanSayDeclarations_foldl]
  exact hfold [] fun _ hdeclaration => absurd hdeclaration List.not_mem_nil

theorem unbroken_transformed {program : Program} (h : program.IsUnbroken) :
    ∀ declaration ∈ transformedDeclarations program, declaration.IsUnbroken := by
  have hempty : ∀ declaration : RelationDeclaration, "" ++ declaration.relationName =
    declaration.relationName := fun _ => String.empty_append
  intro declaration hdeclaration
  obtain ⟨declared, hmem, rfl⟩ := List.mem_map.mp hdeclaration
  have hdeclared := h.declarations declared hmem
  have hvariable : IsVariable "attribute_prin" :=
    isVariable_of_check (by decide)
  unfold transformAttributeDeclaration
  split
  · refine ⟨hdeclared.name, ?_⟩
    intro argument hargument
    rcases List.mem_cons.mp hargument with rfl | hargument
    · exact ⟨hvariable, isUnbroken_of_check (by decide)⟩
    · exact hdeclared.arguments argument hargument
  · exact hdeclared

theorem unbroken_dummyDeclaration {name : String} (h : IsUnbroken name) :
    (dummyDeclaration name).IsUnbroken where
  name := h
  arguments := by
    have hvariable : IsVariable "dummy_param" :=
      isVariable_of_check (by decide)
    have htype : IsUnbroken "DummyType" := isUnbroken_of_check (by decide)
    intro argument hargument
    rw [List.mem_singleton.mp hargument]
    exact ⟨hvariable, htype⟩

theorem Program.IsUnbroken.lowered {program : Program} (h : program.IsUnbroken)
    (order : List (String × ℕ) → List (String × ℕ)) :
    ∀ declaration ∈ (lower order program).relationDeclarations, declaration.IsUnbroken := by
  have htransformed := unbroken_transformed h
  have hspeaker : IsVariable "speaker" := isVariable_of_check (by decide)
  have hacts : canActAsDeclaration.IsUnbroken := by
    have hname : AuthLogic.IsUnbroken "canActAs" := isUnbroken_of_check (by decide)
    have hfirst : IsVariable "p1" := isVariable_of_check (by decide)
    have hsecond : IsVariable "p2" := isVariable_of_check (by decide)
    refine ⟨hname, ?_⟩
    intro argument hargument
    rcases List.mem_pair.mp hargument with rfl | rfl
    · exact ⟨hfirst, isUnbroken_of_check (by decide)⟩
    · exact ⟨hsecond, isUnbroken_of_check (by decide)⟩
  intro declaration hdeclaration
  rw [lower_declarations, List.mem_append] at hdeclaration
  rcases hdeclaration with hspoken | hquery
  · obtain ⟨inner, hinner, rfl⟩ := List.mem_map.mp hspoken
    refine unbroken_extended ?_ unbroken_says hspeaker rfl
    rw [List.mem_append, List.mem_append] at hinner
    rcases hinner with (hinner | hinner) | hinner
    · exact htransformed inner hinner
    · refine unbroken_getCanSayDeclarations (fun name declaration hlookup => ?_) _ inner hinner
      exact htransformed declaration (typeEnvironment_some hlookup).1
    · rw [List.mem_singleton.mp hinner]
      exact hacts
  · rcases List.mem_append.mp hquery with hquery | hdummy
    · obtain ⟨query, hmem, rfl⟩ := List.mem_map.mp hquery
      exact unbroken_dummyDeclaration (h.queries query hmem).1.isUnbroken
    · rw [List.mem_singleton.mp hdummy]
      exact unbroken_dummyDeclaration (isUnbroken_of_check (by decide))

end Raksha.AuthLogic
