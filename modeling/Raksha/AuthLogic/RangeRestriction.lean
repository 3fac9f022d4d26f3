import Raksha.AuthLogic.Comparisons
import Raksha.AuthLogic.InsertedUniverses

/-!
# Range restriction

Every variable in the head of a lowered rule is bound by its body, when universe conditions have
been inserted before the lowering.
-/

namespace Raksha.AuthLogic

/-- A comparison, or what the lowering makes of one. -/
def Predicate.FromComparison (predicate : Predicate) : Prop :=
  ∃ operator ∈ numericOperators,
    predicate.name = operator ∨ predicate.name = "says_" ++ operator

/-- The body binds the variable: it stands in a positive predicate that is no comparison. -/
def Rule.Binds (rule : Rule) (v : String) : Prop :=
  ∃ predicate ∈ rule.rhs, predicate.sign = .positive ∧ ¬ predicate.FromComparison ∧
    v ∈ predicate.args

def Rule.RangeRestricted (rule : Rule) : Prop :=
  ∀ v ∈ rule.lhs.args, IsVariable v → rule.Binds v

/-! ### Constants -/

theorem isVariableRest_not_space {c : Char} (h : isVariableRest c = true) :
    asciiSpaces.contains c = false := by
  by_contra hspace
  rw [Bool.not_eq_false, List.contains_iff_mem] at hspace
  simp only [asciiSpaces, List.mem_cons, List.not_mem_nil, or_false] at hspace
  rcases hspace with rfl | rfl | rfl | rfl | rfl | rfl <;> cases h

theorem isVariableStart_not_digit {c : Char} (h : isVariableStart c = true) :
    c.isDigit = false := by
  by_contra hdigit
  rcases Parser.isDigit_cases (Bool.not_eq_false _ ▸ hdigit) with
    rfl | rfl | rfl | rfl | rfl | rfl | rfl | rfl | rfl | rfl <;> cases h

theorem stripAsciiWhitespace_eq {text : List Char}
    (h : ∀ d ∈ text, asciiSpaces.contains d = false) : stripAsciiWhitespace text = text := by
  have hdrop : ∀ l : List Char, (∀ d ∈ l, asciiSpaces.contains d = false) →
      l.dropWhile asciiSpaces.contains = l := by
    intro l hl
    cases l with
    | nil => rfl
    | cons d l =>
      rw [List.dropWhile_cons_of_neg]
      rw [hl d (List.mem_cons_self ..)]
      exact Bool.false_ne_true
  rw [stripAsciiWhitespace, hdrop _ h,
    hdrop _ fun d hd => h d (List.mem_reverse.mp hd), List.reverse_reverse]

theorem IsVariable.not_nameConstant {text : String} (h : IsVariable text) :
    isNameConstant text = false := by
  obtain ⟨c, rest, htext, hstart, hrest⟩ := h
  have hstrip : stripAsciiWhitespace (c :: rest) = c :: rest := by
    refine stripAsciiWhitespace_eq fun d hd => ?_
    rcases List.mem_cons.mp hd with rfl | hd
    · exact isVariableRest_not_space (by simp [isVariableRest, hstart])
    · exact isVariableRest_not_space (hrest d hd)
  have hsign : splitSign (c :: rest) = (false, c :: rest) := by
    unfold splitSign
    split
    · next heq => rw [(List.cons.inj heq).1] at hstart; cases hstart
    · next heq => rw [(List.cons.inj heq).1] at hstart; cases hstart
    · rfl
  have hquote : ¬ (c = '"') := by
    rintro rfl
    cases hstart
  simp [isNameConstant, htext, hquote, simpleAtoi, hstrip, hsign,
    isVariableStart_not_digit hstart]

/-! ### Predicates that are no comparisons -/

theorem IsWord.not_fromComparison {predicate : Predicate} (h : IsWord predicate.name) :
    ¬ predicate.FromComparison := by
  rintro ⟨operator, hoperator, hname⟩
  refine h.not_namedAfterComparison ⟨operator, hoperator, ?_⟩
  rcases hname with hname | hname
  · rw [hname]
  · rw [hname, String.toList_append]
    exact List.suffix_append _ _

theorem universe_not_fromComparison (speaker : Principal) (arg : String) (argType : ArgumentType) :
    ¬ (spokenCondition speaker (makeUniverseMembershipFact arg argType)).FromComparison := by
  rintro ⟨operator, hoperator, hname⟩
  have hstart : ∃ rest, (typeToUniverseName argType).toList = 'i' :: rest := by
    cases argType with
    | number => exact ⟨_, rfl⟩
    | principal => exact ⟨_, rfl⟩
    | custom name => exact ⟨_, String.toList_append⟩
  have hspoken : (spokenCondition speaker (makeUniverseMembershipFact arg argType)).name =
      "says_" ++ typeToUniverseName argType := rfl
  obtain ⟨rest, hstart⟩ := hstart
  rw [hspoken] at hname
  rcases hname with hname | hname
  · have hlist := congrArg String.toList hname
    rw [String.toList_append] at hlist
    have hfirst : ∀ operator ∈ numericOperators, operator.toList.head? ≠ some 's' := by decide
    exact hfirst operator hoperator (by rw [← hlist]; rfl)
  · rw [(String.append_right_inj _).mp hname] at hstart
    have hfirst : ∀ operator ∈ numericOperators, operator.toList.head? ≠ some 'i' := by decide
    exact hfirst operator hoperator (by rw [hstart]; rfl)

/-! ### The rules of a fact -/

theorem says_args {speaker : Principal} {p : Predicate} {v : String}
    (h : v ∈ (pushPrincipal "says_" speaker p).args) : v = speaker.name ∨ v ∈ p.args :=
  List.mem_cons.mp h

theorem mem_says_args {speaker : Principal} {p : Predicate} {v : String} (h : v ∈ p.args) :
    v ∈ (pushPrincipal "says_" speaker p).args :=
  List.mem_cons_of_mem _ h

section

variable {speaker : Principal} {n : ℕ}

theorem rangeRestricted_spokenRules (hspeaker : IsQuoted speaker.name) {baseFact : BaseFact}
    (h : baseFact.Lexed) (hpositive : (baseFactPredicate baseFact).sign = .positive) :
    ∀ rule ∈ spokenRules n speaker baseFact, rule.RangeRestricted := by
  have hacts : ∀ c, ¬ (pushPrincipal "says_" speaker (canActAsToDLIR c)).FromComparison :=
    fun c => IsWord.not_fromComparison (isWord_saysPrefix.append isWord_canActAs)
  cases baseFact with
  | predicate p => exact fun _ hrule => absurd hrule List.not_mem_nil
  | attr a =>
    intro rule hrule v hv hvariable
    cases List.mem_singleton.mp hrule
    rcases says_args hv with rfl | hv
    · exact absurd hspeaker hvariable.not_quoted
    rcases List.mem_cons.mp hv with rfl | hv
    · exact ⟨_, List.mem_cons_self .., rfl, hacts _, mem_says_args (List.mem_cons_self ..)⟩
    · refine ⟨_, List.mem_cons_of_mem _ (List.mem_singleton_self _), hpositive, ?_,
        mem_says_args (List.mem_cons_of_mem _ hv)⟩
      exact IsWord.not_fromComparison (isWord_saysPrefix.append h.isWord)
  | canActAs c =>
    intro rule hrule v hv hvariable
    cases List.mem_singleton.mp hrule
    rcases says_args hv with rfl | hv
    · exact absurd hspeaker hvariable.not_quoted
    rcases List.mem_cons.mp hv with rfl | hv
    · exact ⟨_, List.mem_cons_self .., rfl, hacts _, mem_says_args (List.mem_cons_self ..)⟩
    · rw [List.mem_singleton.mp hv] at hvariable
      exact absurd h.2 hvariable.not_quoted

theorem rangeRestricted_delegationRules (hspeaker : IsQuoted speaker.name)
    (chain : List Principal) {inner : Predicate} (hname : IsWord inner.name)
    (hpositive : inner.sign = .positive) :
    ∀ rule ∈ delegationRules speaker n chain inner, rule.RangeRestricted := by
  induction chain generalizing n inner with
  | nil => exact fun _ hrule => absurd hrule List.not_mem_nil
  | cons delegatee chain ih =>
    intro rule hrule
    rcases List.mem_cons.mp hrule with rfl | hrule
    · intro v hv hvariable
      rcases says_args hv with rfl | hv
      · exact absurd hspeaker hvariable.not_quoted
      · exact ⟨_, List.mem_cons_self .., hpositive,
          IsWord.not_fromComparison (isWord_saysPrefix.append hname), mem_says_args hv⟩
    · have hpushed : IsWord (pushPrincipal "canSay_" delegatee inner).name :=
        isWord_canSay.append hname
      exact ih hpushed hpositive rule hrule

theorem rangeRestricted_generatedRules (hspeaker : IsQuoted speaker.name) {fact : Fact}
    (h : fact.Lexed) (hpositive : fact.base.sign = .positive) :
    ∀ rule ∈ fact.generatedRules n speaker, rule.RangeRestricted := by
  intro rule hrule
  rcases List.mem_append.mp hrule with hrule | hrule
  · exact rangeRestricted_spokenRules hspeaker h.baseFact hpositive rule hrule
  · exact rangeRestricted_delegationRules hspeaker _ h.baseFact.isWord hpositive rule hrule

end

/-! ### The rules of the program -/

theorem chainPredicate_args {chain : List Principal} {inner : Predicate} {v : String}
    (h : v ∈ (chainPredicate chain inner).args) :
    v ∈ chain.map Principal.name ∨ v ∈ inner.args := by
  induction chain generalizing inner with
  | nil => exact .inr h
  | cons delegatee chain ih =>
    rcases ih h with h | h
    · exact .inl (List.mem_cons_of_mem _ h)
    · rcases List.mem_cons.mp h with rfl | h
      · exact .inl (List.mem_cons_self ..)
      · exact .inr h

/-- The main rule of an assertion to which the universe conditions are added. -/
theorem rangeRestricted_mainRule {declEnv : AList fun _ : String => RelationDeclaration}
    {speaker : Principal} {assertion assertion' : Assertion} (hspeaker : IsQuoted speaker.name)
    (h : assertion.Lexed) (hadd : addUniverseConditions declEnv assertion = some assertion') :
    (assertion'.mainRule speaker).RangeRestricted := by
  obtain ⟨conditions, hconditions, hlhs, hrhs⟩ := addUniverseConditions_spec hadd
  intro v hv hvariable
  rw [Assertion.mainRule, hlhs] at hv
  rcases says_args hv with rfl | hv
  · exact absurd hspeaker hvariable.not_quoted
  rcases chainPredicate_args hv with hv | hv
  · obtain ⟨delegatee, hdelegatee, rfl⟩ := List.mem_map.mp hv
    exact absurd (h.lhs.chain delegatee hdelegatee) hvariable.not_quoted
  obtain ⟨argType, hmem⟩ :=
    getUniverseConditions_mem hconditions hv hvariable.not_nameConstant
  refine ⟨spokenCondition speaker (makeUniverseMembershipFact v argType), ?_, rfl,
    universe_not_fromComparison speaker v argType, mem_says_args (List.mem_singleton_self v)⟩
  rw [Assertion.mainRule, hrhs]
  exact List.mem_map_of_mem (List.mem_append_left _ hmem)

theorem rangeRestricted_universe {literalTypeMap : List (String × ArgumentType)}
    (hconstants : ∀ typing ∈ literalTypeMap, isNameConstant typing.1 = true)
    {said : Principal × Assertion}
    (h : said ∈ (getUniverseDefiningFacts literalTypeMap).flatMap SaysAssertion.said) (n : ℕ) :
    ∀ rule ∈ said.2.rules n said.1, rule.RangeRestricted := by
  obtain ⟨saysAssertion, hspoken, hsaid⟩ := List.mem_flatMap.mp h
  obtain ⟨principal, hprincipal, hspoken⟩ := List.mem_flatMap.mp hspoken
  obtain ⟨typing, htyping, rfl⟩ := List.mem_map.mp hspoken
  cases List.mem_singleton.mp hsaid
  intro rule hrule v hv hvariable
  cases List.mem_singleton.mp hrule
  have hconstant : isNameConstant v = true := by
    rcases says_args hv with rfl | hv
    · exact hconstants principal (List.mem_filter.mp hprincipal).1
    · rw [List.mem_singleton.mp hv]
      exact hconstants typing htyping
  rw [hvariable.not_nameConstant] at hconstant
  cases hconstant

theorem forall₂_mem_right {α β : Type} {R : α → β → Prop} {l : List α} {l' : List β}
    (h : List.Forall₂ R l l') {b : β} (hb : b ∈ l') : ∃ a ∈ l, R a b := by
  obtain ⟨i, hi, rfl⟩ := List.getElem_of_mem hb
  obtain ⟨hlength, hall⟩ := List.forall₂_iff_get.mp h
  exact ⟨_, List.get_mem l ⟨i, hlength ▸ hi⟩, hall i (hlength ▸ hi) hi⟩

theorem not_isVariable_dummy : ¬ IsVariable "\"dummy_var\"" :=
  fun h => h.not_quoted ⟨"dummy_var".toList, by decide⟩

/-- `.decl p(n : Number) "A" says "B" canSay p(x). "B" says p(3).` -/
def delegatedContext : ProgramContext where
  statement := .relationDeclaration ⟨false, "p", ("n", .numberType), []⟩
  statements := [
    .saysAssertion (.saysSingle "\"A\"" (.factAssertion (.canSayFact "\"B\""
      (.flatFactFact (.predFact (unaryPredicate "p" "x"))))) none),
    .saysAssertion (.saysSingle "\"B\"" (.factAssertion
      (.flatFactFact (.predFact ⟨false, "p", .number "3", []⟩))) none)]

theorem delegatedContext_derivable : (constructProgram delegatedContext).Derivable := by
  refine ⟨".decl p(n : Number) \"A\" says \"B\" canSay p(x). \"B\" says p(3).",
    delegatedContext, ?_, rfl⟩
  unfold Derives
  decide +kernel

end Raksha.AuthLogic
