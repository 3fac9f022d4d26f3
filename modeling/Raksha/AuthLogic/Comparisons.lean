import Raksha.AuthLogic.SouffleEmitter
import Raksha.AuthLogic.TokenTexts

/-!
# Comparisons

What lowering makes of the comparisons among the conditions of an assertion, and how the emitter
prints it.
-/

namespace Raksha.AuthLogic

/-- Every comparison stands in the main rule at its place, as it is printed infix. -/
def KeepsComparisons (said : Principal × Assertion) (block : List Rule) : Prop :=
  ∃ main, block.getLast? = some main ∧
    ∀ (i : ℕ), ∀ operator ∈ numericOperators, ∀ left right : String,
    said.2.rhs[i]? = some (.predicate ⟨operator, [left, right], .positive⟩) →
    main.rhs[i]? = some ⟨operator, [left, right], .positive⟩ ∧
      emitPredicate ⟨operator, [left, right], .positive⟩ = some (left ++ operator ++ right)

/-- The name ends with a comparison operator. -/
def NamedAfterComparison (predicate : Predicate) : Prop :=
  ∃ operator ∈ numericOperators, operator.toList <:+ predicate.name.toList

structure ComparisonsSurvive (order : List (String × ℕ) → List (String × ℕ)) (program : Program) :
    Prop where
  kept : List.Forall₂ KeepsComparisons program.said (loweredAssertions program)
  noPrefix : ∀ rule ∈ (lower order program).rules, ∀ predicate ∈ rule.lhs :: rule.rhs,
    NamedAfterComparison predicate → predicate.isNumericOperator = true

/-! ### Names of lowered predicates -/

def IsWord (name : String) : Prop := ∀ c ∈ name.toList, isVariableRest c = true

theorem IsVariable.isWord {name : String} (h : IsVariable name) : IsWord name := by
  obtain ⟨c, rest, hname, hstart, hrest⟩ := h
  intro d hd
  rw [hname] at hd
  rcases List.mem_cons.mp hd with rfl | hd
  · simp [isVariableRest, hstart]
  · exact hrest d hd

theorem IsWord.append {name name' : String} (h : IsWord name) (h' : IsWord name') :
    IsWord (name ++ name') := by
  intro c hc
  rw [String.toList_append, List.mem_append] at hc
  exact hc.elim (h c) (h' c)

theorem isWord_saysPrefix : IsWord "says_" :=
  List.all_eq_true.mp rfl

theorem isWord_canSay : IsWord "canSay_" :=
  List.all_eq_true.mp rfl

theorem isWord_canActAs : IsWord "canActAs" :=
  List.all_eq_true.mp rfl

theorem IsWord.not_namedAfterComparison {predicate : Predicate} (h : IsWord predicate.name) :
    ¬ NamedAfterComparison predicate := by
  rintro ⟨operator, hoperator, hsuffix⟩
  have hends : ∀ operator ∈ numericOperators,
      operator.toList.any (fun c => !isVariableRest c) = true := by
    decide
  obtain ⟨c, hc, hnot⟩ := List.any_eq_true.mp (hends operator hoperator)
  rw [h c (hsuffix.subset hc)] at hnot
  cases hnot

theorem BaseFact.Lexed.isWord {baseFact : BaseFact} (h : baseFact.Lexed) :
    IsWord (baseFactPredicate baseFact).name := by
  cases baseFact with
  | predicate p => exact h.name.isWord
  | attr a =>
    have hempty : IsWord "" := List.all_eq_true.mp rfl
    exact hempty.append h.2.name.isWord
  | canActAs c => exact isWord_canActAs

/-- All predicates of the rule have words for names. -/
def Rule.WordNamed (rule : Rule) : Prop := ∀ predicate ∈ rule.lhs :: rule.rhs, IsWord predicate.name

theorem wordNamed_spokenRules (n : ℕ) (speaker : Principal) {baseFact : BaseFact}
    (h : baseFact.Lexed) : ∀ rule ∈ spokenRules n speaker baseFact, rule.WordNamed := by
  cases baseFact with
  | predicate p => exact fun _ hrule => absurd hrule List.not_mem_nil
  | attr a =>
    have hword := isWord_saysPrefix.append h.isWord
    have hacts := isWord_saysPrefix.append isWord_canActAs
    simpa [spokenRules, Rule.WordNamed, spokenAttributeRule, pushPrincipal, pushOntoPredicate]
      using ⟨hword, hacts, hword⟩
  | canActAs c =>
    have hacts := isWord_saysPrefix.append isWord_canActAs
    simpa [spokenRules, Rule.WordNamed, spokenCanActAsRule, pushPrincipal, pushOntoPredicate,
      canActAsToDLIR] using hacts

theorem wordNamed_delegationRules (n : ℕ) (speaker : Principal) (chain : List Principal)
    {inner : Predicate} (h : IsWord inner.name) :
    (∀ rule ∈ delegationRules speaker n chain inner, rule.WordNamed) ∧
      IsWord (chainPredicate chain inner).name := by
  induction chain generalizing n inner with
  | nil => exact ⟨fun _ hrule => absurd hrule List.not_mem_nil, h⟩
  | cons delegatee chain ih =>
    have hpushed : IsWord (pushPrincipal "canSay_" delegatee inner).name :=
      isWord_canSay.append h
    obtain ⟨hrules, hname⟩ := ih (n + 1) hpushed
    refine ⟨?_, hname⟩
    intro rule hrule
    rcases List.mem_cons.mp hrule with rfl | hrule
    · have hinner := isWord_saysPrefix.append h
      have hcanSay := isWord_saysPrefix.append (isWord_canSay.append h)
      simpa [Rule.WordNamed, delegationRule, pushPrincipal, pushOntoPredicate]
        using ⟨hinner, hcanSay⟩
    · exact hrules rule hrule

theorem Fact.Lexed.wordNamed {fact : Fact} (h : fact.Lexed) (n : ℕ) (speaker : Principal) :
    (∀ rule ∈ fact.generatedRules n speaker, rule.WordNamed) ∧ IsWord fact.toPredicate.name := by
  obtain ⟨hdelegation, hname⟩ := wordNamed_delegationRules (n + fact.baseFact.freshVars) speaker
    fact.delegationChain h.baseFact.isWord
  refine ⟨?_, hname⟩
  intro rule hrule
  rcases List.mem_append.mp hrule with hrule | hrule
  · exact wordNamed_spokenRules n speaker h.baseFact rule hrule
  · exact hdelegation rule hrule

theorem Assertion.Lexed.wordNamed {assertion : Assertion} (h : assertion.Lexed)
    (hplain : ∀ condition ∈ assertion.rhs, ¬ condition.IsComparison) (n : ℕ)
    (speaker : Principal) : ∀ rule ∈ assertion.rules n speaker, rule.WordNamed := by
  obtain ⟨hgenerated, hname⟩ := h.lhs.wordNamed (n + assertion.conditionVars) speaker
  intro rule hrule
  rcases List.mem_append.mp hrule with hrule | hrule
  · exact hgenerated rule hrule
  rw [List.mem_singleton.mp hrule]
  intro predicate hpredicate
  rcases List.mem_cons.mp hpredicate with rfl | hpredicate
  · exact isWord_saysPrefix.append hname
  obtain ⟨condition, hcondition, rfl⟩ := List.mem_map.mp hpredicate
  have hlexed := (h.rhs condition hcondition).resolve_right (hplain condition hcondition)
  exact isWord_saysPrefix.append hlexed.isWord

theorem Program.Lexed.wordNamed {program : Program} (h : program.Lexed)
    (hplain : ∀ said ∈ program.said, ∀ condition ∈ said.2.rhs, ¬ condition.IsComparison)
    (order : List (String × ℕ) → List (String × ℕ)) :
    ∀ rule ∈ (lower order program).rules, rule.WordNamed := by
  have hdummy : IsWord dummyPredicate.name := List.all_eq_true.mp rfl
  intro rule hrule
  rw [lower_rules, List.append_assoc, List.mem_append] at hrule
  rcases hrule with hrule | hrule
  · obtain ⟨block, hblock, hrule⟩ := List.mem_flatten.mp hrule
    rw [loweredAssertions_eq] at hblock
    obtain ⟨n, said, hsaid, rfl⟩ := mem_mapDrawn hblock
    exact (h.said said hsaid).2.wordNamed (hplain said hsaid) n said.1 rule hrule
  rcases List.mem_append.mp hrule with hrule | hrule
  · obtain ⟨query, hquery, rfl⟩ := List.mem_map.mp hrule
    obtain ⟨hname, -, hfact⟩ := h.queries query hquery
    have hmain := isWord_saysPrefix.append (hfact.wordNamed 0 query.principal).2
    simpa [Rule.WordNamed, queryRule, pushPrincipal, pushOntoPredicate]
      using ⟨hname.isWord, hmain, hdummy⟩
  · rw [List.mem_singleton.mp hrule]
    simpa [Rule.WordNamed] using hdummy

/-! ### Comparisons among the conditions -/

theorem Assertion.mainRule_comparison {assertion : Assertion} {i : ℕ}
    {operator left right : String} (h : assertion.rhs[i]? =
      some (.predicate ⟨operator, [left, right], .positive⟩)) (speaker : Principal) :
    (assertion.mainRule speaker).rhs[i]? =
      some ⟨"says_" ++ operator, [speaker.name, left, right], .positive⟩ := by
  rw [Assertion.mainRule, List.getElem?_map, h]
  rfl

theorem Assertion.getLast_rules (assertion : Assertion) (n : ℕ) (speaker : Principal) :
    (assertion.rules n speaker).getLast? = some (assertion.mainRule speaker) := by
  rw [Assertion.rules, List.getLast?_concat]

theorem keepsComparisons_iff (n : ℕ) (said : Principal × Assertion) :
    KeepsComparisons said (said.2.rules n said.1) ↔
      ∀ condition ∈ said.2.rhs, ¬ condition.IsComparison := by
  rw [KeepsComparisons, said.2.getLast_rules]
  constructor
  · rintro ⟨main, hmain, hkept⟩ condition hcondition ⟨operator, hoperator, left, right, rfl⟩
    cases hmain
    obtain ⟨i, hi, hget⟩ := List.getElem_of_mem hcondition
    have hi' := List.getElem?_eq_some_iff.mpr ⟨hi, hget⟩
    have hstands := (hkept i operator hoperator left right hi').1
    rw [said.2.mainRule_comparison hi'] at hstands
    simp at hstands
  · intro hplain
    refine ⟨_, rfl, fun i operator hoperator left right hi => ?_⟩
    exact absurd ⟨operator, hoperator, left, right, rfl⟩ (hplain _ (List.mem_of_getElem? hi))

/-! ### A comparison and a rule without one -/

def unaryPredicate (name argument : String) : PredicateContext :=
  ⟨false, name, .variable argument, []⟩

/-- `"A" says p(x) :- q(x), x < 5.` -/
def smallerContext : ProgramContext where
  statement := .saysAssertion (.saysSingle "\"A\"" (.hornClauseAssertion
    (.flatFactFact (.predFact (unaryPredicate "p" "x")))
    (.flatFactRvalue (.predFact (unaryPredicate "q" "x")))
    [.binopRvalue (.variable "x") .ltbinop (.number "5")]) none)
  statements := []

/-- `"A" says p(x) :- q(x).` -/
def plainContext : ProgramContext where
  statement := .saysAssertion (.saysSingle "\"A\"" (.hornClauseAssertion
    (.flatFactFact (.predFact (unaryPredicate "p" "x")))
    (.flatFactRvalue (.predFact (unaryPredicate "q" "x"))) []) none)
  statements := []

theorem smallerContext_derivable : (constructProgram smallerContext).Derivable := by
  refine ⟨"\"A\" says p(x) :- q(x), x < 5.", smallerContext, ?_, rfl⟩
  unfold Derives
  decide +kernel

theorem plainContext_derivable : (constructProgram plainContext).Derivable := by
  refine ⟨"\"A\" says p(x) :- q(x).", plainContext, ?_, rfl⟩
  unfold Derives
  decide +kernel

theorem smaller_emittedPrefix : (constructProgram smallerContext).Derivable ∧
    ¬ ComparisonsSurvive id (constructProgram smallerContext) ∧
    (loweredAssertions (constructProgram smallerContext)).flatten.map emitAssertion =
      [some "says_p(\"A\", x) :- says_q(\"A\", x), says_<(\"A\", x, 5)."] := by
  refine ⟨smallerContext_derivable, ?_, by decide +kernel⟩
  intro hsurvive
  have hkept := hsurvive.kept
  rw [loweredAssertions_eq, forall₂_mapDrawn] at hkept
  have hplain := (keepsComparisons_iff _ _).mp (hkept 0 _ rfl)
  exact hplain (.predicate ⟨"<", ["x", "5"], .positive⟩) (by decide)
    ⟨"<", by decide, "x", "5", rfl⟩

theorem comparisonsSurvive_iff (order : List (String × ℕ) → List (String × ℕ)) (program : Program)
    (h : program.Derivable) : ComparisonsSurvive order program ↔
      ∀ said ∈ program.said, ∀ condition ∈ said.2.rhs, ¬ condition.IsComparison := by
  constructor
  · intro hsurvive said hsaid
    have hkept := hsurvive.kept
    rw [loweredAssertions_eq, forall₂_mapDrawn] at hkept
    obtain ⟨i, hi⟩ := List.getElem?_of_mem hsaid
    exact (keepsComparisons_iff _ said).mp (hkept i said hi)
  · intro hplain
    refine ⟨?_, ?_⟩
    · rw [loweredAssertions_eq, forall₂_mapDrawn]
      exact fun i said hi =>
        (keepsComparisons_iff _ said).mpr (hplain said (List.mem_of_getElem? hi))
    · intro rule hrule predicate hpredicate hnamed
      exact absurd hnamed
        (h.lexed.wordNamed hplain order rule hrule predicate hpredicate).not_namedAfterComparison

theorem plain_comparisonsSurvive : ComparisonsSurvive id (constructProgram plainContext) :=
  (comparisonsSurvive_iff id _ plainContext_derivable).mpr (by
    have hrhs : ∀ said ∈ (constructProgram plainContext).said,
        said.2.rhs = [.predicate ⟨"q", ["x"], .positive⟩] := by
      decide
    rintro said hsaid condition hcondition ⟨operator, -, left, right, rfl⟩
    rw [hrhs said hsaid] at hcondition
    simp at hcondition)

end Raksha.AuthLogic
