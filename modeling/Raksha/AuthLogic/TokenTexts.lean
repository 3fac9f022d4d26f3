import Mathlib.Data.List.TakeWhile
import Raksha.AuthLogic.AstConstruction
import Raksha.AuthLogic.LoweredRules
import Raksha.Parser.IrWords

/-!
# Texts of tokens and syntax trees

What the lexer rules say about the names, the principals and the arguments of a program of the
grammar.
-/

namespace Raksha.AuthLogic
open Raksha.Lib.Lexing

/-! ### Texts -/

def IsVariable (text : String) : Prop :=
  ∃ c rest, text.toList = c :: rest ∧ isVariableStart c = true ∧
    ∀ d ∈ rest, isVariableRest d = true

def IsQuoted (text : String) : Prop := ∃ inner, text.toList = '"' :: (inner ++ ['"'])

def IsNumber (text : String) : Prop :=
  text.toList ≠ [] ∧ ∀ c ∈ text.toList, c.isDigit = true

def IsArgument (text : String) : Prop := IsVariable text ∨ IsQuoted text ∨ IsNumber text

theorem IsVariable.not_quoted {text : String} (h : IsVariable text) : ¬ IsQuoted text := by
  rintro ⟨inner, hquoted⟩
  obtain ⟨c, rest, htext, hstart, -⟩ := h
  rw [htext, List.cons.injEq] at hquoted
  rw [hquoted.1] at hstart
  cases hstart

theorem IsVariable.not_number {text : String} (h : IsVariable text) : ¬ IsNumber text := by
  rintro ⟨-, hdigits⟩
  obtain ⟨c, rest, htext, hstart, -⟩ := h
  have hdigit := hdigits c (by rw [htext]; exact List.mem_cons_self ..)
  rcases Parser.isDigit_cases hdigit with
    rfl | rfl | rfl | rfl | rfl | rfl | rfl | rfl | rfl | rfl <;> cases hstart

theorem freshName_isVariable (n : ℕ) : IsVariable (freshName n) := by
  refine ⟨'x', '_' :: '_' :: (Nat.repr n).toList, ?_, rfl, ?_⟩
  · rw [freshName, String.toList_append]
    rfl
  · intro c hc
    rcases List.mem_cons.mp hc with rfl | hc
    · rfl
    rcases List.mem_cons.mp hc with rfl | hc
    · rfl
    simp [isVariableRest, isDigit_of_mem_toString hc]

/-! ### Tokens -/

theorem take_span {α : Type} (p : α → Bool) (input : List α) :
    input.take (span p input) = input.takeWhile p :=
  (List.prefix_iff_eq_take.mp (List.takeWhile_prefix p)).symm

theorem token_match {text : List Char} {token : Token} (h : token ∈ authLogicTokens text) :
    ∃ rule ∈ authLogicRules, rule.type = token.type ∧ ∃ input n, rule.matcher input = some n ∧
      token.text = String.ofList (input.take n) ∧
      longestMatch authLogicRules input = some (token.type, n) := by
  obtain ⟨⟨type, word⟩, hmem, rfl⟩ := List.mem_map.mp h
  obtain ⟨input, n, hmatch, hword⟩ := Lexer.tokens_spec hmem
  simp only at hmatch hword
  obtain ⟨⟨rule, hrule, htype, hmatcher⟩, -⟩ := longestMatch_spec hmatch
  exact ⟨rule, hrule, htype, input, n, hmatcher, by rw [hword], hmatch⟩

theorem one_eq_some {p : Char → Bool} {input : List Char} {n : ℕ} (h : one p input = some n) :
    ∃ c rest, input = c :: rest ∧ p c = true ∧ n = 1 := by
  cases input with
  | nil => cases h
  | cons c rest =>
    rw [one] at h
    split at h
    · next hc =>
      cases h
      exact ⟨c, rest, rfl, hc, rfl⟩
    · cases h

/-- The body of a constant: its first character, the others and the closing word. -/
theorem body_eq_some {start rest : Char → Bool} {closing input : List Char} {n : ℕ}
    (h : sequence (one start) (sequence (many rest) (literal closing)) input = some n) :
    ∃ c word tail, input = c :: (word ++ (closing ++ tail)) ∧ start c = true ∧
      (∀ d ∈ word, rest d = true) ∧ n = 1 + (word.length + closing.length) := by
  obtain ⟨k, m, hk, hm, rfl⟩ := sequence_eq_some.mp h
  obtain ⟨c, input', rfl, hc, rfl⟩ := one_eq_some hk
  obtain ⟨k', m', hk', hm', rfl⟩ := sequence_eq_some.mp hm
  rw [List.drop_succ_cons, List.drop_zero] at hk' hm'
  cases hk'
  obtain ⟨⟨tail, htail⟩, rfl⟩ := literal_eq_some.mp hm'
  refine ⟨c, input'.takeWhile rest, tail, ?_, hc, fun d hd => List.mem_takeWhile_imp hd, rfl⟩
  rw [htail, ← take_span, List.take_append_drop]

section

variable {text : List Char} {token : Token}

theorem variable_text (h : token ∈ authLogicTokens text) (htype : token.type = .variable) :
    IsVariable token.text ∧ token.text ≠ "canActAs" := by
  obtain ⟨rule, hrule, hruleType, input, n, hmatcher, htext, hmatch⟩ := token_match h
  have hrules : ∀ rule ∈ authLogicRules, rule.type = .variable → rule.matcher = variableWord := by
    simp [authLogicRules, keywordRules, rulesAfterVariable, word]
  rw [hrules rule hrule (hruleType.trans htype)] at hmatcher
  obtain ⟨k, m, hk, hm, rfl⟩ := sequence_eq_some.mp hmatcher
  obtain ⟨c, rest, rfl, hc, rfl⟩ := one_eq_some hk
  rw [List.drop_succ_cons, List.drop_zero] at hm
  cases hm
  have hlist : token.text.toList = c :: rest.takeWhile isVariableRest := by
    rw [htext, String.toList_ofList, Nat.add_comm, List.take_succ_cons, take_span]
  refine ⟨⟨c, _, hlist, hc, fun d hd => List.mem_takeWhile_imp hd⟩, ?_⟩
  -- The keyword is an earlier rule, so it would have won.
  intro hkeyword
  rw [hkeyword] at hlist
  have hstart : "canActAs".toList <+: c :: rest := by
    rw [hlist, List.cons_prefix_cons]
    exact ⟨rfl, List.takeWhile_prefix _⟩
  have hspan : 1 + span isVariableRest rest = "canActAs".toList.length := by
    rw [hlist, List.length_cons, span, Nat.add_comm]
  have hsplit : authLogicRules =
      keywordRules ++ ⟨.variable, variableWord⟩ :: rulesAfterVariable := rfl
  rw [htype, hsplit] at hmatch
  refine longestMatch_before hmatch ?_ (word .canActAs) ?_ ?_
  · simp [keywordRules, word]
  · simp [keywordRules]
  · rw [hspan]
    exact literal_eq_some.mpr ⟨hstart, rfl⟩

theorem stringLiteral_chars (h : token ∈ authLogicTokens text)
    (htype : token.type = .stringLiteral) : ∃ c inner, isConstantStart c = true ∧
      (∀ d ∈ inner, isConstantRest d = true) ∧
      token.text.toList = '"' :: ((c :: inner) ++ ['"']) := by
  obtain ⟨rule, hrule, hruleType, input, n, hmatcher, htext, -⟩ := token_match h
  have hrules : ∀ rule ∈ authLogicRules, rule.type = .stringLiteral →
      rule.matcher = stringLiteral := by
    simp [authLogicRules, keywordRules, rulesAfterVariable, word]
  rw [hrules rule hrule (hruleType.trans htype)] at hmatcher
  obtain ⟨k, m, hk, hm, rfl⟩ := sequence_eq_some.mp hmatcher
  obtain ⟨⟨rest, rfl⟩, rfl⟩ := literal_eq_some.mp hk
  rw [List.drop_left] at hm
  obtain ⟨c, inner, tail, rfl, hc, hinner, rfl⟩ := body_eq_some hm
  refine ⟨c, inner, hc, hinner, ?_⟩
  rw [htext, String.toList_ofList]
  have hwhole : ['"'] ++ c :: (inner ++ (['"'] ++ tail)) = ('"' :: c :: (inner ++ ['"'])) ++ tail := by
    simp
  rw [hwhole]
  exact List.take_left' (by simp; omega)

theorem stringLiteral_text (h : token ∈ authLogicTokens text) (htype : token.type = .stringLiteral) :
    IsQuoted token.text := by
  obtain ⟨c, inner, -, -, htext⟩ := stringLiteral_chars h htype
  exact ⟨c :: inner, htext⟩

theorem numLiteral_text (h : token ∈ authLogicTokens text) (htype : token.type = .numLiteral) :
    IsNumber token.text := by
  obtain ⟨rule, hrule, hruleType, input, n, hmatcher, htext, -⟩ := token_match h
  have hrules : ∀ rule ∈ authLogicRules, rule.type = .numLiteral → rule.matcher = numLiteral := by
    simp [authLogicRules, keywordRules, rulesAfterVariable, word]
  rw [hrules rule hrule (hruleType.trans htype), numLiteral, many1] at hmatcher
  split at hmatcher
  · cases hmatcher
  · next hpos =>
    cases hmatcher
    have hlist : token.text.toList = input.takeWhile Char.isDigit := by
      rw [htext, String.toList_ofList, take_span]
    rw [IsNumber, hlist]
    refine ⟨fun hnil => hpos ?_, fun c hc => List.mem_takeWhile_imp hc⟩
    rw [span, hnil, List.length_nil]

theorem sanitize_constant {inner : List Char} (h : ∀ c ∈ inner, c ≠ '"') :
    sanitizeMultilineString ('"' :: '"' :: '"' :: (inner ++ ['"', '"', '"'])) =
      '"' :: (inner.filter (· ≠ '\n') ++ ['"']) := by
  have hinner : sanitizeMultilineString (inner ++ ['"', '"', '"']) =
      inner.filter (· ≠ '\n') ++ ['"'] := by
    induction inner with
    | nil => rfl
    | cons c inner ih =>
      have hc : c ≠ '"' := h c (List.mem_cons_self ..)
      have ih := ih fun d hd => h d (List.mem_cons_of_mem _ hd)
      by_cases hline : c = '\n'
      · subst hline
        simpa [sanitizeMultilineString] using ih
      · rw [List.cons_append, sanitizeMultilineString, ih]
        · simp [hline]
        · exact hline
        · exact fun _ heq => absurd heq hc
  rw [sanitizeMultilineString, hinner]

theorem multilineStringLiteral_chars (h : token ∈ authLogicTokens text)
    (htype : token.type = .multilineStringLiteral) : ∃ c inner, isMultilineStart c = true ∧
      (∀ d ∈ inner, isMultilineRest d = true) ∧
      (sanitizeMultilineStringForPredicateArgument token.text).toList =
        '"' :: ((c :: inner).filter (· ≠ '\n') ++ ['"']) := by
  obtain ⟨rule, hrule, hruleType, input, n, hmatcher, htext, -⟩ := token_match h
  have hrules : ∀ rule ∈ authLogicRules, rule.type = .multilineStringLiteral →
      rule.matcher = multilineStringLiteral := by
    simp [authLogicRules, keywordRules, rulesAfterVariable, word]
  rw [hrules rule hrule (hruleType.trans htype)] at hmatcher
  obtain ⟨k, m, hk, hm, rfl⟩ := sequence_eq_some.mp hmatcher
  obtain ⟨⟨rest, rfl⟩, rfl⟩ := literal_eq_some.mp hk
  rw [List.drop_left] at hm
  obtain ⟨c, inner, tail, rfl, hc, hinner, rfl⟩ := body_eq_some hm
  have hquote : ∀ d ∈ c :: inner, d ≠ '"' := by
    rintro d hd rfl
    rcases List.mem_cons.mp hd with rfl | hd
    · cases hc
    · cases hinner _ hd
  have hlist : token.text.toList = '"' :: '"' :: '"' :: ((c :: inner) ++ ['"', '"', '"']) := by
    rw [htext, String.toList_ofList]
    have hwhole : ['"', '"', '"'] ++ c :: (inner ++ (['"', '"', '"'] ++ tail)) =
        ('"' :: '"' :: '"' :: ((c :: inner) ++ ['"', '"', '"'])) ++ tail := by
      simp
    rw [hwhole]
    exact List.take_left' (by simp; omega)
  refine ⟨c, inner, hc, hinner, ?_⟩
  rw [sanitizeMultilineStringForPredicateArgument, String.toList_ofList, hlist,
    sanitize_constant hquote]

theorem multilineStringLiteral_text (h : token ∈ authLogicTokens text)
    (htype : token.type = .multilineStringLiteral) :
    IsQuoted (sanitizeMultilineStringForPredicateArgument token.text) := by
  obtain ⟨c, inner, -, -, htext⟩ := multilineStringLiteral_chars h htype
  exact ⟨(c :: inner).filter (· ≠ '\n'), htext⟩

end

/-! ### Syntax trees -/

structure Predicate.Lexed (predicate : Predicate) : Prop where
  name : IsVariable predicate.name
  noKeyword : predicate.name ≠ "canActAs"
  args_ne : predicate.args ≠ []
  args : ∀ arg ∈ predicate.args, IsArgument arg

namespace BaseFact

def Lexed : BaseFact → Prop
  | predicate p => p.Lexed
  | attr a => IsQuoted a.principal.name ∧ a.predicate.Lexed
  | canActAs c => IsQuoted c.leftPrincipal.name ∧ IsQuoted c.rightPrincipal.name

def IsComparison (baseFact : BaseFact) : Prop :=
  ∃ operator ∈ numericOperators, ∃ left right,
    baseFact = predicate ⟨operator, [left, right], .positive⟩

end BaseFact

structure Fact.Lexed (fact : Fact) : Prop where
  chain : ∀ delegatee ∈ fact.delegationChain, IsQuoted delegatee.name
  baseFact : fact.baseFact.Lexed

structure Assertion.Lexed (assertion : Assertion) : Prop where
  lhs : assertion.lhs.Lexed
  rhs : ∀ condition ∈ assertion.rhs, condition.Lexed ∨ condition.IsComparison

structure Program.Lexed (program : Program) : Prop where
  declarations : ∀ declaration ∈ program.relationDeclarations,
    IsVariable declaration.relationName ∧ declaration.relationName ≠ "canActAs"
  said : ∀ said ∈ program.said, IsQuoted said.1.name ∧ said.2.Lexed
  queries : ∀ query ∈ program.queries,
    IsVariable query.name ∧ IsQuoted query.principal.name ∧ query.fact.Lexed

section

variable {text : List Char}

theorem lexed_predArg {context : PredArgContext} (h : context.tokens ⊆ authLogicTokens text) :
    IsArgument (constructPredArg context) := by
  have hmem := fun t (ht : t ∈ context.tokens) => h ht
  obtain literal | literal | name | literal := context <;>
    simp only [PredArgContext.tokens, List.mem_singleton, forall_eq] at hmem
  · exact .inr (.inl (stringLiteral_text hmem rfl))
  · have hquoted := multilineStringLiteral_text hmem rfl
    rw [constructPredArg]
    exact .inr (.inl hquoted)
  · exact .inl (variable_text hmem rfl).1
  · exact .inr (.inr (numLiteral_text hmem rfl))

theorem tokens_subset_separated {α : Type} (comma : Token) (print : α → List Token)
    {values : List α} {value : α} (h : value ∈ values) :
    print value ⊆ Parser.separated comma print values := by
  intro t ht
  cases values with
  | nil => cases h
  | cons first values =>
    rw [Parser.separated, List.mem_append]
    rcases List.mem_cons.mp h with rfl | h
    · exact .inl ht
    · exact .inr (List.mem_flatMap.mpr ⟨value, h, List.mem_cons_of_mem _ ht⟩)

theorem lexed_predicate {context : PredicateContext} (h : context.tokens ⊆ authLogicTokens text) :
    (constructPredicate context).Lexed := by
  have hlater := (List.append_subset.mp h).2
  obtain ⟨hname, hlater⟩ := List.cons_subset.mp hlater
  have hargs := (List.append_subset.mp (List.cons_subset.mp hlater).2).1
  obtain ⟨hvariable, hkeyword⟩ := variable_text hname rfl
  refine ⟨hvariable, hkeyword, List.cons_ne_nil _ _, ?_⟩
  intro arg harg
  obtain ⟨predArg, hpredArg, rfl⟩ := List.mem_map.mp harg
  exact lexed_predArg (List.Subset.trans (tokens_subset_separated _ _ hpredArg) hargs)

theorem lexed_flatFact {context : FlatFactContext} (h : context.tokens ⊆ authLogicTokens text) :
    (constructFlatFact context).Lexed := by
  cases context with
  | predFact predicate => exact lexed_predicate h
  | prinFact principal verbphrase =>
    obtain ⟨hprincipal, hverbphrase⟩ := List.cons_subset.mp h
    have hquoted := stringLiteral_text hprincipal rfl
    cases verbphrase with
    | predphrase predicate => exact ⟨hquoted, lexed_predicate hverbphrase⟩
    | actsAsPhrase principal' =>
      exact ⟨hquoted, stringLiteral_text ((List.cons_subset.mp hverbphrase).2
        (List.mem_singleton_self _)) rfl⟩

theorem binop_mem (binop : BinopContext) : (fixed binop.type).text ∈ numericOperators := by
  cases binop <;> decide

theorem lexed_rvalue {context : RvalueContext} (h : context.tokens ⊆ authLogicTokens text) :
    (constructRvalue context).Lexed ∨ (constructRvalue context).IsComparison := by
  cases context with
  | flatFactRvalue flatFact => exact .inl (lexed_flatFact h)
  | binopRvalue left binop right => exact .inr ⟨_, binop_mem binop, _, _, rfl⟩

theorem lexed_fact {context : FactContext} (h : context.tokens ⊆ authLogicTokens text)
    {chain : List Principal} (hchain : ∀ delegatee ∈ chain, IsQuoted delegatee.name) :
    (constructFact chain context).Lexed := by
  induction context generalizing chain with
  | flatFactFact flatFact => exact ⟨hchain, lexed_flatFact h⟩
  | canSayFact principal fact ih =>
    obtain ⟨hprincipal, hlater⟩ := List.cons_subset.mp h
    refine ih (List.cons_subset.mp hlater).2 ?_
    intro delegatee hdelegatee
    rcases List.mem_cons.mp hdelegatee with rfl | hdelegatee
    · exact stringLiteral_text hprincipal rfl
    · exact hchain delegatee hdelegatee

theorem lexed_assertion {context : AssertionContext} (h : context.tokens ⊆ authLogicTokens text) :
    (constructAssertion context).Lexed := by
  cases context with
  | factAssertion fact =>
    exact ⟨lexed_fact (List.append_subset.mp h).1 (by simp), by simp [constructAssertion,
      Assertion.rhs]⟩
  | hornClauseAssertion fact rvalue rvalues =>
    obtain ⟨hfact, hlater⟩ := List.append_subset.mp h
    have hrvalues := (List.append_subset.mp (List.cons_subset.mp hlater).2).1
    refine ⟨lexed_fact hfact (by simp), ?_⟩
    intro condition hcondition
    obtain ⟨context, hcontext, rfl⟩ := List.mem_map.mp hcondition
    exact lexed_rvalue (List.Subset.trans (tokens_subset_separated _ _ hcontext) hrvalues)

theorem lexed_saysAssertion {context : SaysAssertionContext}
    (h : context.tokens ⊆ authLogicTokens text) :
    ∀ said ∈ (constructSaysAssertion context).said, IsQuoted said.1.name ∧ said.2.Lexed := by
  intro said hsaid
  cases context with
  | saysSingle principal assertion exportTo =>
    obtain ⟨hprincipal, hlater⟩ := List.cons_subset.mp h
    have hassertion := (List.append_subset.mp (List.cons_subset.mp hlater).2).1
    cases List.mem_singleton.mp hsaid
    exact ⟨stringLiteral_text hprincipal rfl, lexed_assertion hassertion⟩
  | saysMulti principal assertion assertions exportTo =>
    obtain ⟨hprincipal, hlater⟩ := List.cons_subset.mp h
    have hassertions := (List.append_subset.mp
      (List.cons_subset.mp (List.cons_subset.mp hlater).2).2).1
    obtain ⟨constructed, hconstructed, rfl⟩ := List.mem_map.mp hsaid
    obtain ⟨context, hcontext, rfl⟩ := List.mem_map.mp hconstructed
    refine ⟨stringLiteral_text hprincipal rfl, lexed_assertion (?_ : _ ⊆ authLogicTokens text)⟩
    exact List.Subset.trans
      (fun t ht => List.mem_flatMap.mpr ⟨context, hcontext, ht⟩) hassertions

end

namespace ProgramContext

variable {context : ProgramContext}

theorem mem_saysAssertion {c : SaysAssertionContext} (h : c ∈ context.saysAssertion) :
    .saysAssertion c ∈ context.statement :: context.statements := by
  obtain ⟨statement, hmem, hstatement⟩ := List.mem_filterMap.mp h
  split at hstatement <;> cases hstatement
  exact hmem

theorem mem_query {c : QueryContext} (h : c ∈ context.query) :
    .query c ∈ context.statement :: context.statements := by
  obtain ⟨statement, hmem, hstatement⟩ := List.mem_filterMap.mp h
  split at hstatement <;> cases hstatement
  exact hmem

theorem mem_relationDeclaration {c : RelationDeclarationContext}
    (h : c ∈ context.relationDeclaration) :
    .relationDeclaration c ∈ context.statement :: context.statements := by
  obtain ⟨statement, hmem, hstatement⟩ := List.mem_filterMap.mp h
  split at hstatement <;> cases hstatement
  exact hmem

end ProgramContext

theorem Program.Derivable.lexed {program : Program} (h : program.Derivable) : program.Lexed := by
  obtain ⟨progText, context, hderives, rfl⟩ := h
  have hstatement : ∀ statement ∈ context.statement :: context.statements,
      statement.tokens ⊆ authLogicTokens progText.toList := by
    intro statement hmem t ht
    rw [hderives]
    exact List.mem_flatMap.mpr ⟨statement, hmem, ht⟩
  refine ⟨?_, ?_, ?_⟩
  · intro declaration hdeclaration
    obtain ⟨c, hc, rfl⟩ := List.mem_map.mp hdeclaration
    have htokens := hstatement _ (ProgramContext.mem_relationDeclaration hc)
    have hlater := (List.append_subset.mp (List.cons_subset.mp htokens).2).2
    exact variable_text (List.cons_subset.mp hlater).1 rfl
  · intro said hsaid
    obtain ⟨saysAssertion, hmem, hsaid⟩ := List.mem_flatMap.mp hsaid
    obtain ⟨c, hc, rfl⟩ := List.mem_map.mp hmem
    exact lexed_saysAssertion (hstatement _ (ProgramContext.mem_saysAssertion hc)) said hsaid
  · intro query hquery
    obtain ⟨c, hc, rfl⟩ := List.mem_map.mp hquery
    have htokens := hstatement _ (ProgramContext.mem_query hc)
    obtain ⟨hname, hlater⟩ := List.cons_subset.mp htokens
    have hlater := (List.cons_subset.mp (List.cons_subset.mp hlater).2).2
    obtain ⟨hprincipal, hlater⟩ := List.cons_subset.mp hlater
    have hfact := (List.append_subset.mp (List.cons_subset.mp hlater).2).1
    exact ⟨(variable_text hname rfl).1, stringLiteral_text hprincipal rfl,
      lexed_fact hfact (by simp)⟩

end Raksha.AuthLogic
