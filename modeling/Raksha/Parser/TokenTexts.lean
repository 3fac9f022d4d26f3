import Raksha.Parser.IrGrammar
import Raksha.Parser.IrWords

/-!
# Texts of tokens

What the tokens of a text look like, and the tokens that a parse tree has.
-/

namespace Raksha.Parser
open Raksha.Lib.Lexing

/-! ### Texts -/

/-- A token is the longest match at its place, and the rule of its type has matched it. -/
theorem exists_match {text : List Char} {token : Token} (matcher : Matcher Char)
    (h : token ∈ irTokens text)
    (hrules : ∀ rule ∈ irRules, rule.type = token.type → rule.matcher = matcher)
    (hbounded : ∀ input n, matcher input = some n → n ≤ input.length) :
    ∃ word rest, token.text = String.ofList word ∧ matcher (word ++ rest) = some word.length ∧
      longestMatch irRules (word ++ rest) = some (token.type, word.length) := by
  obtain ⟨⟨type, word⟩, hmem, rfl⟩ := List.mem_map.mp h
  obtain ⟨input, n, hmatch, hword⟩ := Lexer.tokens_spec hmem
  simp only at hmatch hword hrules
  subst hword
  obtain ⟨⟨rule, hrule, htype, hmatcher⟩, -⟩ := longestMatch_spec hmatch
  rw [hrules rule hrule htype] at hmatcher
  have hlength : (input.take n).length = n := by
    rw [List.length_take, min_eq_left (hbounded _ _ hmatcher)]
  refine ⟨input.take n, input.drop n, rfl, ?_, ?_⟩
  · rw [List.take_append_drop, hlength, hmatcher]
  · rw [List.take_append_drop, hlength]
    exact hmatch

theorem through_eq_some {closing : Char} {input : List Char} {n : ℕ}
    (h : through [closing] input = some n) :
    ∃ body rest, input = body ++ closing :: rest ∧ closing ∉ body ∧ n = body.length + 1 := by
  induction input generalizing n with
  | nil => cases h
  | cons c input ih =>
    rw [through] at h
    split at h
    · next hclosing =>
      cases h
      obtain ⟨rest, hrest⟩ := List.isPrefixOf_iff_prefix.mp hclosing
      exact ⟨[], rest, hrest.symm, List.not_mem_nil, rfl⟩
    · next hother =>
      obtain ⟨m, hm, rfl⟩ := Option.map_eq_some_iff.mp h
      obtain ⟨body, rest, rfl, hbody, rfl⟩ := ih hm
      refine ⟨c :: body, rest, rfl, ?_, rfl⟩
      intro hmem
      rcases List.mem_cons.mp hmem with rfl | hmem
      · simp [List.isPrefixOf] at hother
      · exact hbody hmem

theorem stringLiteral_eq_some {input : List Char} {n : ℕ} (h : stringLiteral input = some n) :
    ∃ body rest, input = '"' :: (body ++ '"' :: rest) ∧ '"' ∉ body ∧ n = body.length + 2 := by
  obtain ⟨k, m, hk, hm, rfl⟩ := sequence_eq_some.mp h
  obtain ⟨⟨rest, rfl⟩, rfl⟩ := literal_eq_some.mp hk
  obtain ⟨body, rest', hrest, hbody, rfl⟩ := through_eq_some hm
  rw [List.drop_left] at hrest
  refine ⟨body, rest', by rw [hrest]; rfl, hbody, ?_⟩
  rw [List.length_singleton]
  omega

/-- A string literal is a text without double quotes between two of them. -/
theorem stringLiteral_text {text : List Char} {token : Token} (h : token ∈ irTokens text)
    (htype : token.type = .stringLiteral) :
    ∃ body, '"' ∉ body ∧ token.text.toList = '"' :: (body ++ ['"']) := by
  obtain ⟨word, rest, htext, hmatch, -⟩ := exists_match stringLiteral h
    (by rw [htype]; simp [irRules, irRulesBeforeId, irRulesAfterId])
    (by
      intro input n hn
      obtain ⟨body, rest, rfl, -, rfl⟩ := stringLiteral_eq_some hn
      simp only [List.length_cons, List.length_append]
      omega)
  obtain ⟨body, rest', hinput, hbody, hlength⟩ := stringLiteral_eq_some hmatch
  refine ⟨body, hbody, ?_⟩
  have hword : (word ++ rest).take word.length =
      ('"' :: (body ++ ['"']) ++ rest').take ('"' :: (body ++ ['"'])).length := by
    rw [hinput, hlength]
    simp
  rw [htext, String.toList_ofList]
  rwa [List.take_left, List.take_left] at hword

/-! ### Tokens of a parse tree -/

theorem mem_separated {α : Type} {print : α → List Token} {t : Token} {value : α}
    {values : List α} (hvalue : value ∈ values) (ht : t ∈ print value) :
    t ∈ separated comma print values := by
  cases values with
  | nil => cases hvalue
  | cons first values =>
    rw [separated, List.mem_append]
    rcases List.mem_cons.mp hvalue with rfl | hvalue
    · exact .inl ht
    · exact .inr (List.mem_flatMap.mpr ⟨value, hvalue, List.mem_cons_of_mem _ ht⟩)

theorem mem_tokens_of_operation {context : ModuleContext} {block : BlockContext}
    {operation : OperationContext} {t : Token} (hblock : block ∈ context.block)
    (hoperation : operation ∈ block.operation) (ht : t ∈ operation.tokens) :
    t ∈ context.tokens := by
  have hin : t ∈ block.tokens := by
    refine List.mem_cons_of_mem _ (List.mem_cons_of_mem _ (List.mem_cons_of_mem _ ?_))
    exact List.mem_append_left _ (List.mem_flatMap.mpr ⟨operation, hoperation, ht⟩)
  refine List.mem_cons_of_mem _ (List.mem_cons_of_mem _ (List.mem_cons_of_mem _ ?_))
  exact List.mem_append_left _ (List.mem_flatMap.mpr ⟨block, hblock, hin⟩)

theorem mem_tokens_of_attribute {operation : OperationContext} {attr : AttributeContext}
    {t : Token} (hattribute : attr ∈ operation.attributeList) (ht : t ∈ attr.tokens) :
    t ∈ operation.tokens := by
  refine List.mem_append_right _ (List.mem_cons_of_mem _ (List.mem_cons_of_mem _
    (List.mem_cons_of_mem _ ?_)))
  exact List.mem_append_left _ (mem_separated hattribute ht)

end Raksha.Parser
