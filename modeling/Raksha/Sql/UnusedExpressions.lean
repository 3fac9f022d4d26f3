import Raksha.Sql.DriverVerdict

/-!
# Unused expressions

The verdict of the driver depends on the expressions that the last one is computed from and on the
tag transforms that apply a special rule to one of them, which count even where no expression
refers to them. Other expressions do not matter, nor does the order of the arena.
-/

namespace Raksha.Sql.Decode
open Raksha.Common Raksha.Ir Raksha.PolicyEngine

/-- The arenas have the same expressions under the ids, which are closed under references, and the
same special rules for them. -/
structure AgreeOn (live : UInt64 → Prop) (arena arena' : List IdExpressionPair) : Prop where
  pairs : ∀ pair : IdExpressionPair, live pair.id → (pair ∈ arena ↔ pair ∈ arena')
  references : ∀ pair ∈ arena, live pair.id → ∀ id ∈ pair.expression.references, live id
  rules : ∀ id, live id → ∀ ruleName, TagTransformOp.IsSpecialRule ruleName →
    (AppliesRule arena ruleName id ↔ AppliesRule arena' ruleName id)

theorem expressionTags_eq_of_rules (policy : Finset Souffle.SqlPolicyRule)
    {arena arena' : List IdExpressionPair} (tags : UInt64 → ExpressionTags)
    (pair : IdExpressionPair)
    (h : ∀ ruleName, TagTransformOp.IsSpecialRule ruleName →
      (AppliesRule arena ruleName pair.id ↔ AppliesRule arena' ruleName pair.id)) :
    expressionTags policy arena tags pair = expressionTags policy arena' tags pair := by
  have hunion := h TagTransformOp.unionItagRule (Or.inr rfl)
  have hintersect := h TagTransformOp.intersectItagRule (Or.inl rfl)
  unfold expressionTags
  cases pair.expression with
  | mergeOperation merge => simp only [mergeTags, hunion, hintersect]
  | exprVariantNotSet => rfl
  | sourceTableColumn column => rfl
  | literal text => rfl
  | tagTransform transform => rfl

/-- Live expressions have the same tags in both arenas, by induction on the place in the first. -/
theorem AgreeOn.arenaTags_eq {live : UInt64 → Prop} {arena arena' : List IdExpressionPair}
    (h : AgreeOn live arena arena') (hdeclared : WellDeclared arena)
    (hdeclared' : WellDeclared arena') (policy : Finset Souffle.SqlPolicyRule) (k : ℕ) :
    ∀ pair, arena[k]? = some pair → live pair.id →
      arenaTags policy arena pair.id = arenaTags policy arena' pair.id := by
  induction k using Nat.strong_induction_on with
  | h k ih =>
    intro pair hk hlive
    have hpair := List.mem_of_getElem? hk
    have htags : arenaTags policy arena pair.id =
        expressionTags policy arena (arenaTags policy arena) pair :=
      tagsUpTo_eq policy arena hdeclared pair hpair
    have htags' : arenaTags policy arena' pair.id =
        expressionTags policy arena' (arenaTags policy arena') pair :=
      tagsUpTo_eq policy arena' hdeclared' pair ((h.pairs pair hlive).mp hpair)
    rw [htags, htags', expressionTags_eq_of_rules policy _ pair (h.rules pair.id hlive)]
    refine expressionTags_congr policy arena' ?_
    intro id hid
    have hid' := h.references pair hpair hlive id hid
    obtain ⟨-, j, hj, earlier, hearlier, rfl⟩ := hdeclared.declared k pair hk id hid
    exact ih j hj earlier hearlier hid'

/-- Arenas without strings that need escapes get the same verdict if they agree on what their last
expression needs, whatever the iteration order of the hash maps and the ordinal numbers of the
symbols are. -/
theorem verify_eq_of_agreeOn (reader : FactsReader) (hreads : reader.ReadsWritten)
    (policyString : String)
    (hrules : ∀ rule ∈ reader.isSqlPolicyRule policyString,
      ∀ rule' ∈ reader.isSqlPolicyRule policyString,
      rule.policyRuleName = rule'.policyRuleName → rule = rule')
    (live : UInt64 → Prop) (arena arena' : List IdExpressionPair)
    (hagree : AgreeOn live arena arena') (hdeclared : WellDeclared arena)
    (hdeclared' : WellDeclared arena') (harena : UnescapedArena arena)
    (harena' : UnescapedArena arena') (last last' : IdExpressionPair)
    (hlast : arena.getLast? = some last) (hlast' : arena'.getLast? = some last')
    (hsame : last.id = last'.id) (hlive : live last.id)
    (ord ord' : Souffle.Symbol → ℕ) (hord : Function.Injective ord)
    (hord' : Function.Injective ord') (floatToString : BitVec 64 → String)
    (order order' : IterationOrder) :
    verify ord hord reader floatToString order arena policyString =
      verify ord' hord' reader floatToString order' arena' policyString := by
  obtain ⟨k, hk⟩ := List.getElem?_of_mem (List.mem_of_getLast? hlast)
  have htags := hagree.arenaTags_eq hdeclared hdeclared' (reader.isSqlPolicyRule policyString) k
    last hk hlive
  rw [verify_eq_ok ord hord floatToString order hreads hrules hlast hdeclared harena,
    verify_eq_ok ord' hord' floatToString order' hreads hrules hlast' hdeclared' harena', htags,
    hsame]

/-- The literal and its transform behind a literal that nothing refers to. -/
def labelledLiteralWithUnused : List IdExpressionPair :=
  ([⟨3, .literal ⟨"unused"⟩⟩] ++ [⟨1, .literal ⟨"hello"⟩⟩]) ++
    [⟨2, .tagTransform addTagTransform⟩]

theorem labelledLiteralWithUnused_wellDeclared : WellDeclared labelledLiteralWithUnused := by
  refine (wellDeclared_concat _ _).mpr ⟨(wellDeclared_concat _ _).mpr
    ⟨(wellDeclared_concat [] _).mpr ⟨wellDeclared_nil, ?_, ?_, ?_⟩, ?_, ?_, ?_⟩, ⟨?_, ?_⟩, ?_, ?_⟩
  · exact (by decide : "unused" ≠ "")
  · exact List.not_mem_nil
  · exact fun _ hid => absurd hid List.not_mem_nil
  · exact (by decide : "hello" ≠ "")
  · exact fun hid => absurd (List.mem_singleton.mp hid) (by decide : (1 : UInt64) ≠ 3)
  · exact fun _ hid => absurd hid List.not_mem_nil
  · exact (by decide : "add_tag" ≠ "")
  · exact AList.notMem_empty _
  · simp
  · intro id hid
    obtain rfl : id = 1 := List.mem_singleton.mp hid
    exact ⟨by decide, by simp⟩

theorem labelledLiteralWithUnused_unescaped : UnescapedArena labelledLiteralWithUnused := by
  have hunused : Unescaped "unused" := by decide
  exact List.forall_mem_cons.mpr ⟨hunused, labelledLiteral_unescaped⟩

theorem labelledLiteral_agreeOn :
    AgreeOn (· ≠ 3) labelledLiteral labelledLiteralWithUnused := by
  refine ⟨?_, ?_, ?_⟩
  · intro pair hne
    have hunused : pair ≠ ⟨3, .literal ⟨"unused"⟩⟩ := by
      rintro rfl
      exact hne rfl
    simp [labelledLiteral, labelledLiteralWithUnused, hunused]
  · simp [labelledLiteral, addTagTransform, Expression.references]
  · intro id _ ruleName _
    simp [AppliesRule, labelledLiteral, labelledLiteralWithUnused]

theorem labelledLiteral_unused_irrelevant :
    verify Souffle.symbolOrdinal Souffle.symbolOrdinal_injective addTagReader (fun _ => "") .same
        labelledLiteral addTagPolicy =
      verify Souffle.symbolOrdinal Souffle.symbolOrdinal_injective addTagReader (fun _ => "") .same
        labelledLiteralWithUnused addTagPolicy :=
  verify_eq_of_agreeOn addTagReader addTagReader_readsWritten addTagPolicy
    (addTagReader_rules addTagPolicy) (· ≠ 3) _ _ labelledLiteral_agreeOn
    labelledLiteral_wellDeclared labelledLiteralWithUnused_wellDeclared labelledLiteral_unescaped
    labelledLiteralWithUnused_unescaped _ _ rfl rfl rfl (by decide) _ _ _ _ _ _ _

end Raksha.Sql.Decode
