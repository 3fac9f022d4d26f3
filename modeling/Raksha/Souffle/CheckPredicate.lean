import Raksha.Souffle.ConfidentialityTags

/-!
# Check predicates

The relations of `check_predicate.dl` with the base cases of `taint.dl`. Subexpressions of the
checked predicates are evaluated from their own subexpressions, and the results are the numbers
0 and 1.
-/

namespace Raksha.Souffle

inductive IFCTag
  | iTag (iTag : IntegrityTag)
  | cTag (cTag : Tag)
deriving DecidableEq

inductive CheckPredicate
  | tagPresence (ap : AccessPath) (principal : Principal) (tag : IFCTag)
  | and (lhs rhs : CheckPredicate)
  | or (lhs rhs : CheckPredicate)
  | implies (antecedent consequent : CheckPredicate)
  | not (inner : CheckPredicate)
deriving DecidableEq

/-! ### The logical operators of Souffle on numbers -/

def lnot (x : ℤ) : ℤ := if x = 0 then 1 else 0

def land (x y : ℤ) : ℤ := if x ≠ 0 ∧ y ≠ 0 then 1 else 0

def lor (x y : ℤ) : ℤ := if x ≠ 0 ∨ y ≠ 0 then 1 else 0

section

variable (e : Evaluation) (checkP : Finset (Symbol × CheckPredicate))

inductive CheckSubExprs : CheckPredicate → Prop
  | check {name : Symbol} {pred : CheckPredicate} : (name, pred) ∈ checkP → CheckSubExprs pred
  | andLhs {lhs rhs : CheckPredicate} : CheckSubExprs (.and lhs rhs) → CheckSubExprs lhs
  | andRhs {lhs rhs : CheckPredicate} : CheckSubExprs (.and lhs rhs) → CheckSubExprs rhs
  | orLhs {lhs rhs : CheckPredicate} : CheckSubExprs (.or lhs rhs) → CheckSubExprs lhs
  | orRhs {lhs rhs : CheckPredicate} : CheckSubExprs (.or lhs rhs) → CheckSubExprs rhs
  | antecedent {ant cons : CheckPredicate} : CheckSubExprs (.implies ant cons) →
      CheckSubExprs ant
  | consequent {ant cons : CheckPredicate} : CheckSubExprs (.implies ant cons) →
      CheckSubExprs cons
  | inner {inner : CheckPredicate} : CheckSubExprs (.not inner) → CheckSubExprs inner

inductive PredicateEval : CheckPredicate → ℤ → Prop
  -- check_predicate.dl
  | not {inner : CheckPredicate} {subResult : ℤ} : CheckSubExprs checkP (.not inner) →
      PredicateEval inner subResult → PredicateEval (.not inner) (lnot subResult)
  | and {lhs rhs : CheckPredicate} {lhsResult rhsResult : ℤ} :
      CheckSubExprs checkP (.and lhs rhs) → PredicateEval lhs lhsResult →
      PredicateEval rhs rhsResult → PredicateEval (.and lhs rhs) (land lhsResult rhsResult)
  | or {lhs rhs : CheckPredicate} {lhsResult rhsResult : ℤ} :
      CheckSubExprs checkP (.or lhs rhs) → PredicateEval lhs lhsResult →
      PredicateEval rhs rhsResult → PredicateEval (.or lhs rhs) (lor lhsResult rhsResult)
  | implies {ant cons : CheckPredicate} {antResult consResult : ℤ} :
      CheckSubExprs checkP (.implies ant cons) → PredicateEval ant antResult →
      PredicateEval cons consResult →
      PredicateEval (.implies ant cons) (lor (lnot antResult) (land antResult consResult))
  -- taint.dl
  | cTagPresent {ap : AccessPath} {owner : Principal} {tag : Tag} :
      CheckSubExprs checkP (.tagPresence ap owner (.cTag tag)) → e.MayHaveTag ap owner tag →
      PredicateEval (.tagPresence ap owner (.cTag tag)) 1
  | cTagAbsent {ap : AccessPath} {owner : Principal} {tag : Tag} :
      CheckSubExprs checkP (.tagPresence ap owner (.cTag tag)) → ¬ e.MayHaveTag ap owner tag →
      PredicateEval (.tagPresence ap owner (.cTag tag)) 0
  | iTagPresent {ap : AccessPath} {owner : Principal} {tag : IntegrityTag} :
      CheckSubExprs checkP (.tagPresence ap owner (.iTag tag)) →
      e.MustHaveIntegrityTag ap owner tag → PredicateEval (.tagPresence ap owner (.iTag tag)) 1
  | iTagAbsent {ap : AccessPath} {owner : Principal} {tag : IntegrityTag} :
      CheckSubExprs checkP (.tagPresence ap owner (.iTag tag)) →
      ¬ e.MustHaveIntegrityTag ap owner tag →
      PredicateEval (.tagPresence ap owner (.iTag tag)) 0

inductive CheckAndResult : Symbol → Symbol → Prop
  | pass {name : Symbol} {pred : CheckPredicate} {result : ℤ} : (name, pred) ∈ checkP →
      PredicateEval e checkP pred result → result ≠ 0 → CheckAndResult name "PASS"
  | fail {name : Symbol} {pred : CheckPredicate} {result : ℤ} : (name, pred) ∈ checkP →
      PredicateEval e checkP pred result → result = 0 → CheckAndResult name "FAIL"

end

namespace CheckPredicate

/-- The subexpressions of a predicate, itself included. -/
def subExprs : CheckPredicate → List CheckPredicate
  | tagPresence ap principal tag => [tagPresence ap principal tag]
  | and lhs rhs => and lhs rhs :: (lhs.subExprs ++ rhs.subExprs)
  | or lhs rhs => or lhs rhs :: (lhs.subExprs ++ rhs.subExprs)
  | implies ant cons => implies ant cons :: (ant.subExprs ++ cons.subExprs)
  | not inner => not inner :: inner.subExprs

/-- The classical meaning of a predicate. -/
def Holds (e : Evaluation) : CheckPredicate → Prop
  | tagPresence ap owner (.cTag tag) => e.MayHaveTag ap owner tag
  | tagPresence ap owner (.iTag tag) => e.MustHaveIntegrityTag ap owner tag
  | and lhs rhs => lhs.Holds e ∧ rhs.Holds e
  | or lhs rhs => lhs.Holds e ∨ rhs.Holds e
  | implies ant cons => ant.Holds e → cons.Holds e
  | not inner => ¬ inner.Holds e

end CheckPredicate

def IsTruthValue (p : Prop) (result : ℤ) : Prop :=
  (result = 1 ∧ p) ∨ (result = 0 ∧ ¬ p)

section Truth

variable {p q : Prop} {x y : ℤ}

theorem IsTruthValue.unique (hx : IsTruthValue p x) (hy : IsTruthValue p y) : x = y := by
  rcases hx with ⟨rfl, hp⟩ | ⟨rfl, hp⟩ <;> rcases hy with ⟨rfl, hp'⟩ | ⟨rfl, hp'⟩
  · rfl
  · exact absurd hp hp'
  · exact absurd hp' hp
  · rfl

theorem IsTruthValue.ne_zero_iff (h : IsTruthValue p x) : x ≠ 0 ↔ p := by
  rcases h with ⟨rfl, hp⟩ | ⟨rfl, hp⟩ <;> simp [hp]

theorem isTruthValue_ite (c : Prop) [Decidable c] (h : c ↔ p) :
    IsTruthValue p (if c then 1 else 0) := by
  split
  · next hc => exact .inl ⟨rfl, h.mp hc⟩
  · next hc => exact .inr ⟨rfl, fun hp => hc (h.mpr hp)⟩

theorem IsTruthValue.lnot (h : IsTruthValue p x) : IsTruthValue (¬ p) (lnot x) :=
  isTruthValue_ite _ (by rw [← h.ne_zero_iff, not_not])

theorem IsTruthValue.land (hx : IsTruthValue p x) (hy : IsTruthValue q y) :
    IsTruthValue (p ∧ q) (land x y) :=
  isTruthValue_ite _ (and_congr hx.ne_zero_iff hy.ne_zero_iff)

theorem IsTruthValue.lor (hx : IsTruthValue p x) (hy : IsTruthValue q y) :
    IsTruthValue (p ∨ q) (lor x y) :=
  isTruthValue_ite _ (or_congr hx.ne_zero_iff hy.ne_zero_iff)

theorem IsTruthValue.implies (hx : IsTruthValue p x) (hy : IsTruthValue q y) :
    IsTruthValue (p → q) (Souffle.lor (Souffle.lnot x) (Souffle.land x y)) := by
  have hvalue := hx.lnot.lor (hx.land hy)
  have hiff : (¬ p ∨ p ∧ q) ↔ (p → q) := by tauto
  rwa [hiff] at hvalue

end Truth

section Evaluate

variable {e : Evaluation} {checkP : Finset (Symbol × CheckPredicate)}

/-- The demanded expressions are the subexpressions of the checked predicates. -/
theorem checkSubExprs_of_mem {pred : CheckPredicate} (h : CheckSubExprs checkP pred) :
    ∀ sub ∈ pred.subExprs, CheckSubExprs checkP sub := by
  induction pred with
  | tagPresence ap principal tag =>
    intro sub hsub
    rwa [List.mem_singleton.mp hsub]
  | and lhs rhs ihl ihr =>
    intro sub hsub
    rcases List.mem_cons.mp hsub with rfl | hsub
    · exact h
    · rcases List.mem_append.mp hsub with hl | hr
      · exact ihl h.andLhs sub hl
      · exact ihr h.andRhs sub hr
  | or lhs rhs ihl ihr =>
    intro sub hsub
    rcases List.mem_cons.mp hsub with rfl | hsub
    · exact h
    · rcases List.mem_append.mp hsub with hl | hr
      · exact ihl h.orLhs sub hl
      · exact ihr h.orRhs sub hr
  | implies ant cons ihl ihr =>
    intro sub hsub
    rcases List.mem_cons.mp hsub with rfl | hsub
    · exact h
    · rcases List.mem_append.mp hsub with hl | hr
      · exact ihl h.antecedent sub hl
      · exact ihr h.consequent sub hr
  | not inner ih =>
    intro sub hsub
    rcases List.mem_cons.mp hsub with rfl | hsub
    · exact h
    · exact ih h.inner sub hsub

theorem PredicateEval.isTruthValue {pred : CheckPredicate} {result : ℤ}
    (h : PredicateEval e checkP pred result) : IsTruthValue (pred.Holds e) result := by
  induction h with
  | not _ _ ih => exact ih.lnot
  | and _ _ _ ihl ihr => exact ihl.land ihr
  | or _ _ _ ihl ihr => exact ihl.lor ihr
  | implies _ _ _ ihl ihr => exact ihl.implies ihr
  | cTagPresent _ hmay => exact .inl ⟨rfl, hmay⟩
  | cTagAbsent _ hmay => exact .inr ⟨rfl, hmay⟩
  | iTagPresent _ hmust => exact .inl ⟨rfl, hmust⟩
  | iTagAbsent _ hmust => exact .inr ⟨rfl, hmust⟩

theorem exists_predicateEval {pred : CheckPredicate} (h : CheckSubExprs checkP pred) :
    ∃ result, PredicateEval e checkP pred result := by
  induction pred with
  | tagPresence ap owner tag =>
    cases tag with
    | cTag tag =>
      by_cases hmay : e.MayHaveTag ap owner tag
      · exact ⟨1, .cTagPresent h hmay⟩
      · exact ⟨0, .cTagAbsent h hmay⟩
    | iTag tag =>
      by_cases hmust : e.MustHaveIntegrityTag ap owner tag
      · exact ⟨1, .iTagPresent h hmust⟩
      · exact ⟨0, .iTagAbsent h hmust⟩
  | and lhs rhs ihl ihr =>
    obtain ⟨x, hx⟩ := ihl h.andLhs
    obtain ⟨y, hy⟩ := ihr h.andRhs
    exact ⟨_, .and h hx hy⟩
  | or lhs rhs ihl ihr =>
    obtain ⟨x, hx⟩ := ihl h.orLhs
    obtain ⟨y, hy⟩ := ihr h.orRhs
    exact ⟨_, .or h hx hy⟩
  | implies ant cons ihl ihr =>
    obtain ⟨x, hx⟩ := ihl h.antecedent
    obtain ⟨y, hy⟩ := ihr h.consequent
    exact ⟨_, .implies h hx hy⟩
  | not inner ih =>
    obtain ⟨x, hx⟩ := ih h.inner
    exact ⟨_, .not h hx⟩

theorem predicateEval_iff {pred : CheckPredicate} (h : CheckSubExprs checkP pred) (result : ℤ) :
    PredicateEval e checkP pred result ↔ IsTruthValue (pred.Holds e) result := by
  refine ⟨PredicateEval.isTruthValue, ?_⟩
  intro hvalue
  obtain ⟨x, hx⟩ := exists_predicateEval (e := e) h
  rwa [hvalue.unique hx.isTruthValue]

theorem checkAndResult_iff {name : Symbol} {pred : CheckPredicate}
    (hcheck : (name, pred) ∈ checkP) (hname : ∀ pred', (name, pred') ∈ checkP → pred' = pred)
    (result : Symbol) : CheckAndResult e checkP name result ↔
      (result = "PASS" ∧ pred.Holds e) ∨ (result = "FAIL" ∧ ¬ pred.Holds e) := by
  refine ⟨?_, ?_⟩
  · intro h
    cases h with
    | pass hmem heval hne =>
      rw [hname _ hmem] at heval
      exact .inl ⟨rfl, heval.isTruthValue.ne_zero_iff.mp hne⟩
    | fail hmem heval hzero =>
      rw [hname _ hmem] at heval
      exact .inr ⟨rfl, fun hholds => heval.isTruthValue.ne_zero_iff.mpr hholds hzero⟩
  · obtain ⟨x, hx⟩ := exists_predicateEval (e := e) (.check hcheck)
    have hvalue := hx.isTruthValue
    rintro (⟨rfl, hholds⟩ | ⟨rfl, hholds⟩)
    · exact .pass hcheck hx (hvalue.ne_zero_iff.mpr hholds)
    · exact .fail hcheck hx (not_not.mp fun hne => hholds (hvalue.ne_zero_iff.mp hne))

/-- Check predicates evaluate classically: every subexpression has one result, its truth value,
and every check has one outcome. -/
theorem checkPredicates_classical
    (hnames : ∀ name pred pred', (name, pred) ∈ checkP → (name, pred') ∈ checkP → pred = pred') :
    (∀ name pred, (name, pred) ∈ checkP → ∀ sub ∈ pred.subExprs,
      (∃! result, PredicateEval e checkP sub result) ∧
      ∀ result, PredicateEval e checkP sub result ↔ IsTruthValue (sub.Holds e) result) ∧
    ∀ name pred, (name, pred) ∈ checkP →
      (∃! result, CheckAndResult e checkP name result) ∧
      (CheckAndResult e checkP name "PASS" ↔ pred.Holds e) ∧
      (CheckAndResult e checkP name "FAIL" ↔ ¬ pred.Holds e) := by
  refine ⟨?_, ?_⟩
  · intro name pred hcheck sub hsub
    have hdemanded := checkSubExprs_of_mem (.check hcheck) sub hsub
    refine ⟨?_, predicateEval_iff hdemanded⟩
    obtain ⟨x, hx⟩ := exists_predicateEval (e := e) hdemanded
    exact ⟨x, hx, fun y hy => hy.isTruthValue.unique hx.isTruthValue⟩
  · intro name pred hcheck
    have hresult := checkAndResult_iff (e := e) hcheck
      fun pred' h => hnames name pred' pred h hcheck
    have hpass := hresult "PASS"
    have hfail := hresult "FAIL"
    simp only [true_and, false_and, or_false, false_or, String.reduceEq] at hpass hfail
    refine ⟨?_, hpass, hfail⟩
    by_cases hholds : pred.Holds e
    · refine ⟨"PASS", hpass.mpr hholds, ?_⟩
      intro result h
      rcases (hresult result).mp h with ⟨heq, -⟩ | ⟨-, hnot⟩
      · exact heq
      · exact absurd hholds hnot
    · refine ⟨"FAIL", hfail.mpr hholds, ?_⟩
      intro result h
      rcases (hresult result).mp h with ⟨-, hyes⟩ | ⟨heq, -⟩
      · exact absurd hyes hholds
      · exact heq

/-- A tag that implies its own absence. -/
def selfDenying : CheckPredicate :=
  .implies (.tagPresence "x" sqlActor (.cTag "t")) (.not (.tagPresence "x" sqlActor (.cTag "t")))

def taggedEvaluation : Evaluation where
  program := sqlPolicyVerifierInterface
  facts := { saysHasTag := {(sqlActor, "x", sqlActor, "t")} }
  ord := symbolOrdinal
  ord_injective := symbolOrdinal_injective

theorem selfDenying_fails : CheckAndResult taggedEvaluation {("c", selfDenying)} "c" "FAIL" := by
  have hnames : ∀ name pred pred', (name, pred) ∈ ({("c", selfDenying)} : Finset (Symbol × _)) →
      (name, pred') ∈ ({("c", selfDenying)} : Finset (Symbol × _)) → pred = pred' := by
    intro name pred pred' h h'
    rw [Finset.mem_singleton, Prod.mk.injEq] at h h'
    rw [h.2, h'.2]
  have htag : taggedEvaluation.MayHaveTag "x" sqlActor "t" :=
    .fact (.hasTag (.declared (Finset.mem_singleton_self _)))
  obtain ⟨-, -, hfail⟩ := (checkPredicates_classical (e := taggedEvaluation) hnames).2 "c"
    selfDenying (Finset.mem_singleton_self _)
  exact hfail.mpr fun hholds => hholds htag htag

end Evaluate

end Raksha.Souffle
