import Raksha.AuthLogic.DelegationChains
import Raksha.AuthLogic.TokenTexts

/-!
# Fresh variables

The variables that the pass introduces in its generated rules, beside those of the facts that the
rules are generated for.
-/

namespace Raksha.AuthLogic

/-- The rule is generated for the fact with this variable. -/
inductive Introduces (speaker : Principal) (fact : Fact) : String → Rule → Prop
  | attr {attr : Attribute} (fresh : String) : fact.baseFact = .attr attr →
    Introduces speaker fact fresh (spokenAttributeRule speaker ⟨fresh⟩ attr)
  | canActAs {canActAs : CanActAs} (fresh : String) : fact.baseFact = .canActAs canActAs →
    Introduces speaker fact fresh (spokenCanActAsRule speaker ⟨fresh⟩ canActAs)
  | delegation {k : ℕ} (fresh : String) : k < fact.delegationChain.length →
    Introduces speaker fact fresh
      (delegationRule speaker ⟨fresh⟩ (chainPredicate (fact.delegationChain.take k) fact.base))

/-- A variable among the principals and arguments of the fact. -/
def Fact.HasVariable (fact : Fact) (v : String) : Prop :=
  IsVariable v ∧ v ∈ fact.delegationChain.map Principal.name ++ fact.base.args

def Rule.Mentions (rule : Rule) (v : String) : Prop :=
  ∃ predicate ∈ rule.lhs :: rule.rhs, v ∈ predicate.args

/-- In every rule that is generated for the fact of the assertion, the introduced variable is none
of the fact's. -/
def IntroducesFresh (said : Principal × Assertion) (block : List Rule) : Prop :=
  ∀ rule ∈ block.dropLast, ∃ fresh, Introduces said.1 said.2.lhs fresh rule ∧
    ∀ v, said.2.lhs.HasVariable v → rule.Mentions v → v ≠ fresh

def FreshVariables (program : Program) : Prop :=
  List.Forall₂ IntroducesFresh program.said (loweredAssertions program)

/-- The number of fresh variables that are drawn before the fact of the assertion with this index
is lowered. -/
def Program.drawnBefore (program : Program) (i : ℕ) (assertion : Assertion) : ℕ :=
  ((program.said.take i).map fun said => said.2.freshVars).sum + assertion.conditionVars

/-- No fact has an argument with the name of a fresh variable that is drawn for it. -/
def Program.AvoidsOwnNumbers (program : Program) : Prop :=
  ∀ i said, program.said[i]? = some said → ∀ m, program.drawnBefore i said.2 < m →
    m ≤ program.drawnBefore i said.2 + said.2.lhs.freshVars →
    freshName m ∉ said.2.lhs.base.args

/-! ### Generated rules -/

variable {speaker : Principal} {fact : Fact} {n : ℕ}

theorem introduces_of_mem {rule : Rule} (h : rule ∈ fact.generatedRules n speaker) :
    ∃ m, n < m ∧ m ≤ n + fact.freshVars ∧ Introduces speaker fact (freshName m) rule := by
  rcases List.mem_append.mp h with h | h
  · cases hbase : fact.baseFact with
    | predicate p =>
      rw [hbase] at h
      cases h
    | attr a =>
      rw [hbase] at h
      cases List.mem_singleton.mp h
      exact ⟨n + 1, Nat.lt_succ_self n, by simp [Fact.freshVars, hbase, BaseFact.freshVars],
        .attr _ hbase⟩
    | canActAs c =>
      rw [hbase] at h
      cases List.mem_singleton.mp h
      exact ⟨n + 1, Nat.lt_succ_self n, by simp [Fact.freshVars, hbase, BaseFact.freshVars],
        .canActAs _ hbase⟩
  · rw [delegationRules_eq] at h
    obtain ⟨k, hk, rfl⟩ := List.mem_map.mp h
    have hlt := List.mem_range.mp hk
    refine ⟨n + fact.baseFact.freshVars + 1 + k, by omega, ?_, .delegation _ hlt⟩
    rw [Fact.freshVars]
    omega

theorem exists_introduces {m : ℕ} (hlow : n < m) (hhigh : m ≤ n + fact.freshVars) :
    ∃ rule ∈ fact.generatedRules n speaker, Introduces speaker fact (freshName m) rule := by
  rw [Fact.freshVars] at hhigh
  by_cases hspoken : m ≤ n + fact.baseFact.freshVars
  · cases hbase : fact.baseFact with
    | predicate p =>
      rw [hbase, BaseFact.freshVars] at hspoken
      omega
    | attr a =>
      rw [hbase, BaseFact.freshVars] at hspoken
      obtain rfl : m = n + 1 := by omega
      refine ⟨_, List.mem_append_left _ ?_, .attr _ hbase⟩
      rw [hbase]
      exact List.mem_singleton_self _
    | canActAs c =>
      rw [hbase, BaseFact.freshVars] at hspoken
      obtain rfl : m = n + 1 := by omega
      refine ⟨_, List.mem_append_left _ ?_, .canActAs _ hbase⟩
      rw [hbase]
      exact List.mem_singleton_self _
  · have hk : m - (n + fact.baseFact.freshVars + 1) < fact.delegationChain.length := by omega
    have hm : n + fact.baseFact.freshVars + 1 + (m - (n + fact.baseFact.freshVars + 1)) = m := by
      omega
    refine ⟨_, List.mem_append_right _ ?_, .delegation _ hk⟩
    rw [delegationRules_eq]
    refine List.mem_map.mpr ⟨_, List.mem_range.mpr hk, ?_⟩
    rw [hm]

/-- The second condition of a delegation rule is longer than that of a rule for the base fact. -/
theorem base_ne_delegation {k : ℕ} {fresh : Principal} {p : Predicate}
    (hname : p.name = fact.base.name) : pushPrincipal "says_" speaker p ≠
      pushPrincipal "says_" speaker
        (pushPrincipal "canSay_" fresh (chainPredicate (fact.delegationChain.take k) fact.base)) := by
  intro heq
  have hlength := congrArg (fun p : Predicate => p.name.toList.length) heq
  have hgrows : ∀ k, fact.base.name.toList.length ≤
      (canSayName k fact.base.name).toList.length := by
    intro k
    induction k with
    | zero => exact le_rfl
    | succ k ih =>
      rw [canSayName, String.toList_append, List.length_append]
      omega
  have hmore := hgrows (fact.delegationChain.take k).length
  simp only [pushPrincipal, pushOntoPredicate, chainPredicate_eq, String.toList_append,
    List.length_append, hname] at hlength
  have hseven : "canSay_".toList.length = 7 := rfl
  omega

theorem ne_delegationRule {k : ℕ} {fresh : Principal} {first p : Predicate} {rule : Rule}
    (hname : p.name = fact.base.name)
    (hrhs : rule.rhs = [first, pushPrincipal "says_" speaker p]) :
    rule ≠ delegationRule speaker fresh
      (chainPredicate (fact.delegationChain.take k) fact.base) := by
  intro heq
  rw [heq] at hrhs
  exact base_ne_delegation hname (List.cons.inj (List.cons.inj hrhs).2).1.symm

theorem Introduces.unique {fresh fresh' : String} {rule : Rule}
    (h : Introduces speaker fact fresh rule) (h' : Introduces speaker fact fresh' rule) :
    fresh' = fresh := by
  generalize hrule : rule = rule' at h'
  cases h with
  | attr fresh hbase =>
    cases h' with
    | attr fresh' hbase' =>
      cases hbase.symm.trans hbase'
      have hfirst := congrArg Predicate.args (List.cons.inj (congrArg Rule.rhs hrule)).1
      exact (List.cons.inj (List.cons.inj hfirst).2).1.symm
    | canActAs fresh' hbase' => cases hbase.symm.trans hbase'
    | delegation fresh' hk =>
      exact absurd hrule (ne_delegationRule (by rw [Fact.base, hbase]; rfl) rfl)
  | canActAs fresh hbase =>
    cases h' with
    | attr fresh' hbase' => cases hbase.symm.trans hbase'
    | canActAs fresh' hbase' =>
      cases hbase.symm.trans hbase'
      have hfirst := congrArg Predicate.args (List.cons.inj (congrArg Rule.rhs hrule)).1
      exact (List.cons.inj (List.cons.inj hfirst).2).1.symm
    | delegation fresh' hk =>
      exact absurd hrule (ne_delegationRule (by rw [Fact.base, hbase]; rfl) rfl)
  | delegation fresh hk =>
    cases h' with
    | attr fresh' hbase' =>
      exact absurd hrule.symm (ne_delegationRule (by rw [Fact.base, hbase']; rfl) rfl)
    | canActAs fresh' hbase' =>
      exact absurd hrule.symm (ne_delegationRule (by rw [Fact.base, hbase']; rfl) rfl)
    | delegation fresh' hk' =>
      have hfirst := congrArg Predicate.args (List.cons.inj (congrArg Rule.rhs hrule)).1
      exact (List.cons.inj hfirst).1.symm

/-! ### Variables of the fact -/

/-- The variables of a fact stand in every rule that is generated for it. -/
theorem Introduces.mentions (hlexed : fact.Lexed) {fresh : String} {rule : Rule}
    (h : Introduces speaker fact fresh rule) {v : String} (hv : IsVariable v)
    (hmem : v ∈ fact.base.args) : rule.Mentions v := by
  cases h with
  | attr fresh hbase =>
    refine ⟨_, List.mem_cons_of_mem _ (List.mem_cons_of_mem _ (List.mem_singleton_self _)), ?_⟩
    rw [Fact.base, hbase] at hmem
    exact List.mem_cons_of_mem _ hmem
  | canActAs fresh hbase =>
    rw [Fact.base, hbase] at hmem
    have hquoted := hlexed.baseFact
    rw [hbase] at hquoted
    rcases List.mem_cons.mp hmem with rfl | hmem
    · exact absurd hquoted.1 hv.not_quoted
    · rw [List.mem_singleton.mp hmem] at hv
      exact absurd hquoted.2 hv.not_quoted
  | delegation fresh hk =>
    refine ⟨_, List.mem_cons_self .., ?_⟩
    simp [delegationRule, pushPrincipal, pushOntoPredicate, chainPredicate_eq, hmem]

theorem introducesFresh_iff {said : Principal × Assertion} (hlexed : said.2.lhs.Lexed) (n : ℕ) :
    IntroducesFresh said (said.2.rules n said.1) ↔
      ∀ m, n + said.2.conditionVars < m →
        m ≤ n + said.2.conditionVars + said.2.lhs.freshVars →
        freshName m ∉ said.2.lhs.base.args := by
  rw [IntroducesFresh, Assertion.rules, List.dropLast_concat, Assertion.generatedRules]
  constructor
  · intro hfresh m hlow hhigh hmem
    obtain ⟨rule, hrule, hintroduces⟩ := exists_introduces hlow hhigh
    obtain ⟨fresh, hother, hapart⟩ := hfresh rule hrule
    have hvariable := freshName_isVariable m
    refine hapart (freshName m) ⟨hvariable, List.mem_append_right _ hmem⟩
      (hintroduces.mentions hlexed hvariable hmem) ?_
    exact (hintroduces.unique hother).symm
  · intro havoids rule hrule
    obtain ⟨m, hlow, hhigh, hintroduces⟩ := introduces_of_mem hrule
    refine ⟨_, hintroduces, ?_⟩
    rintro v ⟨hv, hmem⟩ - rfl
    rcases List.mem_append.mp hmem with hmem | hmem
    · obtain ⟨delegatee, hdelegatee, hname⟩ := List.mem_map.mp hmem
      exact hv.not_quoted (hname ▸ hlexed.chain delegatee hdelegatee)
    · exact havoids m hlow hhigh hmem

/-! ### A captured variable -/

/-- `"A" says "B" canSay p(x).` -/
def canSayContext (x : String) : ProgramContext where
  statement := .saysAssertion (.saysSingle "\"A\"" (.factAssertion
    (.canSayFact "\"B\"" (.flatFactFact (.predFact ⟨false, "p", .variable x, []⟩)))) none)
  statements := []

theorem captured_derivable : (constructProgram (canSayContext "x__1")).Derivable := by
  refine ⟨"\"A\" says \"B\" canSay p(x__1).", canSayContext "x__1", ?_, rfl⟩
  unfold Derives
  decide +kernel

theorem free_derivable : (constructProgram (canSayContext "x__2")).Derivable := by
  refine ⟨"\"A\" says \"B\" canSay p(x__2).", canSayContext "x__2", ?_, rfl⟩
  unfold Derives
  decide +kernel

theorem captured_notFresh : (constructProgram (canSayContext "x__1")).Derivable ∧
    ¬ FreshVariables (constructProgram (canSayContext "x__1")) := by
  refine ⟨captured_derivable, ?_⟩
  intro hfresh
  rw [FreshVariables, loweredAssertions_eq, forall₂_mapDrawn] at hfresh
  have hlexed := (captured_derivable.lexed.said _ (List.mem_singleton_self _)).2.lhs
  have havoids := (introducesFresh_iff hlexed _).mp (hfresh 0 _ rfl)
  exact havoids 1 (by decide) (by decide) (by decide)

theorem freshVariables_iff (program : Program) (h : program.Derivable) :
    FreshVariables program ↔ program.AvoidsOwnNumbers := by
  rw [FreshVariables, loweredAssertions_eq, forall₂_mapDrawn]
  refine forall_congr' fun i => forall_congr' fun said => forall_congr' fun hi => ?_
  have hlexed := (h.lexed.said said (List.mem_of_getElem? hi)).2.lhs
  rw [introducesFresh_iff hlexed, Nat.zero_add]
  rfl

theorem free_freshVariables : FreshVariables (constructProgram (canSayContext "x__2")) :=
  (freshVariables_iff _ free_derivable).mpr (by
    intro i said hi m hlow hhigh
    cases i with
    | zero =>
      cases hi
      obtain rfl : m = 1 := by
        have hlow' : 0 < m := hlow
        have hhigh' : m ≤ 1 := hhigh
        omega
      decide
    | succ i => cases hi)

end Raksha.AuthLogic
