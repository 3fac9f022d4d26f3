import Raksha.AuthLogic.ConstantTypings

/-!
# Guarded rules

The lowered rules of a program and of the program with its universes: the generated rules and the
queries are the same, the rule of an assertion is guarded by memberships in universes, and the
universes are filled by facts.
-/

namespace Raksha.AuthLogic

/-! ### The rules of assertions -/

/-- The rules that are generated for the heads of assertions. -/
def generatedRules (n : ℕ) (said : List (Principal × Assertion)) : List Rule :=
  (mapDrawn (fun n (speaker, assertion) => assertion.generatedRules n speaker)
    (fun said => said.2.freshVars) n said).flatten

theorem generatedRules_cons (n : ℕ) (first : Principal × Assertion)
    (said : List (Principal × Assertion)) : generatedRules n (first :: said) =
      first.2.generatedRules n first.1 ++ generatedRules (n + first.2.freshVars) said := rfl

theorem mem_saidRules {rule : Rule} {n : ℕ} {said : List (Principal × Assertion)} :
    rule ∈ saidRules n said ↔ rule ∈ generatedRules n said ∨
      ∃ one ∈ said, rule = one.2.mainRule one.1 := by
  induction said generalizing n with
  | nil => simp [saidRules, generatedRules, mapDrawn]
  | cons first said ih =>
    have hcons : saidRules n (first :: said) =
        first.2.rules n first.1 ++ saidRules (n + first.2.freshVars) said := rfl
    rw [hcons, generatedRules_cons, List.mem_append, List.mem_append, ih, Assertion.rules,
      List.mem_append, List.mem_singleton]
    simp only [List.mem_cons, exists_eq_or_imp]
    constructor
    · rintro ((h | h) | h | h)
      · exact .inl (.inl h)
      · exact .inr (.inl h)
      · exact .inl (.inr h)
      · exact .inr (.inr h)
    · rintro ((h | h) | h | h)
      · exact .inl (.inl h)
      · exact .inr (.inl h)
      · exact .inl (.inr h)
      · exact .inr (.inr h)

theorem mem_generatedRules {rule : Rule} {n : ℕ} {said : List (Principal × Assertion)}
    (h : rule ∈ generatedRules n said) :
    ∃ one ∈ said, ∃ m, rule ∈ one.2.generatedRules m one.1 := by
  obtain ⟨block, hblock, hrule⟩ := List.mem_flatten.mp h
  obtain ⟨m, one, hone, rfl⟩ := mem_mapDrawn hblock
  exact ⟨one, hone, m, hrule⟩

theorem generatedRules_append (n : ℕ) (said said' : List (Principal × Assertion)) :
    generatedRules n (said ++ said') = generatedRules n said ++
      generatedRules (n + (said.map fun said => said.2.freshVars).sum) said' := by
  induction said generalizing n with
  | nil => rfl
  | cons first said ih =>
    rw [List.cons_append, generatedRules_cons, generatedRules_cons, ih, List.map_cons,
      List.sum_cons, List.append_assoc, Nat.add_assoc]

theorem lower_mem_rules {order : List (String × ℕ) → List (String × ℕ)} {program : Program}
    {rule : Rule} : rule ∈ (lower order program).rules ↔
      rule ∈ generatedRules 0 program.said ∨
      (∃ said ∈ program.said, rule = said.2.mainRule said.1) ∨
      rule ∈ program.queries.map queryRule ++ [⟨dummyPredicate, []⟩] := by
  have hsaid : (loweredAssertions program).flatten = saidRules 0 program.said := by
    rw [loweredAssertions_eq]
    rfl
  rw [lower_rules, hsaid, List.append_assoc, List.mem_append, mem_saidRules, or_assoc]

/-! ### The rules with universes -/

def universeRule (speaker : String) (typing : String × ArgumentType) : Rule where
  lhs := spokenCondition ⟨speaker⟩ (makeUniverseMembershipFact typing.1 typing.2)
  rhs := []

/-- The rule of an assertion, guarded by the universes of its head. -/
def Program.guardedRule (program : Program) (said : Principal × Assertion) : Rule where
  lhs := (said.2.mainRule said.1).lhs
  rhs := (universeConditions (program.typingsOf said.2.lhs.baseFact)).map (spokenCondition said.1) ++
    (said.2.mainRule said.1).rhs

theorem mem_universeSaid {constants : List (String × ArgumentType)}
    {said : Principal × Assertion} :
    said ∈ (getUniverseDefiningFacts constants).flatMap SaysAssertion.said ↔
      ∃ principal ∈ constants, principal.2 = .principal ∧ ∃ typing ∈ constants,
        said = (⟨principal.1⟩, .fact ⟨[], makeUniverseMembershipFact typing.1 typing.2⟩) := by
  simp only [getUniverseDefiningFacts, List.mem_flatMap, List.mem_filter, decide_eq_true_eq,
    List.mem_map]
  constructor
  · rintro ⟨_, ⟨principal, ⟨hprincipal, htype⟩, typing, htyping, rfl⟩, hsaid⟩
    exact ⟨principal, hprincipal, htype, typing, htyping, List.mem_singleton.mp hsaid⟩
  · rintro ⟨principal, hprincipal, htype, typing, htyping, rfl⟩
    exact ⟨_, ⟨principal, ⟨hprincipal, htype⟩, typing, htyping, rfl⟩, List.mem_singleton_self _⟩

/-- The facts that fill the universes draw no fresh variables and generate no rules. -/
theorem universeSaid_plain {constants : List (String × ArgumentType)}
    {said : List (Principal × Assertion)}
    (h : said ⊆ (getUniverseDefiningFacts constants).flatMap SaysAssertion.said) (n : ℕ) :
    generatedRules n said = [] ∧ (said.map fun said => said.2.freshVars).sum = 0 := by
  induction said generalizing n with
  | nil => exact ⟨rfl, rfl⟩
  | cons first said ih =>
    obtain ⟨hfirst, hsaid⟩ := List.cons_subset.mp h
    obtain ⟨hrules, hsum⟩ := ih hsaid (n + first.2.freshVars)
    obtain ⟨principal, -, -, typing, -, rfl⟩ := mem_universeSaid.mp hfirst
    rw [generatedRules_cons, List.map_cons, List.sum_cons, hrules, hsum]
    exact ⟨rfl, rfl⟩

theorem universeConditions_freshVars (typings : List (String × ArgumentType)) :
    ((universeConditions typings).map BaseFact.freshVars).sum = 0 := by
  have hzero : ∀ condition ∈ universeConditions typings, condition.freshVars = 0 := by
    intro condition hcondition
    obtain ⟨typing, -, rfl⟩ := List.mem_map.mp hcondition
    rfl
  rw [List.map_congr_left hzero, List.map_const', List.sum_replicate, smul_zero]

section

variable {program : Program} {said said' : Principal × Assertion}

theorem Guards.conditionVars (h : Guards program said said') :
    said'.2.conditionVars = said.2.conditionVars := by
  rw [Assertion.conditionVars, h.2.2, List.map_append, List.sum_append,
    universeConditions_freshVars, Nat.zero_add]
  rfl

theorem Guards.freshVars (h : Guards program said said') :
    said'.2.freshVars = said.2.freshVars := by
  rw [Assertion.freshVars, h.conditionVars, h.2.1]
  rfl

theorem Guards.generatedRules (h : Guards program said said') (n : ℕ) :
    said'.2.generatedRules n said'.1 = said.2.generatedRules n said.1 := by
  rw [Assertion.generatedRules, h.conditionVars, h.2.1, h.1]
  rfl

theorem Guards.mainRule (h : Guards program said said') :
    said'.2.mainRule said'.1 = program.guardedRule said := by
  rw [Assertion.mainRule, h.1, h.2.1, h.2.2, List.map_append]
  rfl

theorem generatedRules_guards {all all' : List (Principal × Assertion)}
    (h : List.Forall₂ (Guards program) all all') (n : ℕ) :
    generatedRules n all' = generatedRules n all := by
  induction h generalizing n with
  | nil => rfl
  | cons hfirst _ ih =>
    rw [generatedRules_cons, generatedRules_cons, hfirst.freshVars, hfirst.generatedRules, ih]

end

theorem Accepted.mem_rules {order : List (String × ℕ) → List (String × ℕ)}
    {program program' : Program} {constants : List (String × ArgumentType)}
    (h : Accepted program program' constants) {rule : Rule} :
    rule ∈ (lower order program').rules ↔
      rule ∈ generatedRules 0 program.said ∨
      (∃ principal ∈ constants, principal.2 = .principal ∧ ∃ typing ∈ constants,
        rule = universeRule principal.1 typing) ∨
      (∃ said ∈ program.said, rule = program.guardedRule said) ∨
      rule ∈ program.queries.map queryRule ++ [⟨dummyPredicate, []⟩] := by
  obtain ⟨guarded, hguarded, hsaid⟩ := h.said
  obtain ⟨hplain, hsum⟩ := universeSaid_plain (List.Subset.refl
    ((getUniverseDefiningFacts constants).flatMap SaysAssertion.said)) 0
  have hgenerated : generatedRules 0 program'.said = generatedRules 0 program.said := by
    rw [hsaid, generatedRules_append, hplain, hsum, List.nil_append, generatedRules_guards hguarded]
  rw [lower_mem_rules, hgenerated, h.queries]
  refine or_congr_right ?_
  rw [← or_assoc]
  refine or_congr_left ?_
  rw [hsaid]
  constructor
  · rintro ⟨one, hone, rfl⟩
    rcases List.mem_append.mp hone with huniverse | hone
    · obtain ⟨principal, hprincipal, htype, typing, htyping, rfl⟩ := mem_universeSaid.mp huniverse
      exact .inl ⟨principal, hprincipal, htype, typing, htyping, rfl⟩
    · obtain ⟨said, hmem, hguards⟩ := forall₂_mem_right hguarded hone
      exact .inr ⟨said, hmem, hguards.mainRule⟩
  · rintro (⟨principal, hprincipal, htype, typing, htyping, rfl⟩ | ⟨said, hmem, rfl⟩)
    · exact ⟨_, List.mem_append_left _ (mem_universeSaid.mpr
        ⟨principal, hprincipal, htype, typing, htyping, rfl⟩), rfl⟩
    · obtain ⟨one, hone, hguards⟩ := forall₂_mem_right hguarded.flip hmem
      have hguards : Guards program said one := hguards
      exact ⟨one, List.mem_append_right _ hone, hguards.mainRule.symm⟩

end Raksha.AuthLogic
