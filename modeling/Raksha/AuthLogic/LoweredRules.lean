import Mathlib.Algebra.Ring.Nat
import Raksha.AuthLogic.LoweringToDatalog

/-!
# The lowered rules

What the pass returns, as functions of the number of fresh variables that are already drawn: the
rules of every assertion, and the depths that are recorded for the facts.
-/

namespace Raksha.AuthLogic

/-! ### How many fresh variables are drawn -/

def BaseFact.freshVars : BaseFact → ℕ
  | .predicate _ => 0
  | .attr _ => 1
  | .canActAs _ => 1

def Fact.freshVars (fact : Fact) : ℕ := fact.baseFact.freshVars + fact.delegationChain.length

def Assertion.conditionVars (assertion : Assertion) : ℕ :=
  (assertion.rhs.map BaseFact.freshVars).sum

def Assertion.freshVars (assertion : Assertion) : ℕ :=
  assertion.conditionVars + assertion.lhs.freshVars

/-! ### The rules -/

/-- The rule that passes a property on to those who act as its principal. -/
def spokenRules (n : ℕ) (speaker : Principal) : BaseFact → List Rule
  | .predicate _ => []
  | .attr attr => [spokenAttributeRule speaker ⟨freshName (n + 1)⟩ attr]
  | .canActAs canActAs => [spokenCanActAsRule speaker ⟨freshName (n + 1)⟩ canActAs]

/-- The predicate behind the delegation chain. -/
def chainPredicate (chain : List Principal) (inner : Predicate) : Predicate :=
  chain.foldl (fun inner delegatee => pushPrincipal "canSay_" delegatee inner) inner

def delegationRules (speaker : Principal) : ℕ → List Principal → Predicate → List Rule
  | _, [], _ => []
  | n, delegatee :: chain, inner =>
    delegationRule speaker ⟨freshName (n + 1)⟩ inner ::
      delegationRules speaker (n + 1) chain (pushPrincipal "canSay_" delegatee inner)

namespace Fact

def base (fact : Fact) : Predicate := baseFactPredicate fact.baseFact

def toPredicate (fact : Fact) : Predicate := chainPredicate fact.delegationChain fact.base

def generatedRules (n : ℕ) (speaker : Principal) (fact : Fact) : List Rule :=
  spokenRules n speaker fact.baseFact ++
    delegationRules speaker (n + fact.baseFact.freshVars) fact.delegationChain fact.base

end Fact

def spokenCondition (speaker : Principal) (condition : BaseFact) : Predicate :=
  pushPrincipal "says_" speaker (baseFactPredicate condition)

namespace Assertion

def mainRule (speaker : Principal) (assertion : Assertion) : Rule where
  lhs := pushPrincipal "says_" speaker assertion.lhs.toPredicate
  rhs := assertion.rhs.map (spokenCondition speaker)

def generatedRules (n : ℕ) (speaker : Principal) (assertion : Assertion) : List Rule :=
  assertion.lhs.generatedRules (n + assertion.conditionVars) speaker

def rules (n : ℕ) (speaker : Principal) (assertion : Assertion) : List Rule :=
  assertion.generatedRules n speaker ++ [assertion.mainRule speaker]

end Assertion

/-- The results of a list, each with the fresh variables that are drawn before it. -/
def mapDrawn {α β : Type} (result : ℕ → α → β) (drawn : α → ℕ) : ℕ → List α → List β
  | _, [] => []
  | n, value :: values => result n value :: mapDrawn result drawn (n + drawn value) values

def saidRules (n : ℕ) (said : List (Principal × Assertion)) : List Rule :=
  (mapDrawn (fun n (speaker, assertion) => assertion.rules n speaker)
    (fun said => said.2.freshVars) n said).flatten

def queryRule (query : Query) : Rule where
  lhs := ⟨query.name, ["\"dummy_var\""], .positive⟩
  rhs := [pushPrincipal "says_" query.principal query.fact.toPredicate, dummyPredicate]

/-- The facts whose depth the pass records, in order. -/
def Program.recordedFacts (program : Program) : List Fact :=
  program.said.map (fun said => said.2.lhs) ++ program.queries.map Query.fact

/-! ### Lists of assertions -/

theorem mapDrawn_map {α β γ : Type} (result : ℕ → β → γ) (drawn : β → ℕ) (f : α → β) (n : ℕ)
    (values : List α) : mapDrawn result drawn n (values.map f) =
      mapDrawn (fun n value => result n (f value)) (fun value => drawn (f value)) n values := by
  induction values generalizing n with
  | nil => rfl
  | cons value values ih => simp only [List.map_cons, mapDrawn, ih]

theorem saidRules_append (n : ℕ) (said said' : List (Principal × Assertion)) :
    saidRules n (said ++ said') =
      saidRules n said ++ saidRules (n + (said.map fun said => said.2.freshVars).sum) said' := by
  induction said generalizing n with
  | nil => rfl
  | cons first said ih =>
    have hcons : ∀ n (rest : List (Principal × Assertion)), saidRules n (first :: rest) =
        first.2.rules n first.1 ++ saidRules (n + first.2.freshVars) rest := fun _ _ => rfl
    rw [List.cons_append, hcons, hcons, ih, List.map_cons, List.sum_cons, List.append_assoc,
      Nat.add_assoc]

/-! ### The pass -/

def recordFact (canSayDepth : AList fun _ : String => ℕ) (fact : Fact) :
    AList fun _ : String => ℕ :=
  deepen canSayDepth fact.base.name fact.delegationChain.length

namespace LoweringToDatalogPass

/-- The pass when it has drawn fresh variables and lowered facts. -/
def after (pass : LoweringToDatalogPass) (drawn : ℕ) (facts : List Fact) :
    LoweringToDatalogPass :=
  ⟨pass.freshVarCount + drawn, facts.foldl recordFact pass.canSayDepth⟩

variable (pass : LoweringToDatalogPass)

@[simp] theorem after_count (drawn : ℕ) (facts : List Fact) :
    (pass.after drawn facts).freshVarCount = pass.freshVarCount + drawn := rfl

@[simp] theorem after_after (drawn drawn' : ℕ) (facts facts' : List Fact) :
    (pass.after drawn facts).after drawn' facts' =
      pass.after (drawn + drawn') (facts ++ facts') := by
  simp [after, Nat.add_assoc]

@[simp] theorem after_zero : pass.after 0 [] = pass := rfl

theorem mapIter_eq {α β : Type} {f : LoweringToDatalogPass → α → β × LoweringToDatalogPass}
    (result : ℕ → α → β) (drawn : α → ℕ) (facts : α → List Fact)
    (h : ∀ pass value, f pass value =
      (result pass.freshVarCount value, pass.after (drawn value) (facts value)))
    (values : List α) : mapIter f pass values =
      (mapDrawn result drawn pass.freshVarCount values,
        pass.after (values.map drawn).sum (values.flatMap facts)) := by
  induction values generalizing pass with
  | nil => rfl
  | cons value values ih =>
    simp only [mapIter, h, ih, after_after, after_count, mapDrawn, List.map_cons, List.sum_cons,
      List.flatMap_cons]

theorem baseFactToDLIR_eq (speaker : Principal) (baseFact : BaseFact) :
    pass.baseFactToDLIR speaker baseFact =
      ((baseFactPredicate baseFact, spokenRules pass.freshVarCount speaker baseFact),
        pass.after baseFact.freshVars []) := by
  cases baseFact <;> rfl

theorem delegate_eq (speaker : Principal) (chain : List Principal) (inner : Predicate)
    (rules : List Rule) : chain.foldl (delegate speaker) ((inner, rules), pass) =
      ((chainPredicate chain inner,
        rules ++ delegationRules speaker pass.freshVarCount chain inner),
        pass.after chain.length []) := by
  induction chain generalizing pass inner rules with
  | nil => simp [chainPredicate, delegationRules]
  | cons delegatee chain ih =>
    have hround : delegate speaker ((inner, rules), pass) delegatee =
        ((pushPrincipal "canSay_" delegatee inner,
          rules ++ [delegationRule speaker ⟨freshName (pass.freshVarCount + 1)⟩ inner]),
          pass.after 1 []) := rfl
    rw [List.foldl_cons, hround, ih]
    simp only [delegationRules, chainPredicate, List.foldl_cons, List.append_assoc,
      List.singleton_append, after_count, after_after, List.nil_append, List.length_cons,
      Nat.add_comm 1]

theorem factToDLIR_eq (speaker : Principal) (fact : Fact) : pass.factToDLIR speaker fact =
    ((fact.toPredicate, fact.generatedRules pass.freshVarCount speaker),
      pass.after fact.freshVars [fact]) := by
  simp only [factToDLIR, baseFactToDLIR_eq, delegate_eq, after_count, after_after]
  rfl

theorem conditions_eq (speaker : Principal) (conditions : List BaseFact) :
    mapIter (conditionToDLIR speaker) pass conditions =
      (conditions.map (spokenCondition speaker),
        pass.after (conditions.map BaseFact.freshVars).sum []) := by
  have hcondition : ∀ (pass : LoweringToDatalogPass) condition,
      conditionToDLIR speaker pass condition =
        (spokenCondition speaker condition, pass.after condition.freshVars []) := by
    intro pass condition
    simp only [conditionToDLIR, baseFactToDLIR_eq, spokenCondition]
  have hmap : ∀ n, mapDrawn (fun _ => spokenCondition speaker) BaseFact.freshVars n conditions =
      conditions.map (spokenCondition speaker) := by
    induction conditions with
    | nil => exact fun _ => rfl
    | cons condition conditions ih => exact fun n => congrArg _ (ih _)
  rw [mapIter_eq pass (fun _ => spokenCondition speaker) BaseFact.freshVars (fun _ => [])
    hcondition, hmap, List.flatMap_eq_nil_iff.mpr fun _ _ => rfl]

theorem singleSaysAssertionToDLIR_eq (speaker : Principal) (assertion : Assertion) :
    singleSaysAssertionToDLIR speaker pass assertion =
      (assertion.rules pass.freshVarCount speaker,
        pass.after assertion.freshVars [assertion.lhs]) := by
  cases assertion with
  | fact fact =>
    simp only [singleSaysAssertionToDLIR, generateDLIRAssertionsFact, factToDLIR_eq]
    simp [Assertion.rules, Assertion.generatedRules, Assertion.mainRule, Assertion.freshVars,
      Assertion.conditionVars, Assertion.rhs, Assertion.lhs]
  | conditional conditional =>
    simp only [singleSaysAssertionToDLIR, generateDLIRAssertionsConditional, conditions_eq,
      factToDLIR_eq, after_count, after_after]
    rfl

theorem saysAssertionToDLIR_eq (saysAssertion : SaysAssertion) :
    pass.saysAssertionToDLIR saysAssertion =
      (saidRules pass.freshVarCount saysAssertion.said,
        pass.after (saysAssertion.said.map fun said => said.2.freshVars).sum
          (saysAssertion.said.map fun said => said.2.lhs)) := by
  simp only [saysAssertionToDLIR, saidRules, SaysAssertion.said, mapDrawn_map, List.map_map,
    mapIter_eq pass (fun n assertion => assertion.rules n saysAssertion.principal)
      Assertion.freshVars (fun assertion => [assertion.lhs])
      fun pass => pass.singleSaysAssertionToDLIR_eq saysAssertion.principal,
    ← List.map_eq_flatMap]
  rfl

theorem saysAssertionsToDLIR_eq (saysAssertions : List SaysAssertion) :
    pass.saysAssertionsToDLIR saysAssertions =
      (saidRules pass.freshVarCount (saysAssertions.flatMap SaysAssertion.said),
        pass.after ((saysAssertions.flatMap SaysAssertion.said).map fun said =>
          said.2.freshVars).sum
          ((saysAssertions.flatMap SaysAssertion.said).map fun said => said.2.lhs)) := by
  have hflat : ∀ n, (mapDrawn (fun n (saysAssertion : SaysAssertion) =>
        saidRules n saysAssertion.said)
        (fun saysAssertion => (saysAssertion.said.map fun said => said.2.freshVars).sum) n
        saysAssertions).flatten = saidRules n (saysAssertions.flatMap SaysAssertion.said) := by
    induction saysAssertions with
    | nil => exact fun _ => rfl
    | cons saysAssertion saysAssertions ih =>
      intro n
      rw [mapDrawn, List.flatten_cons, ih, List.flatMap_cons, saidRules_append]
  have hsum : (saysAssertions.map fun saysAssertion =>
        (saysAssertion.said.map fun said => said.2.freshVars).sum).sum =
      ((saysAssertions.flatMap SaysAssertion.said).map fun said => said.2.freshVars).sum := by
    rw [List.flatMap_def, List.map_flatten, List.sum_flatten, List.map_map, List.map_map]
    rfl
  have hmap := mapIter_eq pass (fun n (saysAssertion : SaysAssertion) =>
    saidRules n saysAssertion.said) _ _ saysAssertionToDLIR_eq saysAssertions
  simp only [saysAssertionsToDLIR, hmap, hflat, hsum, List.map_flatMap]

theorem queriesToDLIR_eq (queries : List Query) : pass.queriesToDLIR queries =
    (queries.map queryRule,
      pass.after (queries.map fun query => query.fact.freshVars).sum (queries.map Query.fact)) := by
  have hquery : ∀ (pass : LoweringToDatalogPass) query, pass.queryToDLIR query =
      (queryRule query, pass.after query.fact.freshVars [query.fact]) := by
    intro pass query
    simp only [queryToDLIR, factToDLIR_eq, queryRule]
  have hmap : ∀ n, mapDrawn (fun _ => queryRule) (fun query => query.fact.freshVars) n queries =
      queries.map queryRule := by
    induction queries with
    | nil => exact fun _ => rfl
    | cons query queries ih => exact fun n => congrArg _ (ih _)
  rw [queriesToDLIR, mapIter_eq pass (fun _ => queryRule) _ (fun query => [query.fact]) hquery,
    hmap, ← List.map_eq_flatMap]

theorem run_eq (program : Program) : run program =
    ((saidRules 0 program.said, program.queries.map queryRule),
      initial.after ((program.said.map fun said => said.2.freshVars).sum +
        (program.queries.map fun query => query.fact.freshVars).sum) program.recordedFacts) := by
  simp only [run, saysAssertionsToDLIR_eq, queriesToDLIR_eq, after_after]
  rfl

end LoweringToDatalogPass

/-! ### The program -/

/-- The rules that the pass makes of every assertion. -/
def loweredAssertions (program : Program) : List (List Rule) :=
  (LoweringToDatalogPass.mapIter (fun pass said => pass.singleSaysAssertionToDLIR said.1 said.2)
    .initial program.said).1

theorem loweredAssertions_eq (program : Program) : loweredAssertions program =
    mapDrawn (fun n said => said.2.rules n said.1) (fun said => said.2.freshVars) 0
      program.said := by
  rw [loweredAssertions, LoweringToDatalogPass.mapIter_eq _ (fun n said => said.2.rules n said.1)
    _ _ fun pass said => pass.singleSaysAssertionToDLIR_eq said.1 said.2]
  rfl

theorem forall₂_mapDrawn {α β : Type} {R : α → β → Prop} {result : ℕ → α → β} {drawn : α → ℕ}
    {n : ℕ} {values : List α} : List.Forall₂ R values (mapDrawn result drawn n values) ↔
      ∀ i value, values[i]? = some value →
        R value (result (n + ((values.take i).map drawn).sum) value) := by
  induction values generalizing n with
  | nil => simp [mapDrawn]
  | cons value values ih =>
    rw [mapDrawn, List.forall₂_cons, ih]
    constructor
    · rintro ⟨hfirst, hlater⟩ i v hv
      cases i with
      | zero =>
        cases hv
        simpa using hfirst
      | succ i => simpa [Nat.add_assoc] using hlater i v hv
    · intro h
      refine ⟨by simpa using h 0 value rfl, fun i v hv => ?_⟩
      simpa [Nat.add_assoc] using h (i + 1) v hv

theorem mem_mapDrawn {α β : Type} {result : ℕ → α → β} {drawn : α → ℕ} {n : ℕ}
    {values : List α} {b : β} (h : b ∈ mapDrawn result drawn n values) :
    ∃ m, ∃ value ∈ values, b = result m value := by
  induction values generalizing n with
  | nil => cases h
  | cons value values ih =>
    rcases List.mem_cons.mp h with rfl | h
    · exact ⟨n, value, List.mem_cons_self .., rfl⟩
    · obtain ⟨m, v, hv, rfl⟩ := ih h
      exact ⟨m, v, List.mem_cons_of_mem _ hv, rfl⟩

theorem exists_mem_mapDrawn {α β : Type} {result : ℕ → α → β} {drawn : α → ℕ} {n : ℕ}
    {values : List α} {value : α} (h : value ∈ values) :
    ∃ m, result m value ∈ mapDrawn result drawn n values := by
  induction values generalizing n with
  | nil => cases h
  | cons first values ih =>
    rcases List.mem_cons.mp h with rfl | h
    · exact ⟨n, List.mem_cons_self ..⟩
    · obtain ⟨m, hm⟩ := ih h
      exact ⟨m, List.mem_cons_of_mem _ hm⟩

theorem lower_rules (order : List (String × ℕ) → List (String × ℕ)) (program : Program) :
    (lower order program).rules =
      (loweredAssertions program).flatten ++ program.queries.map queryRule ++
        [⟨dummyPredicate, []⟩] := by
  simp only [lower, LoweringToDatalogPass.run_eq, loweredAssertions_eq]
  rfl

/-- The recorded depth of a name is the largest one of the facts with this name. -/
theorem lookup_recordFact (facts : List Fact) (canSayDepth : AList fun _ : String => ℕ)
    (name : String) : (facts.foldl recordFact canSayDepth).lookup name =
      ((canSayDepth.lookup name).toList ++
        (facts.filter (·.base.name = name)).map (·.delegationChain.length)).max? := by
  induction facts generalizing canSayDepth with
  | nil =>
    rw [List.foldl_nil, List.filter_nil, List.map_nil, List.append_nil]
    cases canSayDepth.lookup name <;> rfl
  | cons fact facts ih =>
    rw [List.foldl_cons, ih]
    by_cases hname : fact.base.name = name
    · subst hname
      simp only [recordFact, deepen, AList.lookup_insert, List.filter_cons, decide_true, if_true,
        List.map_cons]
      cases canSayDepth.lookup fact.base.name with
      | none => rfl
      | some recorded =>
        simp only [Option.toList_some, List.singleton_append, List.max?_cons', List.foldl_cons,
          Nat.max_comm]
    · rw [recordFact, deepen, AList.lookup_insert_ne (Ne.symm hname),
        List.filter_cons_of_neg (by simpa using hname)]

end Raksha.AuthLogic
