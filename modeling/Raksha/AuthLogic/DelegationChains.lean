import Std.Data.String.ToNat
import Raksha.AuthLogic.AstConstruction
import Raksha.AuthLogic.LoweredRules
import Raksha.AuthLogic.TokenTexts

/-!
# Delegation chains

What parsing and lowering make of `A says B1 canSay ... Bn canSay p(args)`: one predicate with all
principals in the order of the text, one delegation rule for each level, and the recorded depth.
-/

namespace Raksha.AuthLogic

/-! ### Facts of the text -/

namespace FactContext

/-- `B1 canSay ... Bn canSay flatFact`. -/
def canSayChain (principals : List String) (flatFact : FlatFactContext) : FactContext :=
  principals.foldr canSayFact (flatFactFact flatFact)

def depth : FactContext → ℕ
  | flatFactFact _ => 0
  | canSayFact _ fact => fact.depth + 1

def flatFact : FactContext → FlatFactContext
  | flatFactFact flatFact => flatFact
  | canSayFact _ fact => fact.flatFact

end FactContext

def FlatFactContext.relation : FlatFactContext → String
  | .prinFact _ (.predphrase predicate) => predicate.name
  | .prinFact _ (.actsAsPhrase _) => "canActAs"
  | .predFact predicate => predicate.name

namespace AssertionContext

def fact : AssertionContext → FactContext
  | factAssertion fact => fact
  | hornClauseAssertion fact _ _ => fact

def conditions : AssertionContext → List RvalueContext
  | factAssertion _ => []
  | hornClauseAssertion _ rvalue rvalues => rvalue :: rvalues

end AssertionContext

def SaysAssertionContext.said : SaysAssertionContext → List (String × AssertionContext)
  | .saysSingle principal assertion _ => [(principal, assertion)]
  | .saysMulti principal assertion assertions _ =>
    (assertion :: assertions).map fun assertion => (principal, assertion)

namespace ProgramContext

/-- The assertions with their speakers, in order. -/
def said (context : ProgramContext) : List (String × AssertionContext) :=
  context.saysAssertion.flatMap SaysAssertionContext.said

/-- The facts, the heads of conditional assertions and the facts of queries. Only these go
through `canSay`. -/
def facts (context : ProgramContext) : List FactContext :=
  context.said.map (fun said => said.2.fact) ++ context.query.map QueryContext.fact

end ProgramContext

/-! ### The predicates and rules that are due -/

/-- `canSay_` in front of the name, `k` times. -/
def canSayName : ℕ → String → String
  | 0, name => name
  | k + 1, name => "canSay_" ++ canSayName k name

/-- `says_canSay^n_p(A, B1, ..., Bn, args)`. -/
def mainPredicate (speaker : String) (principals : List String) (predicate : Predicate) :
    Predicate :=
  ⟨"says_" ++ canSayName principals.length predicate.name,
    speaker :: (principals ++ predicate.args), .positive⟩

/-- The delegation rule of the level `k`, over the last `k` principals of the chain. -/
def levelRule (speaker : String) (principals : List String) (predicate : Predicate) (k : ℕ)
    (fresh : String) : Rule :=
  let args := principals.drop (principals.length - k) ++ predicate.args
  { lhs := ⟨"says_" ++ canSayName k predicate.name, speaker :: args, .positive⟩
    rhs := [⟨"says_" ++ canSayName k predicate.name, fresh :: args, .positive⟩,
      ⟨"says_" ++ canSayName (k + 1) predicate.name, speaker :: fresh :: args, .positive⟩] }

/-- The block of rules for an assertion of the text whose fact is a positive predicate behind a
chain: one delegation rule for each level, with a variable of its own, and the main rule. -/
def AssertedInOrder (said : String × AssertionContext) (block : List Rule) : Prop :=
  ∀ principals predicate, said.2.fact = .canSayChain principals (.predFact predicate) →
    predicate.neg = false →
    ∃ fresh : ℕ → String, fresh.Injective ∧ (∀ k, IsVariable (fresh k)) ∧
      block = ((List.range principals.length).map fun k =>
          levelRule said.1 principals (constructPredicate predicate) k (fresh k)) ++
        [⟨mainPredicate said.1 principals (constructPredicate predicate),
          said.2.conditions.map fun condition =>
            spokenCondition ⟨said.1⟩ (constructRvalue condition)⟩]

def QueriedInOrder (query : QueryContext) (rule : Rule) : Prop :=
  ∀ principals predicate, query.fact = .canSayChain principals (.predFact predicate) →
    predicate.neg = false →
    rule = ⟨⟨query.name, ["\"dummy_var\""], .positive⟩,
      [mainPredicate query.principal principals (constructPredicate predicate), dummyPredicate]⟩

/-! ### Lowering a chain -/

theorem freshName_injective : freshName.Injective :=
  fun _ _ h => Nat.repr_injective ((String.append_right_inj _).mp h)

theorem chainPredicate_eq (chain : List Principal) (inner : Predicate) :
    chainPredicate chain inner = ⟨canSayName chain.length inner.name,
      (chain.map Principal.name).reverse ++ inner.args, inner.sign⟩ := by
  induction chain using List.reverseRecOn with
  | nil => rfl
  | append_singleton chain delegatee ih =>
    have hlast : chainPredicate (chain ++ [delegatee]) inner =
        pushPrincipal "canSay_" delegatee (chainPredicate chain inner) := by
      simp only [chainPredicate, List.foldl_append, List.foldl_cons, List.foldl_nil]
    rw [hlast, ih]
    simp [pushPrincipal, pushOntoPredicate, canSayName]

theorem delegationRules_eq (speaker : Principal) (n : ℕ) (chain : List Principal)
    (inner : Predicate) : delegationRules speaker n chain inner =
      (List.range chain.length).map fun k =>
        delegationRule speaker ⟨freshName (n + 1 + k)⟩ (chainPredicate (chain.take k) inner) := by
  induction chain generalizing n inner with
  | nil => rfl
  | cons delegatee chain ih =>
    rw [delegationRules, ih, List.length_cons, List.range_succ_eq_map, List.map_cons, List.map_map]
    refine congrArg _ (List.map_congr_left fun k _ => ?_)
    simp only [Function.comp_apply, List.take_succ_cons, chainPredicate, List.foldl_cons,
      Nat.succ_eq_add_one, Nat.add_assoc, Nat.add_comm 1]

theorem constructFact_eq (fact : FactContext) (chain : List Principal) :
    (constructFact chain fact).delegationChain.length = fact.depth + chain.length ∧
      (constructFact chain fact).baseFact = constructFlatFact fact.flatFact := by
  induction fact generalizing chain with
  | flatFactFact flatFact => exact ⟨(Nat.zero_add _).symm, rfl⟩
  | canSayFact principal fact ih =>
    obtain ⟨hlength, hbase⟩ := ih (constructPrincipal principal :: chain)
    refine ⟨?_, hbase⟩
    rw [constructFact, hlength, List.length_cons, FactContext.depth]
    omega

theorem constructFact_canSayChain (principals : List String) (flatFact : FlatFactContext)
    (chain : List Principal) : constructFact chain (.canSayChain principals flatFact) =
      ⟨(principals.map Principal.mk).reverse ++ chain, constructFlatFact flatFact⟩ := by
  induction principals generalizing chain with
  | nil => rfl
  | cons principal principals ih =>
    have hstep : constructFact chain (.canSayChain (principal :: principals) flatFact) =
        constructFact (⟨principal⟩ :: chain) (.canSayChain principals flatFact) := rfl
    rw [hstep, ih]
    simp

variable {principals : List String} {predicate : PredicateContext}

/-- A prefix of the chain, which starts with the last principal of the text. -/
theorem chainPredicate_take (principals : List String) (k : ℕ) (p : Predicate) :
    chainPredicate (((principals.map Principal.mk).reverse).take k) p =
      ⟨canSayName (min k principals.length) p.name,
        principals.drop (principals.length - k) ++ p.args, p.sign⟩ := by
  have hnames : (((principals.map Principal.mk).reverse.take k).map Principal.name).reverse =
      principals.drop (principals.length - k) := by
    rw [List.take_reverse, List.map_reverse, List.reverse_reverse, List.length_map, ← List.map_drop,
      List.map_map]
    exact List.map_id'' (fun _ => rfl) _
  rw [chainPredicate_eq, hnames, List.length_take, List.length_reverse, List.length_map]

theorem chain_toPredicate (hpositive : predicate.neg = false) (speaker : String) :
    pushPrincipal "says_" ⟨speaker⟩
        (constructFact [] (.canSayChain principals (.predFact predicate))).toPredicate =
      mainPredicate speaker principals (constructPredicate predicate) := by
  have htake := chainPredicate_take principals principals.length
    (constructPredicate predicate)
  rw [List.take_of_length_le (by simp), Nat.sub_self, List.drop_zero, Nat.min_self] at htake
  rw [constructFact_canSayChain, List.append_nil, Fact.toPredicate]
  change pushPrincipal _ _ (chainPredicate _ (constructPredicate predicate)) = _
  rw [htake]
  simp [pushPrincipal, pushOntoPredicate, mainPredicate, constructPredicate, hpositive]

theorem chain_generatedRules (hpositive : predicate.neg = false) (n : ℕ) (speaker : String) :
    (constructFact [] (.canSayChain principals (.predFact predicate))).generatedRules n ⟨speaker⟩ =
      (List.range principals.length).map fun k =>
        levelRule speaker principals (constructPredicate predicate) k (freshName (n + 1 + k)) := by
  rw [constructFact_canSayChain, List.append_nil, Fact.generatedRules]
  change [] ++ delegationRules _ n _ (constructPredicate predicate) = _
  rw [List.nil_append, delegationRules_eq, List.length_reverse, List.length_map]
  refine List.map_congr_left fun k hk => ?_
  rw [chainPredicate_take, Nat.min_eq_left (List.mem_range.mp hk).le]
  simp [delegationRule, levelRule, pushPrincipal, pushOntoPredicate, canSayName, constructPredicate,
    hpositive]

/-! ### Lowering a program -/

theorem said_constructProgram (context : ProgramContext) :
    (constructProgram context).said =
      context.said.map fun said => (⟨said.1⟩, constructAssertion said.2) := by
  rw [Program.said, constructProgram, ProgramContext.said, List.flatMap_map, List.map_flatMap]
  refine congrArg (List.flatMap · _) (funext fun saysAssertion => ?_)
  cases saysAssertion with
  | saysSingle principal assertion exportTo => rfl
  | saysMulti principal assertion assertions exportTo =>
    simp [constructSaysAssertion, SaysAssertion.said, SaysAssertionContext.said,
      constructPrincipal]

theorem lhs_constructAssertion (assertion : AssertionContext) :
    (constructAssertion assertion).lhs = constructFact [] assertion.fact := by
  cases assertion <;> rfl

theorem rhs_constructAssertion (assertion : AssertionContext) :
    (constructAssertion assertion).rhs = assertion.conditions.map constructRvalue := by
  cases assertion <;> rfl

theorem assertedInOrder_rules (n : ℕ) (said : String × AssertionContext) :
    AssertedInOrder said ((constructAssertion said.2).rules n ⟨said.1⟩) := by
  intro principals predicate hfact hpositive
  refine ⟨fun k => freshName (n + (constructAssertion said.2).conditionVars + 1 + k), ?_, ?_, ?_⟩
  · intro k k' heq
    exact Nat.add_left_cancel (freshName_injective heq)
  · exact fun k => freshName_isVariable _
  · rw [Assertion.rules, Assertion.generatedRules, Assertion.mainRule, lhs_constructAssertion,
      rhs_constructAssertion, hfact, chain_generatedRules hpositive, chain_toPredicate hpositive,
      List.map_map]
    rfl

theorem queriedInOrder_rule (query : QueryContext) :
    QueriedInOrder query (queryRule (constructQuery query)) := by
  intro principals predicate hfact hpositive
  rw [queryRule, ← chain_toPredicate hpositive, ← hfact]
  rfl

theorem base_constructFact (fact : FactContext) :
    (constructFact [] fact).base.name = fact.flatFact.relation := by
  rw [Fact.base, (constructFact_eq fact []).2]
  cases fact.flatFact with
  | predFact predicate => rfl
  | prinFact principal verbphrase =>
    cases verbphrase with
    | predphrase predicate => exact String.empty_append
    | actsAsPhrase principal' => rfl

theorem recordedFacts_constructProgram (context : ProgramContext) :
    (constructProgram context).recordedFacts = context.facts.map (constructFact []) := by
  rw [Program.recordedFacts, said_constructProgram, ProgramContext.facts, List.map_append,
    List.map_map, List.map_map, List.map_map]
  congr 1
  · exact List.map_congr_left fun said _ => lhs_constructAssertion said.2
  · exact List.map_map ..

/-- Every chain keeps its order, and the recorded depth of a relation is the largest one with
which it occurs. -/
theorem delegationChains_kept (order : List (String × ℕ) → List (String × ℕ))
    (context : ProgramContext) :
    (∃ blocks queryRules, (lower order (constructProgram context)).rules =
        blocks.flatten ++ queryRules ++ [⟨dummyPredicate, []⟩] ∧
      List.Forall₂ AssertedInOrder context.said blocks ∧
      List.Forall₂ QueriedInOrder context.query queryRules) ∧
    ∀ relation, (LoweringToDatalogPass.run (constructProgram context)).2.canSayDepth.lookup
        relation =
      ((context.facts.filter (·.flatFact.relation = relation)).map FactContext.depth).max? := by
  constructor
  · refine ⟨_, _, lower_rules order _, ?_, ?_⟩
    · rw [loweredAssertions_eq, said_constructProgram, mapDrawn_map]
      exact forall₂_mapDrawn.mpr fun i said _ => assertedInOrder_rules _ said
    · rw [List.forall₂_map_right_iff, constructProgram, List.forall₂_map_right_iff,
        List.forall₂_same]
      exact fun query _ => queriedInOrder_rule query
  · intro relation
    rw [LoweringToDatalogPass.run_eq, recordedFacts_constructProgram]
    change ((context.facts.map (constructFact [])).foldl recordFact ∅).lookup relation = _
    rw [lookup_recordFact, AList.lookup_empty, List.filter_map, List.map_map]
    congr 1
    have hdepth : ∀ fact : FactContext,
        (constructFact [] fact).delegationChain.length = fact.depth :=
      fun fact => (constructFact_eq fact []).1
    simp only [Option.toList_none, List.nil_append, Function.comp_def, base_constructFact, hdepth]

end Raksha.AuthLogic
