import Mathlib.Data.List.AList
import Raksha.AuthLogic.Ast

/-!
# Lowering to Datalog

`ir/auth_logic/lowering_ast_datalog.h` and `lowering_ast_datalog.cc`. The pass counts its fresh
variables and records for every predicate how deep it stands behind `canSay`.
-/

namespace Raksha.AuthLogic

/-! ### Predicates -/

def pushOntoPredicate (modifier : String) (newArgs : List String) (predicate : Predicate) :
    Predicate :=
  ⟨modifier ++ predicate.name, newArgs ++ predicate.args, predicate.sign⟩

def pushPrincipal (modifier : String) (principal : Principal) (predicate : Predicate) :
    Predicate :=
  pushOntoPredicate modifier [principal.name] predicate

def attributeToDLIR (attr : Attribute) : Predicate :=
  pushPrincipal "" attr.principal attr.predicate

def canActAsToDLIR (canActAs : CanActAs) : Predicate :=
  ⟨"canActAs", [canActAs.leftPrincipal.name, canActAs.rightPrincipal.name], .positive⟩

/-- The predicate that a base fact becomes. -/
def baseFactPredicate : BaseFact → Predicate
  | .predicate predicate => predicate
  | .attr attr => attributeToDLIR attr
  | .canActAs canActAs => canActAsToDLIR canActAs

/-! ### The generated rules, with their fresh principals -/

/-- `speaker says Y PredX :- speaker says Y canActAs X, speaker says X PredX`. -/
def spokenAttributeRule (speaker prinY : Principal) (attr : Attribute) : Rule where
  lhs := pushPrincipal "says_" speaker (attributeToDLIR ⟨prinY, attr.predicate⟩)
  rhs := [pushPrincipal "says_" speaker (canActAsToDLIR ⟨prinY, attr.principal⟩),
    pushPrincipal "says_" speaker (attributeToDLIR attr)]

/-- `speaker says Y canActAs Z :- speaker says Y canActAs X, speaker says X canActAs Z`. -/
def spokenCanActAsRule (speaker prinY : Principal) (canActAs : CanActAs) : Rule where
  lhs := pushPrincipal "says_" speaker (canActAsToDLIR ⟨prinY, canActAs.rightPrincipal⟩)
  rhs := [pushPrincipal "says_" speaker (canActAsToDLIR ⟨prinY, canActAs.leftPrincipal⟩),
    pushPrincipal "says_" speaker (canActAsToDLIR canActAs)]

/-- `speaker says inner :- fresh says inner, speaker says fresh canSay inner`. -/
def delegationRule (speaker fresh : Principal) (inner : Predicate) : Rule where
  lhs := pushPrincipal "says_" speaker inner
  rhs := [pushPrincipal "says_" fresh inner,
    pushPrincipal "says_" speaker (pushPrincipal "canSay_" fresh inner)]

def dummyPredicate : Predicate := ⟨"grounded_dummy", ["\"dummy_var\""], .positive⟩

/-! ### The pass -/

structure LoweringToDatalogPass where
  freshVarCount : ℕ
  canSayDepth : AList fun _ : String => ℕ

/-- The name of the fresh variable with this number. -/
def freshName (n : ℕ) : String := "x__" ++ Nat.repr n

/-- The larger one of the depth and the recorded depth is recorded. -/
def deepen (canSayDepth : AList fun _ : String => ℕ) (predicateName : String) (depth : ℕ) :
    AList fun _ : String => ℕ :=
  canSayDepth.insert predicateName
    (match canSayDepth.lookup predicateName with
    | none => depth
    | some recorded => max depth recorded)

namespace LoweringToDatalogPass

def initial : LoweringToDatalogPass := ⟨0, ∅⟩

def freshVar (pass : LoweringToDatalogPass) : String × LoweringToDatalogPass :=
  (freshName (pass.freshVarCount + 1), { pass with freshVarCount := pass.freshVarCount + 1 })

def updateCanSayDepth (pass : LoweringToDatalogPass) (predicateName : String) (depth : ℕ) :
    LoweringToDatalogPass :=
  { pass with canSayDepth := deepen pass.canSayDepth predicateName depth }

/-- `utils::MapIter` with a function that changes the pass. -/
def mapIter {α β : Type} (f : LoweringToDatalogPass → α → β × LoweringToDatalogPass) :
    LoweringToDatalogPass → List α → List β × LoweringToDatalogPass
  | pass, [] => ([], pass)
  | pass, value :: values =>
    let (result, pass) := f pass value
    let (results, pass) := mapIter f pass values
    (result :: results, pass)

def spokenAttributeToDLIR (pass : LoweringToDatalogPass) (speaker : Principal)
    (attr : Attribute) : Rule × LoweringToDatalogPass :=
  let (prinY, pass) := pass.freshVar
  (spokenAttributeRule speaker ⟨prinY⟩ attr, pass)

def spokenCanActAsToDLIR (pass : LoweringToDatalogPass) (speaker : Principal)
    (canActAs : CanActAs) : Rule × LoweringToDatalogPass :=
  let (prinY, pass) := pass.freshVar
  (spokenCanActAsRule speaker ⟨prinY⟩ canActAs, pass)

def baseFactToDLIR (pass : LoweringToDatalogPass) (speaker : Principal) :
    BaseFact → (Predicate × List Rule) × LoweringToDatalogPass
  | .predicate predicate => ((predicate, []), pass)
  | .attr attr =>
    let (rule, pass) := pass.spokenAttributeToDLIR speaker attr
    ((attributeToDLIR attr, [rule]), pass)
  | .canActAs canActAs =>
    let (rule, pass) := pass.spokenCanActAsToDLIR speaker canActAs
    ((canActAsToDLIR canActAs, [rule]), pass)

/-- One round of the loop over the delegation chain. -/
def delegate (speaker : Principal) (state : (Predicate × List Rule) × LoweringToDatalogPass)
    (delegatee : Principal) : (Predicate × List Rule) × LoweringToDatalogPass :=
  let ((inner, rules), pass) := state
  let (fresh, pass) := pass.freshVar
  ((pushPrincipal "canSay_" delegatee inner, rules ++ [delegationRule speaker ⟨fresh⟩ inner]), pass)

def factToDLIR (pass : LoweringToDatalogPass) (speaker : Principal) (fact : Fact) :
    (Predicate × List Rule) × LoweringToDatalogPass :=
  let ((base, rules), pass) := pass.baseFactToDLIR speaker fact.baseFact
  let (result, pass) := fact.delegationChain.foldl (delegate speaker) ((base, rules), pass)
  (result, pass.updateCanSayDepth base.name fact.delegationChain.length)

/-- A condition of an assertion. The rule that is generated for it is not used. -/
def conditionToDLIR (speaker : Principal) (pass : LoweringToDatalogPass) (baseFact : BaseFact) :
    Predicate × LoweringToDatalogPass :=
  let ((predicate, _), pass) := pass.baseFactToDLIR speaker baseFact
  (pushPrincipal "says_" speaker predicate, pass)

def generateDLIRAssertionsFact (pass : LoweringToDatalogPass) (speaker : Principal) (fact : Fact) :
    List Rule × LoweringToDatalogPass :=
  let ((predicate, rules), pass) := pass.factToDLIR speaker fact
  (rules ++ [⟨pushPrincipal "says_" speaker predicate, []⟩], pass)

def generateDLIRAssertionsConditional (pass : LoweringToDatalogPass) (speaker : Principal)
    (conditional : ConditionalAssertion) : List Rule × LoweringToDatalogPass :=
  let (rhs, pass) := mapIter (conditionToDLIR speaker) pass conditional.rhs
  let ((lhs, rules), pass) := pass.factToDLIR speaker conditional.lhs
  (rules ++ [⟨pushPrincipal "says_" speaker lhs, rhs⟩], pass)

def singleSaysAssertionToDLIR (speaker : Principal) (pass : LoweringToDatalogPass) :
    Assertion → List Rule × LoweringToDatalogPass
  | .fact fact => pass.generateDLIRAssertionsFact speaker fact
  | .conditional conditional => pass.generateDLIRAssertionsConditional speaker conditional

def saysAssertionToDLIR (pass : LoweringToDatalogPass) (saysAssertion : SaysAssertion) :
    List Rule × LoweringToDatalogPass :=
  let (rules, pass) :=
    mapIter (singleSaysAssertionToDLIR saysAssertion.principal) pass saysAssertion.assertions
  (rules.flatten, pass)

def saysAssertionsToDLIR (pass : LoweringToDatalogPass) (saysAssertions : List SaysAssertion) :
    List Rule × LoweringToDatalogPass :=
  let (rules, pass) := mapIter saysAssertionToDLIR pass saysAssertions
  (rules.flatten, pass)

def queryToDLIR (pass : LoweringToDatalogPass) (query : Query) : Rule × LoweringToDatalogPass :=
  let ((mainPred, _), pass) := pass.factToDLIR query.principal query.fact
  (⟨⟨query.name, ["\"dummy_var\""], .positive⟩,
    [pushPrincipal "says_" query.principal mainPred, dummyPredicate]⟩, pass)

def queriesToDLIR (pass : LoweringToDatalogPass) (queries : List Query) :
    List Rule × LoweringToDatalogPass :=
  mapIter queryToDLIR pass queries

end LoweringToDatalogPass

/-! ### Declarations -/

def transformAttributeDeclaration (declaration : RelationDeclaration) : RelationDeclaration :=
  if declaration.isAttribute then
    ⟨declaration.relationName, false, ⟨"attribute_prin", .principal⟩ :: declaration.arguments⟩
  else declaration

/-- The declaration of `canSay_` over the given one. -/
def canSayDeclaration (i : ℕ) (declaration : RelationDeclaration) : RelationDeclaration :=
  ⟨"canSay_" ++ declaration.relationName, false,
    ⟨"delegatee" ++ Nat.repr i, .principal⟩ :: declaration.arguments⟩

/-- The declarations for one predicate, behind those there are. From the second depth on they
extend the declaration at the index `i - 2` of all of them, which is always there. -/
def canSayDeclarationsAt (declaration : RelationDeclaration) (depth : ℕ)
    (declarations : List RelationDeclaration) : List RelationDeclaration :=
  (List.range' 1 depth).foldl (fun declarations i =>
    if i = 1 then declarations ++ [canSayDeclaration i declaration]
    else declarations ++ (declarations[i - 2]?.map (canSayDeclaration i)).toList) declarations

/-- The entries of the depth map come in the order of its iteration. -/
def getCanSayDeclarations (typeEnvironment : String → Option RelationDeclaration)
    (canSayDepth : List (String × ℕ)) : List RelationDeclaration :=
  canSayDepth.foldl (fun declarations (predicateName, depth) =>
    match typeEnvironment predicateName with
    | none => declarations
    | some declaration => canSayDeclarationsAt declaration depth declarations) []

def saysExtendRelationDeclaration (declaration : RelationDeclaration) : RelationDeclaration :=
  ⟨"says_" ++ declaration.relationName, false,
    ⟨"speaker", .principal⟩ :: declaration.arguments⟩

def canActAsDeclaration : RelationDeclaration :=
  ⟨"canActAs", false, [⟨"p1", .principal⟩, ⟨"p2", .principal⟩]⟩

/-- The first of several declarations of one name stays. -/
def typeEnvironment (declarations : List RelationDeclaration) (name : String) :
    Option RelationDeclaration :=
  declarations.find? fun declaration => declaration.relationName == name

def relationDeclarationToDLIR (declarations : List RelationDeclaration)
    (canSayDepth : List (String × ℕ)) : List RelationDeclaration :=
  let transformed := declarations.map transformAttributeDeclaration
  (transformed ++ getCanSayDeclarations (typeEnvironment transformed) canSayDepth ++
    [canActAsDeclaration]).map saysExtendRelationDeclaration

def dummyDeclaration (name : String) : RelationDeclaration :=
  ⟨name, false, [⟨"dummy_param", .custom "DummyType"⟩]⟩

def queryRelationDeclarationToDLIR (queries : List Query) : List RelationDeclaration :=
  queries.map (fun query => dummyDeclaration query.name) ++ [dummyDeclaration "grounded_dummy"]

/-! ### The program -/

/-- The pass behind the assertions and the queries. -/
def LoweringToDatalogPass.run (program : Program) :
    (List Rule × List Rule) × LoweringToDatalogPass :=
  let (assertions, pass) := initial.saysAssertionsToDLIR program.saysAssertions
  let (queries, pass) := pass.queriesToDLIR program.queries
  ((assertions, queries), pass)

/-- `ProgToDLIR`. The hash map of the depths is iterated in an arbitrary order. -/
def lower (order : List (String × ℕ) → List (String × ℕ)) (program : Program) : DatalogProgram :=
  let ((assertions, queries), pass) := LoweringToDatalogPass.run program
  { relationDeclarations :=
      relationDeclarationToDLIR program.relationDeclarations
        (order (pass.canSayDepth.entries.map fun entry => (entry.1, entry.2))) ++
      queryRelationDeclarationToDLIR program.queries
    rules := assertions ++ queries ++ [⟨dummyPredicate, []⟩]
    outputs := program.queries.map Query.name }

end Raksha.AuthLogic
