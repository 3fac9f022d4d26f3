import Mathlib.Algebra.Ring.Int.Defs
import Mathlib.Data.List.AList
import Mathlib.Data.List.Dedup
import Raksha.AuthLogic.Ast

/-!
# Insertion of universe relations

`ir/auth_logic/universe_relation_insertion.cc` with the environments that it builds and
`is_name_constant.cc`. Where the code checks or reads an argument that a declaration lacks, there
is no result.
-/

namespace Raksha.AuthLogic

/-! ### Constants -/

def asciiSpaces : List Char := [' ', '\t', '\n', '\x0b', '\x0c', '\r']

def stripAsciiWhitespace (text : List Char) : List Char :=
  ((text.dropWhile asciiSpaces.contains).reverse.dropWhile asciiSpaces.contains).reverse

def splitSign : List Char → Bool × List Char
  | '-' :: digits => (true, digits)
  | '+' :: digits => (false, digits)
  | digits => (false, digits)

/-- `absl::SimpleAtoi` into an `int` of 32 bits. -/
def simpleAtoi (text : String) : Option ℤ :=
  let (negative, digits) := splitSign (stripAsciiWhitespace text.toList)
  if digits.isEmpty || !digits.all Char.isDigit then none
  else
    let value : ℤ := Nat.ofDigitChars 10 digits 0
    let signed := if negative then -value else value
    if -2 ^ 31 ≤ signed ∧ signed < 2 ^ 31 then some signed else none

def isNameConstant (id : String) : Bool :=
  if id.toList.head? = some '"' ∧ id.toList.getLast? = some '"' then true
  else (simpleAtoi id).isSome

/-! ### The declaration environment -/

def addDeclaration (declMap : AList fun _ : String => RelationDeclaration)
    (declaration : RelationDeclaration) : Option (AList fun _ : String => RelationDeclaration) :=
  match declMap.lookup declaration.relationName with
  | none => some (declMap.insert declaration.relationName declaration)
  | some _ => none

/-- Fails with two declarations of one name. -/
def declarationEnvironment (program : Program) :
    Option (AList fun _ : String => RelationDeclaration) :=
  program.relationDeclarations.foldlM addDeclaration ∅

/-! ### The type environment -/

/-- The arguments of a predicate with the types that it gives them. -/
def predicateTypings (declEnv : AList fun _ : String => RelationDeclaration)
    (predicate : Predicate) : Option (List (String × ArgumentType)) :=
  if predicate.isNumericOperator then some (predicate.args.map fun arg => (arg, .number))
  else do
    let declaration ← declEnv.lookup predicate.name
    predicate.args.zipIdx.mapM fun (arg, i) => do
      let argument ← declaration.arguments[i]?
      some (arg, argument.argumentType)

def principalTyping (principal : Principal) : String × ArgumentType :=
  (principal.name, .principal)

def baseFactTypings (declEnv : AList fun _ : String => RelationDeclaration) :
    BaseFact → Option (List (String × ArgumentType))
  | .predicate predicate => predicateTypings declEnv predicate
  | .attr attr => do
    let typings ← predicateTypings declEnv attr.predicate
    some (principalTyping attr.principal :: typings)
  | .canActAs canActAs =>
    some [principalTyping canActAs.leftPrincipal, principalTyping canActAs.rightPrincipal]

def factTypings (declEnv : AList fun _ : String => RelationDeclaration) (fact : Fact) :
    Option (List (String × ArgumentType)) := do
  let typings ← baseFactTypings declEnv fact.baseFact
  some (fact.delegationChain.map principalTyping ++ typings)

def assertionTypings (declEnv : AList fun _ : String => RelationDeclaration)
    (assertion : Assertion) : Option (List (String × ArgumentType)) := do
  let lhs ← factTypings declEnv assertion.lhs
  let rhs ← assertion.rhs.mapM (baseFactTypings declEnv)
  some (lhs ++ rhs.flatten)

def saysAssertionTypings (declEnv : AList fun _ : String => RelationDeclaration)
    (saysAssertion : SaysAssertion) : Option (List (String × ArgumentType)) := do
  let typings ← saysAssertion.assertions.mapM (assertionTypings declEnv)
  some (principalTyping saysAssertion.principal :: typings.flatten)

def queryTypings (declEnv : AList fun _ : String => RelationDeclaration) (query : Query) :
    Option (List (String × ArgumentType)) := do
  let typings ← factTypings declEnv query.fact
  some (principalTyping query.principal :: typings)

/-- What the visitor adds, in the order of its visits. -/
def programTypings (declEnv : AList fun _ : String => RelationDeclaration) (program : Program) :
    Option (List (String × ArgumentType)) := do
  let saysAssertions ← program.saysAssertions.mapM (saysAssertionTypings declEnv)
  let queries ← program.queries.mapM (queryTypings declEnv)
  some (saysAssertions.flatten ++ queries.flatten)

/-- Fails when the constant already has another type. -/
def addTyping (literalTypeMap : AList fun _ : String => ArgumentType)
    (typing : String × ArgumentType) : Option (AList fun _ : String => ArgumentType) :=
  if isNameConstant typing.1 then
    match literalTypeMap.lookup typing.1 with
    | none => some (literalTypeMap.insert typing.1 typing.2)
    | some argType => if argType = typing.2 then some literalTypeMap else none
  else some literalTypeMap

def typeEnvironmentOf (declEnv : AList fun _ : String => RelationDeclaration)
    (program : Program) : Option (AList fun _ : String => ArgumentType) := do
  let typings ← programTypings declEnv program
  typings.foldlM addTyping ∅

/-! ### Universes -/

def typeToUniverseName : ArgumentType → String
  | .number => "isNumber"
  | .principal => "isPrincipal"
  | .custom name => "is" ++ name

def makeUniverseMembershipFact (elementName : String) (argType : ArgumentType) : BaseFact :=
  .predicate ⟨typeToUniverseName argType, [elementName], .positive⟩

def typeToUniverseDeclaration (argType : ArgumentType) : RelationDeclaration :=
  ⟨typeToUniverseName argType, false, [⟨"x", argType⟩]⟩

/-- Every constant is in its universe for every constant principal. The entries come in the order
in which the hash map is iterated. -/
def getUniverseDefiningFacts (literalTypeMap : List (String × ArgumentType)) :
    List SaysAssertion :=
  (literalTypeMap.filter (·.2 = .principal)).flatMap fun principal =>
    literalTypeMap.map fun typing =>
      ⟨⟨principal.1⟩, [.fact ⟨[], makeUniverseMembershipFact typing.1 typing.2⟩]⟩

/-- The set of declarations, without an order. -/
def getUniverseDeclarations (program : Program) : List RelationDeclaration :=
  ((program.relationDeclarations.flatMap fun declaration =>
    declaration.arguments.map fun argument => typeToUniverseDeclaration argument.argumentType) ++
    [typeToUniverseDeclaration .number, typeToUniverseDeclaration .principal]).dedup

/-! ### Universe conditions -/

def principalConditions (principal : Principal) : List BaseFact :=
  if isNameConstant principal.name then []
  else [makeUniverseMembershipFact principal.name .principal]

def predicateConditions (declEnv : AList fun _ : String => RelationDeclaration)
    (predicate : Predicate) : Option (List BaseFact) := do
  let declaration ← declEnv.lookup predicate.name
  let conditions ← predicate.args.zipIdx.mapM fun (arg, i) =>
    if isNameConstant arg then some []
    else do
      let argument ← declaration.arguments[i]?
      some [makeUniverseMembershipFact arg argument.argumentType]
  some conditions.flatten

def getUniverseConditions (declEnv : AList fun _ : String => RelationDeclaration) :
    BaseFact → Option (List BaseFact)
  | .predicate predicate => predicateConditions declEnv predicate
  | .attr attr => do
    let conditions ← predicateConditions declEnv attr.predicate
    some (principalConditions attr.principal ++ conditions)
  | .canActAs canActAs =>
    some (principalConditions canActAs.leftPrincipal ++
      principalConditions canActAs.rightPrincipal)

def addUniverseConditions (declEnv : AList fun _ : String => RelationDeclaration) :
    Assertion → Option Assertion
  | .fact fact => do
    let conditions ← getUniverseConditions declEnv fact.baseFact
    some (if conditions.isEmpty then .fact fact else .conditional ⟨fact, conditions⟩)
  | .conditional conditional => do
    let conditions ← getUniverseConditions declEnv conditional.lhs.baseFact
    some (.conditional ⟨conditional.lhs, conditions ++ conditional.rhs⟩)

def addUniverseConditionsSays (declEnv : AList fun _ : String => RelationDeclaration)
    (saysAssertion : SaysAssertion) : Option SaysAssertion := do
  let assertions ← saysAssertion.assertions.mapM (addUniverseConditions declEnv)
  some ⟨saysAssertion.principal, assertions⟩

/-- The orders are those in which the hash containers are iterated. -/
def insertUniverseRelations
    (literalOrder : List (String × ArgumentType) → List (String × ArgumentType))
    (declarationOrder : List RelationDeclaration → List RelationDeclaration)
    (program : Program) : Option Program := do
  let declEnv ← declarationEnvironment program
  let typeEnv ← typeEnvironmentOf declEnv program
  let saysAssertions ← program.saysAssertions.mapM (addUniverseConditionsSays declEnv)
  some {
    relationDeclarations := program.relationDeclarations ++
      declarationOrder (getUniverseDeclarations program)
    saysAssertions := getUniverseDefiningFacts
      (literalOrder (typeEnv.entries.map fun entry => (entry.1, entry.2))) ++ saysAssertions
    queries := program.queries }

end Raksha.AuthLogic
