import Raksha.AuthLogic.Datalog

/-!
# The syntax trees of authorization logic

The nodes of `ir/auth_logic/ast.h`. The delegation chain of a fact starts with its innermost
principal.
-/

namespace Raksha.AuthLogic

structure Principal where
  name : String
deriving DecidableEq, Repr

/-- `principal predicate`. -/
structure Attribute where
  principal : Principal
  predicate : Predicate
deriving DecidableEq, Repr

structure CanActAs where
  leftPrincipal : Principal
  rightPrincipal : Principal
deriving DecidableEq, Repr

inductive BaseFact
  | predicate (predicate : Predicate)
  | attr (attr : Attribute)
  | canActAs (canActAs : CanActAs)
deriving DecidableEq, Repr

structure Fact where
  delegationChain : List Principal
  baseFact : BaseFact
deriving DecidableEq, Repr

structure ConditionalAssertion where
  lhs : Fact
  rhs : List BaseFact
deriving DecidableEq, Repr

inductive Assertion
  | fact (fact : Fact)
  | conditional (conditional : ConditionalAssertion)
deriving DecidableEq, Repr

structure SaysAssertion where
  principal : Principal
  assertions : List Assertion
deriving DecidableEq, Repr

structure Query where
  name : String
  principal : Principal
  fact : Fact
deriving DecidableEq, Repr

structure Program where
  relationDeclarations : List RelationDeclaration
  saysAssertions : List SaysAssertion
  queries : List Query
deriving DecidableEq, Repr

/-! ### What an assertion asserts -/

namespace Assertion

def lhs : Assertion → Fact
  | fact f => f
  | conditional c => c.lhs

def rhs : Assertion → List BaseFact
  | fact _ => []
  | conditional c => c.rhs

end Assertion

def SaysAssertion.said (saysAssertion : SaysAssertion) : List (Principal × Assertion) :=
  saysAssertion.assertions.map fun assertion => (saysAssertion.principal, assertion)

/-- The assertions of the program with their speakers, in order. -/
def Program.said (program : Program) : List (Principal × Assertion) :=
  program.saysAssertions.flatMap SaysAssertion.said

end Raksha.AuthLogic
