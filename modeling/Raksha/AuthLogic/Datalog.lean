import Mathlib.Data.List.Basic

/-!
# The Datalog programs of authorization logic

The nodes of `ir/datalog/program.h`.
-/

namespace Raksha.AuthLogic

inductive Sign
  | negated
  | positive
deriving DecidableEq, Repr

/-- Variables, string constants and numbers are all kept as their texts. -/
structure Predicate where
  name : String
  args : List String
  sign : Sign
deriving DecidableEq, Repr

def numericOperators : List String := ["<", ">", "=", "!=", "<=", ">="]

def Predicate.isNumericOperator (predicate : Predicate) : Bool :=
  numericOperators.contains predicate.name

inductive ArgumentType
  | number
  | principal
  | custom (name : String)
deriving DecidableEq, Repr

structure Argument where
  argumentName : String
  argumentType : ArgumentType
deriving DecidableEq, Repr

structure RelationDeclaration where
  relationName : String
  isAttribute : Bool
  arguments : List Argument
deriving DecidableEq, Repr

/-- A rule without conditions is a fact. -/
structure Rule where
  lhs : Predicate
  rhs : List Predicate
deriving DecidableEq, Repr

structure DatalogProgram where
  relationDeclarations : List RelationDeclaration
  rules : List Rule
  outputs : List String
deriving DecidableEq, Repr

end Raksha.AuthLogic
