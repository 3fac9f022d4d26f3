import Raksha.Ir.Datalog
import Raksha.Lib.Lexing
import Raksha.Souffle.Program

/-!
# Files of facts

`ir/datalog/input_relation_fact.h` and
`backends/policy_engine/souffle/{raksha_datalog_facts,utils}.{h,cc}`: the facts of a module are
written to a file, one a line, and Souffle loads the files. The writer puts symbols between double
quotes as they are, without escapes.
-/

namespace Raksha.PolicyEngine
open Raksha.Ir.Datalog

/-! ### What is written -/

section

variable (floatToString : BitVec 64 → String)

/-- `InputRelationFact::ToDatalogFactsFileString`. -/
def toDatalogFactsFileString (relationArguments : List Ir.Datalog.Value) : String :=
  "; ".intercalate (relationArguments.map fun arg => arg.toDatalogString floatToString)

/-- `IsOperationFact`: the relation has one argument. -/
def isOperationFact (operation : Souffle.Operation) : List Ir.Datalog.Value :=
  [operationRecord operation]

/-- The text that `WriteFactsToFile` writes. -/
def writeFactsToFile (facts : List (List Ir.Datalog.Value)) : String :=
  "\n".intercalate (facts.map (toDatalogFactsFileString floatToString))

/-- `RakshaDatalogFacts::DumpFactsToDirectory`: the text of `isOperation.facts`. -/
def dumpFacts (isOperationFacts : List Souffle.Operation) : String :=
  writeFactsToFile floatToString (isOperationFacts.map isOperationFact)

end

/-! ### What is read -/

/-- The characters of a symbol that need no escape in a file with the delimiter `;`. -/
def isUnescaped (c : Char) : Bool :=
  c ≠ '"' && c ≠ '\\' && c ≠ ';' && c ≠ '\n' && c ≠ '\r'

def Unescaped (symbol : String) : Prop := symbol.toList.all isUnescaped = true

instance : DecidablePred Unescaped := fun symbol =>
  inferInstanceAs (Decidable (symbol.toList.all isUnescaped = true))

theorem Unescaped.append {symbol symbol' : String} (h : Unescaped symbol) (h' : Unescaped symbol') :
    Unescaped (symbol ++ symbol') := by
  rw [Unescaped, String.toList_append, List.all_append, Bool.and_eq_true]
  exact ⟨h, h'⟩

theorem unescaped_toString (n : ℕ) : Unescaped (toString n) := by
  refine List.all_eq_true.mpr fun c hc => ?_
  have hdigit := Lib.Lexing.isDigit_of_mem_toString hc
  by_contra hescaped
  simp only [isUnescaped, Bool.and_eq_true, decide_eq_true_eq, not_and_or, not_not] at hescaped
  rcases hescaped with (((rfl | rfl) | rfl) | rfl) | rfl <;> cases hdigit

def UnescapedPayload : Souffle.AttributePayload → Prop
  | .stringAttributePayload str => Unescaped str
  | .numberAttributePayload num => -2 ^ 63 ≤ num ∧ num < 2 ^ 63
  | .floatAttributePayload _ => False

/-- All symbols of the operation can be written without escapes, and its numbers have 64 bits. -/
structure UnescapedOperation (operation : Souffle.Operation) : Prop where
  actor : Unescaped operation.actor
  operator : Unescaped operation.operator
  results : ∀ symbol ∈ operation.resultList, Unescaped symbol
  operands : ∀ symbol ∈ operation.operandList, Unescaped symbol
  attributes : ∀ attr ∈ operation.attributes,
    Unescaped attr.attrName ∧ UnescapedPayload attr.attrPayload

/-- `SouffleProgram::loadAll`: what the texts of the files leave in the input relations. -/
structure FactsReader where
  isOperation : String → Finset Souffle.Operation
  isSqlPolicyRule : String → Finset Souffle.SqlPolicyRule

/-- Records that are written in the syntax of Souffle are read back. -/
def FactsReader.ReadsWritten (reader : FactsReader) : Prop :=
  ∀ (floatToString : BitVec 64 → String) (operations : List Souffle.Operation),
    (∀ operation ∈ operations, UnescapedOperation operation) →
    reader.isOperation (dumpFacts floatToString operations) = operations.toFinset

end Raksha.PolicyEngine
