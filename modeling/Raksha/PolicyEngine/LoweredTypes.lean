import Raksha.Parser.ParsedModules
import Raksha.PolicyEngine.DatalogLoweringVisitor
import Raksha.Souffle.Types

/-!
# Types of lowered facts

The facts of a module are terms of the type `Operation`, unless an attribute is a floating point
number.
-/

namespace Raksha.PolicyEngine
open Raksha.Common Raksha.Ir

theorem declared_getPayloadForAttribute (attr : Attribute) :
    Souffle.Declared (getPayloadForAttribute attr) ↔ ∀ bits, attr ≠ .float bits := by
  cases attr with
  | float bits => exact iff_of_false not_false fun h => h bits rfl
  | int64 value => exact iff_of_true trivial fun _ h => by cases h
  | string value => exact iff_of_true trivial fun _ h => by cases h

/-- The facts of a module have the type that the analysis declares just in case that no attribute
is a floating point number. -/
theorem hasType_lowerModule_iff (storageName : Address → String) (names : SsaNames)
    (module : Module) :
    (∀ fact ∈ (lowerModule storageName names module).1,
      Souffle.HasType .operation (Datalog.operationRecord fact)) ↔
    ∀ op ∈ module.operations, ∀ name bits, op.attributes.lookup name ≠ some (.float bits) := by
  rw [lowerModule_spec]
  simp only [List.forall_mem_map, Souffle.hasType_operation_iff]
  refine forall_congr' fun op => forall_congr' fun _ => ?_
  constructor
  · intro h name bits hlookup
    have hattr : (⟨name, getPayloadForAttribute (.float bits)⟩ : Souffle.Attribute) ∈
        lowerAttributes op.attributes :=
      (mem_lowerAttributes _ _).mpr ⟨.float bits, hlookup, rfl⟩
    exact (declared_getPayloadForAttribute _).mp (h _ hattr) bits rfl
  · intro h attr hattr
    obtain ⟨payload, hlookup, hpayload⟩ := (mem_lowerAttributes _ _).mp hattr
    rw [hpayload, declared_getPayloadForAttribute]
    rintro bits rfl
    exact h attr.attrName bits hlookup

def floatContext : Parser.ModuleContext where
  moduleId := "m"
  block := [⟨"b", [⟨["%0"], "f", [⟨"a", .floatAttribute "1.5"⟩], [.anyValue]⟩]⟩]

def floatModule : Module where
  blocks := [⟨[{
    address := 0
    op := ⟨"f", 1⟩
    attributes := AList.singleton "a" (.float 0x3FF8000000000000)
    inputs := [.any] }]⟩]
  distinct := by decide

def floatFact : Souffle.Operation where
  actor := "sql"
  operator := "f"
  resultList := ["%0"]
  operandList := ["<<ANY>>"]
  attributes := [⟨"a", .floatAttributePayload 0x3FF8000000000000⟩]

/-- A program with a floating point number, whose fact has no type. -/
theorem floatProgram_illTyped : ∃ result,
    Parser.parseProgram (fun _ => some 0x3FF8000000000000)
      "module m \x7b block b \x7b %0 = f [a: 1.5](<<ANY>>) \x7d \x7d" = .ok result ∧
    ∃ fact ∈ (lowerModule (fun _ => "") result.ssaNames result.module).1,
      ¬ Souffle.HasType .operation (Datalog.operationRecord fact) := by
  have hparse : Parser.IrParser.irProgram (Parser.irTokens
      "module m \x7b block b \x7b %0 = f [a: 1.5](<<ANY>>) \x7d \x7d".toList) =
      some floatContext := by decide +kernel
  refine ⟨⟨_, floatModule, _⟩,
    Parser.parseProgram_eq_ok.mpr ⟨floatContext, _, hparse, rfl, rfl, rfl, rfl⟩, floatFact, by decide +kernel, ?_⟩
  rw [Souffle.hasType_operation_iff]
  exact fun h => h _ (List.mem_singleton_self _)

end Raksha.PolicyEngine
