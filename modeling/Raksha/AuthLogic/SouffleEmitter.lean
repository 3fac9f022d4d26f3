import Mathlib.Data.List.Dedup
import Mathlib.Data.List.Sort
import Mathlib.Data.String.Basic
import Raksha.AuthLogic.Datalog

/-!
# Emission of Souffle programs

The text that `ir/auth_logic/souffle_emitter.h` writes: the types, the relations, the rules and the
outputs of a program. Predicates with the name of a comparison operator are written infix. The set
of predicates that the emitter collects is not read.
-/

namespace Raksha.AuthLogic

/-- Fails where the emitter checks that a comparison has two arguments. -/
def emitPredicate (predicate : Predicate) : Option String :=
  if predicate.isNumericOperator then
    match predicate.args with
    | [left, right] => some (left ++ predicate.name ++ right)
    | _ => none
  else
    some ((if predicate.sign = .negated then "!" else "") ++ predicate.name ++ "(" ++
      ", ".intercalate predicate.args ++ ")")

def emitAssertion (condAssertion : Rule) : Option String := do
  let rhsTranslated ← condAssertion.rhs.mapM emitPredicate
  let lhs ← emitPredicate condAssertion.lhs
  some (lhs ++
    (if rhsTranslated.isEmpty then "" else " :- " ++ ", ".intercalate rhsTranslated) ++ ".")

def emitProgramBody (program : DatalogProgram) : Option String :=
  (program.rules.mapM emitAssertion).map "\n".intercalate

def emitOutputs (program : DatalogProgram) : String :=
  "\n".intercalate (program.outputs.map (".output " ++ ·))

/-! ### Declarations -/

def ArgumentType.name : ArgumentType → String
  | .number => "Number"
  | .principal => "Principal"
  | .custom name => name

def relationsToNotDeclare : List String :=
  ["Principal", "Tag", "AccessPath", "Epsilon", "Delta", "says_isAccessPath", "says_isTag",
    "says_isPrincipal", "says_ownsTag", "says_ownsAccessPath", "says_hasTag", "says_removeTag",
    "says_may", "says_will", "says_isGlobalEpsilon", "says_isGlobalDelta", "isAccessPath", "isTag",
    "isPrincipal", "Operation"]

/-- `std::sort`. -/
def sortStrings (strings : List String) : List String :=
  strings.mergeSort fun left right => decide (left ≤ right)

theorem sortStrings_perm (strings : List String) : (sortStrings strings).Perm strings :=
  List.mergeSort_perm _ _

theorem sortStrings_eq_iff {strings strings' : List String} :
    sortStrings strings = sortStrings strings' ↔ strings.Perm strings' := by
  constructor
  · intro h
    exact (sortStrings_perm strings).symm.trans (h ▸ sortStrings_perm strings')
  · intro h
    have hsorted : ∀ l : List String, (sortStrings l).Pairwise (· ≤ ·) := fun l =>
      List.pairwise_mergeSort' (· ≤ ·) l
    have hperm := (sortStrings_perm strings).trans (h.trans (sortStrings_perm strings').symm)
    exact hperm.eq_of_pairwise' (hsorted strings) (hsorted strings')

def emitArgument (argument : Argument) : String :=
  argument.argumentName ++ " : " ++ argument.argumentType.name

def emitRelationDeclaration (declaration : RelationDeclaration) : String :=
  ".decl " ++ declaration.relationName ++ "(" ++
    ", ".intercalate (declaration.arguments.map emitArgument) ++ ")"

/-- With `skipDeclarations`, no relation and no type is skipped. -/
def declaredRelations (program : DatalogProgram) (skipDeclarations : Bool) :
    List RelationDeclaration :=
  program.relationDeclarations.filter fun declaration =>
    skipDeclarations || !relationsToNotDeclare.contains declaration.relationName

def emitRelationDeclarations (program : DatalogProgram) (skipDeclarations : Bool) : String :=
  "\n".intercalate
    (sortStrings ((declaredRelations program skipDeclarations).map emitRelationDeclaration))

def ArgumentType.isCustom : ArgumentType → Bool
  | .custom _ => true
  | _ => false

/-- The types of the arguments of all relations, and the type of numbers. -/
def declaredTypes (program : DatalogProgram) (skipDeclarations : Bool) : List String :=
  (((program.relationDeclarations.flatMap fun declaration =>
      declaration.arguments.map Argument.argumentType).filter fun argumentType =>
        skipDeclarations ||
          (argumentType.isCustom && !relationsToNotDeclare.contains argumentType.name)).map
    ArgumentType.name) ++ ["Number"]

def emitTypeDeclaration (typeName : String) : String := ".type " ++ typeName ++ " <: symbol"

def emitTypeDeclarations (program : DatalogProgram) (skipDeclarations : Bool) : String :=
  "\n".intercalate
    (sortStrings ((declaredTypes program skipDeclarations).map emitTypeDeclaration).dedup)

/-- Fails where the body does. -/
def emitProgram (program : DatalogProgram) (skipDeclarations : Bool) : Option String := do
  let body ← emitProgramBody program
  some (emitTypeDeclarations program skipDeclarations ++ "\n" ++
    emitRelationDeclarations program skipDeclarations ++ "\n" ++ body ++ "\n" ++
    emitOutputs program)

end Raksha.AuthLogic
