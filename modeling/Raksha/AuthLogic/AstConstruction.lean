import Raksha.AuthLogic.Ast
import Raksha.AuthLogic.Grammar

/-!
# Construction of syntax trees

`ir/auth_logic/ast_construction.cc`: the syntax tree of a parse tree.
-/

namespace Raksha.AuthLogic

/-- Newlines are dropped and three quotation marks become one, from left to right. -/
def sanitizeMultilineString : List Char → List Char
  | '\n' :: text => sanitizeMultilineString text
  | '"' :: '"' :: '"' :: text => '"' :: sanitizeMultilineString text
  | c :: text => c :: sanitizeMultilineString text
  | [] => []

def sanitizeMultilineStringForPredicateArgument (predicateArgument : String) : String :=
  String.ofList (sanitizeMultilineString predicateArgument.toList)

def constructPrincipal (stringLiteral : String) : Principal := ⟨stringLiteral⟩

def constructPredArg : PredArgContext → String
  | .constant text => text
  | .multilineConstant text => sanitizeMultilineStringForPredicateArgument text
  | .variable text => text
  | .number text => text

def constructPredicate (context : PredicateContext) : Predicate where
  name := context.name
  args := (context.predArg :: context.predArgs).map constructPredArg
  sign := if context.neg then .negated else .positive

def constructVerbphrase (leftPrincipal : Principal) : VerbphraseContext → BaseFact
  | .predphrase predicate => .attr ⟨leftPrincipal, constructPredicate predicate⟩
  | .actsAsPhrase principal => .canActAs ⟨leftPrincipal, constructPrincipal principal⟩

def constructFlatFact : FlatFactContext → BaseFact
  | .prinFact principal verbphrase => constructVerbphrase (constructPrincipal principal) verbphrase
  | .predFact predicate => .predicate (constructPredicate predicate)

def constructRvalue : RvalueContext → BaseFact
  | .flatFactRvalue flatFact => constructFlatFact flatFact
  | .binopRvalue left binop right =>
    .predicate ⟨(fixed binop.type).text, [constructPredArg left, constructPredArg right], .positive⟩

/-- Every principal of the chain is pushed to the front. -/
def constructFact (delegationChain : List Principal) : FactContext → Fact
  | .flatFactFact flatFact => ⟨delegationChain, constructFlatFact flatFact⟩
  | .canSayFact principal fact =>
    constructFact (constructPrincipal principal :: delegationChain) fact

def constructArgumentType : AuthLogicTypeContext → ArgumentType
  | .numberType => .number
  | .principalType => .principal
  | .customType text => .custom text

def constructRelationDeclaration (context : RelationDeclarationContext) : RelationDeclaration where
  relationName := context.name
  isAttribute := context.isAttribute
  arguments := (context.param :: context.params).map fun param =>
    ⟨param.1, constructArgumentType param.2⟩

def constructQuery (context : QueryContext) : Query :=
  ⟨context.name, constructPrincipal context.principal, constructFact [] context.fact⟩

def constructAssertion : AssertionContext → Assertion
  | .factAssertion fact => .fact (constructFact [] fact)
  | .hornClauseAssertion fact rvalue rvalues =>
    .conditional ⟨constructFact [] fact, (rvalue :: rvalues).map constructRvalue⟩

def constructSaysAssertion : SaysAssertionContext → SaysAssertion
  | .saysSingle principal assertion _ =>
    ⟨constructPrincipal principal, [constructAssertion assertion]⟩
  | .saysMulti principal assertion assertions _ =>
    ⟨constructPrincipal principal, (assertion :: assertions).map constructAssertion⟩

namespace ProgramContext

def saysAssertion (context : ProgramContext) : List SaysAssertionContext :=
  (context.statement :: context.statements).filterMap fun
    | .saysAssertion context => some context
    | _ => none

def query (context : ProgramContext) : List QueryContext :=
  (context.statement :: context.statements).filterMap fun
    | .query context => some context
    | _ => none

def relationDeclaration (context : ProgramContext) : List RelationDeclarationContext :=
  (context.statement :: context.statements).filterMap fun
    | .relationDeclaration context => some context
    | _ => none

end ProgramContext

def constructProgram (context : ProgramContext) : Program where
  relationDeclarations := context.relationDeclaration.map constructRelationDeclaration
  saysAssertions := context.saysAssertion.map constructSaysAssertion
  queries := context.query.map constructQuery

/-- What the generated parser returns: a tree of the grammar, or after a syntax error a tree that
is only part of one. Of the latter only the program matters that is constructed from it, if
the construction does not stop at a missing child. -/
inductive ParserResult
  | derived (context : ProgramContext)
  | recovered (program : Option Program)

/-- `ParseProgram`, over the generated parser. The number of syntax errors is not read. -/
def parseProgram (parser : List Token → ParserResult) (progText : String) : Option Program :=
  match parser (authLogicTokens progText.toList) with
  | .derived context => some (constructProgram context)
  | .recovered program => program

/-- The program is the syntax tree of a text of the grammar. -/
def Program.Derivable (program : Program) : Prop :=
  ∃ progText context, Derives progText context ∧ constructProgram context = program

end Raksha.AuthLogic
