import Raksha.Parser.IrGrammar
import Raksha.AuthLogic.Lexer

/-!
# The parser rules of authorization logic

The parse trees of `policy/auth_logic/AuthLogic.g4` with their tokens, and a parser that reads one
statement after another as long as a complete one follows.
-/

namespace Raksha.AuthLogic
open Raksha.Lib.Lexing Raksha.Lib.Parsing
open Raksha.Parser (separated)

/-! ### Parse trees

Where the grammar asks for at least one item, the first stands apart from the others. -/

inductive PredArgContext
  | constant (text : String)
  | multilineConstant (text : String)
  | variable (text : String)
  | number (text : String)
deriving DecidableEq

structure PredicateContext where
  neg : Bool
  name : String
  predArg : PredArgContext
  predArgs : List PredArgContext
deriving DecidableEq

inductive VerbphraseContext
  | predphrase (predicate : PredicateContext)
  | actsAsPhrase (principal : String)
deriving DecidableEq

inductive FlatFactContext
  | prinFact (principal : String) (verbphrase : VerbphraseContext)
  | predFact (predicate : PredicateContext)
deriving DecidableEq

inductive BinopContext
  | ltbinop
  | grbinop
  | eqbinop
  | nebinop
  | leqbinop
  | geqbinop
deriving DecidableEq

inductive RvalueContext
  | flatFactRvalue (flatFact : FlatFactContext)
  | binopRvalue (left : PredArgContext) (binop : BinopContext) (right : PredArgContext)
deriving DecidableEq

inductive FactContext
  | flatFactFact (flatFact : FlatFactContext)
  | canSayFact (principal : String) (fact : FactContext)
deriving DecidableEq

inductive AssertionContext
  | factAssertion (fact : FactContext)
  | hornClauseAssertion (fact : FactContext) (rvalue : RvalueContext) (rvalues : List RvalueContext)
deriving DecidableEq

inductive SaysAssertionContext
  | saysSingle (principal : String) (assertion : AssertionContext) (exportTo : Option String)
  | saysMulti (principal : String) (assertion : AssertionContext)
      (assertions : List AssertionContext) (exportTo : Option String)
deriving DecidableEq

inductive KeyBindContext
  | bindpriv (principal file : String)
  | bindpub (principal file : String)
deriving DecidableEq

structure QueryContext where
  name : String
  principal : String
  fact : FactContext
deriving DecidableEq

structure ImportAssertionContext where
  principal : String
  file : String
deriving DecidableEq

inductive AuthLogicTypeContext
  | numberType
  | principalType
  | customType (name : String)
deriving DecidableEq

structure RelationDeclarationContext where
  isAttribute : Bool
  name : String
  param : String × AuthLogicTypeContext
  params : List (String × AuthLogicTypeContext)
deriving DecidableEq

inductive StatementContext
  | saysAssertion (context : SaysAssertionContext)
  | query (context : QueryContext)
  | keyBind (context : KeyBindContext)
  | importAssertion (context : ImportAssertionContext)
  | relationDeclaration (context : RelationDeclarationContext)
deriving DecidableEq

structure ProgramContext where
  statement : StatementContext
  statements : List StatementContext
deriving DecidableEq

/-! ### The tokens of a parse tree -/

/-- The only token of the type. -/
def fixed (type : TokenType) : Token := ⟨type, (fixedText type).getD ""⟩

def PredArgContext.tokens : PredArgContext → List Token
  | .constant text => [⟨.stringLiteral, text⟩]
  | .multilineConstant text => [⟨.multilineStringLiteral, text⟩]
  | .variable text => [⟨.variable, text⟩]
  | .number text => [⟨.numLiteral, text⟩]

def PredicateContext.tokens (context : PredicateContext) : List Token :=
  (if context.neg then [fixed .neg] else []) ++ ⟨.variable, context.name⟩ ::
    fixed .openParen :: (separated (fixed .comma) PredArgContext.tokens
      (context.predArg :: context.predArgs) ++ [fixed .closeParen])

def VerbphraseContext.tokens : VerbphraseContext → List Token
  | .predphrase predicate => predicate.tokens
  | .actsAsPhrase principal => [fixed .canActAs, ⟨.stringLiteral, principal⟩]

def FlatFactContext.tokens : FlatFactContext → List Token
  | .prinFact principal verbphrase => ⟨.stringLiteral, principal⟩ :: verbphrase.tokens
  | .predFact predicate => predicate.tokens

def BinopContext.type : BinopContext → TokenType
  | .ltbinop => .lessThan
  | .grbinop => .grThan
  | .eqbinop => .equals
  | .nebinop => .nEquals
  | .leqbinop => .leq
  | .geqbinop => .geq

def RvalueContext.tokens : RvalueContext → List Token
  | .flatFactRvalue flatFact => flatFact.tokens
  | .binopRvalue left binop right => left.tokens ++ fixed binop.type :: right.tokens

def FactContext.tokens : FactContext → List Token
  | .flatFactFact flatFact => flatFact.tokens
  | .canSayFact principal fact => ⟨.stringLiteral, principal⟩ :: fixed .canSay :: fact.tokens

def AssertionContext.tokens : AssertionContext → List Token
  | .factAssertion fact => fact.tokens ++ [fixed .period]
  | .hornClauseAssertion fact rvalue rvalues => fact.tokens ++ fixed .implies ::
      (separated (fixed .comma) RvalueContext.tokens (rvalue :: rvalues) ++ [fixed .period])

/-- `(EXPORT VARIABLE)?`. -/
def exportTokens : Option String → List Token
  | none => []
  | some file => [fixed .exportTo, ⟨.variable, file⟩]

def SaysAssertionContext.tokens : SaysAssertionContext → List Token
  | .saysSingle principal assertion exportTo =>
    ⟨.stringLiteral, principal⟩ :: fixed .saysWord :: (assertion.tokens ++ exportTokens exportTo)
  | .saysMulti principal assertion assertions exportTo =>
    ⟨.stringLiteral, principal⟩ :: fixed .saysWord :: fixed .openBrace ::
      ((assertion :: assertions).flatMap AssertionContext.tokens ++
        fixed .closeBrace :: exportTokens exportTo)

def KeyBindContext.tokens : KeyBindContext → List Token
  | .bindpriv principal file =>
    [fixed .bindPrivKey, ⟨.stringLiteral, principal⟩, ⟨.variable, file⟩]
  | .bindpub principal file => [fixed .bindPubKey, ⟨.stringLiteral, principal⟩, ⟨.variable, file⟩]

def QueryContext.tokens (context : QueryContext) : List Token :=
  ⟨.variable, context.name⟩ :: fixed .equals :: fixed .query ::
    ⟨.stringLiteral, context.principal⟩ :: fixed .saysWord ::
    (context.fact.tokens ++ [fixed .question])

def ImportAssertionContext.tokens (context : ImportAssertionContext) : List Token :=
  [fixed .importFrom, ⟨.stringLiteral, context.principal⟩, fixed .saysWord,
    ⟨.variable, context.file⟩]

def AuthLogicTypeContext.tokens : AuthLogicTypeContext → List Token
  | .numberType => [fixed .numberType]
  | .principalType => [fixed .principalType]
  | .customType text => [⟨.variable, text⟩]

/-- `VARIABLE ':' authLogicType`. -/
def paramTokens (param : String × AuthLogicTypeContext) : List Token :=
  ⟨.variable, param.1⟩ :: fixed .colon :: param.2.tokens

def RelationDeclarationContext.tokens (context : RelationDeclarationContext) : List Token :=
  fixed .decl :: ((if context.isAttribute then [fixed .attributeWord] else []) ++
    ⟨.variable, context.name⟩ :: fixed .openParen ::
    (separated (fixed .comma) paramTokens (context.param :: context.params) ++
      [fixed .closeParen]))

def StatementContext.tokens : StatementContext → List Token
  | .saysAssertion context => context.tokens
  | .query context => context.tokens
  | .keyBind context => context.tokens
  | .importAssertion context => context.tokens
  | .relationDeclaration context => context.tokens

def ProgramContext.tokens (context : ProgramContext) : List Token :=
  (context.statement :: context.statements).flatMap StatementContext.tokens

/-- The parse tree derives all tokens of the text from `program`. -/
def Derives (progText : String) (context : ProgramContext) : Prop :=
  authLogicTokens progText.toList = context.tokens

end Raksha.AuthLogic
