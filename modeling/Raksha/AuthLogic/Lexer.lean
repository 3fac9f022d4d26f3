import Raksha.Parser.IrLexer

/-!
# The lexer of authorization logic

The lexer rules of `policy/auth_logic/AuthLogic.g4`, in the order of the generated lexer: the
literals of the parser rules come first. Blanks and comments are those of `parser/ir/Ir.g4`.
-/

namespace Raksha.AuthLogic
open Raksha.Lib.Lexing

inductive TokenType
  | openParen
  | comma
  | closeParen
  | period
  | implies
  | openBrace
  | closeBrace
  | question
  | decl
  | colon
  | query
  | saysWord
  | canActAs
  | canSay
  | exportTo
  | importFrom
  | bindPrivKey
  | bindPubKey
  | numberType
  | principalType
  | attributeWord
  | variable
  | stringLiteral
  | multilineStringLiteral
  | numLiteral
  | neg
  | lessThan
  | grThan
  | equals
  | nEquals
  | leq
  | geq
  | whitespaceIgnore
  | commentSingle
  | commentMulti
deriving DecidableEq, Repr

/-! ### Rules -/

/-- `[_a-zA-Z]`. -/
def isVariableStart (c : Char) : Bool := c.isAlpha || c == '_'

/-- `[_a-zA-Z0-9/.#:]`. -/
def isVariableRest (c : Char) : Bool :=
  isVariableStart c || c.isDigit || c == '/' || c == '.' || c == '#' || c == ':'

/-- `[_a-zA-Z%]`. -/
def isConstantStart (c : Char) : Bool := isVariableStart c || c == '%'

/-- `[@_a-zA-Z0-9/.#:-]`. -/
def isConstantRest (c : Char) : Bool := isVariableRest c || c == '@' || c == '-'

/-- `[\n _a-zA-Z+-]`. -/
def isMultilineStart (c : Char) : Bool :=
  isVariableStart c || c == '\n' || c == ' ' || c == '+' || c == '-'

/-- `[\n _a-zA-Z0-9/.#:+=-]`. -/
def isMultilineRest (c : Char) : Bool :=
  isVariableRest c || c == '\n' || c == ' ' || c == '+' || c == '=' || c == '-'

def variableWord : Matcher Char := sequence (one isVariableStart) (many isVariableRest)

def stringLiteral : Matcher Char :=
  sequence (literal ['"']) (sequence (one isConstantStart)
    (sequence (many isConstantRest) (literal ['"'])))

def multilineStringLiteral : Matcher Char :=
  sequence (literal ['"', '"', '"']) (sequence (one isMultilineStart)
    (sequence (many isMultilineRest) (literal ['"', '"', '"'])))

def numLiteral : Matcher Char := many1 Char.isDigit

/-- The words of the rules that match only one. -/
def fixedText : TokenType → Option String
  | .openParen => some "("
  | .comma => some ","
  | .closeParen => some ")"
  | .period => some "."
  | .implies => some ":-"
  | .openBrace => some "\x7b"
  | .closeBrace => some "\x7d"
  | .question => some "?"
  | .decl => some ".decl"
  | .colon => some ":"
  | .query => some "query"
  | .saysWord => some "says"
  | .canActAs => some "canActAs"
  | .canSay => some "canSay"
  | .exportTo => some "exportTo"
  | .importFrom => some "import"
  | .bindPrivKey => some "BindPrivKey"
  | .bindPubKey => some "BindPubKey"
  | .numberType => some "Number"
  | .principalType => some "Principal"
  | .attributeWord => some "attribute"
  | .neg => some "!"
  | .lessThan => some "<"
  | .grThan => some ">"
  | .equals => some "="
  | .nEquals => some "!="
  | .leq => some "<="
  | .geq => some ">="
  | _ => none

/-- The rule of a fixed word. -/
def word (type : TokenType) : Lib.Lexing.Rule Char TokenType :=
  ⟨type, literal ((fixedText type).getD "").toList⟩

def keywordRules : List (Lib.Lexing.Rule Char TokenType) := [.openParen, .comma, .closeParen, .period,
  .implies, .openBrace, .closeBrace, .question, .decl, .colon, .query, .saysWord, .canActAs, .canSay,
  .exportTo, .importFrom, .bindPrivKey, .bindPubKey, .numberType, .principalType,
  .attributeWord].map word

def rulesAfterVariable : List (Lib.Lexing.Rule Char TokenType) := [
  ⟨.stringLiteral, stringLiteral⟩,
  ⟨.multilineStringLiteral, multilineStringLiteral⟩,
  ⟨.numLiteral, numLiteral⟩,
  word .neg,
  word .lessThan,
  word .grThan,
  word .equals,
  word .nEquals,
  word .leq,
  word .geq,
  ⟨.whitespaceIgnore, Parser.whitespaceIgnore⟩,
  ⟨.commentSingle, Parser.commentSingle⟩,
  ⟨.commentMulti, Parser.commentMulti⟩]

def authLogicRules : List (Lib.Lexing.Rule Char TokenType) :=
  keywordRules ++ ⟨.variable, variableWord⟩ :: rulesAfterVariable

def isSkipped (type : TokenType) : Bool :=
  type == .whitespaceIgnore || type == .commentSingle || type == .commentMulti

/-- How far the input goes on as a constant with these characters and this closing word. -/
def begunConstant (start rest : Char → Bool) (closing : List Char) : List Char → ℕ
  | [] => 0
  | c :: input =>
    if start c then
      let n := span rest input
      1 + n + Parser.commonLength closing (input.drop n)
    else 0

/-- The characters up to the one that no rule goes on with. Only constants and comments can begin
and break off. -/
def authLogicRecover : List Char → ℕ
  | '"' :: '"' :: '"' :: input =>
    3 + begunConstant isMultilineStart isMultilineRest ['"', '"', '"'] input + 1
  | '"' :: '"' :: _ => 3
  | '"' :: input => 1 + begunConstant isConstantStart isConstantRest ['"'] input + 1
  | '/' :: '/' :: input =>
    let n := span Parser.isLineText input
    2 + n + Parser.commonLength ['\r', '\n'] (input.drop n) + 1
  | '/' :: '*' :: input => input.length + 2
  | '/' :: _ => 2
  | _ => 1

def authLogicLexer : Lexer Char TokenType where
  rules := authLogicRules
  skip := isSkipped
  recover := authLogicRecover

structure Token where
  type : TokenType
  text : String
deriving DecidableEq, Repr

/-- The tokens that the parser gets to see. -/
def authLogicTokens (text : List Char) : List Token :=
  (authLogicLexer.tokens text).map fun token => ⟨token.1, String.ofList token.2⟩

example : (authLogicTokens "\"A\" says p(x.1, 20) :- 3 <= x. // q\n".toList).map Token.type =
    [.stringLiteral, .saysWord, .variable, .openParen, .variable, .comma, .numLiteral, .closeParen,
      .implies, .numLiteral, .leq, .variable] := by
  decide +kernel

end Raksha.AuthLogic
