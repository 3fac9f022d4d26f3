import Raksha.Lib.Lexing

/-!
# The lexer of the intermediate representation

The lexer rules of `parser/ir/Ir.g4`, in the order of the generated lexer: the literals of the
parser rules come first. A closed string or comment ends at its first closing word.
-/

namespace Raksha.Parser
open Raksha.Lib.Lexing

inductive TokenType
  | colon
  | comma
  | equals
  | openBracket
  | closeBracket
  | openParen
  | closeParen
  | openBrace
  | closeBrace
  | any
  | block
  | module
  | sign
  | numLiteral
  | fractionalPart
  | exponent
  | floatTail
  | floatLiteral
  | id
  | stringLiteral
  | temporaryId
  | whitespaceIgnore
  | commentSingle
  | commentMulti
deriving DecidableEq, Repr

/-! ### Rules -/

/-- `[_a-zA-Z/.]`. -/
def isIdStart (c : Char) : Bool := c.isAlpha || c == '_' || c == '/' || c == '.'

/-- `[0-9_a-zA-Z/.]`. -/
def isIdRest (c : Char) : Bool := c.isDigit || isIdStart c

def isSign (c : Char) : Bool := c == '+' || c == '-'

def isExponentMark (c : Char) : Bool := c == 'e' || c == 'E'

def isWhitespace (c : Char) : Bool := c == ' ' || c == '\r' || c == '\t' || c == '\n'

def isLineText (c : Char) : Bool := c != '\r' && c != '\n'

def sign : Matcher Char := one isSign

def numLiteral : Matcher Char := many1 Char.isDigit

def fractionalPart : Matcher Char := sequence (literal ['.']) (many Char.isDigit)

def exponent : Matcher Char :=
  sequence (one isExponentMark) (sequence (optional sign) numLiteral)

/-- The three alternatives are the nonempty words of `FRACTIONAL_PART? EXPONENT? 'l'?`. -/
def floatTail : Matcher Char :=
  nonempty (sequence (optional fractionalPart)
    (sequence (optional exponent) (optional (literal ['l']))))

def floatLiteral : Matcher Char := sequence (optional sign) (sequence numLiteral floatTail)

def id : Matcher Char := sequence (one isIdStart) (many isIdRest)

def stringLiteral : Matcher Char := sequence (literal ['"']) (through ['"'])

def temporaryId : Matcher Char := sequence (literal ['%']) (orElse id numLiteral)

def whitespaceIgnore : Matcher Char := many1 isWhitespace

def commentSingle : Matcher Char :=
  sequence (literal ['/', '/']) (sequence (many isLineText)
    (sequence (optional (literal ['\r'])) (literal ['\n'])))

def commentMulti : Matcher Char := sequence (literal ['/', '*']) (through ['*', '/'])

def anyWord : List Char := ['<', '<', 'A', 'N', 'Y', '>', '>']
def blockWord : List Char := ['b', 'l', 'o', 'c', 'k']
def moduleWord : List Char := ['m', 'o', 'd', 'u', 'l', 'e']

/-- The rules before `ID`. -/
def irRulesBeforeId : List (Rule Char TokenType) := [
  ⟨.colon, literal [':']⟩,
  ⟨.comma, literal [',']⟩,
  ⟨.equals, literal ['=']⟩,
  ⟨.openBracket, literal ['[']⟩,
  ⟨.closeBracket, literal [']']⟩,
  ⟨.openParen, literal ['(']⟩,
  ⟨.closeParen, literal [')']⟩,
  ⟨.openBrace, literal ['{']⟩,
  ⟨.closeBrace, literal ['}']⟩,
  ⟨.any, literal anyWord⟩,
  ⟨.block, literal blockWord⟩,
  ⟨.module, literal moduleWord⟩,
  ⟨.sign, sign⟩,
  ⟨.numLiteral, numLiteral⟩,
  ⟨.fractionalPart, fractionalPart⟩,
  ⟨.exponent, exponent⟩,
  ⟨.floatTail, floatTail⟩,
  ⟨.floatLiteral, floatLiteral⟩]

def irRulesAfterId : List (Rule Char TokenType) := [
  ⟨.stringLiteral, stringLiteral⟩,
  ⟨.temporaryId, temporaryId⟩,
  ⟨.whitespaceIgnore, whitespaceIgnore⟩,
  ⟨.commentSingle, commentSingle⟩,
  ⟨.commentMulti, commentMulti⟩]

def irRules : List (Rule Char TokenType) := irRulesBeforeId ++ ⟨.id, id⟩ :: irRulesAfterId

def isSkipped (type : TokenType) : Bool :=
  type == .whitespaceIgnore || type == .commentSingle || type == .commentMulti

/-- The length of the common beginning of two words. -/
def commonLength : List Char → List Char → ℕ
  | c :: word, d :: input => if c = d then commonLength word input + 1 else 0
  | _, _ => 0

/-- The characters up to the one that no rule goes on with. Only strings, temporaries and
`<<ANY>>` can begin and break off. -/
def irRecover : List Char → ℕ
  | [] => 0
  | '"' :: input => input.length + 1
  | '%' :: _ => 2
  | '<' :: input => commonLength anyWord ('<' :: input) + 1
  | _ => 1

def irLexer : Lexer Char TokenType where
  rules := irRules
  skip := isSkipped
  recover := irRecover

structure Token where
  type : TokenType
  text : String
deriving DecidableEq

/-- The tokens that the parser gets to see. -/
def irTokens (text : List Char) : List Token :=
  (irLexer.tokens text).map fun token => ⟨token.1, String.ofList token.2⟩

example : (irTokens "%0, %a = core.plus [n: 5, e5: -1.5l](<<ANY>>) // x\n".toList).map Token.type =
    [.temporaryId, .comma, .temporaryId, .equals, .id, .openBracket, .id, .colon, .numLiteral,
      .comma, .exponent, .colon, .floatLiteral, .closeBracket, .openParen, .any, .closeParen] := by
  decide +kernel

theorem temporaryId_text {text : List Char} {token : Token} (h : token ∈ irTokens text)
    (htype : token.type = .temporaryId) : ∃ rest, token.text = "%" ++ rest := by
  obtain ⟨⟨type, word⟩, hmem, rfl⟩ := List.mem_map.mp h
  obtain ⟨input, n, hmatch, hword⟩ := Lexer.tokens_spec hmem
  simp only at htype hmatch hword
  subst htype
  obtain ⟨⟨rule, hrule, hruleType, hmatcher⟩, -⟩ := longestMatch_spec hmatch
  have hmatcher' : temporaryId input = some n := by
    have hrules : ∀ rule ∈ irRules, rule.type = .temporaryId → rule.matcher = temporaryId := by
      simp [irRules, irRulesBeforeId, irRulesAfterId]
    rw [← hrules rule hrule hruleType, hmatcher]
  obtain ⟨k, m, hk, -, rfl⟩ := sequence_eq_some.mp hmatcher'
  obtain ⟨⟨rest, rfl⟩, rfl⟩ := literal_eq_some.mp hk
  refine ⟨String.ofList (rest.take m), ?_⟩
  simp only [hword, List.cons_append, List.nil_append, List.length_singleton, Nat.add_comm 1 m,
    List.take_succ_cons, String.ofList_cons]
  rfl

end Raksha.Parser
