import Raksha.AuthLogic.AstConstruction

/-!
# Reading statements

A reader for the statements of `policy/auth_logic/AuthLogic.g4`. The next tokens decide every
choice of the grammar. Only `EXPORT VARIABLE` behind a `saysAssertion` may be taken or left, and
the reader takes it.
-/

namespace Raksha.AuthLogic
open Raksha.Lib.Lexing Raksha.Lib.Parsing
open Raksha.Parser (separated)

/-! ### The reader -/

def isFixed (type : TokenType) (token : Token) : Bool := token = fixed type

def expect (type : TokenType) : Parser Token Unit
  | [] => none
  | token :: tokens => if isFixed type token then some ((), tokens) else none

def textOf (type : TokenType) : Parser Token String
  | [] => none
  | token :: tokens => if token.type = type then some (token.text, tokens) else none

def flag (type : TokenType) : List Token → Bool × List Token
  | [] => (false, [])
  | token :: tokens => if isFixed type token then (true, tokens) else (false, token :: tokens)

/-- `item (',' item)*`. -/
def items {α : Type} (item : Parser Token α) : Parser Token (α × List α) := fun tokens => do
  let (value, tokens) ← item tokens
  let (values, tokens) ← many (isFixed .comma) (fun tokens => do
    let (_, tokens) ← expect .comma tokens
    item tokens) (tokens.length + 1) tokens
  some ((value, values), tokens)

namespace AuthLogicParser

def predArg : Parser Token PredArgContext
  | ⟨.stringLiteral, text⟩ :: tokens => some (.constant text, tokens)
  | ⟨.multilineStringLiteral, text⟩ :: tokens => some (.multilineConstant text, tokens)
  | ⟨.variable, text⟩ :: tokens => some (.variable text, tokens)
  | ⟨.numLiteral, text⟩ :: tokens => some (.number text, tokens)
  | _ => none

def predicate : Parser Token PredicateContext := fun tokens => do
  let (neg, tokens) := flag .neg tokens
  let (name, tokens) ← textOf .variable tokens
  let (_, tokens) ← expect .openParen tokens
  let ((predArg, predArgs), tokens) ← items predArg tokens
  let (_, tokens) ← expect .closeParen tokens
  some (⟨neg, name, predArg, predArgs⟩, tokens)

def verbphrase : Parser Token VerbphraseContext := fun tokens =>
  match flag .canActAs tokens with
  | (true, tokens) => do
    let (principal, tokens) ← textOf .stringLiteral tokens
    some (.actsAsPhrase principal, tokens)
  | (false, tokens) => do
    let (predicate, tokens) ← predicate tokens
    some (.predphrase predicate, tokens)

def flatFact : Parser Token FlatFactContext := fun tokens =>
  match textOf .stringLiteral tokens with
  | some (principal, tokens) => do
    let (verbphrase, tokens) ← verbphrase tokens
    some (.prinFact principal verbphrase, tokens)
  | none => do
    let (predicate, tokens) ← predicate tokens
    some (.predFact predicate, tokens)

def binop : Parser Token BinopContext
  | ⟨.lessThan, "<"⟩ :: tokens => some (.ltbinop, tokens)
  | ⟨.grThan, ">"⟩ :: tokens => some (.grbinop, tokens)
  | ⟨.equals, "="⟩ :: tokens => some (.eqbinop, tokens)
  | ⟨.nEquals, "!="⟩ :: tokens => some (.nebinop, tokens)
  | ⟨.leq, "<="⟩ :: tokens => some (.leqbinop, tokens)
  | ⟨.geq, ">="⟩ :: tokens => some (.geqbinop, tokens)
  | _ => none

/-- The left operand and the operator of a comparison. -/
def leftOperand : Parser Token (PredArgContext × BinopContext) := fun tokens => do
  let (left, tokens) ← predArg tokens
  let (binop, tokens) ← binop tokens
  some ((left, binop), tokens)

def rvalue : Parser Token RvalueContext := fun tokens =>
  match leftOperand tokens with
  | some ((left, binop), tokens) => do
    let (right, tokens) ← predArg tokens
    some (.binopRvalue left binop right, tokens)
  | none => do
    let (flatFact, tokens) ← flatFact tokens
    some (.flatFactRvalue flatFact, tokens)

def fact : Parser Token FactContext
  | ⟨.stringLiteral, principal⟩ :: ⟨.canSay, "canSay"⟩ :: tokens => do
    let (fact, tokens) ← fact tokens
    some (.canSayFact principal fact, tokens)
  | tokens => do
    let (flatFact, tokens) ← flatFact tokens
    some (.flatFactFact flatFact, tokens)

def assertion : Parser Token AssertionContext := fun tokens => do
  let (fact, tokens) ← fact tokens
  match flag .implies tokens with
  | (true, tokens) =>
    let ((rvalue, rvalues), tokens) ← items rvalue tokens
    let (_, tokens) ← expect .period tokens
    some (.hornClauseAssertion fact rvalue rvalues, tokens)
  | (false, tokens) =>
    let (_, tokens) ← expect .period tokens
    some (.factAssertion fact, tokens)

def exportTo : List Token → Option String × List Token
  | ⟨.exportTo, "exportTo"⟩ :: ⟨.variable, file⟩ :: tokens => (some file, tokens)
  | tokens => (none, tokens)

def saysAssertion : Parser Token SaysAssertionContext := fun tokens => do
  let (principal, tokens) ← textOf .stringLiteral tokens
  let (_, tokens) ← expect .saysWord tokens
  match flag .openBrace tokens with
  | (true, tokens) =>
    let (first, tokens) ← assertion tokens
    let (others, tokens) ←
      many (fun token => !isFixed .closeBrace token) assertion (tokens.length + 1) tokens
    let (_, tokens) ← expect .closeBrace tokens
    let (file, tokens) := exportTo tokens
    some (.saysMulti principal first others file, tokens)
  | (false, tokens) =>
    let (assertion, tokens) ← assertion tokens
    let (file, tokens) := exportTo tokens
    some (.saysSingle principal assertion file, tokens)

/-- The principal and the file of a key. -/
def keyOf (type : TokenType) : Parser Token (String × String) := fun tokens => do
  let (_, tokens) ← expect type tokens
  let (principal, tokens) ← textOf .stringLiteral tokens
  let (file, tokens) ← textOf .variable tokens
  some ((principal, file), tokens)

def query : Parser Token QueryContext := fun tokens => do
  let (name, tokens) ← textOf .variable tokens
  let (_, tokens) ← expect .equals tokens
  let (_, tokens) ← expect .query tokens
  let (principal, tokens) ← textOf .stringLiteral tokens
  let (_, tokens) ← expect .saysWord tokens
  let (fact, tokens) ← fact tokens
  let (_, tokens) ← expect .question tokens
  some (⟨name, principal, fact⟩, tokens)

def importAssertion : Parser Token ImportAssertionContext := fun tokens => do
  let (_, tokens) ← expect .importFrom tokens
  let (principal, tokens) ← textOf .stringLiteral tokens
  let (_, tokens) ← expect .saysWord tokens
  let (file, tokens) ← textOf .variable tokens
  some (⟨principal, file⟩, tokens)

def authLogicType : Parser Token AuthLogicTypeContext
  | ⟨.numberType, "Number"⟩ :: tokens => some (.numberType, tokens)
  | ⟨.principalType, "Principal"⟩ :: tokens => some (.principalType, tokens)
  | ⟨.variable, name⟩ :: tokens => some (.customType name, tokens)
  | _ => none

def param : Parser Token (String × AuthLogicTypeContext) := fun tokens => do
  let (name, tokens) ← textOf .variable tokens
  let (_, tokens) ← expect .colon tokens
  let (type, tokens) ← authLogicType tokens
  some ((name, type), tokens)

def relationDeclaration : Parser Token RelationDeclarationContext := fun tokens => do
  let (_, tokens) ← expect .decl tokens
  let (isAttribute, tokens) := flag .attributeWord tokens
  let (name, tokens) ← textOf .variable tokens
  let (_, tokens) ← expect .openParen tokens
  let ((first, others), tokens) ← items param tokens
  let (_, tokens) ← expect .closeParen tokens
  some (⟨isAttribute, name, first, others⟩, tokens)

/-- The first token tells the statement. -/
def statement : Parser Token StatementContext := fun tokens =>
  match tokens with
  | [] => none
  | token :: _ =>
    match token.type with
    | .stringLiteral => (saysAssertion tokens).map fun r => (.saysAssertion r.1, r.2)
    | .variable => (query tokens).map fun r => (.query r.1, r.2)
    | .bindPrivKey => (keyOf .bindPrivKey tokens).map fun r => (.keyBind (.bindpriv r.1.1 r.1.2), r.2)
    | .bindPubKey => (keyOf .bindPubKey tokens).map fun r => (.keyBind (.bindpub r.1.1 r.1.2), r.2)
    | .importFrom => (importAssertion tokens).map fun r => (.importAssertion r.1, r.2)
    | .decl => (relationDeclaration tokens).map fun r => (.relationDeclaration r.1, r.2)
    | _ => none

/-- Statements as long as a complete one follows, and the tokens behind them. -/
def statements : ℕ → List Token → List StatementContext × List Token
  | 0, tokens => ([], tokens)
  | fuel + 1, tokens =>
    match statement tokens with
    | none => ([], tokens)
    | some (first, tokens) =>
      let (others, tokens) := statements fuel tokens
      (first :: others, tokens)

end AuthLogicParser

/-! ### Every parse tree is read off its tokens -/

theorem expect_fixed (type : TokenType) (tokens : List Token) :
    expect type (fixed type :: tokens) = some ((), tokens) := by
  simp [expect, isFixed]

theorem textOf_cons (type : TokenType) (text : String) (tokens : List Token) :
    textOf type (⟨type, text⟩ :: tokens) = some (text, tokens) := by
  simp [textOf]

theorem flag_fixed (type : TokenType) (tokens : List Token) :
    flag type (fixed type :: tokens) = (true, tokens) := by
  simp [flag, isFixed]

theorem isFixed_of_type {type : TokenType} {token : Token} (h : token.type ≠ type) :
    isFixed type token = false := by
  rw [isFixed, decide_eq_false_iff_not]
  rintro rfl
  exact h rfl

theorem flag_of_type {type : TokenType} {token : Token} (h : token.type ≠ type)
    (tokens : List Token) : flag type (token :: tokens) = (false, token :: tokens) := by
  simp [flag, isFixed_of_type h]

theorem textOf_of_type {type : TokenType} {token : Token} (h : token.type ≠ type)
    (tokens : List Token) : textOf type (token :: tokens) = none := by
  simp [textOf, h]

theorem items_reads {α : Type} {item : Parser Token α} {print : α → List Token}
    (hitem : ∀ value, Reads item value (print value)) (value : α) (values : List α)
    {rest : List Token} (hrest : Stops (isFixed .comma) rest) :
    items item (separated (fixed .comma) print (value :: values) ++ rest) =
      some ((value, values), rest) := by
  have hread := hitem value ((values.flatMap fun value => fixed .comma :: print value) ++ rest)
  have hmany := many_reads (isFixed .comma)
    (fun tokens => do let (_, tokens) ← expect .comma tokens; item tokens)
    (fun value => fixed .comma :: print value) values
    (by
      intro v hv tail
      simp only [List.cons_append, expect_fixed, Option.bind_eq_bind, Option.bind_some]
      exact hitem v tail)
    (fun v _ => ⟨fixed .comma, print v, rfl, by simp [isFixed]⟩) rest (Nat.lt_succ_self _) hrest
  rw [separated, List.append_assoc, items, hread]
  simp only [Option.bind_eq_bind, Option.bind_some] at hmany ⊢
  rw [hmany]
  rfl

namespace AuthLogicParser

theorem predArg_reads (context : PredArgContext) : Reads predArg context context.tokens := by
  intro rest
  cases context <;> rfl

theorem predicate_reads (context : PredicateContext) : Reads predicate context context.tokens := by
  intro rest
  obtain ⟨neg, name, arg, args⟩ := context
  have hflag : ∀ tokens, flag .neg ((if neg then [fixed .neg] else []) ++
      ⟨.variable, name⟩ :: tokens) = (neg, ⟨.variable, name⟩ :: tokens) := by
    intro tokens
    cases neg with
    | true => exact flag_fixed .neg _
    | false => exact flag_of_type (by simp) _
  have hitems := fun tokens => items_reads predArg_reads arg args
    (stops_cons (p := isFixed .comma) (c := fixed .closeParen) tokens rfl)
  simp only [PredicateContext.tokens, List.append_assoc, List.cons_append, List.nil_append,
    predicate, hflag, textOf_cons, expect_fixed, hitems, Option.bind_eq_bind, Option.bind_some]

theorem verbphrase_reads (context : VerbphraseContext) :
    Reads verbphrase context context.tokens := by
  intro rest
  cases context with
  | actsAsPhrase principal =>
    simp only [VerbphraseContext.tokens, List.cons_append, List.nil_append, verbphrase, flag_fixed,
      textOf_cons, Option.bind_eq_bind, Option.bind_some]
  | predphrase predicate =>
    have hflag : flag .canActAs (predicate.tokens ++ rest) = (false, predicate.tokens ++ rest) := by
      obtain ⟨neg, name, arg, args⟩ := predicate
      cases neg with
      | true => exact flag_of_type (by simp [fixed]) _
      | false => exact flag_of_type (by simp) _
    simp only [VerbphraseContext.tokens, verbphrase, hflag, predicate_reads predicate rest,
      Option.bind_eq_bind, Option.bind_some]

theorem textOf_predicate (context : PredicateContext) (rest : List Token) :
    textOf .stringLiteral (context.tokens ++ rest) = none := by
  obtain ⟨neg, name, arg, args⟩ := context
  cases neg with
  | true => exact textOf_of_type (by simp [fixed]) _
  | false => exact textOf_of_type (by simp) _

theorem flatFact_reads (context : FlatFactContext) : Reads flatFact context context.tokens := by
  intro rest
  cases context with
  | prinFact principal verbphrase =>
    simp only [FlatFactContext.tokens, List.cons_append, flatFact, textOf_cons,
      verbphrase_reads verbphrase rest, Option.bind_eq_bind, Option.bind_some]
  | predFact predicate =>
    simp only [FlatFactContext.tokens, flatFact, textOf_predicate, predicate_reads predicate rest,
      Option.bind_eq_bind, Option.bind_some]

theorem leftOperand_flatFact (context : FlatFactContext) (rest : List Token) :
    leftOperand (context.tokens ++ rest) = none := by
  cases context with
  | prinFact principal verbphrase =>
    cases verbphrase with
    | actsAsPhrase principal' => rfl
    | predphrase predicate =>
      obtain ⟨neg, name, arg, args⟩ := predicate
      cases neg <;> rfl
  | predFact predicate =>
    obtain ⟨neg, name, arg, args⟩ := predicate
    cases neg <;> rfl

theorem leftOperand_reads (left : PredArgContext) (op : BinopContext) :
    Reads leftOperand (left, op) (left.tokens ++ [fixed op.type]) := by
  intro rest
  cases op <;>
    simp only [List.append_assoc, List.cons_append, List.nil_append, leftOperand,
      predArg_reads left _, Option.bind_eq_bind, Option.bind_some] <;> rfl

theorem rvalue_reads (context : RvalueContext) : Reads rvalue context context.tokens := by
  intro rest
  cases context with
  | flatFactRvalue flatFact =>
    simp only [RvalueContext.tokens, rvalue, leftOperand_flatFact, flatFact_reads flatFact rest,
      Option.bind_eq_bind, Option.bind_some]
  | binopRvalue left op right =>
    have hleft := leftOperand_reads left op (right.tokens ++ rest)
    simp only [List.append_assoc, List.cons_append, List.nil_append] at hleft
    simp only [RvalueContext.tokens, List.append_assoc, List.cons_append, rvalue, hleft,
      predArg_reads right rest, Option.bind_eq_bind, Option.bind_some]

theorem fact_flatFact (context : FlatFactContext) (rest : List Token) :
    fact (context.tokens ++ rest) = some (.flatFactFact context, rest) := by
  have hread := flatFact_reads context rest
  have hplain : fact (context.tokens ++ rest) =
      (flatFact (context.tokens ++ rest)).bind fun r => some (.flatFactFact r.1, r.2) := by
    cases context with
    | prinFact principal verbphrase =>
      cases verbphrase with
      | actsAsPhrase principal' => rfl
      | predphrase predicate =>
        obtain ⟨neg, name, arg, args⟩ := predicate
        cases neg <;> rfl
    | predFact predicate =>
      obtain ⟨neg, name, arg, args⟩ := predicate
      cases neg <;> rfl
  rw [hplain, hread]
  rfl

theorem fact_reads (context : FactContext) : Reads fact context context.tokens := by
  intro rest
  induction context with
  | flatFactFact flatFact => exact fact_flatFact flatFact rest
  | canSayFact principal context ih =>
    have hstep : fact ((FactContext.canSayFact principal context).tokens ++ rest) =
        (fact (context.tokens ++ rest)).bind fun r => some (.canSayFact principal r.1, r.2) := rfl
    rw [hstep, ih]
    rfl

theorem assertion_reads (context : AssertionContext) :
    Reads assertion context context.tokens := by
  intro rest
  cases context with
  | factAssertion context =>
    have hflag : flag .implies (fixed .period :: rest) = (false, fixed .period :: rest) :=
      flag_of_type (by simp [fixed]) rest
    simp only [AssertionContext.tokens, List.append_assoc, List.cons_append, List.nil_append,
      assertion, fact_reads context _, hflag, expect_fixed, Option.bind_eq_bind, Option.bind_some]
  | hornClauseAssertion context value values =>
    have hitems := items_reads rvalue_reads value values
      (stops_cons (p := isFixed .comma) (c := fixed .period) rest rfl)
    simp only [AssertionContext.tokens, List.append_assoc, List.cons_append, List.nil_append,
      assertion, fact_reads context _, flag_fixed, hitems, expect_fixed, Option.bind_eq_bind,
      Option.bind_some]

theorem assertion_start (context : AssertionContext) :
    ∃ token tokens, context.tokens = token :: tokens ∧ token.type ≠ .openBrace ∧
      token.type ≠ .closeBrace := by
  have hpredicate : ∀ predicate : PredicateContext, ∃ token tokens,
      predicate.tokens = token :: tokens ∧ token.type ≠ .openBrace ∧ token.type ≠ .closeBrace := by
    rintro ⟨neg, name, arg, args⟩
    cases neg <;> exact ⟨_, _, rfl, by simp [fixed], by simp [fixed]⟩
  have hflat : ∀ flatFact : FlatFactContext, ∃ token tokens,
      flatFact.tokens = token :: tokens ∧ token.type ≠ .openBrace ∧ token.type ≠ .closeBrace := by
    intro flatFact
    cases flatFact with
    | prinFact principal verbphrase => exact ⟨_, _, rfl, by simp, by simp⟩
    | predFact predicate => exact hpredicate predicate
  have hfact : ∀ context : FactContext, ∃ token tokens,
      context.tokens = token :: tokens ∧ token.type ≠ .openBrace ∧ token.type ≠ .closeBrace := by
    intro context
    cases context with
    | flatFactFact flatFact => exact hflat flatFact
    | canSayFact principal context => exact ⟨_, _, rfl, by simp, by simp⟩
  cases context with
  | factAssertion context =>
    obtain ⟨token, tokens, htokens, hbraces⟩ := hfact context
    exact ⟨token, _, by rw [AssertionContext.tokens, htokens]; rfl, hbraces⟩
  | hornClauseAssertion context value values =>
    obtain ⟨token, tokens, htokens, hbraces⟩ := hfact context
    exact ⟨token, _, by rw [AssertionContext.tokens, htokens]; rfl, hbraces⟩

theorem exportTo_of_head {rest : List Token}
    (h : ∀ token, rest.head? = some token → token.type ≠ .exportTo) : exportTo rest = (none, rest) := by
  unfold exportTo
  split
  · exact absurd rfl (h _ rfl)
  · rfl

theorem exportTo_length (tokens : List Token) : (exportTo tokens).2.length ≤ tokens.length := by
  unfold exportTo
  split
  · simp only [List.length_cons]
    omega
  · exact le_rfl

/-- The file is taken from what follows where the assertion has none. -/
theorem exportTo_exportTokens (file : Option String) (rest : List Token) :
    (exportTo (exportTokens file ++ rest)).2.length ≤ rest.length ∧
      ((∀ token, rest.head? = some token → token.type ≠ .exportTo) →
        exportTo (exportTokens file ++ rest) = (file, rest)) := by
  cases file with
  | some file => exact ⟨le_rfl, fun _ => rfl⟩
  | none => exact ⟨exportTo_length rest, exportTo_of_head⟩

theorem saysAssertion_reads (context : SaysAssertionContext) (rest : List Token) :
    ∃ context' rest', saysAssertion (context.tokens ++ rest) = some (context', rest') ∧
      rest'.length ≤ rest.length ∧
      ((∀ token, rest.head? = some token → token.type ≠ .exportTo) →
        context' = context ∧ rest' = rest) := by
  cases context with
  | saysSingle principal context file =>
    obtain ⟨hlength, hexport⟩ := exportTo_exportTokens file rest
    have hflag : ∀ tokens, flag .openBrace (context.tokens ++ tokens) =
        (false, context.tokens ++ tokens) := by
      intro tokens
      obtain ⟨token, later, hcontext, hbrace, -⟩ := assertion_start context
      rw [hcontext]
      exact flag_of_type hbrace _
    refine ⟨.saysSingle principal context (exportTo (exportTokens file ++ rest)).1, _, ?_,
      hlength, ?_⟩
    · simp only [SaysAssertionContext.tokens, List.cons_append, List.append_assoc, saysAssertion,
        textOf_cons, expect_fixed, hflag, assertion_reads context _, Option.bind_eq_bind,
        Option.bind_some]
    · intro hrest
      rw [hexport hrest]
      exact ⟨rfl, rfl⟩
  | saysMulti principal first others file =>
    obtain ⟨hlength, hexport⟩ := exportTo_exportTokens file rest
    have hmany := many_reads (fun token => !isFixed .closeBrace token) assertion
      AssertionContext.tokens others (fun context _ => assertion_reads context)
      (by
        intro context _
        obtain ⟨token, later, hcontext, -, hbrace⟩ := assertion_start context
        exact ⟨token, later, hcontext, by simp [isFixed_of_type hbrace]⟩)
      (fixed .closeBrace :: (exportTokens file ++ rest)) (Nat.lt_succ_self _)
      (stops_cons _ (by simp [isFixed]))
    refine ⟨.saysMulti principal first others (exportTo (exportTokens file ++ rest)).1, _, ?_,
      hlength, ?_⟩
    · simp only [SaysAssertionContext.tokens, List.cons_append, List.append_assoc, saysAssertion,
        List.flatMap_cons, textOf_cons, expect_fixed, flag_fixed, assertion_reads first _, hmany,
        Option.bind_eq_bind, Option.bind_some]
    · intro hrest
      rw [hexport hrest]
      exact ⟨rfl, rfl⟩

theorem keyOf_reads (type : TokenType) (principal file : String) :
    Reads (keyOf type) (principal, file)
      [fixed type, ⟨.stringLiteral, principal⟩, ⟨.variable, file⟩] := by
  intro rest
  simp only [List.cons_append, List.nil_append, keyOf, expect_fixed, textOf_cons,
    Option.bind_eq_bind, Option.bind_some]

theorem query_reads (context : QueryContext) : Reads query context context.tokens := by
  intro rest
  simp only [QueryContext.tokens, List.cons_append, List.append_assoc, List.nil_append, query,
    textOf_cons, expect_fixed, fact_reads context.fact _, Option.bind_eq_bind, Option.bind_some]

theorem importAssertion_reads (context : ImportAssertionContext) :
    Reads importAssertion context context.tokens := by
  intro rest
  simp only [ImportAssertionContext.tokens, List.cons_append, List.nil_append, importAssertion,
    textOf_cons, expect_fixed, Option.bind_eq_bind, Option.bind_some]

theorem param_reads (context : String × AuthLogicTypeContext) :
    Reads param context (paramTokens context) := by
  intro rest
  obtain ⟨name, type⟩ := context
  cases type <;>
    simp only [paramTokens, AuthLogicTypeContext.tokens, List.cons_append, List.nil_append, param,
      textOf_cons, expect_fixed, Option.bind_eq_bind, Option.bind_some] <;> rfl

theorem relationDeclaration_reads (context : RelationDeclarationContext) :
    Reads relationDeclaration context context.tokens := by
  intro rest
  obtain ⟨isAttribute, name, first, others⟩ := context
  have hflag : ∀ tokens, flag .attributeWord ((if isAttribute then [fixed .attributeWord] else []) ++
      ⟨.variable, name⟩ :: tokens) = (isAttribute, ⟨.variable, name⟩ :: tokens) := by
    intro tokens
    cases isAttribute with
    | true => exact flag_fixed .attributeWord _
    | false => exact flag_of_type (by simp) _
  have hitems := items_reads param_reads first others
    (stops_cons (p := isFixed .comma) (c := fixed .closeParen) rest rfl)
  simp only [RelationDeclarationContext.tokens, List.append_assoc, List.cons_append,
    List.nil_append, relationDeclaration, expect_fixed, hflag, textOf_cons, hitems,
    Option.bind_eq_bind, Option.bind_some]

/-- A statement is read off its tokens, with a file to export to if one follows. -/
theorem statement_reads (context : StatementContext) (rest : List Token) :
    ∃ context' rest', statement (context.tokens ++ rest) = some (context', rest') ∧
      rest'.length ≤ rest.length ∧
      ((∀ token, rest.head? = some token → token.type ≠ .exportTo) →
        context' = context ∧ rest' = rest) := by
  cases context with
  | saysAssertion context =>
    obtain ⟨context', rest', hread, hlength, hsame⟩ := saysAssertion_reads context rest
    refine ⟨.saysAssertion context', rest', ?_, hlength, ?_⟩
    · have hstatement : statement ((StatementContext.saysAssertion context).tokens ++ rest) =
          (saysAssertion (context.tokens ++ rest)).map fun r => (.saysAssertion r.1, r.2) := by
        cases context <;> rfl
      rw [hstatement, hread]
      rfl
    · intro hrest
      obtain ⟨rfl, hrest⟩ := hsame hrest
      exact ⟨rfl, hrest⟩
  | query context =>
    refine ⟨.query context, rest, ?_, le_rfl, fun _ => ⟨rfl, rfl⟩⟩
    have hread := congrArg (Option.map fun r => (StatementContext.query r.1, r.2))
      (query_reads context rest)
    exact hread
  | keyBind context =>
    refine ⟨.keyBind context, rest, ?_, le_rfl, fun _ => ⟨rfl, rfl⟩⟩
    cases context with
    | bindpriv principal file =>
      exact congrArg (Option.map fun r => (StatementContext.keyBind (.bindpriv r.1.1 r.1.2), r.2))
        (keyOf_reads .bindPrivKey principal file rest)
    | bindpub principal file =>
      exact congrArg (Option.map fun r => (StatementContext.keyBind (.bindpub r.1.1 r.1.2), r.2))
        (keyOf_reads .bindPubKey principal file rest)
  | importAssertion context =>
    refine ⟨.importAssertion context, rest, ?_, le_rfl, fun _ => ⟨rfl, rfl⟩⟩
    exact congrArg (Option.map fun r => (StatementContext.importAssertion r.1, r.2))
      (importAssertion_reads context rest)
  | relationDeclaration context =>
    refine ⟨.relationDeclaration context, rest, ?_, le_rfl, fun _ => ⟨rfl, rfl⟩⟩
    exact congrArg (Option.map fun r => (StatementContext.relationDeclaration r.1, r.2))
      (relationDeclaration_reads context rest)

end AuthLogicParser

/-! ### The reader takes no other tokens -/

/-- The tokens that are taken are those of the value. -/
def Takes {α : Type} (parser : Parser Token α) (print : α → List Token) : Prop :=
  ∀ tokens value rest, parser tokens = some (value, rest) → tokens = print value ++ rest

theorem takes_iff_sound {α : Type} {parser : Parser Token α} {print : α → List Token} :
    Takes parser print ↔ Sound (fun token => token) parser print := by
  simp only [Takes, Sound, List.map_id']

theorem takes_expect (type : TokenType) : Takes (expect type) fun _ => [fixed type] := by
  intro tokens value rest h
  cases tokens with
  | nil => cases h
  | cons token tokens =>
    rw [expect] at h
    split at h
    · next htoken =>
      cases h
      rw [of_decide_eq_true htoken]
      rfl
    · cases h

theorem takes_textOf (type : TokenType) : Takes (textOf type) fun text => [⟨type, text⟩] := by
  intro tokens value rest h
  cases tokens with
  | nil => cases h
  | cons token tokens =>
    rw [textOf] at h
    split at h
    · next htype =>
      cases h
      rw [← htype]
      rfl
    · cases h

theorem flag_takes (type : TokenType) {tokens rest : List Token} {value : Bool}
    (h : flag type tokens = (value, rest)) :
    tokens = (if value then [fixed type] else []) ++ rest := by
  cases tokens with
  | nil =>
    cases h
    rfl
  | cons token tokens =>
    rw [flag] at h
    split at h
    · next htoken =>
      cases h
      rw [of_decide_eq_true htoken]
      rfl
    · cases h
      rfl

theorem takes_items {α : Type} {item : Parser Token α} {print : α → List Token}
    (hitem : Takes item print) : Takes (items item) fun values =>
      separated (fixed .comma) print (values.1 :: values.2) := by
  intro tokens values rest h
  have hcomma : Takes (fun tokens => do let (_, tokens) ← expect .comma tokens; item tokens)
      fun value => fixed .comma :: print value := by
    intro tokens value rest h
    obtain ⟨⟨_, tokens₁⟩, hcomma, hvalue⟩ := Option.bind_eq_some_iff.mp h
    rw [takes_expect .comma _ _ _ hcomma, hitem _ _ _ hvalue]
    rfl
  obtain ⟨⟨value, tokens₁⟩, hvalue, h⟩ := Option.bind_eq_some_iff.mp h
  obtain ⟨⟨others, tokens₂⟩, hothers, h⟩ := Option.bind_eq_some_iff.mp h
  cases h
  have hmany := takes_iff_sound.mpr (many_sound (takes_iff_sound.mp hcomma) _) _ _ _ hothers
  rw [hitem _ _ _ hvalue, hmany]
  simp only [separated, List.append_assoc]

namespace AuthLogicParser

theorem takes_predArg : Takes predArg PredArgContext.tokens := by
  intro tokens value rest h
  unfold predArg at h
  split at h <;> cases h <;> rfl

theorem takes_predicate : Takes predicate PredicateContext.tokens := by
  intro tokens value rest h
  rw [predicate] at h
  cases hflag : flag .neg tokens with
  | mk neg tokens₁ =>
    rw [hflag] at h
    obtain ⟨⟨name, tokens₂⟩, hname, h⟩ := Option.bind_eq_some_iff.mp h
    obtain ⟨⟨_, tokens₃⟩, hopen, h⟩ := Option.bind_eq_some_iff.mp h
    obtain ⟨⟨⟨first, others⟩, tokens₄⟩, hitems, h⟩ := Option.bind_eq_some_iff.mp h
    obtain ⟨⟨_, tokens₅⟩, hclose, h⟩ := Option.bind_eq_some_iff.mp h
    cases h
    rw [flag_takes _ hflag, takes_textOf _ _ _ _ hname, takes_expect _ _ _ _ hopen,
      takes_items takes_predArg _ _ _ hitems, takes_expect _ _ _ _ hclose]
    simp [PredicateContext.tokens]

theorem takes_verbphrase : Takes verbphrase VerbphraseContext.tokens := by
  intro tokens value rest h
  rw [verbphrase] at h
  split at h
  · next tokens₁ hflag =>
    obtain ⟨⟨principal, tokens₂⟩, hprincipal, h⟩ := Option.bind_eq_some_iff.mp h
    cases h
    rw [flag_takes _ hflag, takes_textOf _ _ _ _ hprincipal]
    rfl
  · next tokens₁ hflag =>
    obtain ⟨⟨predicate, tokens₂⟩, hpredicate, h⟩ := Option.bind_eq_some_iff.mp h
    cases h
    rw [flag_takes _ hflag, takes_predicate _ _ _ hpredicate]
    rfl

theorem takes_flatFact : Takes flatFact FlatFactContext.tokens := by
  intro tokens value rest h
  rw [flatFact] at h
  split at h
  · next principal tokens₁ hprincipal =>
    obtain ⟨⟨verbphrase, tokens₂⟩, hverbphrase, h⟩ := Option.bind_eq_some_iff.mp h
    cases h
    rw [takes_textOf _ _ _ _ hprincipal, takes_verbphrase _ _ _ hverbphrase]
    rfl
  · obtain ⟨⟨predicate, tokens₁⟩, hpredicate, h⟩ := Option.bind_eq_some_iff.mp h
    cases h
    exact takes_predicate _ _ _ hpredicate

theorem takes_binop : Takes binop fun op => [fixed op.type] := by
  intro tokens value rest h
  unfold binop at h
  split at h <;> cases h <;> rfl

theorem takes_leftOperand : Takes leftOperand fun left => left.1.tokens ++ [fixed left.2.type] := by
  intro tokens value rest h
  obtain ⟨⟨left, tokens₁⟩, hleft, h⟩ := Option.bind_eq_some_iff.mp h
  obtain ⟨⟨op, tokens₂⟩, hop, h⟩ := Option.bind_eq_some_iff.mp h
  cases h
  rw [takes_predArg _ _ _ hleft, takes_binop _ _ _ hop, List.append_assoc]

theorem takes_rvalue : Takes rvalue RvalueContext.tokens := by
  intro tokens value rest h
  rw [rvalue] at h
  split at h
  · next left op tokens₁ hleft =>
    obtain ⟨⟨right, tokens₂⟩, hright, h⟩ := Option.bind_eq_some_iff.mp h
    cases h
    rw [takes_leftOperand _ _ _ hleft, takes_predArg _ _ _ hright]
    simp [RvalueContext.tokens]
  · obtain ⟨⟨flatFact, tokens₁⟩, hflatFact, h⟩ := Option.bind_eq_some_iff.mp h
    cases h
    exact takes_flatFact _ _ _ hflatFact

theorem takes_fact : Takes fact FactContext.tokens := by
  intro tokens
  induction tokens using fact.induct with
  | case1 principal tokens ih =>
    intro value rest h
    rw [fact] at h
    obtain ⟨⟨context, tokens₁⟩, hfact, h⟩ := Option.bind_eq_some_iff.mp h
    cases h
    rw [ih _ _ hfact]
    rfl
  | case2 tokens hother =>
    intro value rest h
    rw [fact] at h
    · obtain ⟨⟨flatFact, tokens₁⟩, hflatFact, h⟩ := Option.bind_eq_some_iff.mp h
      cases h
      exact takes_flatFact _ _ _ hflatFact
    · exact hother

theorem takes_assertion : Takes assertion AssertionContext.tokens := by
  intro tokens value rest h
  obtain ⟨⟨context, tokens₁⟩, hfact, h⟩ := Option.bind_eq_some_iff.mp h
  dsimp only at h
  split at h
  · next tokens₂ hflag =>
    simp only [Option.bind_eq_bind, Option.bind_eq_some_iff] at h
    obtain ⟨⟨⟨first, others⟩, tokens₃⟩, hitems, ⟨_, tokens₄⟩, hperiod, heq⟩ := h
    dsimp only at hperiod
    cases heq
    rw [takes_fact _ _ _ hfact, flag_takes _ hflag, takes_items takes_rvalue _ _ _ hitems,
      takes_expect _ _ _ _ hperiod]
    simp [AssertionContext.tokens]
  · next tokens₂ hflag =>
    obtain ⟨⟨_, tokens₃⟩, hperiod, h⟩ := Option.bind_eq_some_iff.mp h
    cases h
    rw [takes_fact _ _ _ hfact, flag_takes _ hflag, takes_expect _ _ _ _ hperiod]
    simp [AssertionContext.tokens]

theorem exportTo_takes (tokens : List Token) :
    tokens = exportTokens (exportTo tokens).1 ++ (exportTo tokens).2 := by
  unfold exportTo
  split <;> rfl

theorem takes_saysAssertion : Takes saysAssertion SaysAssertionContext.tokens := by
  intro tokens value rest h
  obtain ⟨⟨principal, tokens₁⟩, hprincipal, h⟩ := Option.bind_eq_some_iff.mp h
  obtain ⟨⟨_, tokens₂⟩, hspoken, h⟩ := Option.bind_eq_some_iff.mp h
  dsimp only at h
  split at h
  · next tokens₃ hflag =>
    simp only [Option.bind_eq_bind, Option.bind_eq_some_iff] at h
    obtain ⟨⟨first, tokens₄⟩, hfirst, ⟨others, tokens₅⟩, hothers, ⟨_, tokens₆⟩, hclose, heq⟩ := h
    dsimp only at hothers hclose
    cases heq
    have hmany := takes_iff_sound.mpr (many_sound (takes_iff_sound.mp takes_assertion) _) _ _ _
      hothers
    rw [takes_textOf _ _ _ _ hprincipal, takes_expect _ _ _ _ hspoken, flag_takes _ hflag,
      takes_assertion _ _ _ hfirst, hmany, takes_expect _ _ _ _ hclose]
    simp [SaysAssertionContext.tokens, ← exportTo_takes tokens₆]
  · next tokens₃ hflag =>
    obtain ⟨⟨context, tokens₄⟩, hassertion, h⟩ := Option.bind_eq_some_iff.mp h
    cases h
    rw [takes_textOf _ _ _ _ hprincipal, takes_expect _ _ _ _ hspoken, flag_takes _ hflag,
      takes_assertion _ _ _ hassertion]
    simp [SaysAssertionContext.tokens, ← exportTo_takes tokens₄]

theorem takes_keyOf (type : TokenType) : Takes (keyOf type) fun key =>
    [fixed type, ⟨.stringLiteral, key.1⟩, ⟨.variable, key.2⟩] := by
  intro tokens value rest h
  obtain ⟨⟨_, tokens₁⟩, htype, h⟩ := Option.bind_eq_some_iff.mp h
  obtain ⟨⟨principal, tokens₂⟩, hprincipal, h⟩ := Option.bind_eq_some_iff.mp h
  obtain ⟨⟨file, tokens₃⟩, hfile, h⟩ := Option.bind_eq_some_iff.mp h
  cases h
  rw [takes_expect _ _ _ _ htype, takes_textOf _ _ _ _ hprincipal, takes_textOf _ _ _ _ hfile]
  rfl

theorem takes_query : Takes query QueryContext.tokens := by
  intro tokens value rest h
  obtain ⟨⟨name, tokens₁⟩, hname, h⟩ := Option.bind_eq_some_iff.mp h
  obtain ⟨⟨_, tokens₂⟩, hequals, h⟩ := Option.bind_eq_some_iff.mp h
  obtain ⟨⟨_, tokens₃⟩, hquery, h⟩ := Option.bind_eq_some_iff.mp h
  obtain ⟨⟨principal, tokens₄⟩, hprincipal, h⟩ := Option.bind_eq_some_iff.mp h
  obtain ⟨⟨_, tokens₅⟩, hspoken, h⟩ := Option.bind_eq_some_iff.mp h
  obtain ⟨⟨context, tokens₆⟩, hfact, h⟩ := Option.bind_eq_some_iff.mp h
  obtain ⟨⟨_, tokens₇⟩, hquestion, h⟩ := Option.bind_eq_some_iff.mp h
  cases h
  rw [takes_textOf _ _ _ _ hname, takes_expect _ _ _ _ hequals, takes_expect _ _ _ _ hquery,
    takes_textOf _ _ _ _ hprincipal, takes_expect _ _ _ _ hspoken, takes_fact _ _ _ hfact,
    takes_expect _ _ _ _ hquestion]
  simp [QueryContext.tokens]

theorem takes_importAssertion : Takes importAssertion ImportAssertionContext.tokens := by
  intro tokens value rest h
  obtain ⟨⟨_, tokens₁⟩, himport, h⟩ := Option.bind_eq_some_iff.mp h
  obtain ⟨⟨principal, tokens₂⟩, hprincipal, h⟩ := Option.bind_eq_some_iff.mp h
  obtain ⟨⟨_, tokens₃⟩, hspoken, h⟩ := Option.bind_eq_some_iff.mp h
  obtain ⟨⟨file, tokens₄⟩, hfile, h⟩ := Option.bind_eq_some_iff.mp h
  cases h
  rw [takes_expect _ _ _ _ himport, takes_textOf _ _ _ _ hprincipal, takes_expect _ _ _ _ hspoken,
    takes_textOf _ _ _ _ hfile]
  rfl

theorem takes_authLogicType : Takes authLogicType AuthLogicTypeContext.tokens := by
  intro tokens value rest h
  unfold authLogicType at h
  split at h <;> cases h <;> rfl

theorem takes_param : Takes param paramTokens := by
  intro tokens value rest h
  obtain ⟨⟨name, tokens₁⟩, hname, h⟩ := Option.bind_eq_some_iff.mp h
  obtain ⟨⟨_, tokens₂⟩, hcolon, h⟩ := Option.bind_eq_some_iff.mp h
  obtain ⟨⟨type, tokens₃⟩, htype, h⟩ := Option.bind_eq_some_iff.mp h
  cases h
  rw [takes_textOf _ _ _ _ hname, takes_expect _ _ _ _ hcolon, takes_authLogicType _ _ _ htype]
  rfl

theorem takes_relationDeclaration : Takes relationDeclaration RelationDeclarationContext.tokens := by
  intro tokens value rest h
  obtain ⟨⟨_, tokens₁⟩, hdecl, h⟩ := Option.bind_eq_some_iff.mp h
  cases hflag : flag .attributeWord tokens₁ with
  | mk isAttribute tokens₂ =>
    simp only [hflag, Option.bind_eq_bind, Option.bind_eq_some_iff] at h
    obtain ⟨⟨name, tokens₃⟩, hname, ⟨_, tokens₄⟩, hopen, ⟨⟨first, others⟩, tokens₅⟩, hitems,
      ⟨_, tokens₆⟩, hclose, heq⟩ := h
    dsimp only at hopen hitems hclose
    cases heq
    rw [takes_expect _ _ _ _ hdecl, flag_takes _ hflag, takes_textOf _ _ _ _ hname,
      takes_expect _ _ _ _ hopen, takes_items takes_param _ _ _ hitems,
      takes_expect _ _ _ _ hclose]
    simp [RelationDeclarationContext.tokens]

theorem takes_statement : Takes statement StatementContext.tokens := by
  intro tokens value rest h
  unfold statement at h
  split at h
  · cases h
  · split at h
    · obtain ⟨⟨context, tokens₁⟩, hread, h⟩ := Option.map_eq_some_iff.mp h
      cases h
      exact takes_saysAssertion _ _ _ hread
    · obtain ⟨⟨context, tokens₁⟩, hread, h⟩ := Option.map_eq_some_iff.mp h
      cases h
      exact takes_query _ _ _ hread
    · obtain ⟨⟨key, tokens₁⟩, hread, h⟩ := Option.map_eq_some_iff.mp h
      cases h
      exact takes_keyOf _ _ _ _ hread
    · obtain ⟨⟨key, tokens₁⟩, hread, h⟩ := Option.map_eq_some_iff.mp h
      cases h
      exact takes_keyOf _ _ _ _ hread
    · obtain ⟨⟨context, tokens₁⟩, hread, h⟩ := Option.map_eq_some_iff.mp h
      cases h
      exact takes_importAssertion _ _ _ hread
    · obtain ⟨⟨context, tokens₁⟩, hread, h⟩ := Option.map_eq_some_iff.mp h
      cases h
      exact takes_relationDeclaration _ _ _ hread
    · cases h

end AuthLogicParser

end Raksha.AuthLogic
