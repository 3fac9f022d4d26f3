import Raksha.Lib.Parsing
import Raksha.Parser.IrLexer

/-!
# The parser of the intermediate representation

The parser rules of `parser/ir/Ir.g4`. The next token decides every choice of the grammar. The
parse trees are those of the generated parser; an absent list is an empty one.
-/

namespace Raksha.Parser
open Raksha.Lib.Lexing Raksha.Lib.Parsing

/-! ### Parse trees -/

inductive AttributePayloadContext
  | floatAttribute (floatLiteral : String)
  | numAttribute (numLiteral : String)
  | stringAttribute (stringLiteralContents : String)
deriving DecidableEq

structure AttributeContext where
  name : String
  attributePayload : AttributePayloadContext
deriving DecidableEq

inductive ValueContext
  | anyValue
  | namedTempValue (valueName : String)
deriving DecidableEq

structure OperationContext where
  result : List String
  operatorName : String
  attributeList : List AttributeContext
  argumentList : List ValueContext
deriving DecidableEq

structure BlockContext where
  blockId : String
  operation : List OperationContext
deriving DecidableEq

structure ModuleContext where
  moduleId : String
  block : List BlockContext
deriving DecidableEq

/-! ### The rules -/

def hasType (type : TokenType) (token : Token) : Bool := token.type == type

def token (type : TokenType) : Parser Token String
  | [] => none
  | token :: tokens => if hasType type token then some (token.text, tokens) else none

/-- `item (',' item)*`. -/
def commaSeparated {α : Type} (item : Parser Token α) : Parser Token (List α) := fun tokens => do
  let (value, tokens) ← item tokens
  let (values, tokens) ← many (hasType .comma) (fun tokens => do
    let (_, tokens) ← token .comma tokens
    item tokens) (tokens.length + 1) tokens
  some (value :: values, tokens)

/-- `(item (',' item)*)?` in front of the closing token. -/
def commaSeparated? {α : Type} (closing : TokenType) (item : Parser Token α) :
    Parser Token (List α) := fun tokens =>
  if tokens.head?.any (hasType closing) then some ([], tokens) else commaSeparated item tokens

def IrParser.attributePayload : Parser Token AttributePayloadContext
  | ⟨.floatLiteral, text⟩ :: tokens => some (.floatAttribute text, tokens)
  | ⟨.numLiteral, text⟩ :: tokens => some (.numAttribute text, tokens)
  | ⟨.stringLiteral, text⟩ :: tokens => some (.stringAttribute text, tokens)
  | _ => none

def IrParser.attribute : Parser Token AttributeContext := fun tokens => do
  let (name, tokens) ← token .id tokens
  let (_, tokens) ← token .colon tokens
  let (payload, tokens) ← IrParser.attributePayload tokens
  some (⟨name, payload⟩, tokens)

def IrParser.namedTempValue : Parser Token String := token .temporaryId

def IrParser.value : Parser Token ValueContext
  | ⟨.any, _⟩ :: tokens => some (.anyValue, tokens)
  | ⟨.temporaryId, text⟩ :: tokens => some (.namedTempValue text, tokens)
  | _ => none

def IrParser.operation : Parser Token OperationContext := fun tokens => do
  let (result, tokens) ← commaSeparated IrParser.namedTempValue tokens
  let (_, tokens) ← token .equals tokens
  let (operatorName, tokens) ← token .id tokens
  let (_, tokens) ← token .openBracket tokens
  let (attributeList, tokens) ← commaSeparated? .closeBracket IrParser.attribute tokens
  let (_, tokens) ← token .closeBracket tokens
  let (_, tokens) ← token .openParen tokens
  let (argumentList, tokens) ← commaSeparated? .closeParen IrParser.value tokens
  let (_, tokens) ← token .closeParen tokens
  some ({ result, operatorName, attributeList, argumentList }, tokens)

def IrParser.block : Parser Token BlockContext := fun tokens => do
  let (_, tokens) ← token .block tokens
  let (blockId, tokens) ← token .id tokens
  let (_, tokens) ← token .openBrace tokens
  let (operation, tokens) ←
    many (hasType .temporaryId) IrParser.operation (tokens.length + 1) tokens
  let (_, tokens) ← token .closeBrace tokens
  some ({ blockId, operation }, tokens)

def IrParser.module : Parser Token ModuleContext := fun tokens => do
  let (_, tokens) ← token .module tokens
  let (moduleId, tokens) ← token .id tokens
  let (_, tokens) ← token .openBrace tokens
  let (block, tokens) ← many (hasType .block) IrParser.block (tokens.length + 1) tokens
  let (_, tokens) ← token .closeBrace tokens
  some ({ moduleId, block }, tokens)

/-- `module EOF`. -/
def IrParser.irProgram (tokens : List Token) : Option ModuleContext :=
  match IrParser.module tokens with
  | some (context, []) => some context
  | _ => none

/-! ### The tokens of a parse tree -/

def separated {α σ : Type} (comma : σ) (print : α → List σ) : List α → List σ
  | [] => []
  | value :: values => print value ++ values.flatMap fun value => comma :: print value

def AttributePayloadContext.tokens : AttributePayloadContext → List Token
  | .floatAttribute text => [⟨.floatLiteral, text⟩]
  | .numAttribute text => [⟨.numLiteral, text⟩]
  | .stringAttribute text => [⟨.stringLiteral, text⟩]

def AttributeContext.tokens (context : AttributeContext) : List Token :=
  ⟨.id, context.name⟩ :: ⟨.colon, ":"⟩ :: context.attributePayload.tokens

def ValueContext.tokens : ValueContext → List Token
  | .anyValue => [⟨.any, "<<ANY>>"⟩]
  | .namedTempValue text => [⟨.temporaryId, text⟩]

def comma : Token := ⟨.comma, ","⟩

def OperationContext.tokens (context : OperationContext) : List Token :=
  separated comma (fun text => [⟨.temporaryId, text⟩]) context.result ++
    ⟨.equals, "="⟩ :: ⟨.id, context.operatorName⟩ :: ⟨.openBracket, "["⟩ ::
    (separated comma AttributeContext.tokens context.attributeList ++
      ⟨.closeBracket, "]"⟩ :: ⟨.openParen, "("⟩ ::
      (separated comma ValueContext.tokens context.argumentList ++ [⟨.closeParen, ")"⟩]))

def BlockContext.tokens (context : BlockContext) : List Token :=
  ⟨.block, "block"⟩ :: ⟨.id, context.blockId⟩ :: ⟨.openBrace, "\x7b"⟩ ::
    (context.operation.flatMap OperationContext.tokens ++ [⟨.closeBrace, "\x7d"⟩])

def ModuleContext.tokens (context : ModuleContext) : List Token :=
  ⟨.module, "module"⟩ :: ⟨.id, context.moduleId⟩ :: ⟨.openBrace, "\x7b"⟩ ::
    (context.block.flatMap BlockContext.tokens ++ [⟨.closeBrace, "\x7d"⟩])

/-! ### Every parse tree is read off its tokens -/

theorem token_cons (type : TokenType) (text : String) (tokens : List Token) :
    token type (⟨type, text⟩ :: tokens) = some (text, tokens) := by
  simp [token, hasType]

theorem commaSeparated_reads {α : Type} {item : Parser Token α} {print : α → List Token}
    (value : α) (values : List α)
    (hitem : ∀ v ∈ value :: values, Reads item v (print v)) {rest : List Token}
    (hrest : Stops (hasType .comma) rest) :
    commaSeparated item (separated comma print (value :: values) ++ rest) =
      some (value :: values, rest) := by
  have hread := hitem value (List.mem_cons_self ..)
    ((values.flatMap fun value => comma :: print value) ++ rest)
  have hmany := many_reads (hasType .comma)
    (fun tokens => do let (_, tokens) ← token .comma tokens; item tokens)
    (fun value => comma :: print value) values
    (by
      intro v hv tail
      simp only [List.cons_append, comma, token_cons, Option.bind_eq_bind, Option.bind_some]
      exact hitem v (List.mem_cons_of_mem _ hv) tail)
    (fun v _ => ⟨comma, print v, rfl, rfl⟩) rest (Nat.lt_succ_self _) hrest
  rw [separated, List.append_assoc, commaSeparated, hread]
  simp only [Option.bind_eq_bind, Option.bind_some] at hmany ⊢
  rw [hmany]
  rfl

theorem commaSeparated?_reads {α : Type} (closing : TokenType) {item : Parser Token α}
    (print : α → List Token) (values : List α)
    (hitem : ∀ v ∈ values, Reads item v (print v))
    (hstart : ∀ v ∈ values, ∃ t ts, print v = t :: ts ∧ hasType closing t = false)
    (hclosing : closing ≠ .comma) (text : String) (rest : List Token) :
    commaSeparated? closing item (separated comma print values ++ ⟨closing, text⟩ :: rest) =
      some (values, ⟨closing, text⟩ :: rest) := by
  cases values with
  | nil => simp [commaSeparated?, separated, hasType]
  | cons v values =>
    obtain ⟨t, ts, hprint, ht⟩ := hstart v (List.mem_cons_self ..)
    have hhead : (separated comma print (v :: values) ++
        ⟨closing, text⟩ :: rest).head?.any (hasType closing) = false := by
      rw [separated, hprint]
      exact ht
    have hstops : Stops (hasType .comma) (⟨closing, text⟩ :: rest) :=
      stops_cons rest (beq_eq_false_iff_ne.mpr hclosing)
    simp only [commaSeparated?, hhead, Bool.false_eq_true, if_false]
    exact commaSeparated_reads v values hitem hstops

theorem attribute_reads (context : AttributeContext) : Reads IrParser.attribute context context.tokens := by
  intro rest
  obtain ⟨name, payload⟩ := context
  cases payload <;> rfl

theorem value_reads (context : ValueContext) : Reads IrParser.value context context.tokens := by
  intro rest
  cases context <;> rfl

theorem operation_reads (context : OperationContext) (h : context.result ≠ []) :
    Reads IrParser.operation context context.tokens := by
  intro rest
  obtain ⟨result, operatorName, attributeList, argumentList⟩ := context
  cases result with
  | nil => exact absurd rfl h
  | cons text texts =>
    have hresult : ∀ tokens, commaSeparated IrParser.namedTempValue
          (separated comma (fun text => [⟨.temporaryId, text⟩]) (text :: texts) ++
            ⟨.equals, "="⟩ :: tokens) = some (text :: texts, ⟨.equals, "="⟩ :: tokens) := by
      intro tokens
      exact commaSeparated_reads text texts (fun v _ tail => token_cons .temporaryId v tail)
        (stops_cons tokens rfl)
    have hattributes := fun tokens => commaSeparated?_reads .closeBracket AttributeContext.tokens
      attributeList (fun v _ => attribute_reads v)
      (fun v _ => ⟨_, _, rfl, rfl⟩) (by decide) "]" tokens
    have hvalues := fun tokens => commaSeparated?_reads .closeParen ValueContext.tokens
      argumentList (fun v _ => value_reads v)
      (fun v _ => by cases v <;> exact ⟨_, _, rfl, rfl⟩) (by decide) ")" tokens
    simp only [OperationContext.tokens, List.append_assoc, List.cons_append, List.nil_append,
      IrParser.operation, hresult, Option.bind_eq_bind, Option.bind_some, token_cons,
      hattributes, hvalues]

theorem block_reads (context : BlockContext) (h : ∀ o ∈ context.operation, o.result ≠ []) :
    Reads IrParser.block context context.tokens := by
  intro rest
  obtain ⟨blockId, operations⟩ := context
  have hmany := many_reads (hasType .temporaryId) IrParser.operation
    OperationContext.tokens operations (fun o ho => operation_reads o (h o ho))
    (by
      intro o ho
      obtain ⟨result, operatorName, attributeList, argumentList⟩ := o
      cases result with
      | nil => exact absurd rfl (h _ ho)
      | cons text texts => exact ⟨⟨.temporaryId, text⟩, _, rfl, rfl⟩)
    (⟨.closeBrace, "\x7d"⟩ :: rest) (Nat.lt_succ_self _) (stops_cons _ rfl)
  simp only [BlockContext.tokens, IrParser.block, List.cons_append, List.append_assoc, List.nil_append,
    token_cons, Option.bind_eq_bind, Option.bind_some, hmany]

theorem module_reads (context : ModuleContext)
    (h : ∀ b ∈ context.block, ∀ o ∈ b.operation, o.result ≠ []) :
    Reads IrParser.module context context.tokens := by
  intro rest
  obtain ⟨moduleId, blocks⟩ := context
  have hmany := many_reads (hasType .block) IrParser.block
    BlockContext.tokens blocks (fun b hb => block_reads b (h b hb))
    (fun b _ => ⟨_, _, rfl, rfl⟩)
    (⟨.closeBrace, "\x7d"⟩ :: rest) (Nat.lt_succ_self _) (stops_cons _ rfl)
  simp only [ModuleContext.tokens, IrParser.module, List.cons_append, List.append_assoc, List.nil_append,
    token_cons, Option.bind_eq_bind, Option.bind_some, hmany]

theorem irProgram_tokens (context : ModuleContext)
    (h : ∀ b ∈ context.block, ∀ o ∈ b.operation, o.result ≠ []) :
    IrParser.irProgram context.tokens = some context := by
  have hread := module_reads context h []
  rw [List.append_nil] at hread
  rw [IrParser.irProgram, hread]

/-! ### A parse takes no other tokens

The parser does not look at the texts of keywords and punctuation. -/

def fixedText : TokenType → Option String
  | .colon => some ":"
  | .comma => some ","
  | .equals => some "="
  | .openBracket => some "["
  | .closeBracket => some "]"
  | .openParen => some "("
  | .closeParen => some ")"
  | .openBrace => some "\x7b"
  | .closeBrace => some "\x7d"
  | .any => some "<<ANY>>"
  | .block => some "block"
  | .module => some "module"
  | _ => none

def normalize (token : Token) : Token := ⟨token.type, (fixedText token.type).getD token.text⟩

theorem token_sound (type : TokenType) :
    Sound normalize (token type) fun text => [normalize ⟨type, text⟩] := by
  intro tokens text rest h
  cases tokens with
  | nil => cases h
  | cons t tokens =>
    rw [token] at h
    split at h
    · next ht =>
      cases h
      cases t
      rw [← beq_iff_eq.mp ht]
      rfl
    · cases h

theorem commaSeparated_sound {α : Type} {item : Parser Token α} {yield : α → List Token}
    (hitem : Sound normalize item yield) :
    Sound normalize (commaSeparated item) (separated comma yield) := by
  intro tokens values rest h
  have hcomma : Sound normalize
      (fun tokens => do let (_, tokens) ← token .comma tokens; item tokens)
      (fun value => comma :: yield value) := by
    intro tokens value rest h
    simp only [Option.bind_eq_bind, Option.bind_eq_some_iff] at h
    obtain ⟨⟨text, tokens₁⟩, hcomma, hvalue⟩ := h
    rw [token_sound .comma _ _ _ hcomma, hitem _ _ _ hvalue]
    rfl
  simp only [commaSeparated, Option.bind_eq_bind, Option.bind_eq_some_iff] at h
  obtain ⟨⟨value, tokens₁⟩, hvalue, ⟨values', tokens₂⟩, hvalues, heq⟩ := h
  cases heq
  rw [hitem _ _ _ hvalue, many_sound hcomma _ _ _ _ hvalues, separated, List.append_assoc]

theorem commaSeparated?_sound {α : Type} {closing : TokenType} {item : Parser Token α}
    {yield : α → List Token} (hitem : Sound normalize item yield) :
    Sound normalize (commaSeparated? closing item) (separated comma yield) := by
  intro tokens values rest h
  rw [commaSeparated?] at h
  split at h
  · cases h
    rfl
  · exact commaSeparated_sound hitem _ _ _ h

theorem attributePayload_sound :
    Sound normalize IrParser.attributePayload AttributePayloadContext.tokens := by
  intro tokens context rest h
  unfold IrParser.attributePayload at h
  split at h <;> cases h <;> rfl

theorem attribute_sound : Sound normalize IrParser.attribute AttributeContext.tokens := by
  intro tokens context rest h
  simp only [IrParser.attribute, Option.bind_eq_bind, Option.bind_eq_some_iff] at h
  obtain ⟨⟨name, tokens₁⟩, hname, ⟨_, tokens₂⟩, hcolon, ⟨payload, tokens₃⟩, hpayload, heq⟩ := h
  cases heq
  rw [token_sound .id _ _ _ hname, token_sound .colon _ _ _ hcolon,
    attributePayload_sound _ _ _ hpayload]
  rfl

theorem value_sound : Sound normalize IrParser.value ValueContext.tokens := by
  intro tokens context rest h
  unfold IrParser.value at h
  split at h <;> cases h <;> rfl

theorem operation_sound : Sound normalize IrParser.operation OperationContext.tokens := by
  intro tokens context rest h
  simp only [IrParser.operation, Option.bind_eq_bind, Option.bind_eq_some_iff] at h
  obtain ⟨⟨result, t₁⟩, hresult, ⟨_, t₂⟩, hequals, ⟨operatorName, t₃⟩, hname, ⟨_, t₄⟩, hopen,
    ⟨attributes, t₅⟩, hattributes, ⟨_, t₆⟩, hclose, ⟨_, t₇⟩, hopen', ⟨arguments, t₈⟩, harguments,
    ⟨_, t₉⟩, hclose', heq⟩ := h
  cases heq
  rw [commaSeparated_sound (token_sound .temporaryId) _ _ _ hresult,
    token_sound .equals _ _ _ hequals, token_sound .id _ _ _ hname,
    token_sound .openBracket _ _ _ hopen, commaSeparated?_sound attribute_sound _ _ _ hattributes,
    token_sound .closeBracket _ _ _ hclose, token_sound .openParen _ _ _ hopen',
    commaSeparated?_sound value_sound _ _ _ harguments, token_sound .closeParen _ _ _ hclose']
  simp only [OperationContext.tokens, List.append_assoc, List.cons_append, List.nil_append]
  rfl

theorem block_sound : Sound normalize IrParser.block BlockContext.tokens := by
  intro tokens context rest h
  simp only [IrParser.block, Option.bind_eq_bind, Option.bind_eq_some_iff] at h
  obtain ⟨⟨_, t₁⟩, hblock, ⟨blockId, t₂⟩, hid, ⟨_, t₃⟩, hopen, ⟨operations, t₄⟩, hoperations,
    ⟨_, t₅⟩, hclose, heq⟩ := h
  cases heq
  rw [token_sound .block _ _ _ hblock, token_sound .id _ _ _ hid,
    token_sound .openBrace _ _ _ hopen, many_sound operation_sound _ _ _ _ hoperations,
    token_sound .closeBrace _ _ _ hclose]
  simp only [BlockContext.tokens, List.append_assoc, List.cons_append, List.nil_append]
  rfl

theorem module_sound : Sound normalize IrParser.module ModuleContext.tokens := by
  intro tokens context rest h
  simp only [IrParser.module, Option.bind_eq_bind, Option.bind_eq_some_iff] at h
  obtain ⟨⟨_, t₁⟩, hmodule, ⟨moduleId, t₂⟩, hid, ⟨_, t₃⟩, hopen, ⟨blocks, t₄⟩, hblocks,
    ⟨_, t₅⟩, hclose, heq⟩ := h
  cases heq
  rw [token_sound .module _ _ _ hmodule, token_sound .id _ _ _ hid,
    token_sound .openBrace _ _ _ hopen, many_sound block_sound _ _ _ _ hblocks,
    token_sound .closeBrace _ _ _ hclose]
  simp only [ModuleContext.tokens, List.append_assoc, List.cons_append, List.nil_append]
  rfl

theorem irProgram_sound {tokens : List Token} {context : ModuleContext}
    (h : IrParser.irProgram tokens = some context) :
    tokens.map normalize = context.tokens := by
  unfold IrParser.irProgram at h
  split at h
  · next hmodule =>
    cases h
    have hsound := module_sound _ _ _ hmodule
    rwa [List.map_nil, List.append_nil] at hsound
  · cases h

theorem commaSeparated_ne_nil {α : Type} {item : Parser Token α} {tokens rest : List Token}
    {values : List α} (h : commaSeparated item tokens = some (values, rest)) : values ≠ [] := by
  simp only [commaSeparated, Option.bind_eq_bind, Option.bind_eq_some_iff] at h
  obtain ⟨⟨value, tokens₁⟩, -, ⟨values', tokens₂⟩, -, heq⟩ := h
  cases heq
  exact List.cons_ne_nil _ _

theorem irProgram_results {tokens : List Token} {context : ModuleContext}
    (h : IrParser.irProgram tokens = some context) :
    ∀ block ∈ context.block, ∀ operation ∈ block.operation, operation.result ≠ [] := by
  have hoperation : ∀ tokens operation rest, IrParser.operation tokens = some (operation, rest) →
      operation.result ≠ [] := by
    intro tokens operation rest h
    simp only [IrParser.operation, Option.bind_eq_bind, Option.bind_eq_some_iff] at h
    obtain ⟨⟨result, _⟩, hresult, _, -, _, -, _, -, _, -, _, -, _, -, _, -, _, -, heq⟩ := h
    cases heq
    exact commaSeparated_ne_nil hresult
  have hblock : ∀ tokens block rest, IrParser.block tokens = some (block, rest) →
      ∀ operation ∈ block.operation, operation.result ≠ [] := by
    intro tokens block rest h
    simp only [IrParser.block, Option.bind_eq_bind, Option.bind_eq_some_iff] at h
    obtain ⟨_, -, _, -, _, -, ⟨operations, _⟩, hoperations, _, -, heq⟩ := h
    cases heq
    exact many_forall hoperation hoperations
  unfold IrParser.irProgram at h
  split at h
  · next hmodule =>
    cases h
    simp only [IrParser.module, Option.bind_eq_bind, Option.bind_eq_some_iff] at hmodule
    obtain ⟨_, -, _, -, _, -, ⟨blocks, _⟩, hblocks, ⟨_, _⟩, -, heq⟩ := hmodule
    cases heq
    exact many_forall hblock hblocks
  · cases h

/-- The names that an operation of the tree assigns are temporaries of the text. -/
theorem mem_tokens_of_result {context : ModuleContext} {block : BlockContext}
    {operation : OperationContext} {name : String} (hblock : block ∈ context.block)
    (hoperation : operation ∈ block.operation) (hname : name ∈ operation.result) :
    ⟨.temporaryId, name⟩ ∈ context.tokens := by
  have hresult : ∀ (names : List String), name ∈ names →
      ⟨.temporaryId, name⟩ ∈ separated comma (fun text => [⟨.temporaryId, text⟩]) names := by
    intro names hmem
    cases names with
    | nil => cases hmem
    | cons text texts =>
      rw [separated, List.mem_append]
      rcases List.mem_cons.mp hmem with rfl | hmem
      · exact Or.inl (List.mem_singleton_self _)
      · exact Or.inr (List.mem_flatMap.mpr
          ⟨name, hmem, List.mem_cons_of_mem _ (List.mem_singleton_self _)⟩)
  have hin : ⟨.temporaryId, name⟩ ∈ operation.tokens :=
    List.mem_append_left _ (hresult _ hname)
  have hin' : ⟨.temporaryId, name⟩ ∈ block.tokens := by
    refine List.mem_cons_of_mem _ (List.mem_cons_of_mem _ (List.mem_cons_of_mem _ ?_))
    exact List.mem_append_left _ (List.mem_flatMap.mpr ⟨operation, hoperation, hin⟩)
  refine List.mem_cons_of_mem _ (List.mem_cons_of_mem _ (List.mem_cons_of_mem _ ?_))
  exact List.mem_append_left _ (List.mem_flatMap.mpr ⟨block, hblock, hin'⟩)

end Raksha.Parser
