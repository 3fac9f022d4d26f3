import Raksha.Ir.IrPrinter
import Raksha.Parser.IrGrammar
import Raksha.Parser.IrWords

/-!
# Tokens of a printed module

The printed text of a module has the tokens of a parse tree, line by line.
-/

namespace Raksha.Parser
open Raksha.Common Raksha.Ir Raksha.Lib.Lexing

section

variable (floatToString : BitVec 64 → String) (symbol : Value → String) (blockId : ℕ → String)

def printedPayload : Attribute → AttributePayloadContext
  | .int64 value => .numAttribute (toString value)
  | .string value => .stringAttribute ("\"" ++ value ++ "\"")
  | .float bits => .floatAttribute (floatToString bits)

def printedAttributes (attributes : NamedAttributeMap) : List AttributeContext :=
  (attributes.entries.mergeSort fun left right => decide (left.1 ≤ right.1)).map fun entry =>
    ⟨entry.1, printedPayload floatToString entry.2⟩

def printedValue : Value → ValueContext
  | .any => .anyValue
  | value => .namedTempValue (symbol value)

def printedOperation (operation : Operation) : OperationContext where
  result := ((List.range operation.numberOfOutputs).map operation.getOutputValue).map symbol
  operatorName := operation.op.name
  attributeList := printedAttributes floatToString operation.attributes
  argumentList := operation.inputs.map (printedValue symbol)

def printedBlock (block : Block × ℕ) : BlockContext where
  blockId := blockId block.2
  operation := block.1.operations.map (printedOperation floatToString symbol)

def printedModule (moduleId : String) (module : Module) : ModuleContext where
  moduleId
  block := module.blocks.zipIdx.map (printedBlock floatToString symbol blockId)

end

/-! ### Lists -/

theorem separated_cons_cons {α σ : Type} (c : σ) (print : α → List σ) (a b : α) (l : List α) :
    separated c print (a :: b :: l) = print a ++ c :: separated c print (b :: l) := by
  simp only [separated, List.flatMap_cons, List.cons_append]

theorem separated_map {α β σ : Type} (c : σ) (print : β → List σ) (f : α → β) (l : List α) :
    separated c print (l.map f) = separated c (fun a => print (f a)) l := by
  cases l with
  | nil => rfl
  | cons a l => rw [List.map_cons, separated, separated, List.flatMap_map]

theorem lexesBefore_strJoin {α : Type} {text : α → String} {tokens : α → List Token} {l : List α}
    (h : ∀ a ∈ l, LexesBefore (text a).toList (tokens a)) :
    LexesBefore (", ".intercalate (l.map text)).toList (separated comma tokens l) := by
  induction l with
  | nil => exact .nil
  | cons a l ih =>
    have hfirst := h a (List.mem_cons_self ..)
    cases l with
    | nil =>
      rw [List.map_singleton, String.intercalate_singleton, separated, List.flatMap_nil,
        List.append_nil]
      exact hfirst
    | cons b l =>
      have hrest := ih fun x hx => h x (List.mem_cons_of_mem _ hx)
      rw [List.map_cons, List.map_cons, String.intercalate_cons_cons, separated_cons_cons,
        String.toList_append, String.toList_append, List.append_assoc]
      exact hfirst.before rfl (lexesTo_comma.before (lexesTo_blank.before hrest))

/-! ### Lines -/

theorem lexesTo_indentation (indent : ℕ) : LexesTo (indentation indent).toList [] := by
  rw [indentation, String.toList_ofList]
  exact lexesTo_blanks _

/-- The attributes that the lexer reads back: numbers without a sign and strings without a double
quote. -/
def Readable : Attribute → Prop
  | .int64 value => 0 ≤ value
  | .string value => '"' ∉ value.toList
  | .float _ => False

variable (floatToString : BitVec 64 → String) {symbol : Value → String} {blockId : ℕ → String}

theorem lexesBefore_attribute {attr : Attribute} (h : Readable attr) :
    LexesBefore (attributeToString floatToString attr).toList
      (printedPayload floatToString attr).tokens := by
  cases attr with
  | int64 value =>
    obtain ⟨n, rfl⟩ := Int.eq_ofNat_of_zero_le h
    exact lexesBefore_number n
  | string value =>
    have hstring := lexesTo_stringLiteral h
    have htext : ("\"" ++ value ++ "\"").toList = '"' :: value.toList ++ ['"'] := by
      rw [String.toList_append, String.toList_append]
      rfl
    rw [← htext, String.ofList_toList] at hstring
    exact hstring.lexesBefore
  | float bits => cases h

theorem lexesBefore_value (hany : symbol .any = "<<ANY>>") {v : Value}
    (h : v = .any ∨ LexesBefore (symbol v).toList [⟨.temporaryId, symbol v⟩]) :
    LexesBefore (symbol v).toList (printedValue symbol v).tokens := by
  by_cases hvalue : v = .any
  · subst hvalue
    rw [hany]
    exact lexesTo_any.lexesBefore
  · have hsymbol := h.resolve_left hvalue
    have hprinted : printedValue symbol v = .namedTempValue (symbol v) := by
      cases v with
      | any => exact absurd rfl hvalue
      | _ => rfl
    rw [hprinted]
    exact hsymbol

theorem lexesBefore_results {operation : Operation}
    (h : ∀ i < operation.numberOfOutputs,
      LexesBefore (symbol (operation.getOutputValue i)).toList
        [⟨.temporaryId, symbol (operation.getOutputValue i)⟩]) :
    LexesBefore (", ".intercalate
      (((List.range operation.numberOfOutputs).map operation.getOutputValue).map symbol)).toList
      (separated comma (fun text => [⟨.temporaryId, text⟩])
        (printedOperation floatToString symbol operation).result) := by
  rw [← List.map_id (((List.range _).map _).map symbol)]
  refine lexesBefore_strJoin ?_
  intro text htext
  obtain ⟨v, hv, rfl⟩ := List.mem_map.mp htext
  obtain ⟨i, hi, rfl⟩ := List.mem_map.mp hv
  exact h i (List.mem_range.mp hi)

theorem isLineText_toString (c : Char) (hc : isLineText c = true) (n : ℕ) :
    ∀ d ∈ (String.ofList [c] ++ toString n).toList, isLineText d = true := by
  intro d hd
  rw [String.toList_append, String.toList_ofList, List.mem_append, List.mem_singleton] at hd
  rcases hd with rfl | hd
  · exact hc
  · exact isLineText_of_isIdRest (by simp [isIdRest, isDigit_of_mem_toString hd])

/-- The closing line of a block or of a module, with its comment. -/
theorem lexesTo_closing {word id : List Char} (hword : ∀ c ∈ word, isLineText c = true)
    (hid : ∀ c ∈ id, isLineText c = true) :
    LexesTo ('}' :: ' ' :: ' ' :: '/' :: '/' :: ' ' :: (word ++ id) ++ ['\n'])
      [⟨.closeBrace, "\x7d"⟩] := by
  have hcomment : ∀ c ∈ word ++ id, isLineText c = true := by
    intro c hc
    rcases List.mem_append.mp hc with hc | hc
    · exact hword c hc
    · exact hid c hc
  exact lexesTo_closeBrace.append
    (lexesTo_blank.append (lexesTo_blank.append (lexesTo_comment hcomment)))

end Raksha.Parser
