import Raksha.Ir.DatalogText
import Raksha.Lib.Parsing
import Raksha.PolicyEngine.FactsFile

/-!
# Written facts are read back

A reader of files of facts that takes symbols between double quotes as they are. It reads back
every operation whose symbols need no escapes.
-/

namespace Raksha.PolicyEngine
open Raksha.Lib.Lexing Raksha.Lib.Parsing
open Raksha.Ir.Datalog (text strJoin strJoinRest text_symbol text_nil text_negSucc natText_cons
  symbolList attributePayload attributeRecord attributeList operationRecord)

/-! ### The reader -/

def readSymbol : Parser Char String :=
  andThen (exactly ['"']) fun _ => andThen (upTo '"') fun name => succeed (String.ofList name)

def numberOfDigits : List Char → ℤ
  | '-' :: digits => -(Nat.ofDigitChars 10 digits 0 : ℤ)
  | digits => (Nat.ofDigitChars 10 digits 0 : ℤ)

/-- The branches of `AttributePayload` that are read. -/
def readPayload : Parser Char Souffle.AttributePayload :=
  orElse
    (andThen (exactly "$StringAttributePayload(".toList) fun _ => andThen readSymbol fun str =>
      andThen (exactly [')']) fun _ => succeed (.stringAttributePayload str))
    (andThen (exactly "$NumberAttributePayload(".toList) fun _ => andThen (upTo ')') fun digits =>
      succeed (.numberAttributePayload (numberOfDigits digits)))

def readAttribute : Parser Char Souffle.Attribute :=
  andThen (exactly ['[']) fun _ => andThen readSymbol fun attrName =>
    andThen (exactly [',', ' ']) fun _ => andThen readPayload fun attrPayload =>
      andThen (exactly [']']) fun _ => succeed { attrName, attrPayload }

/-- A record of the head and the tail of a list, or `nil`. -/
def readNext {α : Type} (item : Parser Char α) : ℕ → Parser Char (List α)
  | 0 => fun _ => none
  | fuel + 1 => orElse
      (andThen (exactly ['n', 'i', 'l']) fun _ => succeed [])
      (andThen (exactly ['[']) fun _ => andThen item fun value =>
        andThen (exactly [',', ' ']) fun _ => andThen (readNext item fuel) fun values =>
          andThen (exactly [']']) fun _ => succeed (value :: values))

def readList {α : Type} (item : Parser Char α) : Parser Char (List α) := fun input =>
  readNext item input.length input

def readOperation : Parser Char Souffle.Operation :=
  andThen (exactly ['[']) fun _ => andThen readSymbol fun actor =>
    andThen (exactly [',', ' ']) fun _ => andThen readSymbol fun operator =>
      andThen (exactly [',', ' ']) fun _ => andThen (readList readSymbol) fun resultList =>
        andThen (exactly [',', ' ']) fun _ => andThen (readList readSymbol) fun operandList =>
          andThen (exactly [',', ' ']) fun _ => andThen (readList readAttribute) fun attributes =>
            andThen (exactly [']']) fun _ =>
              succeed { actor, operator, resultList, operandList, attributes }

/-- Operations behind line breaks. -/
def readLines : Parser Char (List Souffle.Operation) := fun input =>
  many (· == '\n') (andThen (exactly ['\n']) fun _ => readOperation) (input.length + 1) input

/-- The operations of a file, one a line. -/
def readFacts (facts : String) : Finset Souffle.Operation :=
  match readLines ('\n' :: facts.toList) with
  | some (operations, _) => operations.toFinset
  | none => ∅

/-! ### Round trip -/

section

variable (floatToString : BitVec 64 → String)

theorem text_pair (first second : Ir.Datalog.Value) :
    text floatToString (.record [first, second]) = ['['] ++ (text floatToString first ++
      ([',', ' '] ++ (text floatToString second ++ [']']))) := by
  simp only [text, Ir.Datalog.Value.toDatalogString, strJoin, strJoinRest, String.toList_append,
    List.append_assoc]
  rfl

theorem text_branch (branchName : String) (argument : Ir.Datalog.Value) :
    text floatToString (.adt branchName [argument]) =
      ("$" ++ branchName ++ "(").toList ++ (text floatToString argument ++ [')']) := by
  simp only [text, Ir.Datalog.Value.toDatalogString, strJoin, strJoinRest, String.toList_append,
    List.append_assoc]
  rfl

theorem numberOfDigits_text (num : ℤ) :
    numberOfDigits (text floatToString (.number num)) = num := by
  cases num with
  | ofNat n =>
    have htext : text floatToString (.number (.ofNat n)) = (toString n).toList := rfl
    obtain ⟨d, digits, hlist, hdigit⟩ := natText_cons n
    have hvalue := ofDigitChars_toString n
    rw [hlist] at hvalue
    rw [htext, hlist, numberOfDigits, hvalue]
    · rfl
    · rintro rest heq
      obtain ⟨rfl, -⟩ := List.cons.inj heq
      cases hdigit
  | negSucc n =>
    rw [text_negSucc, numberOfDigits, ofDigitChars_toString]
    rfl

theorem readSymbol_text {name : String} (h : Unescaped name) :
    Reads readSymbol name (text floatToString (.symbol name)) := by
  have hquote : '"' ∉ name.toList := by
    intro hmem
    exact absurd (List.all_eq_true.mp h _ hmem) (by decide)
  have hname := Reads.andThen_succeed (f := String.ofList) (reads_upTo hquote)
  rw [String.ofList_toList] at hname
  rw [text_symbol]
  exact (reads_exactly ['"']).andThen hname

theorem not_mem_paren_text (num : ℤ) : ')' ∉ text floatToString (.number num) := by
  have hdigits : ∀ n : ℕ, ')' ∉ (toString n).toList := by
    intro n hmem
    cases isDigit_of_mem_toString hmem
  cases num with
  | ofNat n => exact hdigits n
  | negSucc n =>
    rw [text_negSucc, List.mem_cons, not_or]
    exact ⟨by decide, hdigits (n + 1)⟩

theorem readPayload_text {payload : Souffle.AttributePayload} (h : UnescapedPayload payload) :
    Reads readPayload payload (text floatToString (attributePayload payload)) := by
  cases payload with
  | stringAttributePayload str =>
    rw [attributePayload, text_branch]
    refine Reads.orElse ?_
    refine (reads_exactly _).andThen ?_
    refine (readSymbol_text floatToString h).andThen ?_
    exact (reads_exactly [')']).andThen_succeed
  | numberAttributePayload num =>
    have hnum := Reads.andThen_succeed
      (f := fun digits => Souffle.AttributePayload.numberAttributePayload (numberOfDigits digits))
      (reads_upTo (not_mem_paren_text floatToString num))
    rw [numberOfDigits_text] at hnum
    rw [attributePayload, text_branch]
    refine Reads.orElse_of_fails ?_ ((reads_exactly _).andThen hnum)
    intro rest
    rfl
  | floatAttributePayload bits => cases h

theorem readAttribute_text {attr : Souffle.Attribute}
    (h : Unescaped attr.attrName ∧ UnescapedPayload attr.attrPayload) :
    Reads readAttribute attr (text floatToString (attributeRecord attr)) := by
  rw [attributeRecord, text_pair]
  refine (reads_exactly ['[']).andThen ?_
  refine (readSymbol_text floatToString h.1).andThen ?_
  refine (reads_exactly [',', ' ']).andThen ?_
  refine (readPayload_text floatToString h.2).andThen ?_
  exact (reads_exactly [']']).andThen_succeed

section

variable {α : Type} {item : Parser Char α} {print : α → Ir.Datalog.Value} {values : List α}

theorem readNext_text (h : ∀ value ∈ values, Reads item value (text floatToString (print value)))
    {fuel : ℕ} (hfuel : values.length < fuel) : Reads (readNext item fuel) values
      (text floatToString (values.foldr (fun value next => .record [print value, next]) .nil)) := by
  induction values generalizing fuel with
  | nil =>
    obtain ⟨fuel, rfl⟩ := Nat.exists_eq_add_of_lt hfuel
    rw [List.foldr_nil, text_nil, readNext]
    exact (reads_exactly ['n', 'i', 'l']).andThen_succeed.orElse
  | cons value values ih =>
    cases fuel with
    | zero => cases hfuel
    | succ fuel =>
      have hrest := ih (fun v hv => h v (List.mem_cons_of_mem _ hv)) (Nat.lt_of_succ_lt_succ hfuel)
      rw [List.foldr_cons, text_pair, readNext]
      refine Reads.orElse_of_fails (fun rest => rfl) ?_
      refine (reads_exactly ['[']).andThen ?_
      refine (h value (List.mem_cons_self ..)).andThen ?_
      refine (reads_exactly [',', ' ']).andThen ?_
      refine hrest.andThen ?_
      exact (reads_exactly [']']).andThen_succeed

theorem length_lt_text : values.length < (text floatToString
    (values.foldr (fun value next => .record [print value, next]) .nil)).length := by
  induction values with
  | nil =>
    rw [List.foldr_nil, text_nil]
    exact Nat.zero_lt_succ _
  | cons value values ih =>
    rw [List.foldr_cons, text_pair]
    simp only [List.length_append, List.length_cons]
    omega

theorem readList_text (h : ∀ value ∈ values, Reads item value (text floatToString (print value))) :
    Reads (readList item) values
      (text floatToString (values.foldr (fun value next => .record [print value, next]) .nil)) := by
  intro rest
  refine readNext_text floatToString h ?_ rest
  rw [List.length_append]
  exact Nat.lt_add_right _ (length_lt_text floatToString)

end

theorem readOperation_text {operation : Souffle.Operation} (h : UnescapedOperation operation) :
    Reads readOperation operation (text floatToString (operationRecord operation)) := by
  have htext : text floatToString (operationRecord operation) =
      ['['] ++ (text floatToString (.symbol operation.actor) ++ ([',', ' '] ++
      (text floatToString (.symbol operation.operator) ++ ([',', ' '] ++
      (text floatToString (symbolList operation.resultList) ++ ([',', ' '] ++
      (text floatToString (symbolList operation.operandList) ++ ([',', ' '] ++
      (text floatToString (attributeList operation.attributes) ++ [']']))))))))) := by
    simp only [text, operationRecord, Ir.Datalog.Value.toDatalogString, strJoin, strJoinRest,
      String.toList_append, List.append_assoc]
    rfl
  rw [htext]
  refine (reads_exactly ['[']).andThen ?_
  refine (readSymbol_text floatToString h.actor).andThen ?_
  refine (reads_exactly [',', ' ']).andThen ?_
  refine (readSymbol_text floatToString h.operator).andThen ?_
  refine (reads_exactly [',', ' ']).andThen ?_
  refine (readList_text floatToString fun name hname =>
    readSymbol_text floatToString (h.results name hname)).andThen ?_
  refine (reads_exactly [',', ' ']).andThen ?_
  refine (readList_text floatToString fun name hname =>
    readSymbol_text floatToString (h.operands name hname)).andThen ?_
  refine (reads_exactly [',', ' ']).andThen ?_
  refine (readList_text floatToString fun attr hattr =>
    readAttribute_text floatToString (h.attributes attr hattr)).andThen ?_
  exact (reads_exactly [']']).andThen_succeed

end

theorem toDatalogFactsFileString_isOperationFact (floatToString : BitVec 64 → String)
    (operation : Souffle.Operation) :
    toDatalogFactsFileString floatToString (isOperationFact operation) =
      (operationRecord operation).toDatalogString floatToString := by
  rw [toDatalogFactsFileString, isOperationFact, List.map_singleton, String.intercalate_singleton]

/-- Every line of the file begins behind a line break, if there is one in front of the file. -/
theorem lineBreak_dumpFacts (floatToString : BitVec 64 → String) (operation : Souffle.Operation)
    (operations : List Souffle.Operation) :
    '\n' :: (dumpFacts floatToString (operation :: operations)).toList =
      (operation :: operations).flatMap fun operation =>
        '\n' :: text floatToString (operationRecord operation) := by
  induction operations generalizing operation with
  | nil =>
    rw [dumpFacts, writeFactsToFile, List.map_singleton, List.map_singleton,
      String.intercalate_singleton, toDatalogFactsFileString_isOperationFact,
      List.flatMap_singleton, text]
  | cons next operations ih =>
    have hrest := ih next
    rw [dumpFacts, writeFactsToFile] at hrest ⊢
    rw [List.map_cons, List.map_cons, List.map_cons, List.map_cons, String.intercalate_cons_cons,
      toDatalogFactsFileString_isOperationFact, String.toList_append, String.toList_append,
      List.flatMap_cons, ← hrest]
    simp [text]

/-- A file of operations that need no escapes is read back. -/
theorem readFacts_dumpFacts (floatToString : BitVec 64 → String)
    {operations : List Souffle.Operation}
    (h : ∀ operation ∈ operations, UnescapedOperation operation) :
    readFacts (dumpFacts floatToString operations) = operations.toFinset := by
  cases operations with
  | nil => rfl
  | cons operation operations =>
    have hitem : ∀ op ∈ operation :: operations,
        Reads (andThen (exactly ['\n']) fun _ => readOperation) op
          ('\n' :: text floatToString (operationRecord op)) := fun op hop =>
      (reads_exactly ['\n']).andThen (readOperation_text floatToString (h op hop))
    have hlines := many_reads (· == '\n') _ _ _ hitem (fun op _ => ⟨_, _, rfl, rfl⟩) []
      (Nat.lt_add_one _) (stops_nil _)
    rw [List.append_nil, ← lineBreak_dumpFacts] at hlines
    rw [readFacts, readLines, hlines]

end Raksha.PolicyEngine
