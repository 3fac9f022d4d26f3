import Raksha.Ir.Datalog
import Raksha.Lib.Lexing
import Raksha.Lib.UniqueReading

/-!
# The text of Datalog values

A value can be told from its text when there are no floats in it and no double quotes in its
symbols: a number ends where no digit goes on, and everything else ends with its own last symbol.
-/

namespace Raksha.Ir.Datalog
open Raksha.Lib.UniqueReading Raksha.Lib.Lexing

/-! ### Values with a unique text -/

mutual

/-- No floats, no double quotes in symbols, no parentheses in the names of branches. -/
def Value.Plain : Value → Prop
  | .float _ => False
  | .number _ => True
  | .symbol value => '"' ∉ value.toList
  | .nil => True
  | .record arguments => PlainAll arguments
  | .adt branchName arguments => '(' ∉ branchName.toList ∧ PlainAll arguments

def PlainAll : List Value → Prop
  | [] => True
  | value :: values => value.Plain ∧ PlainAll values

end

theorem plainAll_iff (values : List Value) : PlainAll values ↔ ∀ value ∈ values, value.Plain := by
  induction values with
  | nil => simp [PlainAll]
  | cons value values ih => rw [PlainAll, ih, List.forall_mem_cons]

variable (floatToString : BitVec 64 → String)

def text (value : Value) : List Char := (value.toDatalogString floatToString).toList

theorem strJoinRest_behind (values : List Value) (closing : Char) :
    (strJoinRest floatToString values).toList ++ [closing] =
      behind (text floatToString) [',', ' '] closing values := by
  induction values with
  | nil => rfl
  | cons value values ih =>
    have hbehind : behind (text floatToString) [',', ' '] closing (value :: values) =
        [',', ' '] ++ (text floatToString value ++ behind (text floatToString) [',', ' '] closing
          values) := congrArg ([',', ' '] ++ ·) (closedList_cons value values)
    rw [strJoinRest, String.toList_append, String.toList_append, List.append_assoc,
      List.append_assoc, ih, hbehind]
    rfl

theorem strJoin_closed (values : List Value) (closing : Char) :
    (strJoin floatToString values).toList ++ [closing] =
      closedList (text floatToString) [',', ' '] closing values := by
  cases values with
  | nil => rfl
  | cons value values =>
    rw [strJoin, String.toList_append, List.append_assoc, strJoinRest_behind, closedList_cons]
    rfl

theorem text_record (arguments : List Value) : text floatToString (.record arguments) =
    '[' :: closedList (text floatToString) [',', ' '] ']' arguments := by
  rw [← strJoin_closed, text, Value.toDatalogString, String.toList_append, String.toList_append]
  rfl

theorem text_adt (branchName : String) (arguments : List Value) :
    text floatToString (.adt branchName arguments) = '$' :: (branchName.toList ++
      '(' :: closedList (text floatToString) [',', ' '] ')' arguments) := by
  rw [← strJoin_closed, text, Value.toDatalogString, String.toList_append, String.toList_append,
    String.toList_append, String.toList_append, List.append_assoc, List.append_assoc,
    List.append_assoc]
  rfl

theorem text_nil : text floatToString .nil = ['n', 'i', 'l'] := by
  rw [text, Value.toDatalogString]
  rfl

theorem text_symbol (value : String) :
    text floatToString (.symbol value) = '"' :: (value.toList ++ ['"']) := by
  rw [text, Value.toDatalogString, String.toList_append, String.toList_append]
  rfl

/-! ### Numbers -/

/-- A number ends where no digit follows. -/
def EndsNumber (rest : List Char) : Prop := Stops Char.isDigit rest

theorem natText_unique {n n' : ℕ} {s s' : List Char} (hs : EndsNumber s) (hs' : EndsNumber s')
    (h : (toString n).toList ++ s = (toString n').toList ++ s') : n' = n ∧ s' = s := by
  have hlength : (toString n).toList.length = (toString n').toList.length := by
    rw [← span_append (fun c hc => isDigit_of_mem_toString hc) hs,
      ← span_append (fun c hc => isDigit_of_mem_toString hc) hs', h]
  obtain ⟨hdigits, hrest⟩ := List.append_inj h hlength
  refine ⟨?_, hrest.symm⟩
  rw [← ofDigitChars_toString n', ← hdigits, ofDigitChars_toString]

theorem natText_cons (n : ℕ) :
    ∃ c digits, (toString n).toList = c :: digits ∧ c.isDigit = true := by
  obtain ⟨c, digits, hlist⟩ := exists_cons_toString n
  exact ⟨c, digits, hlist, isDigit_of_mem_toString (hlist ▸ List.mem_cons_self ..)⟩

theorem text_negSucc (n : ℕ) :
    text floatToString (.number (.negSucc n)) = '-' :: (toString (n + 1)).toList := by
  have htext : text floatToString (.number (.negSucc n)) = ("-" ++ toString (n + 1)).toList := rfl
  rw [htext, String.toList_append]
  rfl

/-! ### First symbols -/

inductive Kind
  | number
  | symbol
  | nil
  | record
  | adt
deriving DecidableEq

def kindOf (c : Char) : Kind :=
  if c.isDigit || c == '-' then .number
  else if c == '"' then .symbol
  else if c == '[' then .record
  else if c == '$' then .adt
  else .nil

def Value.kind : Value → Kind
  | .float _ => .number
  | .number _ => .number
  | .symbol _ => .symbol
  | .nil => .nil
  | .record _ => .record
  | .adt _ _ => .adt

theorem text_begins {value : Value} (h : value.Plain) :
    ∃ c rest, text floatToString value = c :: rest ∧ kindOf c = value.kind ∧ c ≠ ']' ∧ c ≠ ')' := by
  cases value with
  | float value => exact h.elim
  | number value =>
    cases value with
    | ofNat n =>
      obtain ⟨c, digits, hlist, hdigit⟩ := natText_cons n
      refine ⟨c, digits, hlist, ?_, ?_, ?_⟩
      · rw [kindOf, hdigit]
        rfl
      · rintro rfl
        cases hdigit
      · rintro rfl
        cases hdigit
    | negSucc n => exact ⟨'-', _, text_negSucc floatToString n, rfl, by decide, by decide⟩
  | symbol value => exact ⟨'"', _, text_symbol floatToString value, rfl, by decide, by decide⟩
  | nil => exact ⟨'n', ['i', 'l'], text_nil floatToString, rfl, by decide, by decide⟩
  | record arguments => exact ⟨'[', _, text_record floatToString arguments, rfl, by decide, by decide⟩
  | adt branchName arguments =>
    exact ⟨'$', _, text_adt floatToString branchName arguments, rfl, by decide, by decide⟩

theorem kind_eq {value value' : Value} (h : value.Plain) (h' : value'.Plain) {s s' : List Char}
    (heq : text floatToString value ++ s = text floatToString value' ++ s') :
    value'.kind = value.kind := by
  obtain ⟨c, rest, htext, hkind, -⟩ := text_begins floatToString h
  obtain ⟨c', rest', htext', hkind', -⟩ := text_begins floatToString h'
  rw [htext, htext', List.cons_append, List.cons_append] at heq
  rw [← hkind, ← hkind', (List.cons.inj heq).1]

/-! ### Unique reading -/

abbrev Reads (value : Value) : Prop :=
  ReadsAs Value.Plain (text floatToString) EndsNumber value

theorem reads_number (value : ℤ) : Reads floatToString (.number value) := by
  intro value' s s' hplain hs hs' heq
  have hself : (Value.number value).Plain := trivial
  have hkind := kind_eq floatToString hself hplain heq
  cases value' <;> cases hkind
  · exact hplain.elim
  next value' =>
  have hminus : ∀ (n : ℕ) s s', (toString n).toList ++ s ≠ '-' :: s' := by
    intro n s s' heq
    obtain ⟨c, digits, hlist, hdigit⟩ := natText_cons n
    rw [hlist, List.cons_append] at heq
    rw [(List.cons.inj heq).1] at hdigit
    cases hdigit
  cases value with
  | ofNat n =>
    cases value' with
    | ofNat n' =>
      obtain ⟨rfl, hrest⟩ := natText_unique hs hs' heq
      exact ⟨rfl, hrest⟩
    | negSucc n' =>
      rw [text_negSucc] at heq
      exact absurd heq (hminus n _ _)
  | negSucc n =>
    cases value' with
    | ofNat n' =>
      rw [text_negSucc] at heq
      exact absurd heq.symm (hminus n' _ _)
    | negSucc n' =>
      rw [text_negSucc, text_negSucc] at heq
      obtain ⟨hvalue, hrest⟩ := natText_unique hs hs' (List.cons.inj heq).2
      cases hvalue
      exact ⟨rfl, hrest⟩

theorem append_cons_unique {c : Char} {l l' s s' : List Char} (hl : c ∉ l) (hl' : c ∉ l')
    (h : l ++ c :: s = l' ++ c :: s') : l = l' ∧ s = s' := by
  have hlength : ∀ {l s : List Char}, c ∉ l →
      span (fun d => decide (d ≠ c)) (l ++ c :: s) = l.length := by
    intro l s hl
    refine span_append ?_ (stops_cons s (by simp))
    intro d hd
    refine decide_eq_true ?_
    rintro rfl
    exact hl hd
  have hsame : l.length = l'.length := by
    rw [← hlength (s := s) hl, ← hlength (s := s') hl', h]
  obtain ⟨hlist, hrest⟩ := List.append_inj h hsame
  exact ⟨hlist, (List.cons.inj hrest).2⟩

theorem reads_symbol {value : String} (h : (Value.symbol value).Plain) :
    Reads floatToString (.symbol value) := by
  intro value' s s' hplain _ _ heq
  have hkind := kind_eq floatToString h hplain heq
  cases value' <;> cases hkind
  next value' =>
  rw [text_symbol, text_symbol, List.cons_append, List.cons_append, List.append_assoc,
    List.append_assoc] at heq
  obtain ⟨hvalue, hrest⟩ := append_cons_unique h hplain (List.cons.inj heq).2
  exact ⟨by rw [String.toList_injective hvalue], hrest.symm⟩

theorem reads_nil : Reads floatToString .nil := by
  intro value' s s' hplain _ _ heq
  have hself : Value.nil.Plain := trivial
  have hkind := kind_eq floatToString hself hplain heq
  cases value' <;> cases hkind
  exact ⟨rfl, (List.append_cancel_left heq).symm⟩

theorem reads_arguments {arguments : List Value} {closing : Char} (hdigit : closing.isDigit = false)
    (hclosing : closing = ']' ∨ closing = ')') (hplain : ∀ value ∈ arguments, value.Plain)
    (h : ∀ value ∈ arguments, Reads floatToString value) :
    ReadsAs (fun l => ∀ value ∈ l, Value.Plain value)
      (closedList (text floatToString) [',', ' '] closing) (fun _ => True) arguments := by
  refine readsAs_closedList (fun s => stops_cons s hdigit) (fun s => stops_cons _ rfl) ?_ ?_ hplain h
  · intro value hvalue s s' heq
    obtain ⟨c, rest, htext, -, hbracket, hparen⟩ := text_begins floatToString hvalue
    rw [htext, List.cons_append] at heq
    have hc := (List.cons.inj heq).1
    rcases hclosing with rfl | rfl
    · exact hbracket hc
    · exact hparen hc
  · intro s s' heq
    have hc := (List.cons.inj heq).1
    rcases hclosing with rfl | rfl <;> cases hc

theorem reads_record {arguments : List Value} (hplain : ∀ value ∈ arguments, value.Plain)
    (h : ∀ value ∈ arguments, Reads floatToString value) :
    Reads floatToString (.record arguments) := by
  intro value' s s' hplain' _ _ heq
  have hself : (Value.record arguments).Plain := (plainAll_iff arguments).mpr hplain
  have hkind := kind_eq floatToString hself hplain' heq
  cases value' <;> cases hkind
  next arguments' =>
  rw [text_record, text_record] at heq
  obtain ⟨rfl, hrest⟩ := reads_arguments floatToString rfl (.inl rfl) hplain h arguments' s s'
    ((plainAll_iff _).mp hplain') trivial trivial (List.cons.inj heq).2
  exact ⟨rfl, hrest⟩

theorem reads_adt {branchName : String} {arguments : List Value} (hname : '(' ∉ branchName.toList)
    (hplain : ∀ value ∈ arguments, value.Plain)
    (h : ∀ value ∈ arguments, Reads floatToString value) :
    Reads floatToString (.adt branchName arguments) := by
  intro value' s s' hplain' _ _ heq
  have hself : (Value.adt branchName arguments).Plain := ⟨hname, (plainAll_iff arguments).mpr hplain⟩
  have hkind := kind_eq floatToString hself hplain' heq
  cases value' <;> cases hkind
  next branchName' arguments' =>
  rw [text_adt, text_adt, List.cons_append, List.cons_append, List.append_assoc,
    List.append_assoc] at heq
  obtain ⟨hbranch, hbehind⟩ := append_cons_unique hname hplain'.1 (List.cons.inj heq).2
  obtain ⟨rfl, hrest⟩ := reads_arguments floatToString rfl (.inr rfl) hplain h arguments' s s'
    ((plainAll_iff _).mp hplain'.2) trivial trivial hbehind
  exact ⟨by rw [String.toList_injective hbranch], hrest⟩

mutual

theorem reads_of_plain : ∀ value : Value, value.Plain → Reads floatToString value
  | .float _, h => h.elim
  | .number value, _ => reads_number floatToString value
  | .symbol _, h => reads_symbol floatToString h
  | .nil, _ => reads_nil floatToString
  | .record arguments, h => reads_record floatToString ((plainAll_iff arguments).mp h)
      (reads_of_plainAll arguments h)
  | .adt _ arguments, h => reads_adt floatToString h.1 ((plainAll_iff arguments).mp h.2)
      (reads_of_plainAll arguments h.2)

theorem reads_of_plainAll : ∀ values : List Value, PlainAll values →
    ∀ value ∈ values, Reads floatToString value
  | [], _ => fun _ hvalue => absurd hvalue List.not_mem_nil
  | first :: values, h => List.forall_mem_cons.mpr
      ⟨reads_of_plain first h.1, reads_of_plainAll values h.2⟩

end

theorem toDatalogString_injective_of_plain {value value' : Value} (h : value.Plain)
    (h' : value'.Plain)
    (heq : value.toDatalogString floatToString = value'.toDatalogString floatToString) :
    value = value' := by
  have htext : text floatToString value ++ [] = text floatToString value' ++ [] := by
    rw [text, text, heq]
  exact (reads_of_plain floatToString value h value' [] [] h' (stops_nil _) (stops_nil _) htext).1.symm

/-! ### Operations -/

/-- No floats in the payloads, no double quotes in the symbols. -/
def PlainPayload : Souffle.AttributePayload → Prop
  | .stringAttributePayload str => '"' ∉ str.toList
  | .numberAttributePayload _ => True
  | .floatAttributePayload _ => False

instance : DecidablePred PlainPayload := fun payload =>
  match payload with
  | .stringAttributePayload str => inferInstanceAs (Decidable ('"' ∉ str.toList))
  | .numberAttributePayload _ => .isTrue trivial
  | .floatAttributePayload _ => .isFalse not_false

structure PlainOperation (operation : Souffle.Operation) : Prop where
  actor : '"' ∉ operation.actor.toList
  operator : '"' ∉ operation.operator.toList
  results : ∀ symbol ∈ operation.resultList, '"' ∉ symbol.toList
  operands : ∀ symbol ∈ operation.operandList, '"' ∉ symbol.toList
  attributes : ∀ attr ∈ operation.attributes, '"' ∉ attr.attrName.toList ∧
    PlainPayload attr.attrPayload

theorem symbolList_plain {symbols : List String} (h : ∀ symbol ∈ symbols, '"' ∉ symbol.toList) :
    (symbolList symbols).Plain := by
  induction symbols with
  | nil => trivial
  | cons symbol symbols ih =>
    obtain ⟨hsymbol, hsymbols⟩ := List.forall_mem_cons.mp h
    exact ⟨hsymbol, ih hsymbols, trivial⟩

theorem symbolList_injective {symbols symbols' : List String}
    (h : symbolList symbols = symbolList symbols') : symbols = symbols' := by
  induction symbols generalizing symbols' with
  | nil =>
    cases symbols' with
    | nil => rfl
    | cons symbol' symbols' => cases h
  | cons symbol symbols ih =>
    cases symbols' with
    | nil => cases h
    | cons symbol' symbols' =>
      simp only [symbolList, List.foldr_cons, Value.record.injEq, List.cons.injEq,
        Value.symbol.injEq, and_true] at h
      rw [h.1, ih h.2]

theorem attributePayload_plain {payload : Souffle.AttributePayload} (h : PlainPayload payload) :
    (attributePayload payload).Plain := by
  cases payload with
  | stringAttributePayload str => exact ⟨by decide, h, trivial⟩
  | numberAttributePayload num => exact ⟨by decide, trivial, trivial⟩
  | floatAttributePayload bits => exact h.elim

theorem attributePayload_injective : Function.Injective attributePayload := by
  intro payload payload' h
  cases payload <;> cases payload' <;> simp_all [attributePayload]

theorem attributeList_plain {attributes : List Souffle.Attribute}
    (h : ∀ attr ∈ attributes, '"' ∉ attr.attrName.toList ∧ PlainPayload attr.attrPayload) :
    (attributeList attributes).Plain := by
  induction attributes with
  | nil => trivial
  | cons attr attributes ih =>
    obtain ⟨⟨hname, hpayload⟩, hattributes⟩ := List.forall_mem_cons.mp h
    exact ⟨⟨hname, attributePayload_plain hpayload, trivial⟩, ih hattributes, trivial⟩

theorem attributeList_injective {attributes attributes' : List Souffle.Attribute}
    (h : attributeList attributes = attributeList attributes') : attributes = attributes' := by
  induction attributes generalizing attributes' with
  | nil =>
    cases attributes' with
    | nil => rfl
    | cons attr' attributes' => cases h
  | cons attr attributes ih =>
    cases attributes' with
    | nil => cases h
    | cons attr' attributes' =>
      simp only [attributeList, attributeRecord, List.foldr_cons, Value.record.injEq,
        List.cons.injEq, Value.symbol.injEq, and_true] at h
      obtain ⟨⟨hname, hpayload⟩, hrest⟩ := h
      have hattr : attr = attr' := by
        cases attr
        cases attr'
        rw [Souffle.Attribute.mk.injEq]
        exact ⟨hname, attributePayload_injective hpayload⟩
      rw [hattr, ih hrest]

theorem PlainOperation.plain {operation : Souffle.Operation} (h : PlainOperation operation) :
    (operationRecord operation).Plain :=
  ⟨h.actor, h.operator, symbolList_plain h.results, symbolList_plain h.operands,
    attributeList_plain h.attributes, trivial⟩

theorem operationRecord_injective : Function.Injective operationRecord := by
  rintro ⟨actor, operator, results, operands, attributes⟩
    ⟨actor', operator', results', operands', attributes'⟩ h
  simp only [operationRecord, Value.record.injEq, List.cons.injEq, Value.symbol.injEq,
    and_true] at h
  obtain ⟨rfl, rfl, hresults, hoperands, hattributes⟩ := h
  rw [symbolList_injective hresults, symbolList_injective hoperands,
    attributeList_injective hattributes]

/-- The text of an operation determines it. -/
theorem toDatalogString_inj (floatToString : BitVec 64 → String)
    {operation operation' : Souffle.Operation} (h : PlainOperation operation)
    (h' : PlainOperation operation')
    (heq : toDatalogString floatToString operation = toDatalogString floatToString operation') :
    operation = operation' :=
  operationRecord_injective (toDatalogString_injective_of_plain floatToString h.plain h'.plain heq)

/-- Symbols may look like other parts of the text. -/
def trickyOperation : Souffle.Operation where
  actor := "sql"
  operator := "$f(nil, ["
  resultList := ["%0", "%1, nil]"]
  operandList := []
  attributes := [⟨"n", .numberAttributePayload (-5)⟩, ⟨"nil", .stringAttributePayload "5)]"⟩]

example : toDatalogString (fun _ => "") trickyOperation =
    "[\"sql\", \"$f(nil, [\", [\"%0\", [\"%1, nil]\", nil]], nil, [[\"n\", " ++
    "$NumberAttributePayload(-5)], [[\"nil\", $StringAttributePayload(\"5)]\")], nil]]]" := by
  decide +kernel

theorem trickyOperation_eq : { trickyOperation with operator := "$f" ++ "(nil, [" } =
    trickyOperation :=
  toDatalogString_inj (fun _ => "") ⟨by decide, by decide, by decide, by decide, by decide⟩
    ⟨by decide, by decide, by decide, by decide, by decide⟩ (by decide +kernel)

end Raksha.Ir.Datalog
