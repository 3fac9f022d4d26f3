import Mathlib.Data.Finset.Basic
import Mathlib.Data.List.Infix
import Mathlib.Tactic

/-!
# Operations as Datalog records

The records of `operations.dl` and `attributes.dl` (`ir/datalog/operation.h`), and the relations
that take a record apart. A Souffle list is a record of a head and a tail that ends in `nil`.
-/

namespace Raksha.Souffle

/-- Souffle's `symbol`. Principals, operators, access paths and tags are subtypes of it. -/
abbrev Symbol : Type := String
abbrev Principal : Type := Symbol
abbrev Operator : Type := Symbol
abbrev AccessPath : Type := Symbol
abbrev Tag : Type := Symbol
abbrev IntegrityTag : Type := Symbol

/-- The payloads that the lowering emits. `attributes.dl` declares no branch for floats, and no
rule reads one. -/
inductive AttributePayload
  | stringAttributePayload (str : Symbol)
  | numberAttributePayload (num : ℤ)
  | floatAttributePayload (bits : BitVec 64)
deriving DecidableEq

structure Attribute where
  attrName : Symbol
  attrPayload : AttributePayload
deriving DecidableEq

structure Operation where
  actor : Principal
  operator : Operator
  resultList : List AccessPath
  operandList : List AccessPath
  attributes : List Attribute := []
deriving DecidableEq

/-! ### Lists

The rules take the suffixes of a list one by one and count the length of each suffix. -/

section

variable {α : Type}

/-- The closure of a relation between owners and lists under tails. -/
inductive HasSuffix {Owner : Type} (hasList : Owner → List α → Prop) : Owner → List α → Prop
  | list {o : Owner} {l : List α} : hasList o l → HasSuffix hasList o l
  | tail {o : Owner} {head : α} {tail : List α} : HasSuffix hasList o (head :: tail) →
      HasSuffix hasList o tail

/-- The length of the lists that are a suffix for some owner. -/
inductive ListLength {Owner : Type} (suffix : Owner → List α → Prop) : List α → ℤ → Prop
  | nil : ListLength suffix [] 0
  | cons {o : Owner} {head : α} {tail : List α} {tailLen : ℤ} : suffix o (head :: tail) →
      ListLength suffix tail tailLen → ListLength suffix (head :: tail) (tailLen + 1)

variable {Owner : Type} {hasList : Owner → List α → Prop}

theorem hasSuffix_iff (o : Owner) (s : List α) :
    HasSuffix hasList o s ↔ ∃ l, hasList o l ∧ s <:+ l := by
  constructor
  · intro h
    induction h with
    | list h => exact ⟨_, h, List.suffix_rfl⟩
    | tail _ ih =>
      obtain ⟨l, hl, hsuffix⟩ := ih
      exact ⟨l, hl, (List.suffix_cons _ _).trans hsuffix⟩
  · rintro ⟨l, hl, before, rfl⟩
    have hdrop : ∀ before rest, HasSuffix hasList o (before ++ rest) →
        HasSuffix hasList o rest := by
      intro before rest
      induction before with
      | nil => exact fun h => h
      | cons x before ih => exact fun h => ih h.tail
    exact hdrop before s (.list hl)

theorem ListLength.eq_length {l : List α} {n : ℤ} (h : ListLength (HasSuffix hasList) l n) :
    n = l.length := by
  induction h with
  | nil => rfl
  | cons _ _ ih => simp [ih]

theorem listLength_of_suffix {o : Owner} {l : List α} (h : HasSuffix hasList o l) :
    ListLength (HasSuffix hasList) l l.length := by
  induction l with
  | nil => exact .nil
  | cons head tail ih =>
    have hcons := ListLength.cons h (ih h.tail)
    rw [List.length_cons, Nat.cast_add, Nat.cast_one]
    exact hcons

/-- A head of a suffix stands at the index that its length leaves. -/
theorem getElem?_of_suffix {l tail : List α} {x : α} (h : x :: tail <:+ l) :
    l[l.length - (x :: tail).length]? = some x ∧ (x :: tail).length ≤ l.length := by
  obtain ⟨before, rfl⟩ := h
  have hlen : (before ++ x :: tail).length - (x :: tail).length = before.length := by
    rw [List.length_append]
    omega
  rw [hlen]
  exact ⟨by simp, by simp⟩

theorem suffix_of_getElem? {l : List α} {x : α} {i : ℕ} (h : l[i]? = some x) :
    x :: l.drop (i + 1) <:+ l ∧ l.length - (x :: l.drop (i + 1)).length = i := by
  obtain ⟨hi, rfl⟩ := List.getElem?_eq_some_iff.mp h
  refine ⟨?_, ?_⟩
  · rw [List.getElem_cons_drop]
    exact List.drop_suffix i l
  · simp only [List.length_cons, List.length_drop]
    omega

end

/-! ### The relations of `operations.dl` -/

section

variable (isOperation : Finset Operation)

def OperationHasResultList (op : Operation) (results : List AccessPath) : Prop :=
  op ∈ isOperation ∧ op.resultList = results

def OperationHasActor (op : Operation) (actor : Principal) : Prop :=
  op ∈ isOperation ∧ op.actor = actor

def OperationHasOperator (op : Operation) (operator : Operator) : Prop :=
  op ∈ isOperation ∧ op.operator = operator

def OperationHasOperandList (op : Operation) (operands : List AccessPath) : Prop :=
  op ∈ isOperation ∧ op.operandList = operands

def OperationHasAttributeList (op : Operation) (attributes : List Attribute) : Prop :=
  op ∈ isOperation ∧ op.attributes = attributes

abbrev OperationHasResultListSuffix : Operation → List AccessPath → Prop :=
  HasSuffix (OperationHasResultList isOperation)

def OperationHasResult (op : Operation) (result : AccessPath) : Prop :=
  ∃ tail, OperationHasResultListSuffix isOperation op (result :: tail)

abbrev OperationHasOperandListSuffix : Operation → List AccessPath → Prop :=
  HasSuffix (OperationHasOperandList isOperation)

abbrev OperandListLength : List AccessPath → ℤ → Prop :=
  ListLength (OperationHasOperandListSuffix isOperation)

def OperationOperandListLength (op : Operation) (len : ℤ) : Prop :=
  op ∈ isOperation ∧ ∃ operands, OperationHasOperandList isOperation op operands ∧
    OperandListLength isOperation operands len

def OperationHasOperandAtIndex (op : Operation) (operand : AccessPath) (index : ℤ) : Prop :=
  ∃ tail suffixListLen opListLen,
    OperationHasOperandListSuffix isOperation op (operand :: tail) ∧
    OperandListLength isOperation (operand :: tail) suffixListLen ∧
    OperationOperandListLength isOperation op opListLen ∧ index = opListLen - suffixListLen

def OperationHasOperand (op : Operation) (operand : AccessPath) : Prop :=
  ∃ index, OperationHasOperandAtIndex isOperation op operand index

abbrev OperationHasAttributeListSuffix : Operation → List Attribute → Prop :=
  HasSuffix (OperationHasAttributeList isOperation)

def OperationHasAttribute (op : Operation) (attr : Attribute) : Prop :=
  ∃ tail, OperationHasAttributeListSuffix isOperation op (attr :: tail)

variable {isOperation}

theorem exists_cons_suffix_iff {α : Type} (l : List α) (x : α) :
    (∃ tail, x :: tail <:+ l) ↔ x ∈ l := by
  constructor
  · rintro ⟨tail, h⟩
    exact h.subset (List.mem_cons_self ..)
  · intro h
    obtain ⟨before, tail, rfl⟩ := List.append_of_mem h
    exact ⟨tail, before, rfl⟩

@[simp] theorem operationHasResult_iff (op : Operation) (result : AccessPath) :
    OperationHasResult isOperation op result ↔ op ∈ isOperation ∧ result ∈ op.resultList := by
  simp only [OperationHasResult, OperationHasResultListSuffix, hasSuffix_iff,
    OperationHasResultList, ← exists_cons_suffix_iff op.resultList]
  constructor
  · rintro ⟨tail, l, ⟨hop, rfl⟩, hsuffix⟩
    exact ⟨hop, tail, hsuffix⟩
  · rintro ⟨hop, tail, hsuffix⟩
    exact ⟨tail, _, ⟨hop, rfl⟩, hsuffix⟩

@[simp] theorem operationHasAttribute_iff (op : Operation) (attr : Attribute) :
    OperationHasAttribute isOperation op attr ↔ op ∈ isOperation ∧ attr ∈ op.attributes := by
  simp only [OperationHasAttribute, OperationHasAttributeListSuffix, hasSuffix_iff,
    OperationHasAttributeList, ← exists_cons_suffix_iff op.attributes]
  constructor
  · rintro ⟨tail, l, ⟨hop, rfl⟩, hsuffix⟩
    exact ⟨hop, tail, hsuffix⟩
  · rintro ⟨hop, tail, hsuffix⟩
    exact ⟨tail, _, ⟨hop, rfl⟩, hsuffix⟩

theorem operationOperandListLength_iff (op : Operation) (len : ℤ) :
    OperationOperandListLength isOperation op len ↔
      op ∈ isOperation ∧ len = op.operandList.length := by
  constructor
  · rintro ⟨hop, operands, ⟨-, rfl⟩, hlen⟩
    exact ⟨hop, hlen.eq_length⟩
  · rintro ⟨hop, rfl⟩
    exact ⟨hop, _, ⟨hop, rfl⟩, listLength_of_suffix (o := op) (.list ⟨hop, rfl⟩)⟩

@[simp] theorem operationHasOperandAtIndex_iff (op : Operation) (operand : AccessPath)
    (index : ℤ) : OperationHasOperandAtIndex isOperation op operand index ↔
      op ∈ isOperation ∧ ∃ i : ℕ, index = i ∧ op.operandList[i]? = some operand := by
  constructor
  · rintro ⟨tail, suffixLen, opLen, hsuffix, hsuffixLen, hopLen, rfl⟩
    obtain ⟨hop, rfl⟩ := (operationOperandListLength_iff op opLen).mp hopLen
    obtain ⟨l, ⟨-, rfl⟩, hsuffix⟩ := (hasSuffix_iff op _).mp hsuffix
    obtain ⟨hget, hle⟩ := getElem?_of_suffix hsuffix
    refine ⟨hop, _, ?_, hget⟩
    rw [hsuffixLen.eq_length]
    omega
  · rintro ⟨hop, i, rfl, hget⟩
    obtain ⟨hsuffix, hindex⟩ := suffix_of_getElem? hget
    have hhas : OperationHasOperandListSuffix isOperation op
        (operand :: op.operandList.drop (i + 1)) :=
      (hasSuffix_iff op _).mpr ⟨_, ⟨hop, rfl⟩, hsuffix⟩
    refine ⟨_, _, _, hhas, listLength_of_suffix hhas,
      (operationOperandListLength_iff op _).mpr ⟨hop, rfl⟩, ?_⟩
    have hle := hsuffix.length_le
    omega

theorem operationHasOperand_iff (op : Operation) (operand : AccessPath) :
    OperationHasOperand isOperation op operand ↔
      op ∈ isOperation ∧ operand ∈ op.operandList := by
  simp only [OperationHasOperand, operationHasOperandAtIndex_iff, List.mem_iff_getElem?]
  constructor
  · rintro ⟨index, hop, i, -, hget⟩
    exact ⟨hop, i, hget⟩
  · rintro ⟨hop, i, hget⟩
    exact ⟨i, hop, i, rfl, hget⟩

end

end Raksha.Souffle
