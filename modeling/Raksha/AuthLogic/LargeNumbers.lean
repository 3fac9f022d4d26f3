import Raksha.AuthLogic.UniverseConditions

/-!
# Large numbers

`AuthLogic.g4` has number literals of any length, and the insertion takes those for constants that
fit an `int`. When no relation has the name of a generated one at other types, it keeps the least
model exactly if no assertion derives a larger number.
-/

namespace Raksha.AuthLogic

/-! ### Values -/

/-- What a text stands for: number literals with the same digits up to leading zeros are equal. -/
inductive Constant
  | number (value : ℕ)
  | symbol (text : String)
deriving DecidableEq

def isNumLiteral (text : String) : Bool := !text.toList.isEmpty && text.toList.all Char.isDigit

def constantValue (text : String) : Constant :=
  if isNumLiteral text then .number (Nat.ofDigitChars 10 text.toList 0) else .symbol text

/-- The conditions of some assertion hold, and its head has a number from `2 ^ 31` on. -/
def Program.AssertsLargeNumber (program : Program) (lowered : DatalogProgram) : Prop :=
  ∃ said ∈ program.said, ∃ assignment, Fires constantValue lowered said assignment ∧
    ∃ arg ∈ said.2.lhs.base.args, ∃ n, constantValue arg = .number n ∧ 2 ^ 31 ≤ n

theorem isNumLiteral_iff (text : String) : isNumLiteral text = true ↔ IsNumber text := by
  rw [isNumLiteral, Bool.and_eq_true, Bool.not_eq_true', List.isEmpty_eq_false_iff,
    List.all_eq_true]
  rfl

theorem digit_cases {c : Char} (h : c.isDigit = true) :
    asciiSpaces.contains c = false ∧ c ≠ '-' ∧ c ≠ '+' ∧ c ≠ '"' := by
  rcases Parser.isDigit_cases h with
    rfl | rfl | rfl | rfl | rfl | rfl | rfl | rfl | rfl | rfl <;> decide

/-- A number literal is taken for a constant exactly if it fits an `int`. -/
theorem IsNumber.isNameConstant_iff {text : String} (h : IsNumber text) :
    isNameConstant text = true ↔ Nat.ofDigitChars 10 text.toList 0 < 2 ^ 31 := by
  obtain ⟨hne, hdigits⟩ := h
  have hstrip : stripAsciiWhitespace text.toList = text.toList :=
    stripAsciiWhitespace_eq fun d hd => (digit_cases (hdigits d hd)).1
  obtain ⟨c, rest, htext⟩ := List.exists_cons_of_ne_nil hne
  obtain ⟨-, hminus, hplus, hquote⟩ :=
    digit_cases (hdigits c (by rw [htext]; exact List.mem_cons_self ..))
  have hsign : splitSign text.toList = (false, text.toList) := by
    rw [htext]
    unfold splitSign
    split
    · next heq => exact absurd (List.cons.inj heq).1 hminus
    · next heq => exact absurd (List.cons.inj heq).1 hplus
    · rfl
  have hquoted : ¬ (text.toList.head? = some '"' ∧ text.toList.getLast? = some '"') := by
    rintro ⟨hhead, -⟩
    rw [htext, List.head?_cons, Option.some.injEq] at hhead
    exact hquote hhead
  have hall : text.toList.all Char.isDigit = true := List.all_eq_true.mpr hdigits
  have hempty : text.toList.isEmpty = false := List.isEmpty_eq_false_iff.mpr hne
  rw [isNameConstant, if_neg hquoted, simpleAtoi, hstrip, hsign]
  simp only [hempty, hall, Bool.not_true, Bool.or_self, Bool.false_eq_true, if_false]
  split
  · next hrange =>
    simp only [Option.isSome_some, true_iff]
    omega
  · next hrange =>
    simp only [Option.isSome_none, Bool.false_eq_true, false_iff]
    omega

theorem lt_of_isNameConstant {text : String} (h : isNameConstant text = true) {n : ℕ}
    (hn : constantValue text = .number n) : n < 2 ^ 31 := by
  rw [constantValue] at hn
  split at hn
  · next hliteral =>
    cases hn
    exact (((isNumLiteral_iff text).mp hliteral).isNameConstant_iff).mp h
  · cases hn

theorem large_of_not_isNameConstant {text : String} (h : IsArgument text)
    (hvariable : ¬ IsVariable text) (hconstant : isNameConstant text = false) :
    ∃ n, constantValue text = .number n ∧ 2 ^ 31 ≤ n := by
  rcases h with h | hquoted | hnumber
  · exact absurd h hvariable
  · rw [hquoted.isNameConstant] at hconstant
    cases hconstant
  · refine ⟨Nat.ofDigitChars 10 text.toList 0, ?_, ?_⟩
    · rw [constantValue, if_pos ((isNumLiteral_iff text).mpr hnumber)]
    · refine Nat.le_of_not_lt fun hlt => ?_
      rw [hnumber.isNameConstant_iff.mpr hlt] at hconstant
      cases hconstant

/-! ### The heads of assertions -/

theorem BaseFact.Lexed.isArgument {baseFact : BaseFact} (h : baseFact.Lexed) {arg : String}
    (harg : arg ∈ (baseFactPredicate baseFact).args) : IsArgument arg := by
  cases baseFact with
  | predicate predicate => exact Predicate.Lexed.args h arg harg
  | attr attr =>
    rcases List.mem_cons.mp harg with rfl | harg
    · exact .inr (.inl h.1)
    · exact h.2.args arg harg
  | canActAs canActAs =>
    rcases List.mem_pair.mp harg with rfl | rfl
    · exact .inr (.inl h.1)
    · exact .inr (.inl h.2)

section

variable {program program' : Program} {constants : List (String × ArgumentType)}
  {order order' : List (String × ℕ) → List (String × ℕ)}
  (haccepted : Accepted program program' constants) (hlexed : program.Lexed)
  (hwell : program.WellTyped)

include haccepted in
theorem not_headsInUniverses
    (hlarge : program.AssertsLargeNumber (lower order program)) :
    ¬ program.HeadsInUniverses constantValue (lower order program) := by
  intro hheads
  obtain ⟨said, hsaid, assignment, hfires, arg, harg, n, hn, hle⟩ := hlarge
  have hconstant : isNameConstant arg = false := by
    by_contra hconstant
    exact absurd (lt_of_isNameConstant (Bool.not_eq_false _ ▸ hconstant) hn) (by omega)
  have hvariable : ¬ IsVariable arg := by
    intro hvariable
    rw [constantValue] at hn
    split at hn
    · next hliteral => exact hvariable.not_number ((isNumLiteral_iff arg).mp hliteral)
    · cases hn
  rw [← haccepted.headArgs said hsaid] at harg
  obtain ⟨typing, htyping, rfl⟩ := List.mem_map.mp harg
  obtain ⟨other, -, hother, -, hvalue⟩ :=
    hheads said hsaid assignment hfires typing htyping hconstant _ (.constant hvariable)
  exact absurd (lt_of_isNameConstant hother (hvalue.trans hn)) (by omega)

include haccepted hlexed hwell in
theorem headsInUniverses_of_small (hagree : program.TypesAgree)
    (hsmall : ¬ program.AssertsLargeNumber (lower order program)) :
    program.HeadsInUniverses constantValue (lower order program) := by
  refine headsInUniverses_of_literals haccepted hlexed hwell hagree ?_
  intro said hsaid assignment hfires arg harg
  by_contra hneither
  rw [not_or, Bool.not_eq_true] at hneither
  obtain ⟨n, hn, hle⟩ := large_of_not_isNameConstant
    ((hlexed.said said hsaid).2.lhs.baseFact.isArgument harg) hneither.1 hneither.2
  exact hsmall ⟨said, hsaid, assignment, hfires, arg, harg, n, hn, hle⟩

end

/-! ### The least model -/

/-- The universes keep the least model when the heads are in them. For a program whose relations
have one type each this is exact, and it says that no assertion derives a large number. -/
theorem insertUniverseRelations_sameFacts
    (literalOrder : List (String × ArgumentType) → List (String × ArgumentType))
    (declarationOrder : List RelationDeclaration → List RelationDeclaration)
    (order order' : List (String × ℕ) → List (String × ℕ))
    (horder : ∀ l, (literalOrder l).Perm l) {program program' : Program} (h : program.Derivable)
    (hwell : program.WellTyped)
    (hinsert : insertUniverseRelations literalOrder declarationOrder program = some program') :
    (program.HeadsInUniverses constantValue (lower order program) →
      SameFacts constantValue (lower order program) (lower order' program')) ∧
    (program.TypesAgree →
      (SameFacts constantValue (lower order program) (lower order' program') ↔
        program.HeadsInUniverses constantValue (lower order program)) ∧
      (program.HeadsInUniverses constantValue (lower order program) ↔
        ¬ program.AssertsLargeNumber (lower order program))) := by
  obtain ⟨constants, haccepted⟩ := insertUniverseRelations_accepted horder h.lexed hinsert
  have hsame : program.HeadsInUniverses constantValue (lower order program) →
      SameFacts constantValue (lower order program) (lower order' program') :=
    sameFacts_of_headsInUniverses haccepted h.lexed hwell
  refine ⟨hsame, fun hagree => ⟨⟨?_, hsame⟩, ?_, ?_⟩⟩
  · exact headsInUniverses_of_sameFacts haccepted h.lexed hwell hagree
  · exact fun hheads hlarge => not_headsInUniverses haccepted hlarge hheads
  · exact headsInUniverses_of_small haccepted h.lexed hwell hagree

/-! ### A number and a large one -/

/-- `.decl p(n : Number) "A" says p(x) :- p(x). "A" says p(3).`, for any number. -/
def numberContext (number : String) : ProgramContext where
  statement := .relationDeclaration ⟨false, "p", ("n", .numberType), []⟩
  statements := [
    .saysAssertion (.saysSingle "\"A\"" (.hornClauseAssertion
      (.flatFactFact (.predFact (unaryPredicate "p" "x")))
      (.flatFactRvalue (.predFact (unaryPredicate "p" "x"))) []) none),
    .saysAssertion (.saysSingle "\"A\"" (.factAssertion
      (.flatFactFact (.predFact ⟨false, "p", .number number, []⟩))) none)]

def numberProgram (number : String) : Program := constructProgram (numberContext number)

theorem numberProgram_said (number : String) : (numberProgram number).said =
    [(⟨"\"A\""⟩, .conditional ⟨⟨[], .predicate ⟨"p", ["x"], .positive⟩⟩,
        [.predicate ⟨"p", ["x"], .positive⟩]⟩),
      (⟨"\"A\""⟩, .fact ⟨[], .predicate ⟨"p", [number], .positive⟩⟩)] := rfl

theorem numberProgram_baseFacts (number : String) : (numberProgram number).baseFacts =
    ["x", number, "x"].map fun arg => .predicate ⟨"p", [arg], .positive⟩ := rfl

theorem numberProgram_types {number name : String} {types : List ArgumentType}
    (h : (numberProgram number).Types name types) :
    (name = "p" ∧ types = [.number]) ∨ (name = "canActAs" ∧ types = [.principal, .principal]) := by
  cases h with
  | head hsaid hk =>
    rw [numberProgram_said] at hsaid
    rcases List.mem_pair.mp hsaid with rfl | rfl
    · obtain rfl := Nat.le_zero.mp hk
      exact .inl ⟨rfl, rfl⟩
    · obtain rfl := Nat.le_zero.mp hk
      exact .inl ⟨rfl, rfl⟩
  | condition hsaid hcondition =>
    rw [numberProgram_said] at hsaid
    rcases List.mem_pair.mp hsaid with rfl | rfl
    · rw [List.mem_singleton.mp hcondition]
      exact .inl ⟨rfl, rfl⟩
    · cases hcondition
  | canActAs => exact .inr ⟨rfl, rfl⟩

theorem numberProgram_typesAgree (number : String) : (numberProgram number).TypesAgree := by
  intro name types types' htypes htypes' _
  rcases numberProgram_types htypes with ⟨hname, rfl⟩ | ⟨hname, rfl⟩
  · rcases numberProgram_types htypes' with ⟨-, rfl⟩ | ⟨hname', -⟩
    · rfl
    · exact absurd (hname.symm.trans hname') (by decide)
  · rcases numberProgram_types htypes' with ⟨hname', -⟩ | ⟨-, rfl⟩
    · exact absurd (hname.symm.trans hname') (by decide)
    · rfl

theorem numberProgram_wellTyped {number : String} (h : IsNumber number) :
    (numberProgram number).WellTyped where
  positive := by
    rw [numberProgram_baseFacts]
    intro baseFact hmem
    obtain ⟨arg, -, rfl⟩ := List.mem_map.mp hmem
    rfl
  noComparison := by
    rw [numberProgram_baseFacts]
    rintro baseFact hmem ⟨operator, -, left, right, heq⟩
    obtain ⟨arg, -, rfl⟩ := List.mem_map.mp hmem
    cases heq
  once := List.nodup_singleton _
  used := by
    rw [numberProgram_baseFacts]
    intro baseFact hmem
    obtain ⟨arg, -, rfl⟩ := List.mem_map.mp hmem
    exact ⟨_, List.mem_singleton_self _, rfl, rfl, rfl⟩
  oneType := by
    rw [numberProgram_said]
    intro said hsaid v _ _ argType argType' htyping htyping'
    have htypings : ∀ typing ∈ (numberProgram number).typingsIn said.2,
        typing.2 = .number := by
      rcases List.mem_pair.mp hsaid with rfl | rfl
      · intro typing htyping
        rcases List.mem_pair.mp htyping with rfl | rfl <;> rfl
      · intro typing htyping
        rw [List.mem_singleton.mp htyping]
        rfl
    exact (htypings _ htyping).trans (htypings _ htyping').symm
  bound := by
    rw [numberProgram_said]
    intro said hsaid v hv hvariable
    rcases List.mem_pair.mp hsaid with rfl | rfl
    · rw [List.mem_singleton.mp hv]
      exact ⟨by decide, _, List.mem_singleton_self _, List.mem_singleton_self _⟩
    · rw [List.mem_singleton.mp hv] at hvariable
      exact absurd h hvariable.not_number
  universes := by
    intro declaration hdeclaration huniverse
    rw [List.mem_singleton.mp hdeclaration] at huniverse
    exact absurd (isUniverse_head huniverse) (by decide)

theorem numberProgram_assertsLargeNumber {number : String} (h : IsNumber number)
    (hlarge : 2 ^ 31 ≤ Nat.ofDigitChars 10 number.toList 0)
    (order : List (String × ℕ) → List (String × ℕ)) :
    (numberProgram number).AssertsLargeNumber (lower order (numberProgram number)) := by
  refine ⟨_, List.mem_cons_of_mem _ (List.mem_singleton_self _), constantValue, ⟨[], .nil, ?_⟩,
    number, List.mem_singleton_self _, _, ?_, hlarge⟩
  · exact fun p hp => absurd hp List.not_mem_nil
  · rw [constantValue, if_pos ((isNumLiteral_iff number).mpr h)]

theorem smallNumber_derivable : (numberProgram "3").Derivable := by
  refine ⟨".decl p(n : Number) \"A\" says p(x) :- p(x). \"A\" says p(3).", numberContext "3",
    ?_, rfl⟩
  unfold Derives
  decide +kernel

theorem smallNumber_sameFacts :
    ∃ program', insertUniverseRelations id id (numberProgram "3") = some program' ∧
      SameFacts constantValue (lower id (numberProgram "3")) (lower id program') := by
  have hnumber : IsNumber "3" := (isNumLiteral_iff _).mp (by decide)
  obtain ⟨program', hinsert⟩ := Option.isSome_iff_exists.mp (by decide +kernel :
    (insertUniverseRelations id id (numberProgram "3")).isSome = true)
  obtain ⟨-, hexact⟩ := insertUniverseRelations_sameFacts id id id id (fun l => .refl l)
    smallNumber_derivable (numberProgram_wellTyped hnumber) hinsert
  obtain ⟨hsame, hheads⟩ := hexact (numberProgram_typesAgree "3")
  refine ⟨program', hinsert, hsame.mpr (hheads.mpr ?_)⟩
  rintro ⟨said, hsaid, -, -, arg, harg, n, hn, hle⟩
  rw [numberProgram_said] at hsaid
  rcases List.mem_pair.mp hsaid with rfl | rfl
  · rw [List.mem_singleton.mp harg] at hn
    exact absurd hn (by rw [constantValue, if_neg (by decide)]; exact nofun)
  · rw [List.mem_singleton.mp harg, constantValue, if_pos (by decide)] at hn
    cases hn
    exact absurd hle (by decide)

theorem largeNumber_derivable : (numberProgram "2147483648").Derivable := by
  refine ⟨".decl p(n : Number) \"A\" says p(x) :- p(x). \"A\" says p(2147483648).",
    numberContext "2147483648", ?_, rfl⟩
  unfold Derives
  decide +kernel

theorem largeNumber_not_sameFacts :
    (numberProgram "2147483648").Derivable ∧ (numberProgram "2147483648").WellTyped ∧
    ∃ program', insertUniverseRelations id id (numberProgram "2147483648") = some program' ∧
      ¬ SameFacts constantValue (lower id (numberProgram "2147483648")) (lower id program') := by
  have hnumber : IsNumber "2147483648" := (isNumLiteral_iff _).mp (by decide)
  have hlarge : 2 ^ 31 ≤ Nat.ofDigitChars 10 "2147483648".toList 0 := by decide +kernel
  have hwell := numberProgram_wellTyped hnumber
  obtain ⟨program', hinsert⟩ := Option.isSome_iff_exists.mp (by decide +kernel :
    (insertUniverseRelations id id (numberProgram "2147483648")).isSome = true)
  refine ⟨largeNumber_derivable, hwell, program', hinsert, fun hsame => ?_⟩
  obtain ⟨constants, haccepted⟩ := insertUniverseRelations_accepted (fun l => .refl l)
    largeNumber_derivable.lexed hinsert
  have hheads := headsInUniverses_of_sameFacts haccepted largeNumber_derivable.lexed hwell
    (numberProgram_typesAgree _) hsame
  exact not_headsInUniverses haccepted (numberProgram_assertsLargeNumber hnumber hlarge id) hheads

end Raksha.AuthLogic
