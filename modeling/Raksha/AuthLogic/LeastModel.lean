import Raksha.AuthLogic.TokenTexts
import Raksha.Lib.Datalog

/-!
# Least models of lowered programs

The facts that follow from rules without negation and comparisons. Constants stand for values, a
variable has one value in an instance of a rule, and `_` has one at every place.
-/

namespace Raksha.AuthLogic

/-- A relation with the values of its arguments. -/
structure GroundFact (V : Type) where
  relation : String
  args : List V

section

variable {V : Type} (value : String → V)

inductive Denotes (assignment : String → V) : String → V → Prop
  | anonymous (v : V) : Denotes assignment "_" v
  | named {text : String} : IsVariable text → text ≠ "_" →
    Denotes assignment text (assignment text)
  | constant {text : String} : ¬ IsVariable text → Denotes assignment text (value text)

/-- The fact is the instance of the predicate. -/
def Predicate.HasInstance (assignment : String → V) (predicate : Predicate)
    (fact : GroundFact V) : Prop :=
  fact.relation = predicate.name ∧
    List.Forall₂ (Denotes value assignment) predicate.args fact.args

def groundRules (rules : List Rule) : Datalog.RuleSet (GroundFact V) := fun head premises =>
  ∃ rule ∈ rules, ∃ assignment, rule.lhs.HasInstance value assignment head ∧
    List.Forall₂ (Predicate.HasInstance value assignment) rule.rhs premises

def DatalogProgram.Entails (program : DatalogProgram) (relation : String) (args : List V) : Prop :=
  Datalog.Derivable (groundRules value program.rules) ⟨relation, args⟩

end

/-! ### Instances -/

section

variable {V : Type} {value : String → V} {assignment : String → V}

theorem freshName_ne_underscore (n : ℕ) : freshName n ≠ "_" := by
  intro heq
  have hlength := congrArg String.length heq
  rw [freshName, String.length_append] at hlength
  have hthree : "x__".length = 3 := rfl
  have hone : "_".length = 1 := rfl
  omega

theorem denotes_freshName (n : ℕ) (v : V) :
    Denotes value (Function.update assignment (freshName n) v) (freshName n) v := by
  have hself : Denotes value (Function.update assignment (freshName n) v) (freshName n)
      (Function.update assignment (freshName n) v (freshName n)) :=
    .named (freshName_isVariable n) (freshName_ne_underscore n)
  rwa [Function.update_self] at hself

theorem Denotes.unique {text : String} {v w : V} (hv : Denotes value assignment text v)
    (hw : Denotes value assignment text w) (hne : text ≠ "_") : v = w := by
  cases hv with
  | anonymous v => exact absurd rfl hne
  | named hvariable _ =>
    cases hw with
    | anonymous w => exact absurd rfl hne
    | named _ _ => rfl
    | constant hconstant => exact absurd hvariable hconstant
  | constant hconstant =>
    cases hw with
    | anonymous w => exact absurd rfl hne
    | named hvariable _ => exact absurd hvariable hconstant
    | constant _ => rfl

theorem Denotes.update {text fresh : String} {v : V} (h : Denotes value assignment text v)
    (hne : text ≠ fresh) (w : V) :
    Denotes value (Function.update assignment fresh w) text v := by
  cases h with
  | anonymous v => exact .anonymous v
  | named hvariable hnamed =>
    rw [← Function.update_of_ne hne w assignment]
    exact .named hvariable hnamed
  | constant hconstant => exact .constant hconstant

theorem forall₂_denotes_update {texts : List String} {vs : List V} {fresh : String}
    (h : List.Forall₂ (Denotes value assignment) texts vs) (hfresh : fresh ∉ texts) (w : V) :
    List.Forall₂ (Denotes value (Function.update assignment fresh w)) texts vs := by
  induction h with
  | nil => exact .nil
  | cons hfirst _ ih =>
    rw [List.mem_cons, not_or] at hfresh
    exact .cons (hfirst.update (Ne.symm hfresh.1) w) (ih hfresh.2)

/-- A rule with two conditions derives what its instances lead to. -/
theorem DatalogProgram.entails_of_rule {program : DatalogProgram} {lhs first second : Predicate}
    (hrule : ⟨lhs, [first, second]⟩ ∈ program.rules) {args firstArgs secondArgs : List V}
    (hlhs : List.Forall₂ (Denotes value assignment) lhs.args args)
    (hfirst : List.Forall₂ (Denotes value assignment) first.args firstArgs)
    (hsecond : List.Forall₂ (Denotes value assignment) second.args secondArgs)
    (hfirstHolds : program.Entails value first.name firstArgs)
    (hsecondHolds : program.Entails value second.name secondArgs) :
    program.Entails value lhs.name args := by
  refine Datalog.Derivable.step₂ ?_ hfirstHolds hsecondHolds
  exact ⟨_, hrule, assignment, ⟨rfl, hlhs⟩, .cons ⟨rfl, hfirst⟩ (.cons ⟨rfl, hsecond⟩ .nil)⟩

end

end Raksha.AuthLogic
