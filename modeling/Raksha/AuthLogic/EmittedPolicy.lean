import Raksha.AuthLogic.LargeNumbers
import Raksha.AuthLogic.Sayings

/-!
# The emitted policy

`raksha_policy_datalog_emitter.cc` inserts the universes into the program that was parsed and lowers
the result. The Datalog program then has what the principals of the parsed program say.
-/

namespace Raksha.AuthLogic

/-- Some assertion whose conditions its speaker says has a number from `2 ^ 31` on in its head. -/
def Program.SaysLargeNumber (program : Program) : Prop :=
  ∃ said ∈ program.said, ∃ assignment, Met constantValue program said assignment ∧
    ∃ arg ∈ said.2.lhs.base.args, ∃ n, constantValue arg = .number n ∧ 2 ^ 31 ≤ n

section

variable {program program' : Program} {order order' : List (String × ℕ) → List (String × ℕ)}

theorem saysLargeNumber_of_asserts (h : program.Derivable) (hregular : program.Regular)
    (hlarge : program.AssertsLargeNumber (lower order program)) : program.SaysLargeNumber := by
  obtain ⟨said, hsaid, assignment, ⟨premises, hconditions, hpremises⟩, hhead⟩ := hlarge
  have hsayings : ∀ fact ∈ premises, ∀ speaker saying, fact = Saying.ground speaker saying →
      saying.Plain → Says constantValue program speaker saying :=
    fun fact hfact => says_of_entails h hregular (hpremises fact hfact)
  exact ⟨said, hsaid, assignment, met_of_premises h hregular hsaid hsayings hconditions, hhead⟩

/-- What is derived over relations other than the universes is what is derived without them. -/
theorem derivable_inserted_iff
    {literalOrder : List (String × ArgumentType) → List (String × ArgumentType)}
    {declarationOrder : List RelationDeclaration → List RelationDeclaration}
    (horder : ∀ l, (literalOrder l).Perm l) (h : program.Derivable) (hregular : program.Regular)
    (hwell : program.WellTyped) (hagree : program.TypesAgree) (hsmall : ¬ program.SaysLargeNumber)
    (hinsert : insertUniverseRelations literalOrder declarationOrder program = some program')
    {relation : String} {args : List Constant}
    (hrelation : ∀ universeName, relation = "says_" ++ universeName →
      ¬ program.IsUniverse universeName) :
    (lower order' program').Entails constantValue relation args ↔
      (lower order program).Entails constantValue relation args := by
  obtain ⟨constants, haccepted⟩ := insertUniverseRelations_accepted horder h.lexed hinsert
  constructor
  · intro hentails
    exact derivable_of_guarded haccepted hwell hentails fun universeName _ => hrelation universeName
  · intro hentails
    refine guarded_of_derivable haccepted h.lexed ?_ hentails
    refine headsInUniverses_of_small haccepted h.lexed hwell hagree ?_
    exact fun hlarge => hsmall (saysLargeNumber_of_asserts h hregular hlarge)

/-- The emitted program derives what the principals say and answers their queries. -/
theorem emitted_meaning
    (literalOrder : List (String × ArgumentType) → List (String × ArgumentType))
    (declarationOrder : List RelationDeclaration → List RelationDeclaration)
    (order : List (String × ℕ) → List (String × ℕ)) (horder : ∀ l, (literalOrder l).Perm l)
    (h : program.Derivable) (hregular : program.Regular) (hwell : program.WellTyped)
    (hagree : program.TypesAgree) (hsmall : ¬ program.SaysLargeNumber)
    (hinsert : insertUniverseRelations literalOrder declarationOrder program = some program') :
    (∀ speaker (saying : Saying Constant), saying.Plain → ¬ program.IsUniverse saying.base →
      ((lower order program').Entails constantValue ("says_" ++ saying.relation)
          (speaker :: saying.args) ↔ Says constantValue program speaker saying)) ∧
    ∀ name args, name ≠ "grounded_dummy" ∧ (∀ rest, name ≠ "says_" ++ rest) →
      ((lower order program').Entails constantValue name args ↔
        args = [constantValue "\"dummy_var\""] ∧
          ∃ query ∈ program.queries, query.name = name ∧ query.Holds constantValue program) := by
  have hinserted : ∀ relation args, (∀ universeName, relation = "says_" ++ universeName →
      ¬ program.IsUniverse universeName) →
      ((lower order program').Entails constantValue relation args ↔
        (lower id program).Entails constantValue relation args) :=
    fun _ _ => derivable_inserted_iff horder h hregular hwell hagree hsmall hinsert
  refine ⟨fun speaker saying hplain huniverse => ?_, fun name args hname => ?_⟩
  · rw [hinserted]
    · exact ⟨fun hentails => says_of_entails h hregular hentails speaker saying rfl hplain,
        entails_of_says h hregular⟩
    · intro universeName hname
      rw [← says_inj hname]
      cases saying with
      | holds relation args => exact huniverse
      | canSay delegatee saying => exact canSay_not_isUniverse saying.relation
  · rw [hinserted _ _ fun universeName heq => absurd heq (hname.2 universeName)]
    constructor
    · intro hentails
      exact holds_of_entails h hregular hname hentails
    · rintro ⟨rfl, query, hquery, rfl, hholds⟩
      exact entails_of_holds h hregular hquery hholds

end

/-! ### A small number -/

theorem smallNumber_arg {arg : String} (harg : arg ∈ ["x", "3", "x"]) :
    arg.length = 1 ∧ arg ≠ "_" := by
  revert arg
  decide

theorem smallNumber_isRelation {name : String} (h : (numberProgram "3").IsRelation name) :
    name = "p" := by
  rcases h with ⟨declaration, hdeclaration, rfl⟩ | ⟨baseFact, hbaseFact, rfl⟩
  · cases List.mem_singleton.mp hdeclaration
    rfl
  · rw [numberProgram_baseFacts] at hbaseFact
    obtain ⟨arg, -, rfl⟩ := List.mem_map.mp hbaseFact
    rfl

theorem smallNumber_regular : (numberProgram "3").Regular where
  positive := (numberProgram_wellTyped ((isNumLiteral_iff "3").mp (by decide))).positive
  noComparison := (numberProgram_wellTyped ((isNumLiteral_iff "3").mp (by decide))).noComparison
  noFresh := by
    rw [numberProgram_baseFacts]
    intro baseFact hbaseFact n hmem
    obtain ⟨arg, harg, rfl⟩ := List.mem_map.mp hbaseFact
    have hfresh := congrArg String.length (List.mem_singleton.mp hmem)
    rw [(smallNumber_arg harg).1, freshName, String.length_append] at hfresh
    have hthree : "x__".length = 3 := rfl
    omega
  relations := by
    intro name hname rest
    rw [smallNumber_isRelation hname]
    constructor
    all_goals
      intro heq
      have hchars := congrArg String.toList heq
      rw [String.toList_append] at hchars
      cases hchars
  attributes := by
    rw [numberProgram_said]
    rintro said hsaid attr hattr
    rcases List.mem_pair.mp hsaid with rfl | rfl <;> cases hattr
  predicates := by
    rintro said hsaid predicate - ⟨declaration, hdeclaration, -, hattribute⟩
    cases List.mem_singleton.mp hdeclaration
    cases hattribute
  namedHeads := by
    rw [numberProgram_said]
    intro said hsaid hmem
    rcases List.mem_pair.mp hsaid with rfl | rfl
    · exact absurd (List.mem_singleton.mp hmem) (by decide)
    · exact absurd (List.mem_singleton.mp hmem) (by decide)
  queryNames := fun query hquery => absurd hquery List.not_mem_nil

theorem smallNumber_notLarge : ¬ (numberProgram "3").SaysLargeNumber := by
  rintro ⟨said, hsaid, -, -, arg, harg, n, hn, hle⟩
  rw [numberProgram_said] at hsaid
  rcases List.mem_pair.mp hsaid with rfl | rfl
  · rw [List.mem_singleton.mp harg, constantValue, if_neg (by decide)] at hn
    cases hn
  · rw [List.mem_singleton.mp harg, constantValue, if_pos (by decide)] at hn
    cases hn
    exact absurd hle (by decide)

theorem smallNumber_saying : Says constantValue (numberProgram "3") (constantValue "\"A\"")
    (.holds "p" [constantValue "3"]) := by
  have hthree : Denotes constantValue (fun _ => constantValue "3") "3" (constantValue "3") :=
    .constant fun hvariable => hvariable.not_number ((isNumLiteral_iff "3").mp (by decide))
  exact @Says.asserted _ constantValue (numberProgram "3") _ _ _ _ (fun _ => [])
    (numberProgram_said "3" ▸ List.mem_cons_of_mem _ (List.mem_cons_self ..)) (.cons hthree .nil)
    (fun _ h => absurd h List.not_mem_nil) fun _ h => absurd h List.not_mem_nil

theorem smallNumber_emitted :
    ∃ program', insertUniverseRelations id id (numberProgram "3") = some program' ∧
      (lower id program').Entails constantValue "says_p"
        [constantValue "\"A\"", constantValue "3"] := by
  have hnumber : IsNumber "3" := (isNumLiteral_iff _).mp (by decide)
  obtain ⟨program', hinsert⟩ := Option.isSome_iff_exists.mp (by decide +kernel :
    (insertUniverseRelations id id (numberProgram "3")).isSome = true)
  have hplain : (Saying.holds "p" [constantValue "3"]).Plain := fun rest =>
    (smallNumber_regular.relations "p" (.inl ⟨_, List.mem_singleton_self _, rfl⟩) rest).2
  have huniverse : ¬ (numberProgram "3").IsUniverse "p" :=
    (numberProgram_wellTyped hnumber).universes _ (List.mem_singleton_self _)
  refine ⟨program', hinsert, ?_⟩
  exact ((emitted_meaning id id id (fun l => .refl l) smallNumber_derivable smallNumber_regular
    (numberProgram_wellTyped hnumber) (numberProgram_typesAgree "3") smallNumber_notLarge
    hinsert).1 _ (.holds "p" [constantValue "3"]) hplain huniverse).mpr smallNumber_saying

end Raksha.AuthLogic
