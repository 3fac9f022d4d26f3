import Raksha.AuthLogic.Sayings

/-!
# Influence

What a principal says rests on its own assertions and on those of the principals whom it lets
speak for it, directly or through others. The assertions of everybody else can be exchanged.
-/

namespace Raksha.AuthLogic

section

variable {V : Type} (value : String → V)

/-- Whoever a speaker of the set delegates to is in the set. -/
def Program.ClosedUnderDelegation (program : Program) (speakers : Set V) : Prop :=
  ∀ speaker ∈ speakers, ∀ delegatee saying,
    Says value program speaker (.canSay delegatee saying) → delegatee ∈ speakers

/-- The speakers of the set assert the same in both programs. -/
def Program.AgreeOn (speakers : Set V) (program program' : Program) : Prop :=
  ∀ said, value said.1.name ∈ speakers → (said ∈ program.said ↔ said ∈ program'.said)

/-- Only principals of the set ask the queries of the name, the same ones in both programs. -/
def Program.AskAlike (speakers : Set V) (program program' : Program) (name : String) : Prop :=
  ∀ query, query.name = name → (query ∈ program.queries ↔ query ∈ program'.queries) ∧
    (query ∈ program.queries → value query.principal.name ∈ speakers)

end

section

variable {V : Type} {value : String → V} {speakers : Set V} {program program' : Program}

theorem Program.AgreeOn.symm (h : program.AgreeOn value speakers program') :
    program'.AgreeOn value speakers program :=
  fun said hspeaker => (h said hspeaker).symm

/-- Whoever says something of a relation has asserted something of it. -/
theorem Says.exists_said {speaker : V} {saying : Saying V}
    (h : Says value program speaker saying) : ∃ said ∈ program.said,
      value said.1.name = speaker ∧ said.2.lhs.baseFact.relation = saying.base := by
  induction h with
  | asserted hsaid _ _ _ _ => exact ⟨_, hsaid, rfl, (Fact.saying_base ..).symm⟩
  | canSay _ _ ihDelegates _ => exact ihDelegates
  | canActAs _ _ _ _ ihStated => exact ihStated

/-- What passes from principal to principal in one program does so in the other one: it is an
attribute where the speaker asserts it. -/
theorem passes_of_agreeOn (hregular : program.Regular) (hregular' : program'.Regular)
    (hagree : program.AgreeOn value speakers program') {speaker : V} (hspeaker : speaker ∈ speakers)
    {relation : String} {args : List V} (hpasses : relation = "canActAs" ∨
      program.IsAttribute relation) (hsaid : Says value program speaker (.holds relation args)) :
    relation = "canActAs" ∨ program'.IsAttribute relation := by
  rcases hpasses with hacts | hattribute
  · exact .inl hacts
  obtain ⟨said, hmem, rfl, hrelation⟩ := hsaid.exists_said
  cases hbase : said.2.lhs.baseFact with
  | predicate predicate =>
    rw [hbase] at hrelation
    obtain rfl : predicate.name = relation := hrelation
    exact absurd hattribute (hregular.predicates said hmem predicate hbase)
  | attr attr =>
    rw [hbase] at hrelation
    obtain rfl : attr.predicate.name = relation := hrelation
    exact .inr (hregular'.attributes said ((hagree said hspeaker).mp hmem) attr hbase)
  | canActAs canActAs =>
    rw [hbase] at hrelation
    exact .inl hrelation.symm

/-- All delegatees of the saying are in the set. -/
def Saying.Within (speakers : Set V) : Saying V → Prop
  | .holds _ _ => True
  | .canSay delegatee saying => delegatee ∈ speakers ∧ saying.Within speakers

theorem Saying.behind_within {delegatees : List V}
    (hdelegatees : ∀ delegatee ∈ delegatees, delegatee ∈ speakers) {saying : Saying V}
    (h : saying.Within speakers) : (Saying.behind delegatees saying).Within speakers := by
  induction delegatees using List.reverseRecOn with
  | nil => exact h
  | append_singleton delegatees delegatee ih =>
    rw [Saying.behind_append]
    refine ⟨hdelegatees delegatee (List.mem_append_right _ (List.mem_singleton_self _)), ih ?_⟩
    exact fun other hother => hdelegatees other (List.mem_append_left _ hother)

/-- A set is closed if the chains of its speakers' assertions stay in it. -/
theorem closedUnderDelegation_of_chains
    (hchains : ∀ said ∈ program.said, value said.1.name ∈ speakers →
      ∀ delegatee ∈ said.2.lhs.delegationChain, value delegatee.name ∈ speakers) :
    program.ClosedUnderDelegation value speakers := by
  have hwithin : ∀ {speaker saying}, Says value program speaker saying → speaker ∈ speakers →
      saying.Within speakers := by
    intro speaker saying hsaying
    induction hsaying with
    | asserted hsaid _ _ _ _ =>
      intro hspeaker
      refine Saying.behind_within ?_ trivial
      intro delegatee hdelegatee
      obtain ⟨principal, hprincipal, rfl⟩ := List.mem_map.mp hdelegatee
      exact hchains _ hsaid hspeaker principal hprincipal
    | canSay _ _ ihDelegates _ => exact fun hspeaker => (ihDelegates hspeaker).2
    | canActAs _ _ _ _ _ => exact fun _ => trivial
  exact fun speaker hspeaker delegatee saying hsaying => (hwithin hsaying hspeaker).1

/-- It is enough that the delegations which both programs know stay in the set. -/
theorem Says.of_agreeOn (hregular : program.Regular) (hregular' : program'.Regular) (hclosed : ∀ speaker ∈ speakers, ∀ delegatee saying,
      Says value program speaker (.canSay delegatee saying) →
      Says value program' speaker (.canSay delegatee saying) → delegatee ∈ speakers)
    (hagree : program.AgreeOn value speakers program') {speaker : V} {saying : Saying V}
    (hsaying : Says value program speaker saying) :
    speaker ∈ speakers → Says value program' speaker saying := by
  induction hsaying with
  | asserted hsaid hargs hconditions _ ih =>
    intro hspeaker
    exact .asserted ((hagree _ hspeaker).mp hsaid) hargs hconditions
      fun condition hcondition => ih condition hcondition hspeaker
  | canSay hdelegates _ ihDelegates ihBelieved =>
    intro hspeaker
    have hdelegates' := ihDelegates hspeaker
    exact .canSay hdelegates' (ihBelieved (hclosed _ hspeaker _ _ hdelegates hdelegates'))
  | canActAs hpasses _ hstated ihActs ihStated =>
    intro hspeaker
    exact .canActAs (passes_of_agreeOn hregular hregular' hagree hspeaker hpasses hstated)
      (ihActs hspeaker) (ihStated hspeaker)

theorem says_iff_of_agreeOn (hregular : program.Regular) (hregular' : program'.Regular)
    (hclosed : program.ClosedUnderDelegation value speakers)
    (hagree : program.AgreeOn value speakers program') {speaker : V} (hspeaker : speaker ∈ speakers)
    (saying : Saying V) :
    Says value program speaker saying ↔ Says value program' speaker saying := by
  constructor
  · intro hsaying
    refine hsaying.of_agreeOn hregular hregular' ?_ hagree hspeaker
    exact fun speaker hspeaker delegatee saying hdelegates _ =>
      hclosed speaker hspeaker delegatee saying hdelegates
  · intro hsaying
    refine hsaying.of_agreeOn hregular' hregular ?_ hagree.symm hspeaker
    exact fun speaker hspeaker delegatee saying _ hdelegates =>
      hclosed speaker hspeaker delegatee saying hdelegates

/-- The sayings of a closed set of speakers and the answers to their queries do not depend on what
anybody else asserts. -/
theorem lower_unaffected (order order' : List (String × ℕ) → List (String × ℕ))
    (h : program.Derivable) (hregular : program.Regular) (h' : program'.Derivable)
    (hregular' : program'.Regular) (hclosed : program.ClosedUnderDelegation value speakers)
    (hagree : program.AgreeOn value speakers program') :
    (∀ speaker ∈ speakers, ∀ saying : Saying V, saying.Plain →
      ((lower order program).Entails value ("says_" ++ saying.relation) (speaker :: saying.args) ↔
        (lower order' program').Entails value ("says_" ++ saying.relation)
          (speaker :: saying.args))) ∧
    ∀ name, name ≠ "grounded_dummy" ∧ (∀ rest, name ≠ "says_" ++ rest) →
      program.AskAlike value speakers program' name →
      ∀ args, (lower order program).Entails value name args ↔
        (lower order' program').Entails value name args := by
  constructor
  · intro speaker hspeaker saying hplain
    have hsayings := says_iff_of_agreeOn hregular hregular' hclosed hagree hspeaker saying
    constructor
    · intro hentails
      exact entails_of_says h' hregular'
        (hsayings.mp (says_of_entails h hregular hentails speaker saying rfl hplain))
    · intro hentails
      exact entails_of_says h hregular
        (hsayings.mpr (says_of_entails h' hregular' hentails speaker saying rfl hplain))
  · intro name hname halike args
    have hholds : ∀ query ∈ program.queries, query.name = name →
        (query.Holds value program ↔ query.Holds value program') := by
      intro query hquery hquery'
      refine exists_congr fun assignment => exists_congr fun factArgs => and_congr_right fun _ => ?_
      exact says_iff_of_agreeOn hregular hregular' hclosed hagree ((halike query hquery').2 hquery) _
    constructor
    · intro hentails
      obtain ⟨rfl, query, hquery, hquery', hasked⟩ := holds_of_entails h hregular hname hentails
      subst hquery'
      exact entails_of_holds h' hregular' ((halike query rfl).1.mp hquery)
        ((hholds query hquery rfl).mp hasked)
    · intro hentails
      obtain ⟨rfl, query, hquery, hquery', hasked⟩ := holds_of_entails h' hregular' hname hentails
      subst hquery'
      have hquery := (halike query rfl).1.mpr hquery
      exact entails_of_holds h hregular hquery ((hholds query hquery rfl).mpr hasked)

end

theorem bystander_closed (number : String) :
    (bystanderProgram number).ClosedUnderDelegation id {"\"A\"", "\"B\""} := by
  refine closedUnderDelegation_of_chains ?_
  rw [bystander_said]
  intro said hsaid _ delegatee hdelegatee
  simp only [List.mem_cons, List.not_mem_nil, or_false] at hsaid
  rcases hsaid with rfl | rfl | rfl
  · rw [List.mem_singleton.mp hdelegatee]
    exact .inr rfl
  · cases hdelegatee
  · cases hdelegatee

theorem bystander_agreeOn (number number' : String) : Program.AgreeOn (id : String → String)
    {"\"A\"", "\"B\""} (bystanderProgram number) (bystanderProgram number') := by
  rw [Program.AgreeOn, bystander_said, bystander_said]
  have hbystander : "\"C\"" ∉ ({"\"A\"", "\"B\""} : Set String) := by
    rintro (hname | hname)
    · exact absurd hname (by decide)
    · exact absurd hname (by decide)
  intro said hspeaker
  have hne : ∀ text, said ≠ (⟨"\"C\""⟩, .fact ⟨[], .predicate ⟨"p", [text], .positive⟩⟩) := by
    rintro text rfl
    exact hbystander hspeaker
  simp only [List.mem_cons, List.not_mem_nil, or_false, hne]

theorem bystander_unaffected :
    (lower id (bystanderProgram "4")).Entails id "q" ["\"dummy_var\""] ↔
      (lower id (bystanderProgram "5")).Entails id "q" ["\"dummy_var\""] := by
  have hregular := bystander_regular "4" (.inl rfl)
  refine (lower_unaffected id id (bystander_derivable "4" (.inl rfl)) hregular
    (bystander_derivable "5" (.inr rfl)) (bystander_regular "5" (.inr rfl)) (bystander_closed "4")
    (bystander_agreeOn "4" "5")).2 "q" (hregular.queryNames _ (List.mem_singleton_self _)) ?_ _
  refine fun query _ => ⟨Iff.rfl, fun hquery => ?_⟩
  rw [List.mem_singleton.mp hquery]
  exact .inl rfl

end Raksha.AuthLogic
