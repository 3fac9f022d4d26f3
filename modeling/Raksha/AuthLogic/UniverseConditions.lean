import Raksha.AuthLogic.TypedFacts

/-!
# Universe conditions in the least model

The universes leave the least model as it is when every value that reaches the head of an
assertion is in the universe of its type. Number literals from `2 ^ 31` on are in no universe, as
the insertion does not take them for constants.
-/

namespace Raksha.AuthLogic

section

variable {V : Type} (value : String → V)

/-- The conditions of the assertion hold in the least model. -/
def Fires (lowered : DatalogProgram) (said : Principal × Assertion) (assignment : String → V) :
    Prop :=
  ∃ premises, List.Forall₂ (Predicate.HasInstance value assignment) (said.2.mainRule said.1).rhs
    premises ∧ ∀ p ∈ premises, Datalog.Derivable (groundRules value lowered.rules) p

/-- Whenever the conditions of an assertion hold, the arguments of its head that the insertion
does not take for constants stand for constants of their types. -/
def Program.HeadsInUniverses (program : Program) (lowered : DatalogProgram) : Prop :=
  ∀ said ∈ program.said, ∀ assignment, Fires value lowered said assignment →
    ∀ typing ∈ program.typingsOf said.2.lhs.baseFact, isNameConstant typing.1 = false →
      ∀ v, Denotes value assignment typing.1 v → program.InUniverse value typing.2 v

end

/-- The program has a relation of the name and arity. -/
def DatalogProgram.HasRelation (lowered : DatalogProgram) (name : String) (arity : ℕ) : Prop :=
  (∃ declaration ∈ lowered.relationDeclarations,
    declaration.relationName = name ∧ declaration.arguments.length = arity) ∨
  ∃ rule ∈ lowered.rules, ∃ predicate ∈ rule.lhs :: rule.rhs,
    predicate.name = name ∧ predicate.args.length = arity

/-- The same facts over the relations of the first program. -/
def SameFacts {V : Type} (value : String → V) (lowered lowered' : DatalogProgram) : Prop :=
  ∀ relation args, lowered.HasRelation relation args.length →
    (lowered.Entails value relation args ↔ lowered'.Entails value relation args)

/-! ### Relations and universes -/

section

variable {program : Program} (hwell : program.WellTyped)

include hwell in
theorem Occurs.not_universe {name : String} {arity : ℕ} (h : Occurs program name arity)
    (harity : arity = 2) {universeName : String} (hname : name = "says_" ++ universeName) :
    ¬ program.IsUniverse universeName := by
  cases h with
  | level hfact _ =>
    rw [← says_inj hname]
    exact hwell.not_isUniverse (List.mem_append_left _ (List.mem_map_of_mem hfact)) _
  | condition hcondition =>
    rw [← says_inj hname]
    exact hwell.not_isUniverse (List.mem_append_right _ hcondition) 0
  | canActAs => cases harity
  | query _ => cases harity
  | dummy => cases harity

theorem canSayDeclarationsAt_names {declaration : RelationDeclaration} {depth : ℕ}
    {declarations : List RelationDeclaration}
    (h : ∀ other ∈ declarations, ∃ rest, other.relationName = "canSay_" ++ rest) :
    ∀ other ∈ canSayDeclarationsAt declaration depth declarations,
      ∃ rest, other.relationName = "canSay_" ++ rest := by
  rw [canSayDeclarationsAt]
  generalize List.range' 1 depth = levels
  induction levels generalizing declarations with
  | nil => exact h
  | cons level levels ih =>
    rw [List.foldl_cons]
    refine ih ?_
    intro other hother
    split at hother
    · rcases List.mem_append.mp hother with hother | hother
      · exact h other hother
      · rw [List.mem_singleton.mp hother]
        exact ⟨_, rfl⟩
    · rcases List.mem_append.mp hother with hother | hother
      · exact h other hother
      · obtain ⟨extended, -, rfl⟩ := Option.map_eq_some_iff.mp (Option.mem_toList.mp hother)
        exact ⟨_, rfl⟩

theorem getCanSayDeclarations_names (env : String → Option RelationDeclaration)
    (canSayDepth : List (String × ℕ)) :
    ∀ other ∈ getCanSayDeclarations env canSayDepth,
      ∃ rest, other.relationName = "canSay_" ++ rest := by
  have hloop : ∀ (entries : List (String × ℕ)) (declarations : List RelationDeclaration),
      (∀ other ∈ declarations, ∃ rest, other.relationName = "canSay_" ++ rest) →
      ∀ other ∈ entries.foldl (addCanSayDeclarations env) declarations,
        ∃ rest, other.relationName = "canSay_" ++ rest := by
    intro entries
    induction entries with
    | nil => exact fun _ h => h
    | cons entry entries ih =>
      intro declarations h
      rw [List.foldl_cons]
      refine ih _ ?_
      rw [addCanSayDeclarations]
      split
      · exact h
      · exact canSayDeclarationsAt_names h
  rw [getCanSayDeclarations_foldl]
  exact hloop canSayDepth [] fun _ h => absurd h List.not_mem_nil

include hwell in
theorem HasRelation.not_universe {order : List (String × ℕ) → List (String × ℕ)} {name : String}
    {arity : ℕ} (h : (lower order program).HasRelation name arity) (harity : arity = 2)
    {universeName : String} (hname : name = "says_" ++ universeName) :
    ¬ program.IsUniverse universeName := by
  rcases h with ⟨declaration, hdeclaration, rfl, hlength⟩ | ⟨rule, hrule, predicate, hmem, rfl, rfl⟩
  · rw [lower_declarations] at hdeclaration
    rcases List.mem_append.mp hdeclaration with hdeclaration | hquery
    · obtain ⟨inner, hinner, rfl⟩ := List.mem_map.mp hdeclaration
      obtain rfl := says_inj hname
      rcases List.mem_append.mp hinner with hinner | hinner
      · rcases List.mem_append.mp hinner with htransformed | hcanSay
        · obtain ⟨declared, hdeclared, rfl⟩ := List.mem_map.mp htransformed
          rw [transformAttributeDeclaration_name]
          exact hwell.universes declared hdeclared
        · obtain ⟨rest, hrest⟩ := getCanSayDeclarations_names _ _ inner hcanSay
          rw [hrest]
          exact canSay_not_isUniverse rest
      · rw [List.mem_singleton.mp hinner]
        exact canActAs_not_isUniverse program
    · have hone : declaration.arguments.length = 1 := by
        rcases List.mem_append.mp hquery with hquery | hdummy
        · obtain ⟨query, -, rfl⟩ := List.mem_map.mp hquery
          rfl
        · rw [List.mem_singleton.mp hdummy]
          rfl
      omega
  · exact Occurs.not_universe hwell (occurs_of_mem hrule predicate hmem) harity hname

end

/-! ### The universes in the least model -/

section

variable {V : Type} {value : String → V} {assignment : String → V} {program program' : Program}
  {constants : List (String × ArgumentType)} {order order' : List (String × ℕ) → List (String × ℕ)}

theorem mainRule_mem {said : Principal × Assertion} (hsaid : said ∈ program.said) :
    said.2.mainRule said.1 ∈ (lower order program).rules :=
  lower_mem_rules.mpr (.inr (.inl ⟨said, hsaid, rfl⟩))

theorem generatedRule_mem {rule : Rule} (h : rule ∈ generatedRules 0 program.said) :
    rule ∈ (lower order program).rules :=
  lower_mem_rules.mpr (.inl h)

theorem closingRule_args {rule : Rule}
    (h : rule ∈ program.queries.map queryRule ++ [⟨dummyPredicate, []⟩]) :
    rule.lhs.args.length = 1 := by
  rcases List.mem_append.mp h with hquery | hdummy
  · obtain ⟨query, -, rfl⟩ := List.mem_map.mp hquery
    rfl
  · rw [List.mem_singleton.mp hdummy]
    rfl

variable (haccepted : Accepted program program' constants) (hlexed : program.Lexed)
  (hwell : program.WellTyped)

include haccepted hlexed in
/-- The universes of a speaker hold the constants of the program. -/
theorem entails_universe {said : Principal × Assertion} (hsaid : said ∈ program.said)
    {argType : ArgumentType} {s v : V} (hs : Denotes value assignment said.1.name s)
    (hv : program.InUniverse value argType v) :
    (lower order' program').Entails value ("says_" ++ typeToUniverseName argType) [s, v] := by
  obtain ⟨typing, htyping, hconstant, hname, rfl⟩ := hv
  have hspeaker := (hlexed.said said hsaid).1.isNameConstant
  have hprincipal := (haccepted.mem_constants _).mpr ⟨haccepted.speakers said hsaid, hspeaker⟩
  have hrule : universeRule said.1.name typing ∈ (lower order' program').rules :=
    haccepted.mem_rules.mpr (.inr (.inl ⟨_, hprincipal, rfl, typing,
      (haccepted.mem_constants typing).mpr ⟨htyping, hconstant⟩, rfl⟩))
  refine Datalog.Derivable.fact ⟨_, hrule, assignment, ⟨?_, .cons hs (.cons ?_ .nil)⟩, .nil⟩
  · rw [← hname]
    rfl
  · refine .constant fun hvariable => ?_
    rw [hvariable.not_nameConstant] at hconstant
    cases hconstant

include haccepted hwell in
theorem inUniverse_of_entails {argType : ArgumentType}
    (huniverse : program.IsUniverse (typeToUniverseName argType)) {s v : V}
    (h : (lower order' program').Entails value ("says_" ++ typeToUniverseName argType) [s, v]) :
    program.InUniverse value argType v := by
  obtain ⟨rule, hrule, assignment, hname, hargs⟩ := entails_cases h
  have hlength : rule.lhs.args.length = 2 := hargs.length_eq
  have habsurd : ∀ rule' ∈ (lower id program).rules, rule'.lhs = rule.lhs → False := by
    intro rule' hrule' heq
    refine Occurs.not_universe hwell (occurs_of_mem hrule' _ (List.mem_cons_self ..)) ?_ ?_
      huniverse
    · rw [heq, hlength]
    · rw [heq, hname]
  rcases haccepted.mem_rules.mp hrule with hgenerated |
    ⟨principal, hprincipal, htype, typing, htyping, rfl⟩ | ⟨said, hsaid, rfl⟩ | hclosing
  · exact (habsurd rule (generatedRule_mem hgenerated) rfl).elim
  · obtain ⟨hmem, hconstant⟩ := (haccepted.mem_constants typing).mp htyping
    obtain ⟨_, _, -, hlast, heq⟩ := List.forall₂_cons_left_iff.mp hargs
    cases heq
    obtain ⟨hv, -⟩ := List.forall₂_cons.mp hlast
    exact ⟨typing, hmem, hconstant, (says_inj hname).symm, (hv.eq_value hconstant).symm⟩
  · exact (habsurd _ (mainRule_mem hsaid) rfl).elim
  · rw [closingRule_args hclosing] at hlength
    cases hlength

/-! ### More conditions, fewer facts -/

theorem forall₂_append_left {α β : Type} {R : α → β → Prop} {xs ys : List α} {zs : List β}
    (h : List.Forall₂ R (xs ++ ys) zs) :
    ∃ us vs, zs = us ++ vs ∧ List.Forall₂ R xs us ∧ List.Forall₂ R ys vs := by
  induction xs generalizing zs with
  | nil => exact ⟨[], zs, rfl, .nil, h⟩
  | cons x xs ih =>
    obtain ⟨z, zs, hz, hzs, rfl⟩ := List.forall₂_cons_left_iff.mp h
    obtain ⟨us, vs, rfl, hus, hvs⟩ := ih hzs
    exact ⟨z :: us, vs, rfl, .cons hz hus, hvs⟩

include haccepted hwell in
theorem derivable_of_guarded {fact : GroundFact V}
    (h : Datalog.Derivable (groundRules value (lower order' program').rules) fact)
    (hfact : ∀ universeName, fact.args.length = 2 → fact.relation = "says_" ++ universeName →
      ¬ program.IsUniverse universeName) :
    Datalog.Derivable (groundRules value (lower order program).rules) fact := by
  induction h with
  | @intro head premises hinstance hpremises ih =>
    obtain ⟨rule, hrule, assignment, hhead, hconditions⟩ := hinstance
    -- The premises of a rule of the program are no facts about universes.
    have hderive : ∀ rule' ∈ (lower order program).rules, ∀ premises' ⊆ premises,
        rule'.lhs = rule.lhs →
        List.Forall₂ (Predicate.HasInstance value assignment) rule'.rhs premises' →
        Datalog.Derivable (groundRules value (lower order program).rules) head := by
      intro rule' hrule' premises' hsub hlhs hinstances
      refine .intro ⟨rule', hrule', assignment, hlhs ▸ hhead, hinstances⟩ ?_
      intro premise hpremise
      refine ih premise (hsub hpremise) ?_
      obtain ⟨predicate, hpredicate, hrelation, hargs⟩ := forall₂_mem_right hinstances hpremise
      intro universeName hlength hname
      have hoccurs := occurs_of_mem hrule' predicate (List.mem_cons_of_mem _ hpredicate)
      exact Occurs.not_universe hwell hoccurs (hargs.length_eq.trans hlength)
        (hrelation.symm.trans hname)
    rcases haccepted.mem_rules.mp hrule with hgenerated |
      ⟨principal, hprincipal, htype, typing, htyping, rfl⟩ | ⟨said, hsaid, rfl⟩ | hclosing
    · exact hderive rule (generatedRule_mem hgenerated) premises (List.Subset.refl _) rfl
        hconditions
    · obtain ⟨hrelation, hargs⟩ := hhead
      exact absurd (haccepted.universes typing ((haccepted.mem_constants typing).mp htyping).1)
        (hfact _ hargs.length_eq.symm hrelation)
    · obtain ⟨guards, body, rfl, -, hbody⟩ := forall₂_append_left hconditions
      exact hderive _ (mainRule_mem hsaid) body (List.subset_append_right _ _) rfl hbody
    · exact hderive rule (lower_mem_rules.mpr (.inr (.inr hclosing))) premises
        (List.Subset.refl _) rfl hconditions

include haccepted hlexed in
theorem exists_memberships {said : Principal × Assertion} (hsaid : said ∈ program.said)
    {typings : List (String × ArgumentType)}
    (h : ∀ typing ∈ typings, isNameConstant typing.1 = false →
      ∀ v, Denotes value assignment typing.1 v → program.InUniverse value typing.2 v) :
    ∃ premises, List.Forall₂ (Predicate.HasInstance value assignment)
        ((universeConditions typings).map (spokenCondition said.1)) premises ∧
      ∀ p ∈ premises, Datalog.Derivable (groundRules value (lower order' program').rules) p := by
  induction typings with
  | nil => exact ⟨[], .nil, fun _ hp => absurd hp List.not_mem_nil⟩
  | cons typing typings ih =>
    obtain ⟨premises, hinstances, hderivable⟩ :=
      ih fun other hother => h other (List.mem_cons_of_mem _ hother)
    cases hconstant : isNameConstant typing.1 with
    | true =>
      refine ⟨premises, ?_, hderivable⟩
      rwa [universeConditions, List.filter_cons_of_neg (by simp [hconstant])]
    | false =>
      have hspeaker : Denotes value assignment said.1.name (value said.1.name) :=
        .constant fun hvariable => hvariable.not_quoted (hlexed.said said hsaid).1
      obtain ⟨_, hvs⟩ := @exists_denotes V value assignment [typing.1]
      obtain ⟨v, _, hv, -, rfl⟩ := List.forall₂_cons_left_iff.mp hvs
      have hholds : (lower order' program').Entails value ("says_" ++ typeToUniverseName typing.2)
          [value said.1.name, v] := entails_universe haccepted hlexed hsaid hspeaker
        (h typing (List.mem_cons_self ..) hconstant v hv)
      refine ⟨⟨"says_" ++ typeToUniverseName typing.2, [value said.1.name, v]⟩ :: premises, ?_, ?_⟩
      · rw [universeConditions, List.filter_cons_of_pos (by simp [hconstant]), List.map_cons,
          List.map_cons]
        exact .cons ⟨rfl, .cons hspeaker (.cons hv .nil)⟩ hinstances
      · intro p hp
        rcases List.mem_cons.mp hp with rfl | hp
        · exact hholds
        · exact hderivable p hp

include haccepted hlexed in
/-- What is derived without the universes is derived with them, when the heads are in them. -/
theorem guarded_of_derivable (hheads : program.HeadsInUniverses value (lower order program))
    {fact : GroundFact V}
    (h : Datalog.Derivable (groundRules value (lower order program).rules) fact) :
    Datalog.Derivable (groundRules value (lower order' program').rules) fact := by
  induction h with
  | @intro head premises hinstance hpremises ih =>
    obtain ⟨rule, hrule, assignment, hhead, hconditions⟩ := hinstance
    rcases lower_mem_rules.mp hrule with hgenerated | ⟨said, hsaid, rfl⟩ | hclosing
    · exact .intro ⟨rule, haccepted.mem_rules.mpr (.inl hgenerated), assignment, hhead,
        hconditions⟩ ih
    · have htyped := hheads said hsaid assignment ⟨premises, hconditions, hpremises⟩
      obtain ⟨guards, hguards, hguardsHold⟩ := exists_memberships haccepted hlexed hsaid htyped
      refine .intro ⟨program.guardedRule said,
        haccepted.mem_rules.mpr (.inr (.inr (.inl ⟨said, hsaid, rfl⟩))), assignment, hhead,
        List.rel_append hguards hconditions⟩ ?_
      intro p hp
      rcases List.mem_append.mp hp with hp | hp
      · exact hguardsHold p hp
      · exact ih p hp
    · exact .intro ⟨rule, haccepted.mem_rules.mpr (.inr (.inr (.inr hclosing))), assignment, hhead,
        hconditions⟩ ih

/-! ### Typed least models -/

theorem exists_typed {typings : List (String × ArgumentType)} {vs : List V}
    (hvs : List.Forall₂ (Denotes value assignment) (typings.map Prod.fst) vs)
    (htyped : List.Forall₂ (program.InUniverse value) (typings.map Prod.snd) vs)
    {typing : String × ArgumentType} (htyping : typing ∈ typings) :
    ∃ v, Denotes value assignment typing.1 v ∧ program.InUniverse value typing.2 v := by
  induction typings generalizing vs with
  | nil => cases htyping
  | cons first typings ih =>
    obtain ⟨v, ws, hv, hws, rfl⟩ := List.forall₂_cons_left_iff.mp hvs
    obtain ⟨hfirst, hrest⟩ := List.forall₂_cons.mp htyped
    rcases List.mem_cons.mp htyping with rfl | htyping
    · exact ⟨v, hv, hfirst⟩
    · exact ih hws hrest htyping

include haccepted hwell in
theorem headArg_named {said : Principal × Assertion} (hsaid : said ∈ program.said)
    {typing : String × ArgumentType}
    (htyping : typing ∈ program.typingsOf said.2.lhs.baseFact) :
    typing.1 ∈ said.2.lhs.base.args ∧ typing.1 ≠ "_" := by
  have hmem : typing.1 ∈ said.2.lhs.base.args := by
    rw [← haccepted.headArgs said hsaid]
    exact List.mem_map_of_mem htyping
  refine ⟨hmem, fun hunderscore => ?_⟩
  exact underscore_notMem_base hwell hsaid (hunderscore ▸ hmem)

include haccepted hlexed hwell in
theorem typed_of_guarded (hagree : program.TypesAgree) {fact : GroundFact V}
    (h : Datalog.Derivable (groundRules value (lower order' program').rules) fact) :
    program.TypedFact value fact := by
  induction h with
  | @intro head premises hinstance hpremises ih =>
    obtain ⟨rule, hrule, assignment, hhead, hconditions⟩ := hinstance
    rcases haccepted.mem_rules.mp hrule with hgenerated |
      ⟨principal, hprincipal, htype, typing, htyping, rfl⟩ | ⟨said, hsaid, rfl⟩ | hclosing
    · exact typedFact_generated haccepted hlexed hwell hagree hgenerated hhead hconditions ih
    · exact typedFact_universe haccepted hlexed hwell
        (haccepted.universes typing ((haccepted.mem_constants typing).mp htyping).1) hhead.1
    · refine typedFact_main haccepted hlexed hsaid hagree hhead ?_
      intro typing htyping v hv
      cases hconstant : isNameConstant typing.1 with
      | true => exact inUniverse_constant (haccepted.heads said hsaid htyping) hconstant hv
      | false =>
        -- The membership condition of the argument is among the premises.
        have hcondition : makeUniverseMembershipFact typing.1 typing.2 ∈
            universeConditions (program.typingsOf said.2.lhs.baseFact) :=
          List.mem_map.mpr ⟨typing, List.mem_filter.mpr ⟨htyping, by simp [hconstant]⟩, rfl⟩
        have hmem : spokenCondition said.1 (makeUniverseMembershipFact typing.1 typing.2) ∈
            (program.guardedRule said).rhs :=
          List.mem_append_left _ (List.mem_map_of_mem hcondition)
        obtain ⟨⟨relation, args⟩, hpremise, hrelation, hargs⟩ :=
          forall₂_mem_right hconditions.flip hmem
        obtain ⟨s, _, -, hlast, rfl⟩ := List.forall₂_cons_left_iff.mp hargs
        obtain ⟨w, _, hw, hnil, rfl⟩ := List.forall₂_cons_left_iff.mp hlast
        cases hnil
        cases hrelation
        have huniverse := haccepted.universes typing (haccepted.heads said hsaid htyping)
        obtain rfl := hv.unique hw (headArg_named haccepted hwell hsaid htyping).2
        exact inUniverse_of_entails haccepted hwell huniverse (hpremises _ hpremise)
    · refine typedFact_closing haccepted hlexed hwell ?_
      rw [← hhead.2.length_eq, closingRule_args hclosing]

include haccepted hwell in
/-- A variable of the head has the value that it has in a typed premise. -/
theorem inUniverse_variable {said : Principal × Assertion} (hsaid : said ∈ program.said)
    {premises : List (GroundFact V)}
    (hpremises : List.Forall₂ (Predicate.HasInstance value assignment)
      (said.2.mainRule said.1).rhs premises)
    (htyped : ∀ p ∈ premises, program.TypedFact value p) {typing : String × ArgumentType}
    (htyping : typing ∈ program.typingsOf said.2.lhs.baseFact) (hvariable : IsVariable typing.1)
    {v : V} (hv : Denotes value assignment typing.1 v) :
    program.InUniverse value typing.2 v := by
  obtain ⟨hmem, hnamed⟩ := headArg_named haccepted hwell hsaid htyping
  obtain ⟨-, condition, hcondition, hoccurs⟩ := hwell.bound said hsaid typing.1 hmem hvariable
  have htexts := haccepted.conditionArgs said hsaid condition hcondition
  rw [← htexts] at hoccurs
  obtain ⟨⟨text, argType⟩, hother, htext⟩ := List.mem_map.mp hoccurs
  obtain rfl : text = typing.1 := htext
  have hsame : typing.2 = argType := by
    refine hwell.oneType said hsaid typing.1 hvariable hnamed typing.2 argType ?_ ?_
    · exact List.mem_append_left _ htyping
    · exact List.mem_append_right _ (List.mem_flatMap.mpr ⟨condition, hcondition, hother⟩)
  obtain ⟨premise, hpremise, hrelation, hargs⟩ :=
    forall₂_mem_right hpremises.flip (List.mem_map_of_mem hcondition)
  change List.Forall₂ _ (said.1.name :: (baseFactPredicate condition).args) _ at hargs
  have hlength : premise.args.length =
      ((program.typingsOf condition).map Prod.snd).length + 1 := by
    rw [← hargs.length_eq, List.length_cons, ← htexts, List.length_map, List.length_map]
  have hpremiseTyped :=
    htyped premise hpremise _ _ hrelation (.condition hsaid hcondition) hlength
  obtain ⟨s, vs, -, hvs, heq⟩ := List.forall₂_cons_left_iff.mp hargs
  rw [heq] at hpremiseTyped
  rw [← htexts] at hvs
  obtain ⟨w, hw, hwTyped⟩ := exists_typed hvs (List.forall₂_cons.mp hpremiseTyped).2 hother
  rw [hv.unique hw hnamed, hsame]
  exact hwTyped

include haccepted hlexed hwell in
/-- Without the universes every fact is typed, if no assertion fires with a literal in its head
that the insertion does not take for a constant. -/
theorem typed_of_derivable (hagree : program.TypesAgree)
    (hliterals : ∀ said ∈ program.said, ∀ assignment,
      Fires value (lower order program) said assignment →
      ∀ arg ∈ said.2.lhs.base.args, IsVariable arg ∨ isNameConstant arg = true)
    {fact : GroundFact V}
    (h : Datalog.Derivable (groundRules value (lower order program).rules) fact) :
    program.TypedFact value fact := by
  induction h with
  | @intro head premises hinstance hpremises ih =>
    obtain ⟨rule, hrule, assignment, hhead, hconditions⟩ := hinstance
    rcases lower_mem_rules.mp hrule with hgenerated | ⟨said, hsaid, rfl⟩ | hclosing
    · exact typedFact_generated haccepted hlexed hwell hagree hgenerated hhead hconditions ih
    · refine typedFact_main haccepted hlexed hsaid hagree hhead ?_
      intro typing htyping v hv
      rcases hliterals said hsaid assignment ⟨premises, hconditions, hpremises⟩ typing.1
        (headArg_named haccepted hwell hsaid htyping).1 with hvariable | hconstant
      · exact inUniverse_variable haccepted hwell hsaid hconditions ih htyping hvariable hv
      · exact inUniverse_constant (haccepted.heads said hsaid htyping) hconstant hv
    · refine typedFact_closing haccepted hlexed hwell ?_
      rw [← hhead.2.length_eq, closingRule_args hclosing]

include haccepted hlexed hwell in
theorem headsInUniverses_of_literals (hagree : program.TypesAgree)
    (hliterals : ∀ said ∈ program.said, ∀ assignment,
      Fires value (lower order program) said assignment →
      ∀ arg ∈ said.2.lhs.base.args, IsVariable arg ∨ isNameConstant arg = true) :
    program.HeadsInUniverses value (lower order program) := by
  intro said hsaid assignment hfires typing htyping hconstant v hv
  rcases hliterals said hsaid assignment hfires typing.1
    (headArg_named haccepted hwell hsaid htyping).1 with hvariable | hconstant'
  · obtain ⟨premises, hpremises, hderivable⟩ := hfires
    refine inUniverse_variable haccepted hwell hsaid hpremises ?_ htyping hvariable hv
    intro p hp
    exact typed_of_derivable haccepted hlexed hwell hagree hliterals (hderivable p hp)
  · rw [hconstant] at hconstant'
    cases hconstant'

/-! ### The same facts -/

include haccepted hlexed hwell in
theorem sameFacts_of_headsInUniverses
    (hheads : program.HeadsInUniverses value (lower order program)) :
    SameFacts value (lower order program) (lower order' program') := by
  intro relation args hrelation
  refine ⟨guarded_of_derivable haccepted hlexed hheads, fun h => ?_⟩
  refine derivable_of_guarded haccepted hwell h ?_
  intro universeName hlength hname
  exact HasRelation.not_universe hwell hrelation hlength hname

include haccepted hlexed hwell in
theorem headsInUniverses_of_sameFacts (hagree : program.TypesAgree)
    (h : SameFacts value (lower order program) (lower order' program')) :
    program.HeadsInUniverses value (lower order program) := by
  intro said hsaid assignment ⟨premises, hpremises, hderivable⟩ typing htyping hconstant v hv
  obtain ⟨args, hargs⟩ :=
    @exists_denotes V value assignment (said.2.mainRule said.1).lhs.args
  have hrule : said.2.mainRule said.1 ∈ (lower order program).rules := mainRule_mem hsaid
  have hplain : (lower order program).Entails value (said.2.mainRule said.1).lhs.name args :=
    .intro ⟨_, hrule, assignment, ⟨rfl, hargs⟩, hpremises⟩ hderivable
  have hguarded := (h _ args (.inr ⟨_, hrule, _, List.mem_cons_self .., rfl, hargs.length_eq⟩)).mp
    hplain
  have htypes := Program.Types.head hsaid le_rfl
  have htexts := typingsAt_args haccepted hsaid said.2.lhs.delegationChain.length
  rw [Fact.level_length] at htypes htexts
  change List.Forall₂ _ (said.1.name :: said.2.lhs.toPredicate.args) _ at hargs
  have htyped := typed_of_guarded haccepted hlexed hwell hagree hguarded _ _ rfl htypes (by
    rw [← hargs.length_eq, List.length_cons, ← htexts, List.length_map, List.length_map])
  obtain ⟨s, vs, -, hvs, rfl⟩ := List.forall₂_cons_left_iff.mp hargs
  rw [← htexts] at hvs
  obtain ⟨w, hw, hwTyped⟩ := exists_typed hvs (List.forall₂_cons.mp htyped).2
    (List.mem_append_right _ htyping)
  rw [hv.unique hw (headArg_named haccepted hwell hsaid htyping).2]
  exact hwTyped

end

end Raksha.AuthLogic
