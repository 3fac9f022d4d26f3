import Raksha.AuthLogic.GeneratedDeclarations
import Raksha.AuthLogic.RangeRestriction
import Raksha.AuthLogic.LeastModel

/-!
# Delegation in the least model

The generated rules are instances, one for each assertion, of what `canSay` and `canActAs` mean.
Together they close the least model under both.
-/

namespace Raksha.AuthLogic

/-! ### Programs without clashes of names -/

def Program.baseFacts (program : Program) : List BaseFact :=
  program.recordedFacts.map Fact.baseFact ++ program.conditions

def Program.IsRelation (program : Program) (name : String) : Prop :=
  (∃ declaration ∈ program.relationDeclarations, declaration.relationName = name) ∨
    ∃ baseFact ∈ program.baseFacts, (baseFactPredicate baseFact).name = name

/-- Neither negation nor comparisons, no variable of the form of the fresh ones and no relation of
the form of the generated ones. -/
structure Program.Plain (program : Program) : Prop where
  positive : ∀ baseFact ∈ program.baseFacts, (baseFactPredicate baseFact).sign = .positive
  noComparison : ∀ baseFact ∈ program.baseFacts, ¬ baseFact.IsComparison
  noFresh : ∀ baseFact ∈ program.baseFacts, ∀ n,
    freshName n ∉ (baseFactPredicate baseFact).args
  relations : ∀ name, program.IsRelation name → ∀ rest,
    name ≠ "says_" ++ rest ∧ name ≠ "canSay_" ++ rest

/-- The relation is asserted in the form `principal p(...)` only. -/
def Program.AssertsAsAttribute (program : Program) (relation : String) : Prop :=
  ∀ said ∈ program.said, said.2.lhs.base.name = relation →
    ∃ attr, said.2.lhs.baseFact = .attr attr

/-- What holds of a principal is passed on to those who can act as the principal. -/
def Program.PassesOn (program : Program) (relation : String) : Prop :=
  relation = "canActAs" ∨ (program.IsRelation relation ∧ program.AssertsAsAttribute relation)

/-- Whoever is delegated to speaks for the delegator, and whoever acts as a principal has all that
the principal has. -/
structure RealisesDelegation {V : Type} (value : String → V) (program : Program)
    (lowered : DatalogProgram) : Prop where
  delegation : ∀ q a b args, lowered.Entails value ("says_" ++ ("canSay_" ++ q)) (a :: b :: args) →
    lowered.Entails value ("says_" ++ q) (b :: args) →
    lowered.Entails value ("says_" ++ q) (a :: args)
  canActAs : ∀ p, program.PassesOn p → ∀ a x y args,
    lowered.Entails value "says_canActAs" [a, y, x] →
    lowered.Entails value ("says_" ++ p) (a :: x :: args) →
    lowered.Entails value ("says_" ++ p) (a :: y :: args)

/-! ### The rules of an assertion -/

/-- The predicate behind the first principals of the chain. -/
def Fact.level (fact : Fact) (k : ℕ) : Predicate :=
  chainPredicate (fact.delegationChain.take k) fact.base

theorem Fact.level_succ (fact : Fact) {k : ℕ} (hk : k < fact.delegationChain.length) :
    fact.level (k + 1) = pushPrincipal "canSay_" fact.delegationChain[k] (fact.level k) := by
  rw [level, List.take_succ_eq_append_getElem hk, chainPredicate, List.foldl_append,
    List.foldl_cons, List.foldl_nil]
  rfl

theorem Fact.level_name (fact : Fact) {k : ℕ} (hk : k ≤ fact.delegationChain.length) :
    (fact.level k).name = canSayName k fact.base.name := by
  rw [level, chainPredicate_eq, List.length_take, Nat.min_eq_left hk]

theorem Fact.level_length (fact : Fact) :
    fact.level fact.delegationChain.length = fact.toPredicate := by
  rw [level, List.take_length]
  rfl

/-- `speaker says fresh inner :- speaker says fresh canActAs x, speaker says x inner`. -/
def actingRule (speaker fresh : Principal) (x : String) (args : List String) (name : String)
    (sign : Sign) : Rule where
  lhs := ⟨"says_" ++ name, speaker.name :: fresh.name :: args, sign⟩
  rhs := [⟨"says_canActAs", [speaker.name, fresh.name, x], .positive⟩,
    ⟨"says_" ++ name, speaker.name :: x :: args, sign⟩]

variable {program : Program} {order : List (String × ℕ) → List (String × ℕ)}

theorem spokenRules_cases {n : ℕ} {speaker : Principal} {baseFact : BaseFact} {rule : Rule}
    (h : rule ∈ spokenRules n speaker baseFact) : ∃ x args sign,
      baseFactPredicate baseFact = ⟨(baseFactPredicate baseFact).name, x :: args, sign⟩ ∧
      rule = actingRule speaker ⟨freshName (n + 1)⟩ x args (baseFactPredicate baseFact).name
        sign := by
  cases baseFact with
  | predicate predicate => cases h
  | attr attr =>
    rw [spokenRules, List.mem_singleton] at h
    exact ⟨attr.principal.name, attr.predicate.args, attr.predicate.sign, rfl, h⟩
  | canActAs canActAs =>
    rw [spokenRules, List.mem_singleton] at h
    exact ⟨canActAs.leftPrincipal.name, [canActAs.rightPrincipal.name], .positive, rfl, h⟩

theorem exists_spokenRule (n : ℕ) (speaker : Principal) {baseFact : BaseFact}
    (h : ∀ predicate, baseFact ≠ .predicate predicate) :
    ∃ rule, rule ∈ spokenRules n speaker baseFact := by
  cases baseFact with
  | predicate predicate => exact absurd rfl (h predicate)
  | attr attr => exact ⟨_, List.mem_singleton_self _⟩
  | canActAs canActAs => exact ⟨_, List.mem_singleton_self _⟩

section

variable {n : ℕ} {speaker : Principal} {assertion : Assertion} {rule : Rule}

theorem spokenRule_mem
    (h : rule ∈ spokenRules (n + assertion.conditionVars) speaker assertion.lhs.baseFact) :
    rule ∈ assertion.rules n speaker :=
  List.mem_append_left _ (List.mem_append_left _ h)

theorem delegationRule_mem {k : ℕ} (hk : k < assertion.lhs.delegationChain.length) :
    ∃ m, delegationRule speaker ⟨freshName m⟩ (assertion.lhs.level k) ∈
      assertion.rules n speaker := by
  refine ⟨n + assertion.conditionVars + assertion.lhs.baseFact.freshVars + 1 + k, ?_⟩
  refine List.mem_append_left _ (List.mem_append_right _ ?_)
  rw [delegationRules_eq]
  exact List.mem_map.mpr ⟨k, List.mem_range.mpr hk, rfl⟩

/-- The head of a rule that is not spoken is the fact behind some of the principals. -/
theorem rules_cases (h : rule ∈ assertion.rules n speaker) :
    rule ∈ spokenRules (n + assertion.conditionVars) speaker assertion.lhs.baseFact ∨
      ∃ k ≤ assertion.lhs.delegationChain.length,
        rule.lhs = pushPrincipal "says_" speaker (assertion.lhs.level k) := by
  rcases List.mem_append.mp h with hgenerated | hmain
  · rcases List.mem_append.mp hgenerated with hspoken | hdelegation
    · exact .inl hspoken
    · rw [delegationRules_eq] at hdelegation
      obtain ⟨k, hk, rfl⟩ := List.mem_map.mp hdelegation
      exact .inr ⟨k, (List.mem_range.mp hk).le, rfl⟩
  · rw [List.mem_singleton.mp hmain]
    refine .inr ⟨_, le_rfl, ?_⟩
    rw [Fact.level_length]
    rfl

end

/-- A rule that does not come from an assertion has one argument. -/
theorem exists_said {rule : Rule} (hrule : rule ∈ (lower order program).rules)
    (hargs : rule.lhs.args.length ≠ 1) : ∃ said ∈ program.said, ∃ n,
      said.2.rules n said.1 ⊆ (lower order program).rules ∧ rule ∈ said.2.rules n said.1 := by
  rw [lower_rules, List.append_assoc] at hrule ⊢
  rcases List.mem_append.mp hrule with hassertion | hother
  · obtain ⟨block, hblock, hrule⟩ := List.mem_flatten.mp hassertion
    have hsub : block ⊆ (loweredAssertions program).flatten ++
        (program.queries.map queryRule ++ [⟨dummyPredicate, []⟩]) := by
      intro rule' hrule'
      exact List.mem_append_left _ (List.mem_flatten.mpr ⟨block, hblock, hrule'⟩)
    rw [loweredAssertions_eq] at hblock
    obtain ⟨n, said, hsaid, rfl⟩ := mem_mapDrawn hblock
    exact ⟨said, hsaid, n, hsub, hrule⟩
  · rcases List.mem_append.mp hother with hquery | hdummy
    · obtain ⟨query, -, rfl⟩ := List.mem_map.mp hquery
      exact absurd rfl hargs
    · rw [List.mem_singleton.mp hdummy] at hargs
      exact absurd rfl hargs

/-! ### Fresh principals -/

section

variable {said : Principal × Assertion} (h : program.Derivable) (hplain : program.Plain)
  (hsaid : said ∈ program.said)

include h hsaid in
theorem freshName_ne_speaker (m : ℕ) : said.1.name ≠ freshName m := by
  intro heq
  exact (freshName_isVariable m).not_quoted (heq ▸ (h.lexed.said said hsaid).1)

include hsaid in
theorem base_mem : said.2.lhs.baseFact ∈ program.baseFacts :=
  List.mem_append_left _ (List.mem_map_of_mem (mem_recordedFacts_said hsaid))

include hplain hsaid in
theorem freshName_notMem_base (m : ℕ) : freshName m ∉ said.2.lhs.base.args :=
  hplain.noFresh _ (base_mem hsaid) m

include h hplain hsaid in
theorem freshName_notMem_level (m k : ℕ) : freshName m ∉ (said.2.lhs.level k).args := by
  rw [Fact.level, chainPredicate_eq, List.mem_append, List.mem_reverse, List.mem_map]
  rintro (⟨delegatee, hdelegatee, hname⟩ | hmem)
  · have hquoted := (h.lexed.said said hsaid).2.lhs.chain delegatee (List.mem_of_mem_take hdelegatee)
    exact (freshName_isVariable m).not_quoted (hname ▸ hquoted)
  · exact freshName_notMem_base hplain hsaid m hmem

include hplain hsaid in
theorem base_ne_canSay (q : String) : said.2.lhs.base.name ≠ "canSay_" ++ q :=
  (hplain.relations _ (.inr ⟨_, base_mem hsaid, rfl⟩) q).2

end

/-! ### Closure -/

section

variable {V : Type} {value : String → V}

/-- A fact of the least model is an instance of the head of a rule. -/
theorem entails_cases {lowered : DatalogProgram} {relation : String} {args : List V}
    (h : lowered.Entails value relation args) : ∃ rule ∈ lowered.rules, ∃ assignment,
      relation = rule.lhs.name ∧ List.Forall₂ (Denotes value assignment) rule.lhs.args args := by
  obtain ⟨premises, ⟨rule, hrule, assignment, ⟨hname, hargs⟩, -⟩, -⟩ :=
    (Datalog.derivable_iff _).mp h
  exact ⟨rule, hrule, assignment, hname, hargs⟩

theorem says_inj {name name' : String} (h : "says_" ++ name = "says_" ++ name') : name = name' :=
  (String.append_right_inj _).mp h

variable (h : program.Derivable) (hplain : program.Plain)

include h hplain in
theorem delegation_closed {q : String} {a b : V} {args : List V}
    (hdelegates : (lower order program).Entails value ("says_" ++ ("canSay_" ++ q))
      (a :: b :: args))
    (hstated : (lower order program).Entails value ("says_" ++ q) (b :: args)) :
    (lower order program).Entails value ("says_" ++ q) (a :: args) := by
  obtain ⟨rule, hrule, assignment, hname, hargs⟩ := entails_cases hdelegates
  have hlength : rule.lhs.args.length ≠ 1 := by
    rw [hargs.length_eq, List.length_cons, List.length_cons]
    omega
  obtain ⟨said, hsaid, n, hblock, hmem⟩ := exists_said hrule hlength
  rcases rules_cases hmem with hspoken | ⟨k, hk, hlhs⟩
  · obtain ⟨x, rest, sign, -, rfl⟩ := spokenRules_cases hspoken
    exact absurd (says_inj hname).symm (base_ne_canSay hplain hsaid q)
  · rw [hlhs] at hname hargs
    have hlevel : "canSay_" ++ q = canSayName k said.2.lhs.base.name :=
      (says_inj hname).trans (said.2.lhs.level_name hk)
    cases k with
    | zero => exact absurd hlevel.symm (base_ne_canSay hplain hsaid q)
    | succ k =>
      -- The next lower delegation rule, with the delegated principal for its fresh variable.
      obtain rfl : q = (said.2.lhs.level k).name := by
        rw [said.2.lhs.level_name (Nat.le_of_succ_le hk)]
        exact (String.append_right_inj _).mp hlevel
      obtain ⟨m, hdelegation⟩ := @delegationRule_mem n said.1 said.2 k hk
      rw [said.2.lhs.level_succ hk] at hargs
      obtain ⟨hspeaker, hdelegatee⟩ := List.forall₂_cons.mp hargs
      obtain ⟨-, hinner⟩ := List.forall₂_cons.mp hdelegatee
      have hinner := forall₂_denotes_update hinner (freshName_notMem_level h hplain hsaid m k) b
      have hspeaker := hspeaker.update (freshName_ne_speaker h hsaid m) b
      have hfresh := @denotes_freshName V value assignment m b
      exact DatalogProgram.entails_of_rule (hblock hdelegation) (.cons hspeaker hinner)
        (.cons hfresh hinner) (.cons hspeaker (.cons hfresh hinner)) hstated hdelegates

theorem actingRule_closed {lowered : DatalogProgram} {speaker : Principal} {m : ℕ} {x : String}
    {texts : List String} {name : String} {sign : Sign} {assignment : String → V}
    (hrule : actingRule speaker ⟨freshName m⟩ x texts name sign ∈ lowered.rules)
    (hfresh : freshName m ∉ speaker.name :: x :: texts) {a v : V} {args statedArgs : List V}
    (hspeaker : Denotes value assignment speaker.name a)
    (hargs : List.Forall₂ (Denotes value assignment) texts args)
    (hx : Denotes value assignment x v)
    (hstatedArgs : List.Forall₂ (Denotes value assignment) (speaker.name :: x :: texts) statedArgs)
    (y : V) (hacts : lowered.Entails value "says_canActAs" [a, y, v])
    (hstated : lowered.Entails value ("says_" ++ name) statedArgs) :
    lowered.Entails value ("says_" ++ name) (a :: y :: args) := by
  have hstatedArgs := forall₂_denotes_update hstatedArgs hfresh y
  simp only [List.mem_cons, not_or] at hfresh
  have hspeaker := hspeaker.update (Ne.symm hfresh.1) y
  have hx := hx.update (Ne.symm hfresh.2.1) y
  have hargs := forall₂_denotes_update hargs hfresh.2.2 y
  have hself := @denotes_freshName V value assignment m y
  exact DatalogProgram.entails_of_rule hrule (.cons hspeaker (.cons hself hargs))
    (.cons hspeaker (.cons hself (.cons hx .nil))) hstatedArgs hacts hstated

theorem canActAs_ne_canSay (rest : String) : "canActAs" ≠ "canSay_" ++ rest := by
  intro heq
  have hchars := congrArg String.toList heq
  rw [String.toList_append] at hchars
  have hthird := congrArg (fun chars : List Char => chars[3]?) hchars
  rw [List.getElem?_append_left (by decide)] at hthird
  exact absurd hthird (by decide)

include hplain in
theorem passesOn_ne_canSay {p : String} (hp : program.PassesOn p) (rest : String) :
    p ≠ "canSay_" ++ rest := by
  rcases hp with rfl | ⟨hrelation, -⟩
  · exact canActAs_ne_canSay rest
  · exact (hplain.relations p hrelation rest).2

include h in
/-- A relation that is passed on is not asserted as a plain predicate. -/
theorem passesOn_ne_predicate {said : Principal × Assertion} (hsaid : said ∈ program.said)
    (hp : program.PassesOn said.2.lhs.base.name) (predicate : Predicate) :
    said.2.lhs.baseFact ≠ .predicate predicate := by
  intro heq
  rcases hp with hkeyword | ⟨-, hattribute⟩
  · have hlexed := (h.lexed.said said hsaid).2.lhs.baseFact
    rw [Fact.base, heq] at hkeyword
    rw [heq] at hlexed
    exact hlexed.noKeyword hkeyword
  · obtain ⟨attr, hattr⟩ := hattribute said hsaid rfl
    cases heq.symm.trans hattr

/-- The condition `speaker says fresh canActAs x` of an acting rule, in an instance. -/
theorem canActAs_args {speaker : Principal} {m : ℕ} {x : String} {assignment : String → V}
    {args : List V} {a y : V}
    (hargs : List.Forall₂ (Denotes value assignment) [speaker.name, freshName m, x] args)
    (hspeaker : Denotes value assignment speaker.name a) (hquoted : IsQuoted speaker.name)
    (hfresh : Denotes value assignment (freshName m) y) :
    ∃ w, Denotes value assignment x w ∧ args = [a, y, w] := by
  obtain ⟨a', later, hspeaker', hlater, rfl⟩ := List.forall₂_cons_left_iff.mp hargs
  obtain ⟨y', last, hfresh', hlast, rfl⟩ := List.forall₂_cons_left_iff.mp hlater
  obtain ⟨w, none, hw, hnone, rfl⟩ := List.forall₂_cons_left_iff.mp hlast
  cases List.forall₂_nil_left_iff.mp hnone
  have hnamed : speaker.name ≠ "_" := by
    rintro heq
    obtain ⟨inner, hinner⟩ := heq ▸ hquoted
    cases hinner
  refine ⟨w, hw, ?_⟩
  rw [hspeaker'.unique hspeaker hnamed, hfresh'.unique hfresh (freshName_ne_underscore m)]

include h hplain in
/-- By induction on the derivation of what the principal has. An acting rule leads back to what
the principal itself can act as. -/
theorem acting_closed {fact : GroundFact V}
    (hfact : Datalog.Derivable (groundRules value (lower order program).rules) fact) :
    ∀ p, program.PassesOn p → ∀ a x args, fact = ⟨"says_" ++ p, a :: x :: args⟩ → ∀ y,
      (lower order program).Entails value "says_canActAs" [a, y, x] →
      (lower order program).Entails value ("says_" ++ p) (a :: y :: args) := by
  induction hfact with
  | @intro head premises hinstance hpremises ih =>
    rintro p hp a x args rfl y hacts
    have hself : (lower order program).Entails value ("says_" ++ p) (a :: x :: args) :=
      .intro hinstance hpremises
    obtain ⟨rule, hrule, assignment, ⟨hname, hargs⟩, hconditions⟩ := hinstance
    have hlength : rule.lhs.args.length ≠ 1 := by
      rw [hargs.length_eq, List.length_cons, List.length_cons]
      omega
    obtain ⟨said, hsaid, n, hblock, hmem⟩ := exists_said hrule hlength
    have hfresh : ∀ m, freshName m ∉ said.1.name :: said.2.lhs.base.args := by
      intro m hmem
      rcases List.mem_cons.mp hmem with heq | hmem
      · exact freshName_ne_speaker h hsaid m heq.symm
      · exact freshName_notMem_base hplain hsaid m hmem
    rcases rules_cases hmem with hspoken | ⟨k, hk, hlhs⟩
    · obtain ⟨v, texts, sign, hbase, rfl⟩ := spokenRules_cases hspoken
      obtain rfl := says_inj hname
      rw [Fact.base, hbase] at hfresh
      obtain ⟨hspeaker, hargs⟩ := List.forall₂_cons.mp hargs
      obtain ⟨hacting, hargs⟩ := List.forall₂_cons.mp hargs
      obtain ⟨first, later, ⟨hfirst, hfirstArgs⟩, hlater, rfl⟩ :=
        List.forall₂_cons_left_iff.mp hconditions
      obtain ⟨second, none, ⟨hsecond, hsecondArgs⟩, -, rfl⟩ :=
        List.forall₂_cons_left_iff.mp hlater
      obtain ⟨w, hv, hfirstEq⟩ := canActAs_args hfirstArgs hspeaker (h.lexed.said said hsaid).1
        hacting
      have hactsFirst := ih first (List.mem_cons_self ..) "canActAs" (.inl rfl) a x [w]
        (congr (congrArg GroundFact.mk hfirst) hfirstEq) y hacts
      have hstated := hpremises second (List.mem_cons_of_mem _ (List.mem_cons_self ..))
      obtain ⟨relation, secondArgs⟩ := second
      cases hsecond
      exact actingRule_closed (hblock hmem) (hfresh _) hspeaker hargs hv hsecondArgs y hactsFirst
        hstated
    · rw [hlhs] at hname hargs
      have hlevel : p = canSayName k said.2.lhs.base.name :=
        (says_inj hname).trans (said.2.lhs.level_name hk)
      cases k with
      | succ k => exact absurd hlevel (passesOn_ne_canSay hplain hp _)
      | zero =>
        subst hlevel
        obtain ⟨acting, hacting⟩ := exists_spokenRule (n + said.2.conditionVars) said.1
          (passesOn_ne_predicate h hsaid hp)
        obtain ⟨v, texts, sign, hbase, rfl⟩ := spokenRules_cases hacting
        change List.Forall₂ _ (said.1.name :: said.2.lhs.base.args) _ at hargs
        rw [Fact.base, hbase] at hargs hfresh
        obtain ⟨hspeaker, hrest⟩ := List.forall₂_cons.mp hargs
        obtain ⟨hv, htexts⟩ := List.forall₂_cons.mp hrest
        exact actingRule_closed (hblock (spokenRule_mem hacting)) (hfresh _) hspeaker htexts hv
          hargs y hacts hself

end

theorem lower_realisesDelegation (order : List (String × ℕ) → List (String × ℕ))
    {program : Program} (h : program.Derivable) (hplain : program.Plain) {V : Type}
    (value : String → V) : RealisesDelegation value program (lower order program) where
  delegation := fun _ _ _ _ hdelegates hstated => delegation_closed h hplain hdelegates hstated
  canActAs := fun p hp a x y args hacts hstated =>
    acting_closed h hplain hstated p hp a x args rfl y hacts

/-- `.decl attribute p(n : Number) "A" says "B" canSay "D" p(7). "B" says "D" p(7).
"A" says "E" canActAs "D".` -/
def actingContext : ProgramContext where
  statement := .relationDeclaration ⟨true, "p", ("n", .numberType), []⟩
  statements := [
    .saysAssertion (.saysSingle "\"A\"" (.factAssertion (.canSayFact "\"B\""
      (.flatFactFact (.prinFact "\"D\"" (.predphrase ⟨false, "p", .number "7", []⟩))))) none),
    .saysAssertion (.saysSingle "\"B\"" (.factAssertion
      (.flatFactFact (.prinFact "\"D\"" (.predphrase ⟨false, "p", .number "7", []⟩)))) none),
    .saysAssertion (.saysSingle "\"A\"" (.factAssertion
      (.flatFactFact (.prinFact "\"E\"" (.actsAsPhrase "\"D\"")))) none)]

theorem actingContext_derivable : (constructProgram actingContext).Derivable := by
  refine ⟨".decl attribute p(n : Number) \"A\" says \"B\" canSay \"D\" p(7). " ++
    "\"B\" says \"D\" p(7). \"A\" says \"E\" canActAs \"D\".", actingContext, ?_, rfl⟩
  unfold Derives
  decide +kernel

theorem actingContext_baseFacts : (constructProgram actingContext).baseFacts =
    [.attr ⟨⟨"\"D\""⟩, ⟨"p", ["7"], .positive⟩⟩, .attr ⟨⟨"\"D\""⟩, ⟨"p", ["7"], .positive⟩⟩,
      .canActAs ⟨⟨"\"E\""⟩, ⟨"\"D\""⟩⟩] := rfl

theorem actingContext_plain : (constructProgram actingContext).Plain := by
  have hpredicates : ∀ baseFact ∈ (constructProgram actingContext).baseFacts,
      baseFactPredicate baseFact ∈ [(⟨"p", ["\"D\"", "7"], .positive⟩ : Predicate),
        ⟨"canActAs", ["\"E\"", "\"D\""], .positive⟩] := by
    rw [actingContext_baseFacts]
    decide
  have hname : ∀ name, (constructProgram actingContext).IsRelation name →
      name ∈ ["p", "canActAs"] := by
    rintro name (⟨declaration, hdeclaration, rfl⟩ | ⟨baseFact, hbaseFact, rfl⟩)
    · cases List.mem_singleton.mp hdeclaration
      exact List.mem_cons_self ..
    · exact List.mem_map_of_mem (f := Predicate.name) (hpredicates baseFact hbaseFact)
  refine ⟨?_, ?_, ?_, ?_⟩
  · rw [actingContext_baseFacts]
    decide
  · rw [actingContext_baseFacts]
    intro baseFact hbaseFact
    rintro ⟨operator, -, left, right, rfl⟩
    simp at hbaseFact
  · intro baseFact hbaseFact n hmem
    have hargs : ∀ predicate ∈ [(⟨"p", ["\"D\"", "7"], .positive⟩ : Predicate),
        ⟨"canActAs", ["\"E\"", "\"D\""], .positive⟩], ∀ arg ∈ predicate.args,
        arg.length ≤ 3 := by
      decide
    have hshort := hargs _ (hpredicates baseFact hbaseFact) _ hmem
    have hthree : "x__".length = 3 := rfl
    have hdigits : (Nat.repr n).length ≠ 0 := fun hzero =>
      Nat.repr_ne_empty (String.length_eq_zero_iff.mp hzero)
    rw [freshName, String.length_append] at hshort
    omega
  · intro name hrelation rest
    have hnames := hname name hrelation
    rw [List.mem_pair] at hnames
    constructor
    all_goals
      intro heq
      have hchars := congrArg String.toList heq
      rw [String.toList_append] at hchars
      rcases hnames with rfl | rfl <;> cases hchars

theorem actingContext_passesOn : (constructProgram actingContext).PassesOn "p" := by
  refine .inr ⟨.inl ⟨_, List.mem_singleton_self _, rfl⟩, ?_⟩
  have hsaid : (constructProgram actingContext).said =
      [(⟨"\"A\""⟩, .fact ⟨[⟨"\"B\""⟩], .attr ⟨⟨"\"D\""⟩, ⟨"p", ["7"], .positive⟩⟩⟩),
        (⟨"\"B\""⟩, .fact ⟨[], .attr ⟨⟨"\"D\""⟩, ⟨"p", ["7"], .positive⟩⟩⟩),
        (⟨"\"A\""⟩, .fact ⟨[], .canActAs ⟨⟨"\"E\""⟩, ⟨"\"D\""⟩⟩⟩)] := rfl
  intro said hmem hname
  rw [hsaid] at hmem
  simp only [List.mem_cons, List.not_mem_nil, or_false] at hmem
  rcases hmem with rfl | rfl | rfl
  · exact ⟨_, rfl⟩
  · exact ⟨_, rfl⟩
  · exact absurd hname (by decide)

/-- Here `"A"` says `p` of `"E"`, by delegation and by `canActAs`. -/
theorem acting_realisesDelegation : (constructProgram actingContext).PassesOn "p" ∧
    RealisesDelegation (id : String → String) (constructProgram actingContext)
      (lower id (constructProgram actingContext)) :=
  ⟨actingContext_passesOn,
    lower_realisesDelegation id actingContext_derivable actingContext_plain id⟩

end Raksha.AuthLogic
