import Raksha.AuthLogic.UniverseConditions

/-!
# What the principals say

Assertions, `canSay` and `canActAs` as rules about the principals themselves, and the least model
of a lowered program as exactly what they say.
-/

namespace Raksha.AuthLogic

/-! ### Sayings -/

/-- A fact with values for its texts, the outermost delegatee first. -/
inductive Saying (V : Type)
  | holds (relation : String) (args : List V)
  | canSay (delegatee : V) (saying : Saying V)

namespace Saying

variable {V : Type}

/-- The relation at the end of the chain. -/
def base : Saying V → String
  | holds relation _ => relation
  | canSay _ saying => saying.base

def relation : Saying V → String
  | holds relation _ => relation
  | canSay _ saying => "canSay_" ++ saying.relation

def args : Saying V → List V
  | holds _ args => args
  | canSay delegatee saying => delegatee :: saying.args

/-- The fact of the least model that stands for the saying of a speaker. -/
def ground (speaker : V) (saying : Saying V) : GroundFact V :=
  ⟨"says_" ++ saying.relation, speaker :: saying.args⟩

/-- Delegatees in front of the saying, starting with the innermost. -/
def behind (delegatees : List V) (saying : Saying V) : Saying V :=
  delegatees.foldl (fun saying delegatee => canSay delegatee saying) saying

end Saying

namespace BaseFact

def relation : BaseFact → String
  | predicate p => p.name
  | attr a => a.predicate.name
  | canActAs _ => "canActAs"

def arguments : BaseFact → List String
  | predicate p => p.args
  | attr a => a.principal.name :: a.predicate.args
  | canActAs c => [c.leftPrincipal.name, c.rightPrincipal.name]

end BaseFact

def Fact.delegatees {V : Type} (value : String → V) (fact : Fact) : List V :=
  fact.delegationChain.map fun delegatee => value delegatee.name

/-- The fact with these values for the arguments at the end of its chain. -/
def Fact.saying {V : Type} (value : String → V) (fact : Fact) (args : List V) : Saying V :=
  .behind (fact.delegatees value) (.holds fact.baseFact.relation args)

def Program.IsAttribute (program : Program) (relation : String) : Prop :=
  ∃ declaration ∈ program.relationDeclarations,
    declaration.relationName = relation ∧ declaration.isAttribute = true

section

variable {V : Type} (value : String → V) (program : Program)

/-- The principal says so: it asserts it, or it believes a delegatee, or the property belongs to
somebody it lets the principal of the property act as. -/
inductive Says : V → Saying V → Prop
  | asserted {speaker : Principal} {assertion : Assertion} {assignment : String → V}
      {args : List V} {conditionArgs : BaseFact → List V} :
      (speaker, assertion) ∈ program.said →
      List.Forall₂ (Denotes value assignment) assertion.lhs.baseFact.arguments args →
      (∀ condition ∈ assertion.rhs,
        List.Forall₂ (Denotes value assignment) condition.arguments (conditionArgs condition)) →
      (∀ condition ∈ assertion.rhs,
        Says (value speaker.name) (.holds condition.relation (conditionArgs condition))) →
      Says (value speaker.name) (assertion.lhs.saying value args)
  | canSay {speaker delegatee : V} {saying : Saying V} :
      Says speaker (.canSay delegatee saying) → Says delegatee saying → Says speaker saying
  | canActAs {speaker actor principal : V} {relation : String} {args : List V} :
      relation = "canActAs" ∨ program.IsAttribute relation →
      Says speaker (.holds "canActAs" [actor, principal]) →
      Says speaker (.holds relation (principal :: args)) →
      Says speaker (.holds relation (actor :: args))

/-- Some instance of the queried fact is said. -/
def Query.Holds (query : Query) : Prop :=
  ∃ assignment args, List.Forall₂ (Denotes value assignment) query.fact.baseFact.arguments args ∧
    Says value program (value query.principal.name) (query.fact.saying value args)

end

/-- Attributes are asserted of principals and other relations are not, no head has an anonymous
variable, and no query has the name of a generated relation. -/
structure Program.Regular (program : Program) : Prop extends program.Plain where
  attributes : ∀ said ∈ program.said, ∀ attr, said.2.lhs.baseFact = .attr attr →
    program.IsAttribute attr.predicate.name
  predicates : ∀ said ∈ program.said, ∀ predicate, said.2.lhs.baseFact = .predicate predicate →
    ¬ program.IsAttribute predicate.name
  namedHeads : ∀ said ∈ program.said, "_" ∉ said.2.lhs.baseFact.arguments
  queryNames : ∀ query ∈ program.queries, query.name ≠ "grounded_dummy" ∧
    ∀ rest, query.name ≠ "says_" ++ rest

/-! ### Names and arguments -/

section

variable {V : Type}

@[simp] theorem base_name (baseFact : BaseFact) :
    (baseFactPredicate baseFact).name = baseFact.relation := by
  cases baseFact with
  | predicate predicate => rfl
  | attr attr => exact String.empty_append
  | canActAs canActAs => rfl

@[simp] theorem base_args (baseFact : BaseFact) :
    (baseFactPredicate baseFact).args = baseFact.arguments := by
  cases baseFact <;> rfl

namespace Saying

theorem behind_append (delegatees : List V) (delegatee : V) (saying : Saying V) :
    behind (delegatees ++ [delegatee]) saying = canSay delegatee (behind delegatees saying) := by
  simp only [behind, List.foldl_append, List.foldl_cons, List.foldl_nil]

theorem behind_base (delegatees : List V) (saying : Saying V) :
    (behind delegatees saying).base = saying.base := by
  induction delegatees using List.reverseRecOn with
  | nil => rfl
  | append_singleton delegatees delegatee ih => rw [behind_append, base, ih]

theorem behind_relation (delegatees : List V) (saying : Saying V) :
    (behind delegatees saying).relation = canSayName delegatees.length saying.relation := by
  induction delegatees using List.reverseRecOn with
  | nil => rfl
  | append_singleton delegatees delegatee ih =>
    rw [behind_append, relation, ih, List.length_append]
    rfl

theorem behind_args (delegatees : List V) (saying : Saying V) :
    (behind delegatees saying).args = delegatees.reverse ++ saying.args := by
  induction delegatees using List.reverseRecOn with
  | nil => rfl
  | append_singleton delegatees delegatee ih =>
    rw [behind_append, args, ih, List.reverse_append]
    rfl

/-- A saying is determined by its name and arguments if its relation is none of the generated
ones. -/
theorem eq_of_relation {saying saying' : Saying V} (hbase : ∀ rest, saying.base ≠ "canSay_" ++ rest)
    (hbase' : ∀ rest, saying'.base ≠ "canSay_" ++ rest)
    (hrelation : saying.relation = saying'.relation) (hargs : saying.args = saying'.args) :
    saying = saying' := by
  induction saying generalizing saying' with
  | holds p vs =>
    cases saying' with
    | holds p' vs' => exact congr (congrArg holds hrelation) hargs
    | canSay b saying' => exact absurd hrelation (hbase _)
  | canSay b saying ih =>
    cases saying' with
    | holds p' vs' => exact absurd hrelation.symm (hbase' _)
    | canSay b' saying' =>
      have htail : saying.relation = saying'.relation := (String.append_right_inj _).mp hrelation
      obtain ⟨rfl, hrest⟩ : b = b' ∧ saying.args = saying'.args := List.cons.inj hargs
      have hinner : saying = saying' := ih hbase hbase' htail hrest
      rw [hinner]

end Saying

variable (value : String → V) (fact : Fact) (args : List V)

theorem Fact.saying_base : (fact.saying value args).base = fact.baseFact.relation :=
  Saying.behind_base _ _

theorem Fact.saying_relation :
    (fact.saying value args).relation = fact.toPredicate.name := by
  rw [Fact.saying, Saying.behind_relation, Fact.toPredicate, chainPredicate_eq, Fact.base,
    Fact.delegatees, List.length_map, base_name]
  rfl

theorem Fact.saying_args :
    (fact.saying value args).args = (fact.delegatees value).reverse ++ args :=
  Saying.behind_args _ _

/-! ### Instances of heads -/

theorem denotes_value {value : String → V} {assignment : String → V} {text : String}
    (hquoted : IsQuoted text) : Denotes value assignment text (value text) :=
  .constant fun hvariable => hvariable.not_quoted hquoted

variable {value fact} {assignment : String → V}

theorem forall₂_delegatees {chain : List Principal}
    (hquoted : ∀ delegatee ∈ chain, IsQuoted delegatee.name) :
    List.Forall₂ (Denotes value assignment) (chain.map Principal.name)
      (chain.map fun delegatee => value delegatee.name) := by
  rw [List.forall₂_map_left_iff, List.forall₂_map_right_iff, List.forall₂_same]
  exact fun delegatee hdelegatee => denotes_value (hquoted delegatee hdelegatee)

theorem Fact.toPredicate_args (fact : Fact) : fact.toPredicate.args =
    (fact.delegationChain.map Principal.name).reverse ++ fact.baseFact.arguments := by
  rw [Fact.toPredicate, chainPredicate_eq, Fact.base, base_args]

/-- The instances of the lowered fact are its sayings. -/
theorem Fact.denotes_iff (hlexed : fact.Lexed) {vs : List V} :
    List.Forall₂ (Denotes value assignment) fact.toPredicate.args vs ↔
      ∃ args, List.Forall₂ (Denotes value assignment) fact.baseFact.arguments args ∧
        vs = (fact.saying value args).args := by
  have hchain : List.Forall₂ (Denotes value assignment)
      (fact.delegationChain.map Principal.name).reverse (fact.delegatees value).reverse :=
    List.forall₂_reverse_iff.mpr (forall₂_delegatees hlexed.chain)
  have hnamed : "_" ∉ (fact.delegationChain.map Principal.name).reverse := by
    rw [List.mem_reverse, List.mem_map]
    rintro ⟨delegatee, hdelegatee, hname⟩
    obtain ⟨inner, hinner⟩ := hname ▸ hlexed.chain delegatee hdelegatee
    cases hinner
  rw [Fact.toPredicate_args]
  constructor
  · intro h
    obtain ⟨delegated, args, rfl, hdelegated, hargs⟩ := forall₂_append_left h
    refine ⟨args, hargs, ?_⟩
    rw [forall₂_denotes_unique hdelegated hchain hnamed, Fact.saying_args]
  · rintro ⟨args, hargs, rfl⟩
    rw [Fact.saying_args]
    exact List.rel_append hchain hargs

end

/-! ### What is said is in the least model -/

section

variable {V : Type} {value : String → V} {program : Program}
  {order : List (String × ℕ) → List (String × ℕ)}

theorem Program.IsAttribute.isRelation {relation : String} (h : program.IsAttribute relation) :
    program.IsRelation relation := by
  obtain ⟨declaration, hdeclaration, hname, -⟩ := h
  exact .inl ⟨declaration, hdeclaration, hname⟩

theorem Program.Regular.passesOn (hregular : program.Regular) (hlexed : program.Lexed)
    {relation : String} (h : relation = "canActAs" ∨ program.IsAttribute relation) :
    program.PassesOn relation := by
  rcases h with hacts | hattribute
  · exact .inl hacts
  · refine .inr ⟨hattribute.isRelation, ?_⟩
    intro said hsaid hname
    rw [Fact.base, base_name] at hname
    cases hbase : said.2.lhs.baseFact with
    | predicate predicate =>
      obtain rfl : predicate.name = relation := by rw [← hname, hbase]; rfl
      exact absurd hattribute (hregular.predicates said hsaid predicate hbase)
    | attr attr => exact ⟨attr, rfl⟩
    | canActAs canActAs =>
      rw [hbase] at hname
      obtain ⟨declaration, hdeclaration, hdeclared, -⟩ := hattribute
      exact absurd (hdeclared.trans hname.symm) (hlexed.declarations declaration hdeclaration).2

theorem entails_of_says (h : program.Derivable) (hregular : program.Regular) {speaker : V}
    {saying : Saying V} (hsaying : Says value program speaker saying) :
    (lower order program).Entails value (saying.ground speaker).relation
      (saying.ground speaker).args := by
  induction hsaying with
  | @asserted speaker assertion assignment args conditionArgs hsaid hargs hconditions _ ih =>
    obtain ⟨hspeaker, hlexed⟩ := h.lexed.said _ hsaid
    have hdenotes : Denotes value assignment speaker.name (value speaker.name) :=
      denotes_value hspeaker
    have hpremises : ∀ fact ∈ assertion.rhs.map fun condition =>
          (Saying.holds condition.relation (conditionArgs condition)).ground (value speaker.name),
        Datalog.Derivable (groundRules value (lower order program).rules) fact := by
      intro fact hfact
      obtain ⟨condition, hcondition, rfl⟩ := List.mem_map.mp hfact
      exact ih condition hcondition
    refine .intro ⟨assertion.mainRule speaker, mainRule_mem hsaid, assignment, ⟨?_, ?_⟩, ?_⟩
      hpremises
    · exact congrArg ("says_" ++ ·) (Fact.saying_relation value assertion.lhs args)
    · exact .cons hdenotes ((Fact.denotes_iff hlexed.lhs).mpr ⟨args, hargs, rfl⟩)
    · rw [Assertion.mainRule, List.forall₂_map_left_iff, List.forall₂_map_right_iff,
        List.forall₂_same]
      intro condition hcondition
      refine ⟨congrArg ("says_" ++ ·) (base_name condition).symm, .cons hdenotes ?_⟩
      rw [base_args]
      exact hconditions condition hcondition
  | canSay _ _ hdelegates hstated =>
    exact delegation_closed h hregular.toPlain hdelegates hstated
  | canActAs hpasses _ _ hacts hstated =>
    exact acting_closed h hregular.toPlain hstated _ (hregular.passesOn h.lexed hpasses) _ _ _ rfl
      _ hacts

/-! ### What is in the least model is said -/

theorem mem_rules_cases {rule : Rule} (hrule : rule ∈ (lower order program).rules) :
    (∃ said ∈ program.said, ∃ n, rule ∈ spokenRules n said.1 said.2.lhs.baseFact ∨
      (∃ k < said.2.lhs.delegationChain.length,
        rule = delegationRule said.1 ⟨freshName n⟩ (said.2.lhs.level k)) ∨
      rule = said.2.mainRule said.1) ∨
    rule ∈ program.queries.map queryRule ++ [⟨dummyPredicate, []⟩] := by
  rcases lower_mem_rules.mp hrule with hgenerated | ⟨said, hsaid, rfl⟩ | hclosing
  · obtain ⟨said, hsaid, n, hgenerated⟩ := mem_generatedRules hgenerated
    rcases List.mem_append.mp hgenerated with hspoken | hdelegation
    · exact .inl ⟨said, hsaid, _, .inl hspoken⟩
    · rw [delegationRules_eq] at hdelegation
      obtain ⟨k, hk, rfl⟩ := List.mem_map.mp hdelegation
      exact .inl ⟨said, hsaid, _, .inr (.inl ⟨k, List.mem_range.mp hk, rfl⟩)⟩
  · exact .inl ⟨said, hsaid, 0, .inr (.inr rfl)⟩
  · exact .inr hclosing

theorem closingRule_ne_saying (hregular : program.Regular) {rule : Rule}
    (h : rule ∈ program.queries.map queryRule ++ [⟨dummyPredicate, []⟩]) (rest : String) :
    rule.lhs.name ≠ "says_" ++ rest := by
  rcases List.mem_append.mp h with hquery | hdummy
  · obtain ⟨query, hmem, rfl⟩ := List.mem_map.mp hquery
    exact (hregular.queryNames query hmem).2 rest
  · rw [List.mem_singleton.mp hdummy]
    intro heq
    have hchars := congrArg String.toList heq
    rw [String.toList_append] at hchars
    cases hchars

/-- The saying is about a relation of the program. -/
def Saying.Plain (saying : Saying V) : Prop := ∀ rest, saying.base ≠ "canSay_" ++ rest

section

variable (h : program.Derivable) (hregular : program.Regular) {said : Principal × Assertion}
  (hsaid : said ∈ program.said) {assignment : String → V} {speaker : V} {saying : Saying V}
  (hplain : saying.Plain) {premises : List (GroundFact V)}
  (ih : ∀ fact ∈ premises, ∀ speaker saying, fact = Saying.ground speaker saying → saying.Plain →
    Says value program speaker saying)

include hregular hsaid in
theorem saidRelation_ne_canSay (rest : String) :
    said.2.lhs.baseFact.relation ≠ "canSay_" ++ rest := by
  rw [← base_name]
  exact base_ne_canSay hregular.toPlain hsaid rest

include h hsaid in
theorem speaker_eq {v : V} (hv : Denotes value assignment said.1.name v) :
    v = value said.1.name :=
  hv.eq_value (h.lexed.said said hsaid).1.isNameConstant

include hregular hsaid in
theorem condition_ne_canSay {condition : BaseFact} (hcondition : condition ∈ said.2.rhs)
    (rest : String) : condition.relation ≠ "canSay_" ++ rest := by
  have hmem : condition ∈ program.baseFacts :=
    List.mem_append_right _ (List.mem_flatMap.mpr ⟨said, hsaid, hcondition⟩)
  rw [← base_name]
  exact (hregular.relations _ (.inr ⟨condition, hmem, rfl⟩) rest).2

include h hregular hsaid in
theorem anonymous_notMem_level (k : ℕ) : "_" ∉ (said.2.lhs.level k).args := by
  rw [Fact.level, chainPredicate_eq, List.mem_append, List.mem_reverse, List.mem_map, Fact.base,
    base_args]
  rintro (⟨delegatee, hdelegatee, hname⟩ | hmem)
  · have hquoted := (h.lexed.said said hsaid).2.lhs.chain delegatee
      (List.mem_of_mem_take hdelegatee)
    exact isVariable_underscore.not_quoted (hname ▸ hquoted)
  · exact hregular.namedHeads said hsaid hmem

/-- The speaker says the conditions of its assertion, for these values of the variables. -/
def Met (value : String → V) (program : Program) (said : Principal × Assertion)
    (assignment : String → V) : Prop :=
  ∀ condition ∈ said.2.rhs, ∃ conditionArgs,
    List.Forall₂ (Denotes value assignment) condition.arguments conditionArgs ∧
    Says value program (value said.1.name) (.holds condition.relation conditionArgs)

include h hregular hsaid ih in
theorem met_of_premises (hconditions : List.Forall₂ (Predicate.HasInstance value assignment)
      (said.2.mainRule said.1).rhs premises) : Met value program said assignment := by
  intro condition hcondition
  obtain ⟨fact, hfact, hinstance⟩ := forall₂_mem_right hconditions.flip
    (List.mem_map_of_mem hcondition)
  obtain ⟨hrelation, hfactArgs⟩ : (spokenCondition said.1 condition).HasInstance value
    assignment fact := hinstance
  obtain ⟨speaker, conditionArgs, hspeaker, hconditionArgs, hfactArgs⟩ :=
    List.forall₂_cons_left_iff.mp hfactArgs
  obtain rfl := speaker_eq h hsaid hspeaker
  rw [base_args] at hconditionArgs
  refine ⟨conditionArgs, hconditionArgs, ih fact hfact _ _ ?_ ?_⟩
  · obtain ⟨relation, factArgs⟩ := fact
    obtain rfl : relation = "says_" ++ (baseFactPredicate condition).name := hrelation
    obtain rfl : factArgs = value said.1.name :: conditionArgs := hfactArgs
    rw [base_name]
    rfl
  · exact condition_ne_canSay hregular hsaid hcondition

include h hregular hsaid hplain ih in
theorem says_of_mainRule (hname : "says_" ++ saying.relation = (said.2.mainRule said.1).lhs.name)
    (hargs : List.Forall₂ (Denotes value assignment) (said.2.mainRule said.1).lhs.args
      (speaker :: saying.args))
    (hconditions : List.Forall₂ (Predicate.HasInstance value assignment)
      (said.2.mainRule said.1).rhs premises) : Says value program speaker saying := by
  obtain ⟨hspeaker, hvs⟩ := List.forall₂_cons.mp hargs
  obtain rfl := speaker_eq h hsaid hspeaker
  obtain ⟨args, hdenotes, hvs⟩ :=
    (Fact.denotes_iff (h.lexed.said said hsaid).2.lhs).mp hvs
  have hsaying : saying = said.2.lhs.saying value args := by
    refine Saying.eq_of_relation hplain ?_ ?_ hvs
    · rw [Fact.saying_base]
      exact saidRelation_ne_canSay hregular hsaid
    · rw [Fact.saying_relation]
      exact says_inj hname
  have hsaid' := met_of_premises h hregular hsaid ih hconditions
  choose! conditionArgs hconditionArgs hconditions' using hsaid'
  rw [hsaying]
  exact .asserted hsaid hdenotes hconditionArgs hconditions'

include h hregular hsaid hplain ih in
theorem says_of_delegationRule {n k : ℕ}
    (hname : "says_" ++ saying.relation = "says_" ++ (said.2.lhs.level k).name)
    (hargs : List.Forall₂ (Denotes value assignment) (said.1.name :: (said.2.lhs.level k).args)
      (speaker :: saying.args))
    (hconditions : List.Forall₂ (Predicate.HasInstance value assignment)
      (delegationRule said.1 ⟨freshName n⟩ (said.2.lhs.level k)).rhs premises) :
    Says value program speaker saying := by
  obtain ⟨hspeaker, hvs⟩ := List.forall₂_cons.mp hargs
  obtain rfl := speaker_eq h hsaid hspeaker
  have hnamed := anonymous_notMem_level h hregular hsaid k
  obtain ⟨stated, later, ⟨hstated, hstatedArgs⟩, hlater, rfl⟩ :=
    List.forall₂_cons_left_iff.mp hconditions
  obtain ⟨delegates, none, ⟨hdelegates, hdelegatesArgs⟩, -, rfl⟩ :=
    List.forall₂_cons_left_iff.mp hlater
  obtain ⟨delegatee, ws, hdelegatee, hws, hstatedArgs⟩ :=
    List.forall₂_cons_left_iff.mp hstatedArgs
  obtain rfl := forall₂_denotes_unique hws hvs hnamed
  obtain ⟨speaker, us, hspeaker', hus, hdelegatesArgs⟩ :=
    List.forall₂_cons_left_iff.mp hdelegatesArgs
  obtain ⟨delegatee', ws', hdelegatee', hws', rfl⟩ := List.forall₂_cons_left_iff.mp hus
  obtain rfl := speaker_eq h hsaid hspeaker'
  obtain rfl := forall₂_denotes_unique hws' hvs hnamed
  obtain rfl := hdelegatee'.unique hdelegatee (freshName_ne_underscore n)
  have hlevel : saying.relation = (said.2.lhs.level k).name := says_inj hname
  have hdelegated : Says value program (value said.1.name) (.canSay delegatee' saying) := by
    refine ih delegates (List.mem_cons_of_mem _ (List.mem_cons_self ..)) _ _ ?_ hplain
    obtain ⟨relation, factArgs⟩ := delegates
    rw [Saying.ground, Saying.relation, hlevel]
    exact congr (congrArg GroundFact.mk hdelegates) hdelegatesArgs
  have hbelieved : Says value program delegatee' saying := by
    refine ih stated (List.mem_cons_self ..) _ _ ?_ hplain
    obtain ⟨relation, factArgs⟩ := stated
    rw [Saying.ground, hlevel]
    exact congr (congrArg GroundFact.mk hstated) hstatedArgs
  exact .canSay hdelegated hbelieved

include hregular hsaid in
theorem spokenRules_passes {n : ℕ} {rule : Rule}
    (hspoken : rule ∈ spokenRules n said.1 said.2.lhs.baseFact) :
    said.2.lhs.baseFact.relation = "canActAs" ∨
      program.IsAttribute said.2.lhs.baseFact.relation := by
  cases hbase : said.2.lhs.baseFact with
  | predicate predicate =>
    rw [hbase] at hspoken
    cases hspoken
  | attr attr => exact .inr (hregular.attributes said hsaid attr hbase)
  | canActAs canActAs => exact .inl rfl

include h hregular hsaid hplain ih in
theorem says_of_spokenRule {n : ℕ} {rule : Rule}
    (hspoken : rule ∈ spokenRules n said.1 said.2.lhs.baseFact)
    (hname : "says_" ++ saying.relation = rule.lhs.name)
    (hargs : List.Forall₂ (Denotes value assignment) rule.lhs.args (speaker :: saying.args))
    (hconditions : List.Forall₂ (Predicate.HasInstance value assignment) rule.rhs premises) :
    Says value program speaker saying := by
  have hpasses := spokenRules_passes hregular hsaid hspoken
  obtain ⟨x, texts, sign, hbase, rfl⟩ := spokenRules_cases hspoken
  rw [base_name] at hname hconditions
  obtain ⟨hspeaker, hvs⟩ := List.forall₂_cons.mp hargs
  have hnamed : "_" ∉ x :: texts := by
    have htexts : said.2.lhs.baseFact.arguments = x :: texts := by rw [← base_args, hbase]
    rw [← htexts]
    exact hregular.namedHeads said hsaid
  obtain ⟨actor, args, hactor, hrest, hsayingArgs⟩ := List.forall₂_cons_left_iff.mp hvs
  obtain ⟨acts, later, ⟨hacts, hactsArgs⟩, hlater, rfl⟩ := List.forall₂_cons_left_iff.mp hconditions
  obtain ⟨stated, none, ⟨hstated, hstatedArgs⟩, -, rfl⟩ := List.forall₂_cons_left_iff.mp hlater
  obtain ⟨principal, hprincipal, hactsEq⟩ := canActAs_args hactsArgs hspeaker
    (h.lexed.said said hsaid).1 hactor
  obtain ⟨speaker', us, hspeaker', hus, hstatedArgs⟩ := List.forall₂_cons_left_iff.mp hstatedArgs
  obtain rfl := speaker_eq h hsaid hspeaker
  obtain rfl := speaker_eq h hsaid hspeaker'
  obtain rfl := forall₂_denotes_unique hus (.cons hprincipal hrest) hnamed
  have hsaying : saying = .holds said.2.lhs.baseFact.relation (actor :: args) := by
    refine Saying.eq_of_relation hplain (saidRelation_ne_canSay hregular hsaid) ?_ hsayingArgs
    exact says_inj hname
  have hactsSaid :
      Says value program (value said.1.name) (.holds "canActAs" [actor, principal]) := by
    refine ih acts (List.mem_cons_self ..) _ _ ?_ canActAs_ne_canSay
    obtain ⟨relation, factArgs⟩ := acts
    exact congr (congrArg GroundFact.mk hacts) hactsEq
  have hstatedSaid : Says value program (value said.1.name)
      (.holds said.2.lhs.baseFact.relation (principal :: args)) := by
    refine ih stated (List.mem_cons_of_mem _ (List.mem_cons_self ..)) _ _ ?_
      (saidRelation_ne_canSay hregular hsaid)
    obtain ⟨relation, factArgs⟩ := stated
    exact congr (congrArg GroundFact.mk hstated) hstatedArgs
  rw [hsaying]
  exact .canActAs hpasses hactsSaid hstatedSaid

end

theorem says_of_entails (h : program.Derivable) (hregular : program.Regular) {fact : GroundFact V}
    (hfact : Datalog.Derivable (groundRules value (lower order program).rules) fact) :
    ∀ speaker saying, fact = Saying.ground speaker saying → saying.Plain →
      Says value program speaker saying := by
  induction hfact with
  | @intro head premises hinstance _ ih =>
    rintro speaker saying rfl hplain
    obtain ⟨rule, hrule, assignment, ⟨hname, hargs⟩, hconditions⟩ := hinstance
    rcases mem_rules_cases hrule with ⟨said, hsaid, n, hcases⟩ | hclosing
    · rcases hcases with hspoken | ⟨k, hk, rfl⟩ | rfl
      · exact says_of_spokenRule h hregular hsaid hplain ih hspoken hname hargs hconditions
      · exact says_of_delegationRule h hregular hsaid hplain ih hname hargs hconditions
      · exact says_of_mainRule h hregular hsaid hplain ih hname hargs hconditions
    · exact absurd hname.symm (closingRule_ne_saying hregular hclosing _)

/-- The least model of a lowered program has exactly what the principals say. -/
theorem lower_entails_iff_saying (order : List (String × ℕ) → List (String × ℕ))
    (value : String → V) (h : program.Derivable) (hregular : program.Regular) (speaker : V)
    (saying : Saying V) (hplain : saying.Plain) :
    (lower order program).Entails value ("says_" ++ saying.relation) (speaker :: saying.args) ↔
      Says value program speaker saying :=
  ⟨fun hentails => says_of_entails h hregular hentails speaker saying rfl hplain,
    entails_of_says h hregular⟩

/-! ### Queries -/

theorem saidRule_says {rule : Rule} {said : Principal × Assertion} {n : ℕ}
    (hcases : rule ∈ spokenRules n said.1 said.2.lhs.baseFact ∨
      (∃ k < said.2.lhs.delegationChain.length,
        rule = delegationRule said.1 ⟨freshName n⟩ (said.2.lhs.level k)) ∨
      rule = said.2.mainRule said.1) : ∃ rest, rule.lhs.name = "says_" ++ rest := by
  rcases hcases with hspoken | ⟨k, -, rfl⟩ | rfl
  · obtain ⟨x, texts, sign, -, rfl⟩ := spokenRules_cases hspoken
    exact ⟨_, rfl⟩
  · exact ⟨_, rfl⟩
  · exact ⟨_, rfl⟩

theorem Program.Regular.querySaying_plain (hregular : program.Regular) {query : Query}
    (hquery : query ∈ program.queries) (args : List V) : (query.fact.saying value args).Plain := by
  have hmem : query.fact.baseFact ∈ program.baseFacts :=
    List.mem_append_left _ (List.mem_map_of_mem (mem_recordedFacts_query hquery))
  intro rest
  rw [Fact.saying_base, ← base_name]
  exact (hregular.relations _ (.inr ⟨_, hmem, rfl⟩) rest).2

theorem entails_dummy : (lower order program).Entails value "grounded_dummy"
    [value "\"dummy_var\""] := by
  have hrule : ⟨dummyPredicate, []⟩ ∈ (lower order program).rules :=
    lower_mem_rules.mpr (.inr (.inr (List.mem_append_right _ (List.mem_singleton_self _))))
  exact Datalog.Derivable.fact ⟨_, hrule, value, ⟨rfl, .cons (.constant not_isVariable_dummy) .nil⟩,
    .nil⟩

theorem holds_of_entails (h : program.Derivable) (hregular : program.Regular) {name : String}
    {args : List V} (hname : name ≠ "grounded_dummy" ∧ ∀ rest, name ≠ "says_" ++ rest)
    (hentails : (lower order program).Entails value name args) :
    args = [value "\"dummy_var\""] ∧
      ∃ query ∈ program.queries, query.name = name ∧ query.Holds value program := by
  obtain ⟨premises, ⟨rule, hrule, assignment, ⟨hhead, hargs⟩, hconditions⟩, hpremises⟩ :=
    (Datalog.derivable_iff _).mp hentails
  rcases mem_rules_cases hrule with ⟨said, -, n, hcases⟩ | hclosing
  · obtain ⟨rest, hsaying⟩ := saidRule_says hcases
    exact absurd (hhead.trans hsaying) (hname.2 rest)
  rcases List.mem_append.mp hclosing with hmem | hdummy
  · obtain ⟨query, hquery, rfl⟩ := List.mem_map.mp hmem
    obtain ⟨-, hquoted, hlexed⟩ := h.lexed.queries query hquery
    obtain ⟨dummy, none, hdummy, hnone, rfl⟩ := List.forall₂_cons_left_iff.mp hargs
    obtain rfl := List.forall₂_nil_left_iff.mp hnone
    obtain rfl : dummy = value "\"dummy_var\"" :=
      hdummy.eq_value (IsQuoted.isNameConstant ⟨"dummy_var".toList, by decide⟩)
    obtain ⟨⟨relation, saidArgs⟩, later, ⟨hrelation, hsaidArgs⟩, -, rfl⟩ :=
      List.forall₂_cons_left_iff.mp hconditions
    obtain ⟨speaker, vs, hspeaker, hvs, rfl⟩ := List.forall₂_cons_left_iff.mp hsaidArgs
    obtain rfl : speaker = value query.principal.name := hspeaker.eq_value hquoted.isNameConstant
    obtain ⟨factArgs, hfactArgs, rfl⟩ := (Fact.denotes_iff hlexed).mp hvs
    have hsaid := hpremises _ (List.mem_cons_self ..)
    obtain rfl : relation = "says_" ++ (query.fact.saying value factArgs).relation := by
      rw [Fact.saying_relation]
      exact hrelation
    refine ⟨rfl, query, hquery, hhead.symm, assignment, factArgs, hfactArgs, ?_⟩
    exact says_of_entails h hregular hsaid _ _ rfl (hregular.querySaying_plain hquery factArgs)
  · rw [List.mem_singleton.mp hdummy] at hhead
    exact absurd hhead hname.1

theorem entails_of_holds (h : program.Derivable) (hregular : program.Regular) {query : Query}
    (hquery : query ∈ program.queries) (hholds : query.Holds value program) :
    (lower order program).Entails value query.name [value "\"dummy_var\""] := by
  obtain ⟨assignment, factArgs, hfactArgs, hsaying⟩ := hholds
  obtain ⟨-, hquoted, hlexed⟩ := h.lexed.queries query hquery
  have hrule : queryRule query ∈ (lower order program).rules :=
    lower_mem_rules.mpr (.inr (.inr (List.mem_append_left _ (List.mem_map_of_mem hquery))))
  have hsaid : (lower order program).Entails value
      ("says_" ++ (query.fact.saying value factArgs).relation)
      (value query.principal.name :: (query.fact.saying value factArgs).args) :=
    entails_of_says h hregular hsaying
  rw [Fact.saying_relation] at hsaid
  have hdummy : List.Forall₂ (Denotes value assignment) ["\"dummy_var\""]
      [value "\"dummy_var\""] := .cons (.constant not_isVariable_dummy) .nil
  exact DatalogProgram.entails_of_rule hrule hdummy (.cons (denotes_value hquoted)
    ((Fact.denotes_iff hlexed).mpr ⟨factArgs, hfactArgs, rfl⟩)) hdummy hsaid entails_dummy

/-- A relation of the lowered program that is not spoken has the answers of queries. -/
theorem lower_entails_iff_holds (order : List (String × ℕ) → List (String × ℕ)) (value : String → V)
    (h : program.Derivable) (hregular : program.Regular) (name : String) (args : List V)
    (hname : name ≠ "grounded_dummy" ∧ ∀ rest, name ≠ "says_" ++ rest) :
    (lower order program).Entails value name args ↔ args = [value "\"dummy_var\""] ∧
      ∃ query ∈ program.queries, query.name = name ∧ query.Holds value program := by
  constructor
  · intro hentails
    exact holds_of_entails h hregular hname hentails
  · rintro ⟨rfl, query, hquery, rfl, hholds⟩
    exact entails_of_holds h hregular hquery hholds

end

/-! ### A delegation with a bystander -/

/-- `.decl p(n : Number) "A" says "B" canSay p(x). "B" says p(3). "C" says p(...).
q = query "A" says p(3)?`, with any number for the bystander. -/
def bystanderContext (number : String) : ProgramContext where
  statement := .relationDeclaration ⟨false, "p", ("n", .numberType), []⟩
  statements := [
    .saysAssertion (.saysSingle "\"A\"" (.factAssertion (.canSayFact "\"B\""
      (.flatFactFact (.predFact (unaryPredicate "p" "x"))))) none),
    .saysAssertion (.saysSingle "\"B\"" (.factAssertion
      (.flatFactFact (.predFact ⟨false, "p", .number "3", []⟩))) none),
    .saysAssertion (.saysSingle "\"C\"" (.factAssertion
      (.flatFactFact (.predFact ⟨false, "p", .number number, []⟩))) none),
    .query ⟨"q", "\"A\"", .flatFactFact (.predFact ⟨false, "p", .number "3", []⟩)⟩]

def bystanderProgram (number : String) : Program := constructProgram (bystanderContext number)

theorem bystander_derivable (number : String) (hnumber : number = "4" ∨ number = "5") :
    (bystanderProgram number).Derivable := by
  rcases hnumber with rfl | rfl
  · refine ⟨".decl p(n : Number) \"A\" says \"B\" canSay p(x). \"B\" says p(3). " ++
      "\"C\" says p(4). q = query \"A\" says p(3)?", bystanderContext "4", ?_, rfl⟩
    unfold Derives
    decide +kernel
  · refine ⟨".decl p(n : Number) \"A\" says \"B\" canSay p(x). \"B\" says p(3). " ++
      "\"C\" says p(5). q = query \"A\" says p(3)?", bystanderContext "5", ?_, rfl⟩
    unfold Derives
    decide +kernel

theorem bystander_said (number : String) : (bystanderProgram number).said =
    [(⟨"\"A\""⟩, .fact ⟨[⟨"\"B\""⟩], .predicate ⟨"p", ["x"], .positive⟩⟩),
      (⟨"\"B\""⟩, .fact ⟨[], .predicate ⟨"p", ["3"], .positive⟩⟩),
      (⟨"\"C\""⟩, .fact ⟨[], .predicate ⟨"p", [number], .positive⟩⟩)] := rfl

theorem bystander_baseFacts (number : String) : (bystanderProgram number).baseFacts =
    ["x", "3", number, "3"].map fun arg => .predicate ⟨"p", [arg], .positive⟩ := rfl

theorem bystander_isRelation {number name : String}
    (h : (bystanderProgram number).IsRelation name) : name = "p" := by
  rcases h with ⟨declaration, hdeclaration, rfl⟩ | ⟨baseFact, hbaseFact, rfl⟩
  · cases List.mem_singleton.mp hdeclaration
    rfl
  · rw [bystander_baseFacts] at hbaseFact
    obtain ⟨arg, -, rfl⟩ := List.mem_map.mp hbaseFact
    rfl

theorem bystander_not_isAttribute (number relation : String) :
    ¬ (bystanderProgram number).IsAttribute relation := by
  rintro ⟨declaration, hdeclaration, -, hattribute⟩
  cases List.mem_singleton.mp hdeclaration
  cases hattribute

theorem bystander_arg {number : String} (hnumber : number = "4" ∨ number = "5") {arg : String}
    (harg : arg ∈ ["x", "3", number, "3"]) : arg.length = 1 ∧ arg ≠ "_" := by
  rcases hnumber with rfl | rfl
  · revert arg
    decide
  · revert arg
    decide

theorem bystander_regular (number : String) (hnumber : number = "4" ∨ number = "5") :
    (bystanderProgram number).Regular where
  positive := by
    rw [bystander_baseFacts]
    intro baseFact hbaseFact
    obtain ⟨arg, -, rfl⟩ := List.mem_map.mp hbaseFact
    rfl
  noComparison := by
    rw [bystander_baseFacts]
    rintro baseFact hbaseFact ⟨operator, -, left, right, rfl⟩
    obtain ⟨arg, -, hfact⟩ := List.mem_map.mp hbaseFact
    cases hfact
  noFresh := by
    rw [bystander_baseFacts]
    intro baseFact hbaseFact n hmem
    obtain ⟨arg, harg, rfl⟩ := List.mem_map.mp hbaseFact
    have hfresh := congrArg String.length (List.mem_singleton.mp hmem)
    rw [(bystander_arg hnumber harg).1, freshName, String.length_append] at hfresh
    have hthree : "x__".length = 3 := rfl
    omega
  relations := by
    intro name hname rest
    rw [bystander_isRelation hname]
    constructor
    all_goals
      intro heq
      have hchars := congrArg String.toList heq
      rw [String.toList_append] at hchars
      cases hchars
  attributes := by
    rw [bystander_said]
    rintro said hsaid attr hattr
    simp only [List.mem_cons, List.not_mem_nil, or_false] at hsaid
    rcases hsaid with rfl | rfl | rfl <;> cases hattr
  predicates := fun _ _ predicate _ => bystander_not_isAttribute number predicate.name
  namedHeads := by
    rw [bystander_said]
    intro said hsaid hmem
    simp only [List.mem_cons, List.not_mem_nil, or_false] at hsaid
    rcases hsaid with rfl | rfl | rfl
    · exact absurd (List.mem_singleton.mp hmem) (by decide)
    · exact absurd (List.mem_singleton.mp hmem) (by decide)
    · exact (bystander_arg hnumber (by simp)).2 (List.mem_singleton.mp hmem).symm
  queryNames := by
    intro query hquery
    cases List.mem_singleton.mp hquery
    refine ⟨by decide, fun rest heq => ?_⟩
    have hchars := congrArg String.toList heq
    rw [String.toList_append] at hchars
    cases hchars

theorem bystander_plain (args : List String) : (Saying.holds "p" args).Plain := fun rest =>
  ((bystander_regular "4" (.inl rfl)).relations "p" (.inl ⟨_, List.mem_singleton_self _, rfl⟩)
    rest).2

theorem denotes_three : Denotes id (fun _ => "3") "3" "3" := by
  have hchars : "3".toList = ['3'] := rfl
  refine .constant fun h => h.not_number ⟨?_, ?_⟩
  · rw [hchars]
    exact List.cons_ne_nil _ _
  · rw [hchars]
    intro c hc
    rw [List.mem_singleton.mp hc]
    rfl

theorem bystander_saying (number : String) :
    Says id (bystanderProgram number) "\"A\"" (.holds "p" ["3"]) := by
  have hx : Denotes id (fun _ => "3") "x" "3" :=
    .named ⟨'x', [], rfl, rfl, fun _ h => absurd h List.not_mem_nil⟩ (by decide)
  have hsaid := bystander_said number
  have hdelegates := @Says.asserted _ id (bystanderProgram number) _ _ _ _ (fun _ => [])
    (hsaid ▸ List.mem_cons_self ..) (.cons hx .nil) (fun _ h => absurd h List.not_mem_nil)
    fun _ h => absurd h List.not_mem_nil
  have hstated := @Says.asserted _ id (bystanderProgram number) _ _ _ _ (fun _ => [])
    (hsaid ▸ List.mem_cons_of_mem _ (List.mem_cons_self ..)) (.cons denotes_three .nil)
    (fun _ h => absurd h List.not_mem_nil) fun _ h => absurd h List.not_mem_nil
  exact .canSay hdelegates hstated

theorem bystander_entails :
    (lower id (bystanderProgram "4")).Entails id "says_p" ["\"A\"", "3"] :=
  (lower_entails_iff_saying id id (bystander_derivable "4" (.inl rfl))
    (bystander_regular "4" (.inl rfl)) "\"A\"" (.holds "p" ["3"])
    (bystander_plain ["3"])).mpr (bystander_saying "4")

theorem bystander_answered :
    (lower id (bystanderProgram "4")).Entails id "q" ["\"dummy_var\""] := by
  have hregular := bystander_regular "4" (.inl rfl)
  refine (lower_entails_iff_holds id id (bystander_derivable "4" (.inl rfl)) hregular "q" _
    (hregular.queryNames _ (List.mem_singleton_self _))).mpr ?_
  exact ⟨rfl, _, List.mem_singleton_self _, rfl, fun _ => "3", ["3"], .cons denotes_three .nil,
    bystander_saying "4"⟩

end Raksha.AuthLogic
