import Raksha.AuthLogic.LargeNumbers
import Raksha.AuthLogic.UnbrokenTexts
import Raksha.Lib.UniqueReading

/-!
# The text of emitted programs

Nothing that the compiler says is lost in the text that it writes: the emission never fails, and
the rules, the outputs, the relations and the types can be told from the text.
-/

namespace Raksha.AuthLogic
open Raksha.Lib.UniqueReading

/-! ### Texts in parentheses -/

/-- A text without breaks ends here. -/
def EndsText (rest : List Char) : Prop := ∀ c ∈ rest.head?, c ∈ breaks

theorem IsUnbroken.noLineBreak {text : String} (h : IsUnbroken text) : '\n' ∉ text.toList :=
  fun hmem => h.chars _ hmem (by decide)

theorem reads_unbroken {text : String} (h : IsUnbroken text) :
    ReadsAs IsUnbroken String.toList EndsText text := by
  intro text' s s' h' hs hs' heq
  obtain ⟨htext, hrest⟩ := stretch_unique (· ∉ breaks) h.chars h'.chars
    (fun c hc => not_not.mpr (hs c hc)) (fun c hc => not_not.mpr (hs' c hc)) heq
  exact ⟨(String.toList_inj.mp htext).symm, hrest.symm⟩

theorem reads_args {args : List String} (h : ∀ arg ∈ args, IsUnbroken arg) :
    ReadsAs (fun l => ∀ arg ∈ l, IsUnbroken arg) (closedList String.toList [',', ' '] ')')
      (fun _ => True) args := by
  have hbegins : ∀ arg, IsUnbroken arg → ∀ s s', arg.toList ++ s ≠ ')' :: s' := by
    intro arg harg s s' heq
    obtain ⟨c, rest, htext⟩ := List.exists_cons_of_ne_nil harg.ne
    rw [htext] at heq
    have hc := harg.chars c (htext ▸ List.mem_cons_self ..)
    rw [(List.cons.inj heq).1] at hc
    exact hc (by decide)
  have hclosing : ∀ s, EndsText (')' :: s) := by
    intro s c hc
    cases hc
    decide
  have hseparator : ∀ s, EndsText ([',', ' '] ++ s) := by
    intro s c hc
    cases hc
    decide
  refine readsAs_closedList hclosing hseparator hbegins ?_ h fun arg harg =>
    reads_unbroken (h arg harg)
  intro s s' heq
  cases heq

/-- A name with texts in parentheses behind it. -/
def appliedChars (applied : String × List String) : List Char :=
  applied.1.toList ++ '(' :: closedList String.toList [',', ' '] ')' applied.2

def IsUnbrokenApplied (applied : String × List String) : Prop :=
  ∀ text ∈ applied.1 :: applied.2, IsUnbroken text

/-- The name ends where its parenthesis opens, and nothing is open at the end. -/
theorem reads_applied {applied : String × List String} (h : IsUnbrokenApplied applied) :
    ReadsAs IsUnbrokenApplied appliedChars (fun _ => True) applied := by
  have hopen : ∀ s : List Char, ∀ c ∈ ('(' :: s).head?, ¬ (c ∉ breaks) := by
    intro s c hc
    cases hc
    decide
  intro applied' s s' h' _ _ heq
  rw [appliedChars, appliedChars, List.append_assoc, List.append_assoc, List.cons_append,
    List.cons_append] at heq
  obtain ⟨hname, hlater⟩ := stretch_unique (· ∉ breaks) (h _ (List.mem_cons_self ..)).chars
    (h' _ (List.mem_cons_self ..)).chars (hopen _) (hopen _) heq
  obtain ⟨hargs, hs⟩ := reads_args (fun arg harg => h arg (List.mem_cons_of_mem _ harg)) _ _ _
    (fun arg harg => h' arg (List.mem_cons_of_mem _ harg)) trivial trivial
    (List.cons.inj hlater).2
  exact ⟨Prod.ext (String.toList_inj.mp hname).symm hargs, hs⟩

theorem noLineBreak_applied {applied : String × List String} (h : IsUnbrokenApplied applied) :
    '\n' ∉ appliedChars applied := by
  intro hmem
  rcases List.mem_append.mp hmem with hname | hlater
  · exact (h _ (List.mem_cons_self ..)).noLineBreak hname
  rcases List.mem_cons.mp hlater with hopen | hargs
  · exact absurd hopen (by decide)
  rcases mem_closedList hargs with hclosing | hseparator | ⟨arg, harg, htext⟩
  · exact absurd hclosing (by decide)
  · exact absurd hseparator (by decide)
  · exact (h arg (List.mem_cons_of_mem _ harg)).noLineBreak htext

/-! ### Predicates -/

def predicateText (predicate : Predicate) : String :=
  (if predicate.sign = .negated then "!" else "") ++ predicate.name ++ "(" ++
    ", ".intercalate predicate.args ++ ")"

def predicateChars (predicate : Predicate) : List Char :=
  (if predicate.sign = .negated then ['!'] else []) ++
    appliedChars (predicate.name, predicate.args)

theorem toList_predicateText (predicate : Predicate) :
    (predicateText predicate).toList = predicateChars predicate := by
  rw [predicateText, predicateChars, appliedChars, closedList_eq]
  cases predicate.sign <;> simp

section

variable {predicate : Predicate} (h : predicate.Printable)
include h

theorem Predicate.Printable.applied : IsUnbrokenApplied (predicate.name, predicate.args) :=
  h.unbroken

theorem Predicate.Printable.emitted :
    emitPredicate predicate = some (predicateText predicate) := by
  have hoperator : predicate.isNumericOperator = false := by
    obtain ⟨c, rest, hname, hc⟩ := h.start
    have hstarts : ∀ operator ∈ numericOperators,
        (operator.toList.head?.any isVariableStart) = false := by decide
    rw [Predicate.isNumericOperator, ← Bool.not_eq_true, List.contains_iff_mem]
    intro hmem
    have hnot := hstarts _ hmem
    rw [hname, List.head?_cons, Option.any_some, hc] at hnot
    cases hnot
  rw [emitPredicate, hoperator]
  rfl

theorem Predicate.Printable.begins : ∃ c rest, predicateChars predicate = c :: rest ∧ c ≠ '.' := by
  obtain ⟨c, rest, hname, hc⟩ := h.start
  cases hsign : predicate.sign with
  | negated =>
    refine ⟨'!', appliedChars (predicate.name, predicate.args), ?_, by decide⟩
    rw [predicateChars, hsign]
    rfl
  | positive =>
    refine ⟨c, rest ++ '(' :: closedList String.toList [',', ' '] ')' predicate.args, ?_, ?_⟩
    · rw [predicateChars, hsign, appliedChars, hname]
      rfl
    · rintro rfl
      cases hc

theorem Predicate.Printable.noLineBreak : '\n' ∉ predicateChars predicate := by
  intro hmem
  rcases List.mem_append.mp hmem with hsign | happlied
  · split at hsign
    · exact absurd hsign (by decide)
    · cases hsign
  · exact noLineBreak_applied h.applied happlied

theorem reads_predicate : ReadsAs Predicate.Printable predicateChars (fun _ => True) predicate := by
  have hstart : ∀ {p : Predicate}, p.Printable → ∀ s s',
      appliedChars (p.name, p.args) ++ s ≠ '!' :: s' := by
    intro p hp s s' heq
    obtain ⟨c, rest, hname, hc⟩ := hp.start
    rw [appliedChars, hname] at heq
    rw [(List.cons.inj heq).1] at hc
    cases hc
  intro predicate' s s' h' _ _ heq
  have happlied : predicate.sign = predicate'.sign →
      appliedChars (predicate.name, predicate.args) ++ s =
        appliedChars (predicate'.name, predicate'.args) ++ s' →
      predicate' = predicate ∧ s' = s := by
    intro hsign hsame
    obtain ⟨hpair, hs⟩ := reads_applied h.applied _ _ _ h'.applied trivial trivial hsame
    obtain ⟨hname, hargs⟩ := Prod.mk.inj hpair
    refine ⟨?_, hs⟩
    cases predicate
    cases predicate'
    simp only [Predicate.mk.injEq]
    exact ⟨hname, hargs, hsign.symm⟩
  rw [predicateChars, predicateChars, List.append_assoc, List.append_assoc] at heq
  cases hsign : predicate.sign with
  | negated =>
    cases hsign' : predicate'.sign with
    | negated =>
      rw [hsign, hsign'] at heq
      exact happlied (hsign.trans hsign'.symm) (List.append_cancel_left heq)
    | positive =>
      rw [hsign, hsign'] at heq
      exact absurd heq.symm (hstart h' _ _)
  | positive =>
    cases hsign' : predicate'.sign with
    | negated =>
      rw [hsign, hsign'] at heq
      exact absurd heq (hstart h _ _)
    | positive =>
      rw [hsign, hsign'] at heq
      exact happlied (hsign.trans hsign'.symm) heq

end

/-! ### Rules -/

def ruleText (rule : Rule) : String :=
  predicateText rule.lhs ++
    (if rule.rhs.isEmpty then "" else " :- " ++ ", ".intercalate (rule.rhs.map predicateText)) ++
    "."

def conditionsChars : List Predicate → List Char
  | [] => ['.']
  | rhs => [' ', ':', '-', ' '] ++ closedList predicateChars [',', ' '] '.' rhs

theorem toList_ruleText (rule : Rule) :
    (ruleText rule).toList = predicateChars rule.lhs ++ conditionsChars rule.rhs := by
  have hcomp : String.toList ∘ predicateText = predicateChars := funext toList_predicateText
  obtain ⟨lhs, rhs⟩ := rule
  cases rhs with
  | nil => simp [ruleText, conditionsChars, toList_predicateText]
  | cons predicate rhs =>
    simp [ruleText, conditionsChars, closedList_eq, toList_predicateText, hcomp]

theorem Rule.Printable.emitted {rule : Rule} (h : rule.Printable) :
    emitAssertion rule = some (ruleText rule) := by
  have hrhs : rule.rhs.mapM emitPredicate = some (rule.rhs.map predicateText) := by
    rw [mapM_eq_some_iff, List.forall₂_map_right_iff, List.forall₂_same]
    exact fun predicate hpredicate => (h predicate (List.mem_cons_of_mem _ hpredicate)).emitted
  rw [emitAssertion, hrhs, (h _ (List.mem_cons_self ..)).emitted]
  simp [ruleText]

theorem conditionsChars_inj {rhs rhs' : List Predicate} (h : ∀ p ∈ rhs, p.Printable)
    (h' : ∀ p ∈ rhs', p.Printable) (heq : conditionsChars rhs = conditionsChars rhs') :
    rhs = rhs' := by
  have hbegins : ∀ p : Predicate, p.Printable → ∀ s s', predicateChars p ++ s ≠ '.' :: s' := by
    intro p hp s s' heq
    obtain ⟨c, rest, htext, hc⟩ := hp.begins
    rw [htext] at heq
    exact hc (List.cons.inj heq).1
  have hreads := fun (l : List Predicate) (hl : ∀ p ∈ l, p.Printable) =>
    readsAs_closedList (fun _ => trivial) (fun _ => trivial) hbegins
      (fun s s' (heq : [',', ' '] ++ s = '.' :: s') => absurd (List.cons.inj heq).1 (by decide))
      hl fun p hp => reads_predicate (hl p hp)
  cases rhs with
  | nil =>
    cases rhs' with
    | nil => rfl
    | cons p' rhs' => exact absurd (List.cons.inj heq).1 (by decide)
  | cons p rhs =>
    cases rhs' with
    | nil => exact absurd (List.cons.inj heq).1 (by decide)
    | cons p' rhs' =>
      have hlists := List.append_cancel_left heq
      exact (hreads _ h _ [] [] h' trivial trivial (congrArg (· ++ []) hlists)).1.symm

theorem ruleText_inj (rule rule' : Rule) (h : rule.Printable) (h' : rule'.Printable)
    (heq : ruleText rule = ruleText rule') : rule = rule' := by
  have hchars := congrArg String.toList heq
  rw [toList_ruleText, toList_ruleText] at hchars
  obtain ⟨hlhs, hlater⟩ := reads_predicate (h _ (List.mem_cons_self ..)) _ _ _
    (h' _ (List.mem_cons_self ..)) trivial trivial hchars
  have hrhs := conditionsChars_inj (fun p hp => h p (List.mem_cons_of_mem _ hp))
    (fun p hp => h' p (List.mem_cons_of_mem _ hp)) hlater.symm
  cases rule
  cases rule'
  simp only [Rule.mk.injEq]
  exact ⟨hlhs.symm, hrhs⟩

theorem Rule.Printable.noLineBreak {rule : Rule} (h : rule.Printable) :
    '\n' ∉ (ruleText rule).toList := by
  rw [toList_ruleText]
  intro hmem
  rcases List.mem_append.mp hmem with hlhs | hrhs
  · exact (h _ (List.mem_cons_self ..)).noLineBreak hlhs
  obtain ⟨lhs, rhs⟩ := rule
  cases rhs with
  | nil =>
    change '\n' ∈ ['.'] at hrhs
    exact absurd hrhs (by decide)
  | cons p rhs =>
    rcases List.mem_append.mp hrhs with harrow | hrhs
    · exact absurd harrow (by decide)
    rcases mem_closedList hrhs with hclosing | hseparator | ⟨predicate, hpredicate, htext⟩
    · exact absurd hclosing (by decide)
    · exact absurd hseparator (by decide)
    · exact (h predicate (List.mem_cons_of_mem _ hpredicate)).noLineBreak htext

/-! ### Declarations -/

/-- What the text of a declaration shows. -/
def RelationDeclaration.shape (declaration : RelationDeclaration) :
    String × List (String × String) :=
  (declaration.relationName, declaration.arguments.map fun argument =>
    (argument.argumentName, argument.argumentType.name))

def Argument.IsUnbroken (argument : Argument) : Prop :=
  IsVariable argument.argumentName ∧ AuthLogic.IsUnbroken argument.argumentType.name

theorem unbroken_emitArgument {argument : Argument} (h : argument.IsUnbroken) :
    IsUnbroken (emitArgument argument) := by
  have hcolon : IsUnbroken " : " := isUnbroken_of_check (by decide)
  exact (h.1.isUnbroken.append hcolon).append h.2

/-- The name of an argument ends at the first space. -/
theorem emitArgument_inj (argument argument' : Argument) (h : argument.IsUnbroken)
    (h' : argument'.IsUnbroken) (heq : emitArgument argument = emitArgument argument') :
    (argument.argumentName, argument.argumentType.name) =
      (argument'.argumentName, argument'.argumentType.name) := by
  have hspace : ∀ {name : String}, IsVariable name → ∀ c ∈ name.toList, c ≠ ' ' := by
    rintro name ⟨c, rest, htext, hc, hrest⟩ d hd rfl
    rw [htext] at hd
    rcases List.mem_cons.mp hd with rfl | hd
    · cases hc
    · cases hrest _ hd
  have hchars := congrArg String.toList heq
  simp only [emitArgument, String.toList_append, List.append_assoc] at hchars
  have hbehind : ∀ s : List Char, ∀ c ∈ (" : ".toList ++ s).head?, ¬ c ≠ ' ' := by
    intro s c hc
    exact not_not.mpr (Option.some.inj hc).symm
  obtain ⟨hname, hlater⟩ := stretch_unique (· ≠ ' ') (hspace h.1) (hspace h'.1) (hbehind _)
    (hbehind _) hchars
  have htype := String.toList_inj.mp (List.append_cancel_left hlater)
  exact Prod.ext (String.toList_inj.mp hname) htype

theorem toList_emitRelationDeclaration (declaration : RelationDeclaration) :
    (emitRelationDeclaration declaration).toList = ".decl ".toList ++
      appliedChars (declaration.relationName, declaration.arguments.map emitArgument) := by
  rw [emitRelationDeclaration, appliedChars, closedList_eq]
  simp

theorem RelationDeclaration.IsUnbroken.applied {declaration : RelationDeclaration}
    (h : declaration.IsUnbroken) :
    IsUnbrokenApplied (declaration.relationName, declaration.arguments.map emitArgument) := by
  intro text htext
  rcases List.mem_cons.mp htext with rfl | htext
  · exact h.name
  · obtain ⟨argument, hargument, rfl⟩ := List.mem_map.mp htext
    exact unbroken_emitArgument (h.arguments argument hargument)

theorem emitRelationDeclaration_inj (declaration declaration' : RelationDeclaration)
    (h : declaration.IsUnbroken) (h' : declaration'.IsUnbroken)
    (heq : emitRelationDeclaration declaration = emitRelationDeclaration declaration') :
    declaration.shape = declaration'.shape := by
  have hchars := congrArg String.toList heq
  rw [toList_emitRelationDeclaration, toList_emitRelationDeclaration] at hchars
  have happlied := (reads_applied h.applied _ [] [] h'.applied trivial trivial
    (congrArg (· ++ []) (List.append_cancel_left hchars))).1
  obtain ⟨hname, harguments⟩ := Prod.mk.inj happlied
  exact Prod.ext hname.symm
    (map_eq_of_texts emitArgument_inj h.arguments h'.arguments harguments.symm)

theorem RelationDeclaration.IsUnbroken.noLineBreak {declaration : RelationDeclaration}
    (h : declaration.IsUnbroken) : '\n' ∉ (emitRelationDeclaration declaration).toList := by
  rw [toList_emitRelationDeclaration]
  intro hmem
  rcases List.mem_append.mp hmem with hkeyword | happlied
  · exact absurd hkeyword (by decide)
  · exact noLineBreak_applied h.applied happlied

theorem emitTypeDeclaration_injective : Function.Injective emitTypeDeclaration := by
  intro typeName typeName' heq
  exact (String.append_right_inj _).mp ((String.append_left_inj _).mp heq)

theorem emitRelationDeclaration_eq {declaration declaration' : RelationDeclaration}
    (h : declaration.shape = declaration'.shape) :
    emitRelationDeclaration declaration = emitRelationDeclaration declaration' := by
  have hemitted : ∀ d : RelationDeclaration, emitRelationDeclaration d =
      ".decl " ++ d.shape.1 ++ "(" ++
        ", ".intercalate (d.shape.2.map fun argument => argument.1 ++ " : " ++ argument.2) ++
        ")" := by
    intro d
    rw [emitRelationDeclaration, RelationDeclaration.shape, List.map_map]
    rfl
  rw [hemitted, hemitted, h]

/-! ### Lines -/

inductive LineKind
  | type
  | relation
  | rule
  | output
  | blank
deriving DecidableEq

/-- Lines can be told by their first two symbols. -/
def lineKind (line : String) : LineKind :=
  if line.toList.take 2 = ['.', 't'] then .type
  else if line.toList.take 2 = ['.', 'd'] then .relation
  else if line.toList.take 2 = ['.', 'o'] then .output
  else if line.toList = [] then .blank
  else .rule

theorem lineKind_type (typeName : String) : lineKind (emitTypeDeclaration typeName) = .type := by
  have htake : (emitTypeDeclaration typeName).toList.take 2 = ['.', 't'] := by
    rw [emitTypeDeclaration, String.toList_append, String.toList_append]
    rfl
  rw [lineKind, if_pos htake]

theorem lineKind_relation (declaration : RelationDeclaration) :
    lineKind (emitRelationDeclaration declaration) = .relation := by
  have htake : (emitRelationDeclaration declaration).toList.take 2 = ['.', 'd'] := by
    rw [toList_emitRelationDeclaration]
    rfl
  rw [lineKind, htake, if_neg (by decide), if_pos rfl]

theorem lineKind_output (output : String) : lineKind (".output " ++ output) = .output := by
  have htake : (".output " ++ output).toList.take 2 = ['.', 'o'] := by
    rw [String.toList_append]
    rfl
  rw [lineKind, htake, if_neg (by decide), if_neg (by decide), if_pos rfl]

theorem lineKind_rule {rule : Rule} (h : rule.Printable) : lineKind (ruleText rule) = .rule := by
  obtain ⟨c, rest, htext, hc⟩ := (h _ (List.mem_cons_self ..)).begins
  have hchars : (ruleText rule).toList = c :: (rest ++ conditionsChars rule.rhs) := by
    rw [toList_ruleText, htext]
    rfl
  have htake : ∀ d, (c :: (rest ++ conditionsChars rule.rhs)).take 2 ≠ ['.', d] := by
    intro d heq
    exact hc (List.cons.inj heq).1
  rw [lineKind, hchars, if_neg (htake 't'), if_neg (htake 'd'), if_neg (htake 'o'),
    if_neg (List.cons_ne_nil _ _)]

/-- A part without lines leaves an empty line. -/
def linesOf (lines : List String) : List String := if lines = [] then [""] else lines

theorem linesOf_ne_nil (lines : List String) : linesOf lines ≠ [] := by
  unfold linesOf
  split
  · exact List.cons_ne_nil _ _
  · assumption

theorem intercalate_linesOf (lines : List String) :
    "\n".intercalate (linesOf lines) = "\n".intercalate lines := by
  unfold linesOf
  split
  · subst_vars
    rfl
  · rfl

theorem mem_linesOf {lines : List String} {line : String} (h : line ∈ linesOf lines) :
    line = "" ∨ line ∈ lines := by
  unfold linesOf at h
  split at h
  · exact .inl (List.mem_singleton.mp h)
  · exact .inr h

theorem filter_linesOf {kind kind' : LineKind} (hkind : kind ≠ .blank) {lines : List String}
    (h : ∀ line ∈ lines, lineKind line = kind') :
    (linesOf lines).filter (fun line => lineKind line = kind) =
      if kind' = kind then lines else [] := by
  have hblank : lineKind "" = .blank := by decide
  have hlines : (linesOf lines).filter (fun line => lineKind line = kind) =
      lines.filter fun line => lineKind line = kind := by
    unfold linesOf
    split
    · subst_vars
      exact List.filter_eq_nil_iff.mpr fun line hline => by
        rw [List.mem_singleton.mp hline, hblank, decide_eq_true_iff]
        exact hkind.symm
    · rfl
  rw [hlines]
  split
  · next heq =>
    exact List.filter_eq_self.mpr fun line hline => decide_eq_true (heq ▸ h line hline)
  · next hne =>
    refine List.filter_eq_nil_iff.mpr fun line hline => ?_
    rw [h line hline, decide_eq_true_iff]
    exact hne

theorem lines_unique {lines lines' : List String} (hne : lines ≠ []) (hne' : lines' ≠ [])
    (h : ∀ line ∈ lines, '\n' ∉ line.toList) (h' : ∀ line ∈ lines', '\n' ∉ line.toList)
    (heq : "\n".intercalate lines = "\n".intercalate lines') : lines = lines' := by
  have hchars : ['\n'].intercalate (lines.map String.toList) =
      ['\n'].intercalate (lines'.map String.toList) := by
    have hboth := congrArg String.toList heq
    rwa [String.toList_intercalate, String.toList_intercalate] at hboth
  have hbreak : ∀ {l : List String}, (∀ line ∈ l, '\n' ∉ line.toList) →
      ∀ chars ∈ l.map String.toList, '\n' ∉ chars := by
    intro l hl chars hmem
    obtain ⟨line, hline, rfl⟩ := List.mem_map.mp hmem
    exact hl line hline
  refine List.map_injective_iff.mpr (fun a b => String.toList_inj.mp) ?_
  exact intercalate_unique (hbreak h) (hbreak h') (mt List.map_eq_nil_iff.mp hne)
    (mt List.map_eq_nil_iff.mp hne') hchars

/-! ### Programs -/

structure DatalogProgram.Printable (program : DatalogProgram) : Prop where
  declarations : ∀ declaration ∈ program.relationDeclarations, declaration.IsUnbroken
  rules : ∀ rule ∈ program.rules, rule.Printable
  outputs : ∀ output ∈ program.outputs, IsUnbroken output

/-- The programs say the same to Souffle: declarations have no order. -/
structure ShowSame (program program' : DatalogProgram) (skipDeclarations : Bool) : Prop where
  types : ∀ typeName, typeName ∈ declaredTypes program skipDeclarations ↔
    typeName ∈ declaredTypes program' skipDeclarations
  relations : ((declaredRelations program skipDeclarations).map RelationDeclaration.shape).Perm
    ((declaredRelations program' skipDeclarations).map RelationDeclaration.shape)
  rules : program.rules = program'.rules
  outputs : program.outputs = program'.outputs

section

variable (program : DatalogProgram) (skipDeclarations : Bool)

def linesOfKind : LineKind → List String
  | .type => sortStrings ((declaredTypes program skipDeclarations).map emitTypeDeclaration).dedup
  | .relation =>
    sortStrings ((declaredRelations program skipDeclarations).map emitRelationDeclaration)
  | .rule => program.rules.map ruleText
  | .output => program.outputs.map (".output " ++ ·)
  | .blank => []

theorem mem_typeLines {line : String} : line ∈ linesOfKind program skipDeclarations .type ↔
    ∃ typeName ∈ declaredTypes program skipDeclarations, emitTypeDeclaration typeName = line := by
  rw [linesOfKind, (sortStrings_perm _).mem_iff, List.mem_dedup, List.mem_map]

theorem mem_relationLines {line : String} :
    line ∈ linesOfKind program skipDeclarations .relation ↔
      ∃ declaration ∈ declaredRelations program skipDeclarations,
        emitRelationDeclaration declaration = line := by
  rw [linesOfKind, (sortStrings_perm _).mem_iff, List.mem_map]

def programLines : List String :=
  linesOf (linesOfKind program skipDeclarations .type) ++
    (linesOf (linesOfKind program skipDeclarations .relation) ++
      (linesOf (linesOfKind program skipDeclarations .rule) ++
        linesOf (linesOfKind program skipDeclarations .output)))

end

section

variable {program : DatalogProgram} (h : program.Printable) (skipDeclarations : Bool)
include h

theorem DatalogProgram.Printable.emitted : emitProgram program skipDeclarations =
    some ("\n".intercalate (programLines program skipDeclarations)) := by
  have hbody : program.rules.mapM emitAssertion = some (program.rules.map ruleText) := by
    rw [mapM_eq_some_iff, List.forall₂_map_right_iff, List.forall₂_same]
    exact fun rule hrule => (h.rules rule hrule).emitted
  have hne : ∀ l l' : List String, linesOf l ++ l' ≠ [] := fun l l' =>
    List.append_ne_nil_of_left_ne_nil (linesOf_ne_nil l) l'
  rw [programLines, String.intercalate_append_of_ne_nil (linesOf_ne_nil _) (hne _ _),
    String.intercalate_append_of_ne_nil (linesOf_ne_nil _) (hne _ _),
    String.intercalate_append_of_ne_nil (linesOf_ne_nil _) (linesOf_ne_nil _),
    intercalate_linesOf, intercalate_linesOf, intercalate_linesOf, intercalate_linesOf]
  rw [emitProgram, emitProgramBody, hbody]
  simp only [String.append_assoc]
  rfl

theorem DatalogProgram.Printable.kind_line {kind : LineKind} {line : String}
    (hline : line ∈ linesOfKind program skipDeclarations kind) : lineKind line = kind := by
  cases kind with
  | type =>
    obtain ⟨typeName, -, rfl⟩ := (mem_typeLines program skipDeclarations).mp hline
    exact lineKind_type typeName
  | relation =>
    obtain ⟨declaration, -, rfl⟩ := (mem_relationLines program skipDeclarations).mp hline
    exact lineKind_relation declaration
  | rule =>
    obtain ⟨rule, hrule, rfl⟩ := List.mem_map.mp hline
    exact lineKind_rule (h.rules rule hrule)
  | output =>
    obtain ⟨output, -, rfl⟩ := List.mem_map.mp hline
    exact lineKind_output output
  | blank => cases hline

theorem DatalogProgram.Printable.unbroken_type {typeName : String}
    (htype : typeName ∈ declaredTypes program skipDeclarations) : IsUnbroken typeName := by
  rcases List.mem_append.mp htype with hused | hnumber
  · obtain ⟨argumentType, hargumentType, rfl⟩ := List.mem_map.mp hused
    obtain ⟨declaration, hdeclaration, hmem⟩ :=
      List.mem_flatMap.mp (List.mem_filter.mp hargumentType).1
    obtain ⟨argument, hargument, rfl⟩ := List.mem_map.mp hmem
    exact ((h.declarations declaration hdeclaration).arguments argument hargument).2
  · rw [List.mem_singleton.mp hnumber]
    exact isUnbroken_of_check (by decide)

theorem DatalogProgram.Printable.unbroken_declared {declaration : RelationDeclaration}
    (hdeclared : declaration ∈ declaredRelations program skipDeclarations) :
    declaration.IsUnbroken :=
  h.declarations declaration (List.mem_filter.mp hdeclared).1

theorem DatalogProgram.Printable.noLineBreak {kind : LineKind} {line : String}
    (hline : line ∈ linesOfKind program skipDeclarations kind) : '\n' ∉ line.toList := by
  cases kind with
  | type =>
    obtain ⟨typeName, htype, rfl⟩ := (mem_typeLines program skipDeclarations).mp hline
    have hkeyword : IsUnbroken ".type " := isUnbroken_of_check (by decide)
    have hsymbol : IsUnbroken " <: symbol" := isUnbroken_of_check (by decide)
    exact ((hkeyword.append (h.unbroken_type skipDeclarations htype)).append hsymbol).noLineBreak
  | relation =>
    obtain ⟨declaration, hdeclared, rfl⟩ := (mem_relationLines program skipDeclarations).mp hline
    exact (h.unbroken_declared skipDeclarations hdeclared).noLineBreak
  | rule =>
    obtain ⟨rule, hrule, rfl⟩ := List.mem_map.mp hline
    exact (h.rules rule hrule).noLineBreak
  | output =>
    obtain ⟨output, houtput, rfl⟩ := List.mem_map.mp hline
    have hkeyword : IsUnbroken ".output " := isUnbroken_of_check (by decide)
    exact (hkeyword.append (h.outputs output houtput)).noLineBreak
  | blank => cases hline

theorem DatalogProgram.Printable.lines_noLineBreak {line : String}
    (hline : line ∈ programLines program skipDeclarations) : '\n' ∉ line.toList := by
  have hpart : ∀ {kind}, line ∈ linesOf (linesOfKind program skipDeclarations kind) →
      '\n' ∉ line.toList := by
    intro kind hmem
    rcases mem_linesOf hmem with rfl | hmem
    · exact List.not_mem_nil
    · exact h.noLineBreak skipDeclarations hmem
  simp only [programLines, List.mem_append] at hline
  rcases hline with hline | hline | hline | hline
  · exact hpart hline
  · exact hpart hline
  · exact hpart hline
  · exact hpart hline

/-- The lines of a kind can be found in the text. -/
theorem DatalogProgram.Printable.filter_lines {kind : LineKind} (hkind : kind ≠ .blank) :
    (programLines program skipDeclarations).filter (fun line => lineKind line = kind) =
      linesOfKind program skipDeclarations kind := by
  rw [programLines, List.filter_append, List.filter_append, List.filter_append,
    filter_linesOf hkind fun _ => h.kind_line skipDeclarations,
    filter_linesOf hkind fun _ => h.kind_line skipDeclarations,
    filter_linesOf hkind fun _ => h.kind_line skipDeclarations,
    filter_linesOf hkind fun _ => h.kind_line skipDeclarations]
  cases kind <;> simp at hkind ⊢

end

section

variable {program program' : DatalogProgram} {skipDeclarations : Bool}

/-- What the lines of each kind show. -/
theorem showSame_of_lines (h : program.Printable) (h' : program'.Printable)
    (hkinds : ∀ kind ≠ LineKind.blank, linesOfKind program skipDeclarations kind =
      linesOfKind program' skipDeclarations kind) : ShowSame program program' skipDeclarations where
  types := by
    intro typeName
    have hmem : ∀ p : DatalogProgram, emitTypeDeclaration typeName ∈
        linesOfKind p skipDeclarations .type ↔ typeName ∈ declaredTypes p skipDeclarations := by
      intro p
      rw [mem_typeLines, ← List.mem_map, List.mem_map_of_injective emitTypeDeclaration_injective]
    rw [← hmem, ← hmem, hkinds .type (by decide)]
  relations := perm_of_texts emitRelationDeclaration_inj
    (fun _ => h.unbroken_declared skipDeclarations)
    (fun _ => h'.unbroken_declared skipDeclarations)
    (sortStrings_eq_iff.mp (hkinds .relation (by decide)))
  rules := by
    have hrules := map_eq_of_texts ruleText_inj h.rules h'.rules (hkinds .rule (by decide))
    rwa [List.map_id', List.map_id'] at hrules
  outputs := by
    refine List.map_injective_iff.mpr ?_ (hkinds .output (by decide))
    exact fun output output' => (String.append_right_inj _).mp

theorem ShowSame.lines_eq (h : ShowSame program program' skipDeclarations) (kind : LineKind) :
    linesOfKind program skipDeclarations kind = linesOfKind program' skipDeclarations kind := by
  cases kind with
  | type =>
    refine sortStrings_eq_iff.mpr ((List.perm_ext_iff_of_nodup (List.nodup_dedup _)
      (List.nodup_dedup _)).mpr fun line => ?_)
    simp only [List.mem_dedup, List.mem_map, h.types]
  | relation =>
    have htext : ∀ declaration declaration' : RelationDeclaration, True → True →
        declaration.shape = declaration'.shape →
        emitRelationDeclaration declaration = emitRelationDeclaration declaration' :=
      fun _ _ _ _ => emitRelationDeclaration_eq
    exact sortStrings_eq_iff.mpr (perm_of_texts htext (fun _ _ => trivial) (fun _ _ => trivial)
      h.relations)
  | rule => exact congrArg (List.map ruleText) h.rules
  | output => exact congrArg (List.map (".output " ++ ·)) h.outputs
  | blank => rfl

/-- The text of a program tells what the program says to Souffle, and nothing else. -/
theorem emitProgram_eq_iff (h : program.Printable) (h' : program'.Printable) :
    emitProgram program skipDeclarations = emitProgram program' skipDeclarations ↔
      ShowSame program program' skipDeclarations := by
  have hne : ∀ p : DatalogProgram, programLines p skipDeclarations ≠ [] := fun p =>
    List.append_ne_nil_of_left_ne_nil (linesOf_ne_nil _) _
  rw [h.emitted, h'.emitted, Option.some.injEq]
  constructor
  · intro heq
    have hlines := lines_unique (hne program) (hne program')
      (fun _ => h.lines_noLineBreak skipDeclarations)
      (fun _ => h'.lines_noLineBreak skipDeclarations) heq
    refine showSame_of_lines h h' fun kind hkind => ?_
    rw [← h.filter_lines skipDeclarations hkind, hlines, h'.filter_lines skipDeclarations hkind]
  · intro hsame
    simp only [programLines, hsame.lines_eq]

end

/-! ### Compiled programs -/

theorem Program.IsUnbroken.lowered_printable {program : Program} (h : program.IsUnbroken)
    (order : List (String × ℕ) → List (String × ℕ)) : (lower order program).Printable where
  declarations := h.lowered order
  rules := h.printable order
  outputs := by
    intro output houtput
    obtain ⟨query, hquery, rfl⟩ := List.mem_map.mp houtput
    exact (h.queries query hquery).1.isUnbroken

section

variable {program program' : Program}
  {literalOrder literalOrder' : List (String × ArgumentType) → List (String × ArgumentType)}
  {declarationOrder declarationOrder' : List RelationDeclaration → List RelationDeclaration}

/-- The compiler always writes a text, and two compiled programs have one text only if they say
the same to Souffle. -/
theorem emitted_text_tells (order order' : List (String × ℕ) → List (String × ℕ))
    (horder : ∀ l, (literalOrder l).Perm l) (horder' : ∀ l, (literalOrder' l).Perm l)
    (hdeclarationOrder : ∀ l, (declarationOrder l).Perm l)
    (hdeclarationOrder' : ∀ l, (declarationOrder' l).Perm l) {source source' : Program}
    (h : source.Derivable) (h' : source'.Derivable)
    (hinsert : insertUniverseRelations literalOrder declarationOrder source = some program)
    (hinsert' : insertUniverseRelations literalOrder' declarationOrder' source' = some program')
    (skipDeclarations : Bool) :
    (emitProgram (lower order program) skipDeclarations).isSome = true ∧
      (emitProgram (lower order program) skipDeclarations =
          emitProgram (lower order' program') skipDeclarations ↔
        ShowSame (lower order program) (lower order' program') skipDeclarations) := by
  have hprintable : (lower order program).Printable :=
    (unbroken_inserted horder hdeclarationOrder h hinsert).lowered_printable order
  have hprintable' : (lower order' program').Printable :=
    (unbroken_inserted horder' hdeclarationOrder' h' hinsert').lowered_printable order'
  refine ⟨?_, emitProgram_eq_iff hprintable hprintable'⟩
  rw [hprintable.emitted]
  rfl

end

theorem numbers_told :
    ∃ program program', insertUniverseRelations id id (numberProgram "3") = some program ∧
      insertUniverseRelations id id (numberProgram "2147483648") = some program' ∧
      emitProgram (lower id program) false ≠ emitProgram (lower id program') false := by
  obtain ⟨program, hinsert⟩ := Option.isSome_iff_exists.mp (by decide +kernel :
    (insertUniverseRelations id id (numberProgram "3")).isSome = true)
  obtain ⟨program', hinsert'⟩ := Option.isSome_iff_exists.mp (by decide +kernel :
    (insertUniverseRelations id id (numberProgram "2147483648")).isSome = true)
  have htells := emitted_text_tells id id (fun l => .refl l) (fun l => .refl l)
    (fun l => .refl l) (fun l => .refl l) smallNumber_derivable largeNumber_derivable hinsert
    hinsert' false
  have hrules : (insertUniverseRelations id id (numberProgram "3")).map (fun p =>
      (lower id p).rules) ≠ (insertUniverseRelations id id (numberProgram "2147483648")).map
        fun p => (lower id p).rules := by decide +kernel
  rw [hinsert, hinsert'] at hrules
  exact ⟨program, program', hinsert, hinsert', fun heq =>
    hrules (congrArg some (htells.2.mp heq).rules)⟩

end Raksha.AuthLogic
