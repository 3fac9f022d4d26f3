import Raksha.AuthLogic.StatementReader

/-!
# Texts that are dropped

`ParseProgram` does not look at what the generated parser leaves behind. When the parser takes the
longest beginning of the text that is a program, nothing is dropped exactly if this is the whole
text.
-/

namespace Raksha.AuthLogic
open AuthLogicParser

/-! ### The generated parser -/

/-- What is relied on of the generated parser. The loop of `program` is greedy: it takes the
longest beginning of the tokens that derives from the rule, when there is one. -/
structure GeneratedParser (parser : List Token → ParserResult) : Prop where
  takes : ∀ tokens (context : ProgramContext), context.tokens <+: tokens →
    ∃ taken, parser tokens = .derived taken
  derives : ∀ tokens taken, parser tokens = .derived taken → taken.tokens <+: tokens
  greedy : ∀ tokens taken (context : ProgramContext), parser tokens = .derived taken →
    context.tokens <+: tokens → context.tokens.length ≤ taken.tokens.length

/-- One node for each statement of its kind, in order. -/
structure OneForEach (context : ProgramContext) (program : Program) : Prop where
  saysAssertions : List.Forall₂ (fun c node => node = constructSaysAssertion c)
    context.saysAssertion program.saysAssertions
  queries : List.Forall₂ (fun c node => node = constructQuery c) context.query program.queries
  relationDeclarations : List.Forall₂ (fun c node => node = constructRelationDeclaration c)
    context.relationDeclaration program.relationDeclarations

/-- When a program is returned, it is one of all tokens of the text. -/
def NothingDropped (parser : List Token → ParserResult) (progText : String) : Prop :=
  ∀ program, parseProgram parser progText = some program →
    ∃ context, Derives progText context ∧ OneForEach context program

/-! ### Complete statements -/

/-- One complete statement after another, and the tokens behind the last. -/
def readStatements (tokens : List Token) : List StatementContext × List Token :=
  statements tokens.length tokens

/-- The statements take up the whole text; or the text does not start with one, and the recovery
from the syntax error leaves nothing to construct a program from. -/
def ReadToTheEnd (parser : List Token → ParserResult) (progText : String) : Prop :=
  match readStatements (authLogicTokens progText.toList) with
  | ([], _) => parser (authLogicTokens progText.toList) = .recovered none
  | (_ :: _, rest) => rest = []

theorem statements_takes (fuel : ℕ) (tokens : List Token) :
    tokens = (statements fuel tokens).1.flatMap StatementContext.tokens ++
      (statements fuel tokens).2 := by
  induction fuel generalizing tokens with
  | zero => rfl
  | succ fuel ih =>
    rw [statements]
    split
    · rfl
    · next first rest hfirst =>
      rw [List.flatMap_cons, List.append_assoc, ← ih rest]
      exact takes_statement _ _ _ hfirst

theorem statement_start (context : StatementContext) :
    ∃ token tokens, context.tokens = token :: tokens ∧ token.type ≠ .exportTo := by
  cases context with
  | saysAssertion context => cases context <;> exact ⟨_, _, rfl, by simp⟩
  | query context => exact ⟨_, _, rfl, by simp⟩
  | keyBind context => cases context <;> exact ⟨_, _, rfl, by simp [fixed]⟩
  | importAssertion context => exact ⟨_, _, rfl, by simp [fixed]⟩
  | relationDeclaration context => exact ⟨_, _, rfl, by simp [fixed]⟩

/-- The reader gets at least as far as any sequence of statements that the tokens start with. -/
theorem statements_length (contexts : List StatementContext) (rest : List Token) {fuel : ℕ}
    (hfuel : (contexts.flatMap StatementContext.tokens ++ rest).length ≤ fuel) :
    (statements fuel (contexts.flatMap StatementContext.tokens ++ rest)).2.length ≤
      rest.length := by
  have hshorter : ∀ fuel tokens, (statements fuel tokens).2.length ≤ tokens.length := by
    intro fuel tokens
    conv_rhs => rw [statements_takes fuel tokens, List.length_append]
    omega
  induction contexts generalizing fuel with
  | nil => exact hshorter fuel rest
  | cons context contexts ih =>
    obtain ⟨token, later, htokens, -⟩ := statement_start context
    cases fuel with
    | zero => simp [htokens] at hfuel
    | succ fuel =>
      rw [List.flatMap_cons, List.append_assoc] at hfuel ⊢
      obtain ⟨read, rest', hread, hlength, hsame⟩ := statement_reads context
        (contexts.flatMap StatementContext.tokens ++ rest)
      rw [statements, hread]
      cases contexts with
      | nil => exact (hshorter fuel rest').trans hlength
      | cons next contexts =>
        -- Another statement follows, so there is no file to export to.
        obtain ⟨token', later', htokens', hexport⟩ := statement_start next
        have hhead : ∀ t, ((next :: contexts).flatMap StatementContext.tokens ++
            rest).head? = some t → t.type ≠ .exportTo := by
          intro t ht
          rw [List.flatMap_cons, htokens'] at ht
          cases ht
          exact hexport
        obtain ⟨-, rfl⟩ := hsame hhead
        refine ih ?_
        rw [htokens, List.cons_append, List.length_cons, List.length_append] at hfuel
        omega

theorem readStatements_takes (tokens : List Token) :
    tokens = (readStatements tokens).1.flatMap StatementContext.tokens ++
      (readStatements tokens).2 :=
  statements_takes _ tokens

/-- The statements that are read are the longest beginning that is a program. -/
theorem readStatements_greedy {context : ProgramContext} {tokens : List Token}
    (h : context.tokens <+: tokens) :
    context.tokens.length ≤
      ((readStatements tokens).1.flatMap StatementContext.tokens).length := by
  obtain ⟨rest, rfl⟩ := h
  have hlength : (readStatements (context.tokens ++ rest)).2.length ≤ rest.length :=
    statements_length (context.statement :: context.statements) rest le_rfl
  have htakes := readStatements_takes (context.tokens ++ rest)
  generalize readStatements (context.tokens ++ rest) = read at hlength htakes ⊢
  have hall := congrArg List.length htakes
  rw [List.length_append, List.length_append] at hall
  omega

theorem readStatements_first {context : ProgramContext} {tokens : List Token}
    (h : context.tokens <+: tokens) :
    ∃ first others, (readStatements tokens).1 = first :: others := by
  have hgreedy := readStatements_greedy h
  cases hread : (readStatements tokens).1 with
  | cons first others => exact ⟨first, others, rfl⟩
  | nil =>
    obtain ⟨token, later, htokens, -⟩ := statement_start context.statement
    rw [hread, ProgramContext.tokens, List.flatMap_cons, htokens] at hgreedy
    exact absurd hgreedy (by simp)

/-! ### Parsing -/

theorem oneForEach_constructProgram (context : ProgramContext) :
    OneForEach context (constructProgram context) where
  saysAssertions := by
    rw [constructProgram, List.forall₂_map_right_iff, List.forall₂_same]
    exact fun _ _ => rfl
  queries := by
    rw [constructProgram, List.forall₂_map_right_iff, List.forall₂_same]
    exact fun _ _ => rfl
  relationDeclarations := by
    rw [constructProgram, List.forall₂_map_right_iff, List.forall₂_same]
    exact fun _ _ => rfl

/-- The reader as a generated parser that recovers no program from a syntax error. -/
def statementParser (tokens : List Token) : ParserResult :=
  match (readStatements tokens).1 with
  | [] => .recovered none
  | first :: others => .derived ⟨first, others⟩

theorem statementParser_generated : GeneratedParser statementParser := by
  have hderived : ∀ tokens taken, statementParser tokens = .derived taken →
      (readStatements tokens).1 = taken.statement :: taken.statements := by
    intro tokens taken htaken
    rw [statementParser] at htaken
    split at htaken
    · cases htaken
    · next first others hread =>
      cases htaken
      exact hread
  refine ⟨?_, ?_, ?_⟩
  · intro tokens context hcontext
    obtain ⟨first, others, hread⟩ := readStatements_first hcontext
    exact ⟨⟨first, others⟩, by rw [statementParser, hread]⟩
  · intro tokens taken htaken
    have htakes := readStatements_takes tokens
    rw [hderived tokens taken htaken] at htakes
    exact ⟨_, htakes.symm⟩
  · intro tokens taken context htaken hcontext
    have hgreedy := readStatements_greedy hcontext
    rwa [hderived tokens taken htaken] at hgreedy

/-- `"A" says p("b"). )` -/
def parenText : String := "\"A\" says p(\"b\"). )"

/-- Whatever the parser does about syntax errors, the parenthesis is left behind. -/
theorem paren_dropped : GeneratedParser statementParser ∧
    ¬ NothingDropped statementParser parenText := by
  refine ⟨statementParser_generated, ?_⟩
  intro hnothing
  obtain ⟨program, hprogram⟩ := Option.isSome_iff_exists.mp
    (by decide +kernel : (parseProgram statementParser parenText).isSome = true)
  obtain ⟨context, hderives, -⟩ := hnothing program hprogram
  have hwhole : context.tokens = authLogicTokens parenText.toList := hderives.symm
  have hgreedy := readStatements_greedy (List.prefix_refl context.tokens)
  rw [hwhole] at hgreedy
  revert hgreedy
  decide +kernel

theorem nothingDropped_iff (parser : List Token → ParserResult) (h : GeneratedParser parser)
    (progText : String) : NothingDropped parser progText ↔ ReadToTheEnd parser progText := by
  rw [NothingDropped, ReadToTheEnd, parseProgram]
  generalize htokens : authLogicTokens progText.toList = tokens
  have htakes := readStatements_takes tokens
  have hwhole : ∀ context, Derives progText context → context.tokens = tokens := fun context
    hderives => hderives.symm.trans htokens
  cases hread : readStatements tokens with
  | mk read rest =>
    rw [hread] at htakes
    dsimp only at htakes
    cases read with
    | nil =>
      -- No statement can be read, so the parser has nothing to take.
      have hnone : ∀ context : ProgramContext, ¬ context.tokens <+: tokens := by
        intro context hcontext
        obtain ⟨first, others, hfirst⟩ := readStatements_first hcontext
        rw [hread] at hfirst
        cases hfirst
      cases hresult : parser tokens with
      | derived taken => exact absurd (h.derives _ _ hresult) (hnone taken)
      | recovered program =>
        constructor
        · intro hnothing
          cases program with
          | none => rfl
          | some program =>
            obtain ⟨context, hderives, -⟩ := hnothing program rfl
            exact absurd (List.prefix_refl context.tokens) (hwhole context hderives ▸ hnone context)
        · intro hnothing program' hprogram
          cases hnothing
          cases hprogram
    | cons first others =>
      have hprefix : ProgramContext.tokens ⟨first, others⟩ <+: tokens := ⟨rest, htakes.symm⟩
      obtain ⟨taken, htaken⟩ := h.takes _ _ hprefix
      rw [htaken]
      constructor
      · intro hnothing
        obtain ⟨context, hderives, -⟩ := hnothing _ rfl
        have hgreedy := readStatements_greedy (List.prefix_refl context.tokens)
        have hlength := congrArg List.length htakes
        rw [hwhole context hderives, hread] at hgreedy
        rw [List.length_append] at hlength
        dsimp only at hgreedy
        exact List.length_eq_zero_iff.mp (by omega)
      · rintro rfl program ⟨⟩
        refine ⟨taken, ?_, oneForEach_constructProgram taken⟩
        have hgreedy := h.greedy _ _ _ htaken hprefix
        rw [List.append_nil] at htakes
        rw [Derives, htokens]
        exact ((h.derives _ _ htaken).eq_of_length_le (htakes ▸ hgreedy)).symm

/-- `"A" says p("b"). "B" says q("b") :- p("b").` -/
theorem twoStatements_nothingDropped : NothingDropped statementParser
    "\"A\" says p(\"b\"). \"B\" says q(\"b\") :- p(\"b\")." := by
  refine (nothingDropped_iff statementParser statementParser_generated _).mpr ?_
  have hread : ∃ first others, readStatements (authLogicTokens
      "\"A\" says p(\"b\"). \"B\" says q(\"b\") :- p(\"b\").".toList) = (first :: others, []) :=
    ⟨_, _, rfl⟩
  obtain ⟨first, others, hread⟩ := hread
  rw [ReadToTheEnd, hread]

end Raksha.AuthLogic
