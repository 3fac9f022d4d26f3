import Raksha.Lib.Lexing

/-!
# Parsers

Parsers that decide on the next token: each takes its tokens from the front of the input. A parser
reads a value where it takes exactly the tokens of the value, and it is sound when it takes
nothing else.
-/

namespace Raksha.Lib.Parsing
open Raksha.Lib.Lexing (Stops)

variable {τ σ α : Type}

abbrev Parser (τ α : Type) : Type := List τ → Option (α × List τ)

/-- The value is read off its tokens, whatever follows. -/
def Reads (parser : Parser τ α) (value : α) (tokens : List τ) : Prop :=
  ∀ rest, parser (tokens ++ rest) = some (value, rest)

/-- The tokens that are taken are those of the value. -/
def Sound (f : τ → σ) (parser : Parser τ α) (yield : α → List σ) : Prop :=
  ∀ tokens value rest, parser tokens = some (value, rest) →
    tokens.map f = yield value ++ rest.map f

/-! ### Combinators -/

section

variable {β : Type}

def succeed (value : α) : Parser τ α := fun tokens => some (value, tokens)

/-- One parser after the other. -/
def andThen (parser : Parser τ α) (next : α → Parser τ β) : Parser τ β := fun tokens => do
  let (value, tokens) ← parser tokens
  next value tokens

/-- The second parser where the first one fails. -/
def orElse (first second : Parser τ α) : Parser τ α := fun tokens =>
  (first tokens).or (second tokens)

def exactly [DecidableEq τ] (word : List τ) : Parser τ Unit := fun tokens =>
  if word <+: tokens then some ((), tokens.drop word.length) else none

/-- The tokens in front of the next one that closes them. -/
def upTo [DecidableEq τ] (closing : τ) : Parser τ (List τ) := fun tokens =>
  match tokens.dropWhile (· ≠ closing) with
  | [] => none
  | _ :: rest => some (tokens.takeWhile (· ≠ closing), rest)

theorem Reads.andThen {parser : Parser τ α} {next : α → Parser τ β} {a : α} {b : β}
    {tokens tokens' : List τ} (h : Reads parser a tokens) (h' : Reads (next a) b tokens') :
    Reads (andThen parser next) b (tokens ++ tokens') := by
  intro rest
  rw [List.append_assoc, Parsing.andThen, h]
  exact h' rest

theorem Reads.andThen_succeed {parser : Parser τ α} {f : α → β} {a : α} {tokens : List τ}
    (h : Reads parser a tokens) :
    Reads (Parsing.andThen parser fun a => succeed (f a)) (f a) tokens := by
  intro rest
  rw [Parsing.andThen, h]
  rfl

theorem Reads.orElse {first second : Parser τ α} {value : α} {tokens : List τ}
    (h : Reads first value tokens) : Reads (orElse first second) value tokens := by
  intro rest
  rw [Parsing.orElse, h, Option.some_or]

theorem Reads.orElse_of_fails {first second : Parser τ α} {value : α} {tokens : List τ}
    (hfails : ∀ rest, first (tokens ++ rest) = none) (h : Reads second value tokens) :
    Reads (Parsing.orElse first second) value tokens := by
  intro rest
  rw [Parsing.orElse, hfails, Option.none_or, h]

theorem reads_exactly [DecidableEq τ] (word : List τ) : Reads (exactly word) () word := by
  intro rest
  rw [exactly, if_pos (List.prefix_append word rest), List.drop_left]

theorem reads_upTo [DecidableEq τ] {closing : τ} {word : List τ} (h : closing ∉ word) :
    Reads (upTo closing) word (word ++ [closing]) := by
  intro rest
  have hword : ∀ t ∈ word, decide (t ≠ closing) = true := by
    intro t ht
    refine decide_eq_true ?_
    rintro rfl
    exact h ht
  have hdrop : (closing :: rest).dropWhile (· ≠ closing) = closing :: rest :=
    List.dropWhile_cons_of_neg (by simp)
  have htake : (closing :: rest).takeWhile (· ≠ closing) = [] :=
    List.takeWhile_cons_of_neg (by simp)
  rw [List.append_assoc, upTo, List.dropWhile_append_of_pos hword, List.singleton_append, hdrop]
  simp only [List.takeWhile_append_of_pos hword, htake, List.append_nil]

end

/-! ### Repetition -/

/-- `item*`: items as long as the next token starts one. -/
def many (starts : τ → Bool) (item : Parser τ α) : ℕ → Parser τ (List α)
  | 0, _ => none
  | fuel + 1, tokens =>
    if tokens.head?.any starts then do
      let (value, tokens) ← item tokens
      let (values, tokens) ← many starts item fuel tokens
      some (value :: values, tokens)
    else some ([], tokens)

theorem many_of_stops {starts : τ → Bool} (item : Parser τ α) {fuel : ℕ} {rest : List τ}
    (hfuel : 0 < fuel) (hrest : Stops starts rest) : many starts item fuel rest = some ([], rest) := by
  cases fuel with
  | zero => cases hfuel
  | succ fuel =>
    have hhead : rest.head?.any starts = false := by
      cases rest with
      | nil => rfl
      | cons t rest => exact hrest t rfl
    simp only [many, hhead, Bool.false_eq_true, if_false]

theorem many_reads (starts : τ → Bool) (item : Parser τ α) (print : α → List τ) (values : List α)
    (hitem : ∀ value ∈ values, Reads item value (print value))
    (hstart : ∀ value ∈ values, ∃ t rest, print value = t :: rest ∧ starts t = true)
    {fuel : ℕ} (rest : List τ) (hfuel : (values.flatMap print ++ rest).length < fuel)
    (hrest : Stops starts rest) :
    many starts item fuel (values.flatMap print ++ rest) = some (values, rest) := by
  induction values generalizing fuel with
  | nil => exact many_of_stops item (by omega) hrest
  | cons value values ih =>
    cases fuel with
    | zero => cases hfuel
    | succ fuel =>
      obtain ⟨t, ts, hprint, ht⟩ := hstart value (List.mem_cons_self ..)
      have hread := hitem value (List.mem_cons_self ..) (values.flatMap print ++ rest)
      have hhead : (print value ++ (values.flatMap print ++ rest)).head?.any starts = true := by
        rw [hprint]
        exact ht
      have hlength : (values.flatMap print ++ rest).length < fuel := by
        rw [List.flatMap_cons, hprint] at hfuel
        simp only [List.length_append, List.length_cons] at hfuel ⊢
        omega
      have hvalues := ih (fun v hv => hitem v (List.mem_cons_of_mem _ hv))
        (fun v hv => hstart v (List.mem_cons_of_mem _ hv)) hlength
      rw [List.flatMap_cons, List.append_assoc, many, if_pos hhead, hread]
      simp only [Option.bind_eq_bind, Option.bind_some, hvalues]

theorem many_sound {f : τ → σ} {starts : τ → Bool} {item : Parser τ α} {yield : α → List σ}
    (hitem : Sound f item yield) (fuel : ℕ) :
    Sound f (many starts item fuel) fun values => values.flatMap yield := by
  induction fuel with
  | zero =>
    intro tokens values rest h
    cases h
  | succ fuel ih =>
    intro tokens values rest h
    rw [many] at h
    split at h
    · simp only [Option.bind_eq_bind, Option.bind_eq_some_iff] at h
      obtain ⟨⟨value, tokens₁⟩, hvalue, ⟨values', tokens₂⟩, hvalues, heq⟩ := h
      cases heq
      simp only [hitem _ _ _ hvalue, ih _ _ _ hvalues, List.flatMap_cons, List.append_assoc]
    · cases h
      rfl

theorem many_forall {starts : τ → Bool} {item : Parser τ α} {P : α → Prop}
    (hitem : ∀ tokens value rest, item tokens = some (value, rest) → P value) {fuel : ℕ}
    {tokens rest : List τ} {values : List α} (h : many starts item fuel tokens = some (values, rest)) :
    ∀ value ∈ values, P value := by
  induction fuel generalizing tokens values with
  | zero => cases h
  | succ fuel ih =>
    rw [many] at h
    split at h
    · simp only [Option.bind_eq_bind, Option.bind_eq_some_iff] at h
      obtain ⟨⟨value, tokens₁⟩, hvalue, ⟨values', tokens₂⟩, hvalues, heq⟩ := h
      cases heq
      exact List.forall_mem_cons.mpr ⟨hitem _ _ _ hvalue, ih hvalues⟩
    · cases h
      exact fun _ hmem => absurd hmem List.not_mem_nil

end Raksha.Lib.Parsing
