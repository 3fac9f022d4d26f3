import Mathlib.Data.List.Infix
import Mathlib.Tactic

/-!
# Lexers

A lexer takes the longest match at every place, and of equally long ones that of the first rule.
Where no rule matches it drops some symbols and goes on. The matchers are built from spans, with
the lemmas that tell how far they reach.
-/

namespace Raksha.Lib.Lexing

variable {α τ : Type}

/-- How much of the input a rule matches, if it matches. -/
abbrev Matcher (α : Type) : Type := List α → Option ℕ

/-! ### Matchers -/

def span (p : α → Bool) (input : List α) : ℕ := (input.takeWhile p).length

/-- The input does not go on with a symbol of `p`. -/
def Stops (p : α → Bool) (rest : List α) : Prop := ∀ c, rest.head? = some c → p c = false

theorem stops_nil (p : α → Bool) : Stops p [] := by
  intro c h
  cases h

theorem stops_cons {p : α → Bool} {c : α} (rest : List α) (h : p c = false) :
    Stops p (c :: rest) := by
  intro d hd
  cases hd
  exact h

theorem span_eq_zero {p : α → Bool} {rest : List α} (h : Stops p rest) : span p rest = 0 := by
  cases rest with
  | nil => rfl
  | cons c rest => simp [span, h c rfl]

theorem span_append {p : α → Bool} {word rest : List α} (hword : ∀ c ∈ word, p c = true)
    (h : Stops p rest) : span p (word ++ rest) = word.length := by
  have hrest : (rest.takeWhile p).length = 0 := span_eq_zero h
  rw [span, List.takeWhile_append_of_pos hword, List.length_append, hrest, Nat.add_zero]

theorem span_cons {p : α → Bool} {c : α} (rest : List α) (h : p c = true) :
    span p (c :: rest) = span p rest + 1 := by
  simp [span, h]

def literal [DecidableEq α] (word : List α) : Matcher α := fun input =>
  if word.isPrefixOf input then some word.length else none

theorem literal_eq_some [DecidableEq α] {word input : List α} {n : ℕ} :
    literal word input = some n ↔ word <+: input ∧ n = word.length := by
  simp only [literal]
  split
  · next h => simp [List.isPrefixOf_iff_prefix.mp h, eq_comm]
  · next h =>
    have hnot : ¬ word <+: input := fun hbegins => h (List.isPrefixOf_iff_prefix.mpr hbegins)
    simp [hnot]

def many (p : α → Bool) : Matcher α := fun input => some (span p input)

def many1 (p : α → Bool) : Matcher α := fun input =>
  if span p input = 0 then none else some (span p input)

theorem many1_of_stops {p : α → Bool} {rest : List α} (h : Stops p rest) : many1 p rest = none := by
  rw [many1, span_eq_zero h, if_pos rfl]

def one (p : α → Bool) : Matcher α
  | [] => none
  | c :: _ => if p c then some 1 else none

/-- The second matcher goes on behind the first, which is not taken back. -/
def sequence (first second : Matcher α) : Matcher α := fun input =>
  (first input).bind fun n => (second (input.drop n)).map fun m => n + m

/-- What the matcher matches, or nothing. -/
def optional (matcher : Matcher α) : Matcher α := fun input => some ((matcher input).getD 0)

/-- The second matcher where the first does not match. -/
def orElse (first second : Matcher α) : Matcher α := fun input =>
  (first input).or (second input)

/-- A match of at least one symbol. -/
def nonempty (matcher : Matcher α) : Matcher α := fun input =>
  match matcher input with
  | some (n + 1) => some (n + 1)
  | _ => none

/-- The symbols up to the first place where the closing word stands, with the closing word. -/
def through [DecidableEq α] (closing : List α) : Matcher α
  | [] => if closing = [] then some 0 else none
  | c :: input =>
    if closing.isPrefixOf (c :: input) then some closing.length
    else (through closing input).map (· + 1)

theorem sequence_append {first second : Matcher α} {word rest : List α} {m : ℕ}
    (hfirst : first (word ++ rest) = some word.length) (hsecond : second rest = some m) :
    sequence first second (word ++ rest) = some (word.length + m) := by
  simp only [sequence, hfirst, Option.bind_some, List.drop_left, hsecond, Option.map_some]

theorem sequence_eq_some {first second : Matcher α} {input : List α} {n : ℕ} :
    sequence first second input = some n ↔
      ∃ k m, first input = some k ∧ second (input.drop k) = some m ∧ n = k + m := by
  simp only [sequence, Option.bind_eq_some_iff, Option.map_eq_some_iff]
  constructor
  · rintro ⟨k, hk, m, hm, rfl⟩
    exact ⟨k, m, hk, hm, rfl⟩
  · rintro ⟨k, m, hk, hm, rfl⟩
    exact ⟨k, hk, m, hm, rfl⟩

/-! ### Decimal numbers -/

theorem isDigit_of_mem_toString {n : ℕ} {d : Char} (h : d ∈ (toString n).toList) :
    d.isDigit = true := by
  rw [Nat.toString_eq_repr, Nat.toList_repr] at h
  exact Nat.isDigit_of_mem_toDigits (by decide) (by decide) h

theorem exists_cons_toString (n : ℕ) : ∃ d digits, (toString n).toList = d :: digits := by
  cases hlist : (toString n).toList with
  | nil => exact absurd (String.toList_eq_nil_iff.mp hlist) Nat.repr_ne_empty
  | cons d digits => exact ⟨d, digits, rfl⟩

theorem ofDigitChars_toString (n : ℕ) : Nat.ofDigitChars 10 (toString n).toList 0 = n := by
  rw [Nat.toString_eq_repr, Nat.toList_repr, Nat.ofDigitChars_ten_toDigits]

/-! ### Rules -/

structure Rule (α τ : Type) where
  type : τ
  matcher : Matcher α

/-- The longest match of the rules, the first one of equally long matches. -/
def longestMatch : List (Rule α τ) → List α → Option (τ × ℕ)
  | [], _ => none
  | rule :: rules, input =>
    match rule.matcher input, longestMatch rules input with
    | none, best => best
    | some n, none => some (rule.type, n)
    | some n, some (type, m) => if n < m then some (type, m) else some (rule.type, n)

theorem longestMatch_eq_none {rules : List (Rule α τ)} {input : List α}
    (h : longestMatch rules input = none) : ∀ rule ∈ rules, rule.matcher input = none := by
  induction rules with
  | nil => exact fun _ hrule => absurd hrule List.not_mem_nil
  | cons rule rules ih =>
    intro other hother
    rw [longestMatch] at h
    split at h
    · next hrule =>
      rcases List.mem_cons.mp hother with rfl | hother
      · exact hrule
      · exact ih h other hother
    · cases h
    · split at h <;> cases h

/-- The longest match is the match of a rule, and no rule matches more. -/
theorem longestMatch_spec {rules : List (Rule α τ)} {input : List α} {type : τ} {n : ℕ}
    (h : longestMatch rules input = some (type, n)) :
    (∃ rule ∈ rules, rule.type = type ∧ rule.matcher input = some n) ∧
    ∀ rule ∈ rules, ∀ m, rule.matcher input = some m → m ≤ n := by
  induction rules generalizing type n with
  | nil => cases h
  | cons rule rules ih =>
    rw [longestMatch] at h
    split at h
    · next hrule =>
      obtain ⟨⟨r, hr, htype, hn⟩, hle⟩ := ih h
      refine ⟨⟨r, List.mem_cons_of_mem _ hr, htype, hn⟩, ?_⟩
      intro other hother m hm
      rcases List.mem_cons.mp hother with rfl | hother
      · rw [hrule] at hm
        cases hm
      · exact hle other hother m hm
    · next k hrule hbest =>
      cases h
      refine ⟨⟨rule, List.mem_cons_self .., rfl, hrule⟩, ?_⟩
      intro other hother m hm
      rcases List.mem_cons.mp hother with rfl | hother
      · exact (Option.some.inj (hrule.symm.trans hm)).ge
      · rw [longestMatch_eq_none hbest other hother] at hm
        cases hm
    · next k type' j hrule hbest =>
      obtain ⟨⟨r, hr, htype, hn⟩, hle⟩ := ih hbest
      split at h
      · next hlt =>
        cases h
        refine ⟨⟨r, List.mem_cons_of_mem _ hr, htype, hn⟩, ?_⟩
        intro other hother m hm
        rcases List.mem_cons.mp hother with rfl | hother
        · rw [hrule] at hm
          cases hm
          exact hlt.le
        · exact hle other hother m hm
      · next hnot =>
        cases h
        refine ⟨⟨rule, List.mem_cons_self .., rfl, hrule⟩, ?_⟩
        intro other hother m hm
        rcases List.mem_cons.mp hother with rfl | hother
        · exact (Option.some.inj (hrule.symm.trans hm)).ge
        · have hbound := hle other hother m hm
          omega

/-- A rule wins that no earlier rule reaches and no later rule exceeds. -/
theorem longestMatch_of {before after : List (Rule α τ)} {rule : Rule α τ} {input : List α}
    {n : ℕ} (hrule : rule.matcher input = some n)
    (hbefore : ∀ r ∈ before, ∀ m, r.matcher input = some m → m < n)
    (hafter : ∀ r ∈ after, ∀ m, r.matcher input = some m → m ≤ n) :
    longestMatch (before ++ rule :: after) input = some (rule.type, n) := by
  induction before with
  | nil =>
    rw [List.nil_append, longestMatch, hrule]
    cases hbest : longestMatch after input with
    | none => rfl
    | some best =>
      obtain ⟨⟨r, hr, -, hm⟩, -⟩ := longestMatch_spec hbest
      have hle := hafter r hr best.2 hm
      simp only
      rw [if_neg (by omega)]
  | cons r before ih =>
    have hrest := ih fun r' hr' => hbefore r' (List.mem_cons_of_mem _ hr')
    rw [List.cons_append, longestMatch, hrest]
    cases hr : r.matcher input with
    | none => rfl
    | some m =>
      have hlt := hbefore r (List.mem_cons_self ..) m hr
      simp only
      rw [if_pos hlt]

theorem longestMatch_before {before after : List (Rule α τ)} {input : List α} {type : τ} {n : ℕ}
    (h : longestMatch (before ++ after) input = some (type, n))
    (hbefore : ∀ rule ∈ before, rule.type ≠ type) :
    ∀ rule ∈ before, rule.matcher input ≠ some n := by
  induction before with
  | nil => exact fun _ hrule => absurd hrule List.not_mem_nil
  | cons first before ih =>
    have hfirst := hbefore first (List.mem_cons_self ..)
    have hlater : longestMatch (before ++ after) input = some (type, n) ∧
        first.matcher input ≠ some n := by
      rw [List.cons_append, longestMatch] at h
      split at h
      · next hnone => exact ⟨h, by simp [hnone]⟩
      · cases h
        exact absurd rfl hfirst
      · next k type' m hk hbest =>
        split at h
        · next hlt =>
          cases h
          exact ⟨hbest, fun heq => by rw [heq, Option.some.injEq] at hk; omega⟩
        · cases h
          exact absurd rfl hfirst
    intro rule hrule
    rcases List.mem_cons.mp hrule with rfl | hrule
    · exact hlater.2
    · exact ih hlater.1 (fun r hr => hbefore r (List.mem_cons_of_mem _ hr)) rule hrule

theorem longestMatch_congr {rules : List (Rule α τ)} {input input' : List α}
    (h : ∀ rule ∈ rules, rule.matcher input = rule.matcher input') :
    longestMatch rules input = longestMatch rules input' := by
  induction rules with
  | nil => rfl
  | cons rule rules ih =>
    rw [longestMatch, longestMatch, h rule (List.mem_cons_self ..),
      ih fun r hr => h r (List.mem_cons_of_mem _ hr)]

/-! ### Separators

A matcher of words does not look at a separator nor at what stands behind it. -/

structure Separated (separator : α → Bool) (matcher : Matcher α) : Prop where
  bounded : ∀ word n, matcher word = some n → n ≤ word.length
  stopsAt : ∀ word c rest, separator c = true → matcher (word ++ c :: rest) = matcher word

section

variable {separator : α → Bool}

theorem isPrefixOf_append_separator [DecidableEq α] {word : List α}
    (h : ∀ c ∈ word, separator c = false) (input : List α) {c : α} (rest : List α)
    (hc : separator c = true) :
    word.isPrefixOf (input ++ c :: rest) = word.isPrefixOf input := by
  induction word generalizing input with
  | nil => simp
  | cons d word ih =>
    have hd := h d (List.mem_cons_self ..)
    cases input with
    | nil =>
      have hne : d ≠ c := by
        rintro rfl
        rw [hc] at hd
        cases hd
      simp [List.isPrefixOf, hne]
    | cons e input =>
      simp only [List.cons_append, List.isPrefixOf,
        ih (fun x hx => h x (List.mem_cons_of_mem _ hx)) input]

theorem Separated.literal [DecidableEq α] {word : List α}
    (h : ∀ c ∈ word, separator c = false) : Separated separator (literal word) := by
  refine ⟨?_, ?_⟩
  · intro input n hn
    obtain ⟨hbegins, rfl⟩ := literal_eq_some.mp hn
    exact hbegins.length_le
  · intro input c rest hc
    simp only [Lexing.literal, isPrefixOf_append_separator h input rest hc]

theorem span_append_separator {p : α → Bool} (h : ∀ c, separator c = true → p c = false)
    (input : List α) {c : α} (rest : List α) (hc : separator c = true) :
    span p (input ++ c :: rest) = span p input := by
  induction input with
  | nil => exact span_eq_zero (stops_cons rest (h c hc))
  | cons d input ih =>
    cases hd : p d with
    | true => rw [List.cons_append, span_cons _ hd, span_cons _ hd, ih]
    | false => rw [List.cons_append, span_eq_zero (stops_cons _ hd), span_eq_zero (stops_cons _ hd)]

theorem Separated.many {p : α → Bool} (h : ∀ c, separator c = true → p c = false) :
    Separated separator (many p) := by
  refine ⟨?_, ?_⟩
  · intro input n hn
    cases hn
    exact (List.takeWhile_prefix _).length_le
  · intro input c rest hc
    simp only [Lexing.many, span_append_separator h input rest hc]

theorem Separated.many1 {p : α → Bool} (h : ∀ c, separator c = true → p c = false) :
    Separated separator (many1 p) := by
  refine ⟨?_, ?_⟩
  · intro input n hn
    rw [Lexing.many1] at hn
    split at hn
    · cases hn
    · cases hn
      exact (List.takeWhile_prefix _).length_le
  · intro input c rest hc
    simp only [Lexing.many1, span_append_separator h input rest hc]

theorem Separated.one {p : α → Bool} (h : ∀ c, separator c = true → p c = false) :
    Separated separator (one p) := by
  refine ⟨?_, ?_⟩
  · intro input n hn
    cases input with
    | nil => cases hn
    | cons c input =>
      rw [Lexing.one] at hn
      split at hn
      · cases hn
        simp
      · cases hn
  · intro input c rest hc
    cases input with
    | nil => simp [Lexing.one, h c hc]
    | cons d input => rfl

theorem Separated.sequence {first second : Matcher α} (hfirst : Separated separator first)
    (hsecond : Separated separator second) : Separated separator (sequence first second) := by
  refine ⟨?_, ?_⟩
  · intro input n hn
    obtain ⟨k, m, hk, hm, rfl⟩ := sequence_eq_some.mp hn
    have hbound := hsecond.bounded _ _ hm
    have hle := hfirst.bounded _ _ hk
    rw [List.length_drop] at hbound
    omega
  · intro input c rest hc
    simp only [Lexing.sequence, hfirst.stopsAt input c rest hc]
    cases hk : first input with
    | none => rfl
    | some k =>
      rw [Option.bind_some, Option.bind_some, List.drop_append_of_le_length (hfirst.bounded _ _ hk),
        hsecond.stopsAt _ c rest hc]

theorem Separated.optional {matcher : Matcher α} (h : Separated separator matcher) :
    Separated separator (optional matcher) := by
  refine ⟨?_, ?_⟩
  · intro input n hn
    cases hn
    cases hm : matcher input with
    | none => exact Nat.zero_le _
    | some m => exact h.bounded _ _ hm
  · intro input c rest hc
    simp only [Lexing.optional, h.stopsAt input c rest hc]

theorem Separated.orElse {first second : Matcher α} (hfirst : Separated separator first)
    (hsecond : Separated separator second) : Separated separator (orElse first second) := by
  refine ⟨?_, ?_⟩
  · intro input n hn
    rcases Option.or_eq_some_iff.mp hn with hn | ⟨-, hn⟩
    · exact hfirst.bounded _ _ hn
    · exact hsecond.bounded _ _ hn
  · intro input c rest hc
    simp only [Lexing.orElse, hfirst.stopsAt input c rest hc, hsecond.stopsAt input c rest hc]

theorem Separated.nonempty {matcher : Matcher α} (h : Separated separator matcher) :
    Separated separator (nonempty matcher) := by
  refine ⟨?_, ?_⟩
  · intro input n hn
    rw [Lexing.nonempty] at hn
    split at hn
    · next hm =>
      cases hn
      exact h.bounded _ _ hm
    · cases hn
  · intro input c rest hc
    simp only [Lexing.nonempty, h.stopsAt input c rest hc]

end

/-! ### Words and what stands behind them -/

/-- What stands behind a word matters only to a match that reaches the end of the word. -/
def Stable (matcher : Matcher α) : Prop := ∀ word rest,
  matcher (word ++ rest) = matcher word ∨ ∃ n, matcher (word ++ rest) = some n ∧ word.length ≤ n

theorem Stable.literal [DecidableEq α] (word : List α) : Stable (literal word) := by
  intro input rest
  by_cases hbegins : word <+: input
  · have hlonger : word <+: input ++ rest := hbegins.trans (List.prefix_append _ _)
    have hmatch := literal_eq_some.mpr ⟨hbegins, rfl⟩
    exact .inl (by rw [hmatch, literal_eq_some.mpr ⟨hlonger, rfl⟩])
  by_cases hlonger : word <+: input ++ rest
  · refine .inr ⟨word.length, literal_eq_some.mpr ⟨hlonger, rfl⟩, ?_⟩
    rcases List.prefix_or_prefix_of_prefix hlonger (List.prefix_append input rest) with h | h
    · exact absurd h hbegins
    · exact h.length_le
  · refine .inl ?_
    simp only [Lexing.literal, List.isPrefixOf_iff_prefix, hbegins, hlonger]

theorem span_stable (p : α → Bool) (word rest : List α) :
    span p (word ++ rest) = span p word ∨ word.length ≤ span p (word ++ rest) := by
  induction word with
  | nil => exact .inr (Nat.zero_le _)
  | cons c word ih =>
    cases hc : p c with
    | true => simpa only [List.cons_append, span_cons _ hc, List.length_cons, Nat.add_right_cancel_iff,
        Nat.add_le_add_iff_right] using ih
    | false =>
      exact .inl (by rw [List.cons_append, span_eq_zero (stops_cons _ hc),
        span_eq_zero (stops_cons _ hc)])

theorem Stable.many (p : α → Bool) : Stable (many p) := by
  intro word rest
  rcases span_stable p word rest with h | h
  · exact .inl (by rw [Lexing.many, Lexing.many, h])
  · exact .inr ⟨_, rfl, h⟩

theorem Stable.many1 (p : α → Bool) : Stable (many1 p) := by
  intro word rest
  rcases span_stable p word rest with h | h
  · exact .inl (by rw [Lexing.many1, Lexing.many1, h])
  · by_cases hzero : span p (word ++ rest) = 0
    · have hword : word = [] := List.length_eq_zero_iff.mp (by omega)
      subst hword
      exact .inl (by rw [Lexing.many1, if_pos hzero]; rfl)
    · exact .inr ⟨_, by rw [Lexing.many1, if_neg hzero], h⟩

theorem Stable.optional {matcher : Matcher α} (h : Stable matcher) : Stable (optional matcher) := by
  intro word rest
  rcases h word rest with heq | ⟨n, hn, hle⟩
  · exact .inl (by rw [Lexing.optional, Lexing.optional, heq])
  · exact .inr ⟨n, by rw [Lexing.optional, hn]; rfl, hle⟩

theorem Stable.nonempty {matcher : Matcher α} (h : Stable matcher)
    (hempty : matcher [] = some 0) : Stable (nonempty matcher) := by
  intro word rest
  rcases h word rest with heq | ⟨n, hn, hle⟩
  · exact .inl (by rw [Lexing.nonempty, Lexing.nonempty, heq])
  · cases n with
    | succ n => exact .inr ⟨n + 1, by rw [Lexing.nonempty, hn], hle⟩
    | zero =>
      have hword : word = [] := List.length_eq_zero_iff.mp (Nat.le_zero.mp hle)
      subst hword
      exact .inl (by rw [Lexing.nonempty, Lexing.nonempty, hn, hempty])

theorem Stable.sequence {first second : Matcher α} (hfirst : Stable first)
    (hbounded : ∀ input n, first input = some n → n ≤ input.length) (hsecond : Stable second)
    (htotal : ∀ input, ∃ n, second input = some n) : Stable (sequence first second) := by
  intro word rest
  rcases hfirst word rest with heq | ⟨n, hn, hle⟩
  · cases hk : first word with
    | none => exact .inl (by simp only [Lexing.sequence, heq, hk, Option.bind_none])
    | some k =>
      have hle := hbounded _ _ hk
      rcases hsecond (word.drop k) rest with heq' | ⟨m, hm, hle'⟩
      · refine .inl ?_
        simp only [Lexing.sequence, heq, hk, Option.bind_some,
          List.drop_append_of_le_length hle, heq']
      · refine .inr ⟨k + m, ?_, ?_⟩
        · simp only [Lexing.sequence, heq, hk, Option.bind_some,
            List.drop_append_of_le_length hle, hm, Option.map_some]
        · rw [List.length_drop] at hle'
          omega
  · obtain ⟨m, hm⟩ := htotal ((word ++ rest).drop n)
    exact .inr ⟨n + m, by simp only [Lexing.sequence, hn, Option.bind_some, hm, Option.map_some],
      by omega⟩

theorem Stable.sequence_of_head {first second : Matcher α}
    (hfirst : ∀ c word rest, first (c :: word ++ rest) = first (c :: word))
    (hbounded : ∀ input n, first input = some n → n ≤ input.length) (hsecond : Stable second)
    (hempty : Lexing.sequence first second [] = none) :
    Stable (Lexing.sequence first second) := by
  intro word rest
  cases word with
  | nil =>
    cases hrest : Lexing.sequence first second rest with
    | none => exact .inl (by rw [List.nil_append, hrest, hempty])
    | some n => exact .inr ⟨n, hrest, Nat.zero_le _⟩
  | cons c word =>
    cases hk : first (c :: word) with
    | none => exact .inl (by simp only [Lexing.sequence, hfirst, hk, Option.bind_none])
    | some k =>
      have hle := hbounded _ _ hk
      rcases hsecond ((c :: word).drop k) rest with heq | ⟨m, hm, hle'⟩
      · refine .inl ?_
        simp only [Lexing.sequence, hfirst, hk, Option.bind_some,
          List.drop_append_of_le_length hle, heq]
      · refine .inr ⟨k + m, ?_, ?_⟩
        · simp only [Lexing.sequence, hfirst, hk, Option.bind_some,
            List.drop_append_of_le_length hle, hm, Option.map_some]
        · rw [List.length_drop] at hle'
          omega

/-! ### Lexers -/

structure Lexer (α τ : Type) where
  rules : List (Rule α τ)
  skip : τ → Bool
  /-- How many symbols are dropped where no rule matches; at least one is. -/
  recover : List α → ℕ

namespace Lexer

variable (lexer : Lexer α τ)

/-- The tokens, with fuel for at least as many steps as there are symbols. -/
def tokensWithin : ℕ → List α → List (τ × List α)
  | 0, _ => []
  | _, [] => []
  | fuel + 1, c :: input =>
    match longestMatch lexer.rules (c :: input) with
    | none => tokensWithin fuel (input.drop (lexer.recover (c :: input) - 1))
    | some (type, n) =>
      if lexer.skip type then tokensWithin fuel (input.drop (n - 1))
      else (type, (c :: input).take n) :: tokensWithin fuel (input.drop (n - 1))

def tokens (input : List α) : List (τ × List α) := lexer.tokensWithin input.length input

theorem tokensWithin_of_le (fuel : ℕ) (input : List α) (h : input.length ≤ fuel) :
    lexer.tokensWithin fuel input = lexer.tokens input := by
  have hagree : ∀ fuel fuel' (input : List α), input.length ≤ fuel → input.length ≤ fuel' →
      lexer.tokensWithin fuel input = lexer.tokensWithin fuel' input := by
    intro fuel
    induction fuel with
    | zero =>
      intro fuel' input h _
      rw [List.length_eq_zero_iff.mp (Nat.le_zero.mp h)]
      cases fuel' <;> rfl
    | succ fuel ih =>
      intro fuel' input h h'
      cases input with
      | nil => cases fuel' <;> rfl
      | cons c input =>
        cases fuel' with
        | zero => simp at h'
        | succ fuel' =>
          have hdrop : ∀ k, lexer.tokensWithin fuel (input.drop k) =
              lexer.tokensWithin fuel' (input.drop k) := by
            intro k
            simp only [List.length_cons] at h h'
            exact ih fuel' _ (by rw [List.length_drop]; omega) (by rw [List.length_drop]; omega)
          simp only [tokensWithin, hdrop]
  exact hagree fuel input.length input h le_rfl

theorem tokens_cons (c : α) (input : List α) : lexer.tokens (c :: input) =
    match longestMatch lexer.rules (c :: input) with
    | none => lexer.tokens (input.drop (lexer.recover (c :: input) - 1))
    | some (type, n) =>
      if lexer.skip type then lexer.tokens (input.drop (n - 1))
      else (type, (c :: input).take n) :: lexer.tokens (input.drop (n - 1)) := by
  have hdrop : ∀ k, lexer.tokensWithin input.length (input.drop k) =
      lexer.tokens (input.drop k) := by
    intro k
    exact lexer.tokensWithin_of_le _ _ (by rw [List.length_drop]; omega)
  rw [tokens, List.length_cons, tokensWithin]
  simp only [hdrop]

variable {lexer}

theorem tokens_append {word rest : List α} {type : τ} (hne : word ≠ [])
    (hmatch : longestMatch lexer.rules (word ++ rest) = some (type, word.length))
    (hskip : lexer.skip type = false) :
    lexer.tokens (word ++ rest) = (type, word) :: lexer.tokens rest := by
  cases word with
  | nil => exact absurd rfl hne
  | cons c word =>
    rw [List.cons_append] at hmatch ⊢
    rw [tokens_cons, hmatch]
    simp only [hskip, Bool.false_eq_true, if_false, List.length_cons, Nat.add_sub_cancel,
      List.drop_left, List.take_succ_cons, List.take_left]

theorem tokens_append_skip {word rest : List α} {type : τ} (hne : word ≠ [])
    (hmatch : longestMatch lexer.rules (word ++ rest) = some (type, word.length))
    (hskip : lexer.skip type = true) : lexer.tokens (word ++ rest) = lexer.tokens rest := by
  cases word with
  | nil => exact absurd rfl hne
  | cons c word =>
    rw [List.cons_append] at hmatch ⊢
    rw [tokens_cons, hmatch]
    simp only [hskip, if_true, List.length_cons, Nat.add_sub_cancel, List.drop_left]

theorem tokens_spec {input : List α} {token : τ × List α} (h : token ∈ lexer.tokens input) :
    ∃ input' n, longestMatch lexer.rules input' = some (token.1, n) ∧ token.2 = input'.take n := by
  have hwithin : ∀ fuel (input : List α), token ∈ lexer.tokensWithin fuel input →
      ∃ input' n, longestMatch lexer.rules input' = some (token.1, n) ∧
        token.2 = input'.take n := by
    intro fuel
    induction fuel with
    | zero => exact fun _ hmem => absurd hmem List.not_mem_nil
    | succ fuel ih =>
      intro input hmem
      cases input with
      | nil => exact absurd hmem List.not_mem_nil
      | cons c input =>
        rw [tokensWithin] at hmem
        split at hmem
        · exact ih _ hmem
        · next type n hmatch =>
          split at hmem
          · exact ih _ hmem
          · rcases List.mem_cons.mp hmem with rfl | hmem
            · exact ⟨c :: input, n, hmatch, rfl⟩
            · exact ih _ hmem
  exact hwithin input.length input h

/-- If every token of a kind takes some symbols of a kind, then the input has as many of them. -/
theorem countP_tokens_le {isToken : τ × List α → Bool} {isSymbol : α → Bool} {k : ℕ}
    (h : ∀ input type n, longestMatch lexer.rules input = some (type, n) →
      isToken (type, input.take n) = true → k ≤ (input.take n).countP isSymbol)
    (input : List α) : k * (lexer.tokens input).countP isToken ≤ input.countP isSymbol := by
  have hwithin : ∀ fuel (input : List α),
      k * (lexer.tokensWithin fuel input).countP isToken ≤ input.countP isSymbol := by
    intro fuel
    induction fuel with
    | zero =>
      intro input
      rw [tokensWithin, List.countP_nil, Nat.mul_zero]
      exact Nat.zero_le _
    | succ fuel ih =>
      intro input
      cases input with
      | nil =>
        have hnil : lexer.tokensWithin (fuel + 1) [] = [] := rfl
        rw [hnil, List.countP_nil, Nat.mul_zero]
        exact Nat.zero_le _
      | cons c input =>
        have hrest : ∀ n, k * (lexer.tokensWithin fuel (input.drop n)).countP isToken ≤
            (c :: input).countP isSymbol := fun n =>
          (ih _).trans (((List.drop_sublist n input).trans (List.sublist_cons_self c input)).countP_le)
        rw [tokensWithin]
        split
        · exact hrest _
        · next type n hmatch =>
          split
          · exact hrest _
          · rw [List.countP_cons]
            split
            · next htoken =>
              have hword := h _ type n hmatch htoken
              cases n with
              | zero =>
                rw [List.take_zero, List.countP_nil, Nat.le_zero] at hword
                rw [hword, Nat.zero_mul]
                exact Nat.zero_le _
              | succ n =>
                have hsplit := congrArg (List.countP isSymbol) (List.take_append_drop (n + 1) (c :: input))
                rw [List.countP_append, List.drop_succ_cons] at hsplit
                rw [Nat.mul_add, Nat.mul_one, Nat.add_sub_cancel, ← hsplit]
                have hlater := ih (input.drop n)
                omega
            · exact hrest _
  exact hwithin input.length input

end Lexer

end Raksha.Lib.Lexing
