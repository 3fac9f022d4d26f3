import Raksha.Parser.TokenTexts

/-!
# Words that were read

A name or a temporary of a text is the same token in front of any separator, except that two
slashes may start a comment there.
-/

namespace Raksha.Parser
open Raksha.Lib.Lexing

/-! ### Names -/

/-- The text is an `ID` token on its own. -/
def IsIdWord (name : String) : Prop :=
  longestMatch irRules name.toList = some (.id, name.toList.length)

instance (name : String) : Decidable (IsIdWord name) := inferInstanceAs (Decidable (_ = _))

theorem all_of_span {p : Char → Bool} {word rest : List Char}
    (h : span p (word ++ rest) = word.length) : ∀ c ∈ word, p c = true := by
  have hbegins := List.takeWhile_prefix (l := word ++ rest) p
  have htake : (word ++ rest).takeWhile p = word :=
    (List.prefix_of_prefix_length_le hbegins (List.prefix_append word rest)
      h.le).eq_of_length h
  intro c hc
  rw [← htake] at hc
  exact List.all_eq_true.mp List.all_takeWhile c hc

theorem id_eq_some {word rest : List Char} (h : id (word ++ rest) = some word.length) :
    ∃ d tail, word = d :: tail ∧ isIdStart d = true ∧ ∀ c ∈ tail, isIdRest c = true := by
  obtain ⟨k, m, hk, hm, hlength⟩ := sequence_eq_some.mp h
  cases word with
  | nil =>
    cases rest with
    | nil => cases hk
    | cons d rest =>
      rw [List.nil_append, one] at hk
      split at hk
      · cases hk
        rw [List.length_nil] at hlength
        omega
      · cases hk
  | cons d tail =>
    rw [List.cons_append, one] at hk
    split at hk
    · next hd =>
      cases hk
      refine ⟨d, tail, rfl, hd, @all_of_span _ tail rest ?_⟩
      rw [List.cons_append, List.drop_succ_cons, List.drop_zero, many, Option.some.injEq] at hm
      rw [List.length_cons] at hlength
      omega
    · cases hk

theorem id_word {d : Char} {tail : List Char} (hd : isIdStart d = true)
    (htail : ∀ c ∈ tail, isIdRest c = true) : id (d :: tail) = some (tail.length + 1) := by
  have hspan := span_append htail (stops_nil isIdRest)
  rw [List.append_nil] at hspan
  have hone : one isIdStart ([d] ++ tail) = some [d].length := by simp [one, hd]
  rw [Nat.add_comm]
  exact sequence_append hone (congrArg some hspan)

theorem isIdStart_not_digit {d : Char} (h : isIdStart d = true) : d.isDigit = false := by
  refine Bool.eq_false_iff.mpr fun hdigit => ?_
  rcases isDigit_cases hdigit with rfl | rfl | rfl | rfl | rfl | rfl | rfl | rfl | rfl | rfl <;>
    cases h

theorem isIdStart_not_sign {d : Char} (h : isIdStart d = true) : isSign d = false := by
  refine Bool.eq_false_iff.mpr fun hsign => ?_
  simp only [isSign, Bool.or_eq_true, beq_iff_eq] at hsign
  rcases hsign with rfl | rfl <;> cases h

theorem numLiteral_of_idStart {d : Char} (h : isIdStart d = true) (tail : List Char) :
    numLiteral (d :: tail) = none := many1_of_stops (stops_cons _ (isIdStart_not_digit h))

theorem floatLiteral_of_idStart {d : Char} (h : isIdStart d = true) (tail : List Char) :
    floatLiteral (d :: tail) = none := by
  have hsign : Lib.Lexing.optional sign (d :: tail) = some 0 := by
    simp [Lib.Lexing.optional, sign, one, isIdStart_not_sign h]
  simp only [floatLiteral, Lib.Lexing.sequence, hsign, Option.bind_some, List.drop_zero,
    numLiteral_of_idStart h, Option.bind_none, Option.map_none]

theorem exponent_stable : Stable exponent :=
  .sequence_of_head (fun _ _ _ => rfl) (Separated.one (isSeparator_stops rfl)).bounded
    (.sequence_of_head (fun _ _ _ => rfl) (Separated.optional sign_separated).bounded (.many1 _) rfl)
    rfl

theorem fractionalPart_stable : Stable fractionalPart :=
  .sequence (.literal _) (fun _ _ h => (literal_separated rfl).bounded _ _ h) (.many _)
    fun _ => ⟨_, rfl⟩

theorem floatTail_stable : Stable floatTail :=
  .nonempty (.sequence (.optional fractionalPart_stable)
    (Separated.optional fractionalPart_separated).bounded
    (.sequence (.optional exponent_stable) (Separated.optional exponent_separated).bounded
      (.optional (.literal _)) fun _ => ⟨_, rfl⟩)
    fun _ => ⟨_, rfl⟩) rfl

theorem one_stable (p : Char → Bool) : Stable (one p) := by
  intro word rest
  cases word with
  | nil =>
    cases hrest : one p rest with
    | none => exact .inl (by rw [List.nil_append, hrest]; rfl)
    | some n => exact .inr ⟨n, hrest, Nat.zero_le _⟩
  | cons c word => exact .inl rfl

theorem stable_before {rule : Rule Char TokenType} (hrule : rule ∈ irRulesBeforeId) {d : Char}
    (hd : isIdStart d = true) (tail : List Char) :
    Stable rule.matcher ∨ rule.matcher (d :: tail) = none := by
  simp only [irRulesBeforeId, List.mem_cons, List.not_mem_nil, or_false] at hrule
  rcases hrule with rfl | rfl | rfl | rfl | rfl | rfl | rfl | rfl | rfl | rfl | rfl | rfl | rfl |
    rfl | rfl | rfl | rfl | rfl
  iterate 12 exact .inl (.literal _)
  · exact .inl (one_stable _)
  · exact .inl (.many1 _)
  · exact .inl fractionalPart_stable
  · exact .inl exponent_stable
  · exact .inl floatTail_stable
  · exact .inr (floatLiteral_of_idStart hd tail)

theorem commentMulti_idWord {d : Char} {tail : List Char} (htail : ∀ c ∈ tail, isIdRest c = true)
    (rest : List Char) (hrest : rest.head? ≠ some '*') : commentMulti (d :: tail ++ rest) = none := by
  refine sequence_of_none (Option.eq_none_iff_forall_ne_some.mpr fun n hn => ?_)
  obtain ⟨hbegins, -⟩ := literal_eq_some.mp hn
  have hstar := (List.cons_prefix_cons.mp hbegins).2
  cases tail with
  | nil =>
    cases rest with
    | nil => cases List.prefix_nil.mp hstar
    | cons c rest => exact hrest (congrArg some (List.cons_prefix_cons.mp hstar).1.symm)
  | cons c tail =>
    have hc := htail c (List.mem_cons_self ..)
    rw [← (List.cons_prefix_cons.mp hstar).1] at hc
    cases hc

theorem not_startsAfterId {d : Char} (hd : isIdStart d = true) (input : List Char) :
    stringLiteral (d :: input) = none ∧ temporaryId (d :: input) = none ∧
      whitespaceIgnore (d :: input) = none := by
  have hne : ∀ c, isIdStart c = false → c ≠ d := by
    rintro c hc rfl
    rw [hd] at hc
    cases hc
  refine ⟨sequence_of_none (literal_of_ne _ (hne '"' rfl)),
    sequence_of_none (literal_of_ne _ (hne '%' rfl)), many1_of_stops (stops_cons _ ?_)⟩
  refine Bool.eq_false_iff.mpr fun hspace => ?_
  simp only [isWhitespace, Bool.or_eq_true, beq_iff_eq] at hspace
  rcases hspace with ((rfl | rfl) | rfl) | rfl <;> cases hd

theorem commentSingle_bounded {input : List Char} {n : ℕ} (h : commentSingle input = some n) :
    n ≤ input.length := by
  have hbounded : Separated (fun _ => false) commentSingle :=
    .sequence (.literal (by simp)) (.sequence (.many (by simp))
      (.sequence (.optional (.literal (by simp))) (.literal (by simp))))
  exact hbounded.bounded _ _ h

/-- The token of a name does not come from what stands behind the name. -/
theorem longestMatch_idWord {d : Char} {tail rest : List Char} (hd : isIdStart d = true)
    (htail : ∀ c ∈ tail, isIdRest c = true)
    (h : longestMatch irRules (d :: tail ++ rest) = some (TokenType.id, tail.length + 1)) :
    longestMatch irRules (d :: tail) = some (TokenType.id, tail.length + 1) := by
  have hrules : irRules = irRulesBeforeId ++ ⟨TokenType.id, id⟩ :: irRulesAfterId := rfl
  rw [hrules] at h ⊢
  refine longestMatch_of (id_word hd htail) ?_ ?_
  · intro rule hrule m hm
    have hbefore : rule.matcher (d :: tail ++ rest) ≠ some (tail.length + 1) := by
      refine longestMatch_before h ?_ rule hrule
      simp [irRulesBeforeId]
    have hmem : rule ∈ irRules := List.mem_append_left _ hrule
    rcases stable_before hrule hd tail with hstable | hnone
    · rcases hstable (d :: tail) rest with heq | ⟨n, hn, hle⟩
      · rw [hm] at heq
        have hle := (longestMatch_spec h).2 rule hmem m heq
        rw [heq] at hbefore
        exact lt_of_le_of_ne hle fun hsame => hbefore (by rw [hsame])
      · have hle' := (longestMatch_spec h).2 rule hmem n hn
        rw [hn, Ne, Option.some.injEq] at hbefore
        rw [List.length_cons] at hle
        omega
    · rw [hm] at hnone
      cases hnone
  · obtain ⟨hstring, htemporary, hspace⟩ := not_startsAfterId hd tail
    have hmulti := commentMulti_idWord (d := d) htail [] (by simp)
    rw [List.append_nil] at hmulti
    intro rule hrule m hm
    simp only [irRulesAfterId, List.mem_cons, List.not_mem_nil, or_false] at hrule
    rcases hrule with rfl | rfl | rfl | rfl | rfl
    · exact absurd (hm.symm.trans hstring) (by simp)
    · exact absurd (hm.symm.trans htemporary) (by simp)
    · exact absurd (hm.symm.trans hspace) (by simp)
    · exact commentSingle_bounded hm
    · exact absurd (hm.symm.trans hmulti) (by simp)

theorem isIdWord_of_token {text : List Char} {token : Token} (h : token ∈ irTokens text)
    (htype : token.type = .id) : IsIdWord token.text := by
  obtain ⟨word, rest, htext, hmatch, hlongest⟩ := exists_match id h
    (by rw [htype]; simp [irRules, irRulesBeforeId, irRulesAfterId])
    (id_separated.bounded)
  obtain ⟨d, tail, rfl, hd, htail⟩ := id_eq_some hmatch
  rw [htype, List.length_cons] at hlongest
  rw [IsIdWord, htext, String.toList_ofList]
  exact longestMatch_idWord hd htail hlongest

variable {name : String}

theorem IsIdWord.chars (h : IsIdWord name) :
    ∃ d tail, name.toList = d :: tail ∧ isIdStart d = true ∧ ∀ c ∈ tail, isIdRest c = true := by
  obtain ⟨⟨rule, hrule, htype, hmatch⟩, -⟩ := longestMatch_spec h
  have hrules : ∀ rule ∈ irRules, rule.type = .id → rule.matcher = id := by
    simp [irRules, irRulesBeforeId, irRulesAfterId]
  rw [hrules rule hrule htype] at hmatch
  exact @id_eq_some name.toList [] (by rwa [List.append_nil])

theorem IsIdWord.isIdRest (h : IsIdWord name) : ∀ c ∈ name.toList, isIdRest c = true := by
  obtain ⟨d, tail, hlist, hd, htail⟩ := h.chars
  rw [hlist]
  intro c hc
  rcases List.mem_cons.mp hc with rfl | hc
  · simp [Parser.isIdRest, hd]
  · exact htail c hc

theorem IsIdWord.isLineText (h : IsIdWord name) : ∀ c ∈ name.toList, isLineText c = true :=
  fun c hc => isLineText_of_isIdRest (h.isIdRest c hc)

/-! ### Comments -/

/-- The rest of a comment. -/
def commentBody : Matcher Char :=
  Lib.Lexing.sequence (many isLineText)
    (Lib.Lexing.sequence (Lib.Lexing.optional (literal ['\r'])) (literal ['\n']))

/-- The first line break of the text ends a comment; at the end of the text there is one. -/
def endsLine : List Char → Bool
  | [] => true
  | c :: text =>
    if isLineText c then endsLine text else c == '\n' || text.head? == some '\n'

theorem commentSingle_slashes (input : List Char) :
    commentSingle ('/' :: '/' :: input) = (commentBody input).map (2 + ·) := rfl

theorem commentBody_cons {c : Char} (hc : isLineText c = true) (input : List Char) :
    commentBody (c :: input) = (commentBody input).map (1 + ·) := by
  simp only [commentBody, Lib.Lexing.sequence, many, span_cons _ hc, Option.bind_some,
    Nat.add_comm _ 1, ← List.drop_drop, List.drop_succ_cons, List.drop_zero, Option.map_map]
  refine congrArg (fun f => Option.map f _) (funext fun m => ?_)
  simp only [Function.comp_apply]
  omega

theorem not_isLineText {c : Char} (hc : isLineText c = false) : c = '\r' ∨ c = '\n' := by
  simp only [isLineText, Bool.and_eq_false_iff, bne_eq_false_iff_eq] at hc
  exact hc

theorem commentBody_lineBreak {c : Char} (hc : isLineText c = false) (input : List Char) :
    commentBody (c :: input) = if c = '\n' then some 1
      else if input.head? = some '\n' then some 2 else none := by
  have hspan : span isLineText (c :: input) = 0 := span_eq_zero (stops_cons _ hc)
  rcases not_isLineText hc with rfl | rfl
  · cases input with
    | nil => rfl
    | cons d input =>
      by_cases hd : d = '\n'
      · subst hd
        rfl
      · have hliteral : literal ['\n'] (d :: input) = none := literal_of_ne _ (Ne.symm hd)
        have hoptional : Lib.Lexing.optional (literal ['\r']) ('\r' :: d :: input) = some 1 := rfl
        simp [commentBody, Lib.Lexing.sequence, many, hspan, hoptional, hliteral, hd]
  · rfl

theorem commentBody_eq_some {input : List Char} {n : ℕ} (h : commentBody input = some n) :
    ∃ body lineEnd rest, input = body ++ (lineEnd ++ rest) ∧ n = body.length + lineEnd.length ∧
      (∀ c ∈ body, isLineText c = true) ∧ (lineEnd = ['\n'] ∨ lineEnd = ['\r', '\n']) := by
  induction input generalizing n with
  | nil => cases h
  | cons c input ih =>
    cases hc : isLineText c with
    | true =>
      rw [commentBody_cons hc] at h
      obtain ⟨m, hm, rfl⟩ := Option.map_eq_some_iff.mp h
      obtain ⟨body, lineEnd, rest, rfl, rfl, hbody, hend⟩ := ih hm
      refine ⟨c :: body, lineEnd, rest, rfl, ?_, List.forall_mem_cons.mpr ⟨hc, hbody⟩, hend⟩
      rw [List.length_cons]
      omega
    | false =>
      rw [commentBody_lineBreak hc] at h
      split at h
      · next hnewline =>
        cases h
        exact ⟨[], ['\n'], input, by rw [hnewline]; rfl, rfl, by simp, .inl rfl⟩
      · next hreturn =>
        split at h
        · next hhead =>
          cases h
          obtain ⟨input, rfl⟩ := List.head?_eq_some_iff.mp hhead
          have hc' := (not_isLineText hc).resolve_right hreturn
          exact ⟨[], ['\r', '\n'], input, by rw [hc']; rfl, rfl, by simp, .inr rfl⟩
        · cases h

theorem endsLine_cons {c : Char} (hc : isLineText c = true) (text : List Char) :
    endsLine (c :: text) = endsLine text := by
  rw [endsLine, if_pos hc]

theorem endsLine_lineBreak {c : Char} (hc : isLineText c = false) (text : List Char) :
    endsLine (c :: text) = (c == '\n' || text.head? == some '\n') := by
  rw [endsLine, if_neg (by simp [hc])]

/-- Where a line end follows, the comment that two slashes start is closed by it or by an earlier
one, or there is a carriage return in front. -/
theorem commentBody_isSome (text rest : List Char) :
    (commentBody (text ++ '\n' :: rest)).isSome = endsLine (text ++ '\n' :: rest) := by
  induction text with
  | nil => rfl
  | cons c text ih =>
    cases hc : isLineText c with
    | true => rw [List.cons_append, commentBody_cons hc, Option.isSome_map, ih, endsLine_cons hc]
    | false =>
      rw [List.cons_append, commentBody_lineBreak hc, endsLine_lineBreak hc]
      by_cases hnewline : c = '\n'
      · simp [hnewline]
      by_cases hhead : (text ++ '\n' :: rest).head? = some '\n'
      · rw [if_neg hnewline, if_pos hhead, hhead]
        simp
      · rw [if_neg hnewline, if_neg hhead, beq_eq_false_iff_ne.mpr hnewline,
          beq_eq_false_iff_ne.mpr hhead]
        rfl

theorem endsLine_append {text : List Char} (h : ∀ c ∈ text, isLineText c = true)
    (rest : List Char) : endsLine (text ++ rest) = endsLine rest := by
  induction text with
  | nil => rfl
  | cons c text ih =>
    obtain ⟨hc, htext⟩ := List.forall_mem_cons.mp h
    rw [List.cons_append, endsLine_cons hc, ih htext]

theorem endsLine_quote (text : List Char) {rest rest' : List Char}
    (h : endsLine rest = endsLine rest') :
    endsLine (text ++ '"' :: rest) = endsLine (text ++ '"' :: rest') := by
  induction text with
  | nil => exact h
  | cons c text ih =>
    cases hc : isLineText c with
    | true => rw [List.cons_append, List.cons_append, endsLine_cons hc, endsLine_cons hc, ih]
    | false =>
      rw [List.cons_append, List.cons_append, endsLine_lineBreak hc, endsLine_lineBreak hc]
      cases text <;> rfl

/-! ### Names in front of a separator -/

/-- The name is a token where it does not start a comment that is closed. -/
theorem irTokens_name (h : IsIdWord name) {c : Char} (hc : isSeparator c = true)
    {rest : List Char} (hcomment : commentSingle (name.toList ++ c :: rest) = none) :
    irTokens (name.toList ++ c :: rest) = ⟨.id, name⟩ :: irTokens (c :: rest) := by
  obtain ⟨d, tail, hlist, hd, htail⟩ := h.chars
  have hstart : isWordStart d = true := by simp [isWordStart, Parser.isIdRest, hd]
  have hmulti : ¬ ['/', '*'] <+: d :: tail := by
    intro hbegins
    have hstar := htail '*' ((List.cons_prefix_cons.mp hbegins).2.subset (List.mem_singleton_self _))
    cases hstar
  have hmatch : longestMatch irRules (name.toList ++ c :: rest) =
      some (.id, name.toList.length) := by
    by_cases hline : ['/', '/'] <+: d :: tail
    · obtain ⟨body, hbody⟩ := hline
      have hid : id (name.toList ++ c :: rest) = some name.toList.length := by
        rw [id_separated.stopsAt _ _ _ hc, hlist, id_word hd htail, List.length_cons]
      rw [hlist, ← hbody] at hid hcomment ⊢
      have hrules : irRules = irRulesBeforeId ++ ⟨TokenType.id, id⟩ :: irRulesAfterId := rfl
      rw [hrules]
      refine longestMatch_of hid ?_ ?_
      · intro rule hrule m hm
        exact (none_of_map (n := 18) rfl rule hrule m hm).elim
      · intro rule hrule m hm
        simp only [irRulesAfterId, List.mem_cons, List.not_mem_nil, or_false] at hrule
        rcases hrule with rfl | rfl | rfl | rfl | rfl
        · cases hm
        · cases hm
        · cases hm
        · exact absurd (hm.symm.trans hcomment) (by simp)
        · cases hm
    · rw [IsIdWord, hlist] at h
      rw [hlist, longestMatch_append_separator hstart hline hmulti rest hc, h]
  rw [irTokens_append (by rw [hlist]; exact List.cons_ne_nil _ _) hmatch rfl, String.ofList_toList]

theorem IsIdWord.slashes (h : IsIdWord name) {c : Char} (hc : isSeparator c = true)
    {rest : List Char} (hcomment : (commentSingle (name.toList ++ c :: rest)).isSome = true) :
    ∃ tail, name.toList = '/' :: '/' :: tail := by
  obtain ⟨n, hn⟩ := Option.isSome_iff_exists.mp hcomment
  obtain ⟨k, m, hk, -, -⟩ := sequence_eq_some.mp hn
  obtain ⟨hbegins, -⟩ := literal_eq_some.mp hk
  obtain ⟨d, tail, hlist, -, -⟩ := h.chars
  rw [hlist, List.cons_append, List.cons_prefix_cons] at hbegins
  obtain ⟨rfl, hbegins⟩ := hbegins
  cases tail with
  | nil =>
    have hslash := (List.cons_prefix_cons.mp hbegins).1
    rw [← hslash] at hc
    cases hc
  | cons e tail =>
    rw [← (List.cons_prefix_cons.mp hbegins).1] at hlist
    exact ⟨tail, hlist⟩

/-- Two slashes start a comment: the text goes on behind its line end. -/
theorem irTokens_commented (h : IsIdWord name) {c : Char} (hc : isSeparator c = true)
    {rest : List Char} (hcomment : (commentSingle (name.toList ++ c :: rest)).isSome = true) :
    ∃ body lineEnd after, name.toList ++ c :: rest = body ++ (lineEnd ++ after) ∧
      (∀ c ∈ body, isLineText c = true) ∧ (lineEnd = ['\n'] ∨ lineEnd = ['\r', '\n']) ∧
      irTokens (name.toList ++ c :: rest) = irTokens after := by
  obtain ⟨tail, hlist⟩ := h.slashes hc hcomment
  have hid : id (name.toList ++ c :: rest) = some name.toList.length := by
    obtain ⟨d, tail', hlist', hd, htail'⟩ := h.chars
    rw [id_separated.stopsAt _ _ _ hc, hlist', id_word hd htail', List.length_cons]
  have hname := h.isLineText
  obtain ⟨n, hn⟩ := Option.isSome_iff_exists.mp hcomment
  rw [hlist] at hn hid hname ⊢
  have hmatch : (commentBody (tail ++ c :: rest)).map (2 + ·) = some n := hn
  obtain ⟨m, hm, rfl⟩ := Option.map_eq_some_iff.mp hmatch
  obtain ⟨body, lineEnd, after, hsplit, rfl, hbody, hend⟩ := commentBody_eq_some hm
  have hwhole : '/' :: '/' :: tail ++ c :: rest = ('/' :: '/' :: body ++ lineEnd) ++ after := by
    simp only [List.cons_append, List.append_assoc, hsplit]
  have hends : 1 ≤ lineEnd.length := by rcases hend with rfl | rfl <;> simp
  -- No line ends inside a name, so the comment is longer than the name.
  have hlonger : tail.length ≤ body.length := by
    by_contra hlt
    have hmem : ∃ d ∈ tail, isLineText d = false := by
      refine ⟨_, List.getElem_mem (not_le.mp hlt), ?_⟩
      have hget : (tail ++ c :: rest)[body.length]? = lineEnd.head? := by
        rw [hsplit, List.getElem?_append_right le_rfl, Nat.sub_self]
        rcases hend with rfl | rfl <;> rfl
      rw [List.getElem?_append_left (not_le.mp hlt), List.getElem?_eq_getElem (not_le.mp hlt)] at hget
      rcases hend with rfl | rfl
      · rw [Option.some.inj hget]; rfl
      · rw [Option.some.inj hget]; rfl
    obtain ⟨d, hd, hnot⟩ := hmem
    have hline := hname d (List.mem_cons_of_mem _ (List.mem_cons_of_mem _ hd))
    rw [hnot] at hline
    cases hline
  have hlongest : longestMatch irRules ('/' :: '/' :: tail ++ c :: rest) =
      some (.commentSingle, ('/' :: '/' :: body ++ lineEnd).length) := by
    have hrules : irRules = (irRulesBeforeId ++ ⟨.id, id⟩ :: [⟨.stringLiteral, stringLiteral⟩,
        ⟨.temporaryId, temporaryId⟩, ⟨.whitespaceIgnore, whitespaceIgnore⟩]) ++
          ⟨.commentSingle, commentSingle⟩ :: [⟨.commentMulti, commentMulti⟩] := rfl
    have hlength : ('/' :: '/' :: body ++ lineEnd).length = 2 + (body.length + lineEnd.length) := by
      simp only [List.cons_append, List.length_cons, List.length_append]
      omega
    rw [hrules, hlength]
    refine longestMatch_of hn ?_ ?_
    · intro r hr k hk
      rcases List.mem_append.mp hr with hr | hr
      · exact (none_of_map (n := 18) rfl r hr k hk).elim
      · rcases List.mem_cons.mp hr with rfl | hr
        · cases hid.symm.trans hk
          simp only [List.length_cons]
          omega
        · exact (none_of_map (n := 3) rfl r hr k hk).elim
    · intro r hr k hk
      exact (none_of_map (n := 1) rfl r hr k hk).elim
  refine ⟨'/' :: '/' :: body, lineEnd, after, by rw [hwhole, List.append_assoc], ?_, hend, ?_⟩
  · exact List.forall_mem_cons.mpr ⟨rfl, List.forall_mem_cons.mpr ⟨rfl, hbody⟩⟩
  · rw [hwhole] at hlongest ⊢
    exact irTokens_append_skip (by simp) hlongest rfl

/-! ### Temporaries -/

/-- The text is a `TEMPORARY_ID` token in front of a separator. -/
structure IsTemporaryWord (name : String) : Prop where
  lexesBefore : LexesBefore name.toList [⟨.temporaryId, name⟩]
  isWordStart : ∀ c ∈ name.toList, isWordStart c = true

theorem temporaryWord_of_match {body : List Char} (hbody : ∀ c ∈ body, isIdRest c = true)
    (h : orElse id numLiteral body = some body.length) :
    IsTemporaryWord (String.ofList ('%' :: body)) := by
  have hmatch : temporaryId (['%'] ++ body) = some (1 + body.length) := sequence_append rfl h
  have hlongest : longestMatch irRules (['%'] ++ body) =
      some (.temporaryId, 1 + body.length) :=
    longestMatch_of_none (b := 20) (a := 3)
      (irRulesBeforeId ++ [⟨.id, id⟩, ⟨.stringLiteral, stringLiteral⟩])
      [⟨.whitespaceIgnore, whitespaceIgnore⟩, ⟨.commentSingle, commentSingle⟩,
        ⟨.commentMulti, commentMulti⟩]
      ⟨.temporaryId, temporaryId⟩ rfl hmatch rfl rfl
  have hlength : longestMatch irRules ('%' :: body) =
      some (.temporaryId, ('%' :: body).length) := by
    rw [List.length_cons, Nat.add_comm]
    exact hlongest
  refine ⟨?_, ?_⟩
  · rw [String.toList_ofList]
    exact lexesBefore_word (d := '%') rfl (by simp) (by simp) hlength rfl
  · rw [String.toList_ofList]
    refine List.forall_mem_cons.mpr ⟨rfl, fun c hc => ?_⟩
    simp [isWordStart, hbody c hc]

theorem orElse_digits {digits : List Char} (h : ∀ c ∈ digits, c.isDigit = true)
    (hne : digits ≠ []) : orElse id numLiteral digits = some digits.length := by
  obtain ⟨d, digits, rfl⟩ := List.exists_cons_of_ne_nil hne
  have hid : id (d :: digits) = none := by
    rcases isDigit_cases (h d (List.mem_cons_self ..)) with
      rfl | rfl | rfl | rfl | rfl | rfl | rfl | rfl | rfl | rfl <;> rfl
  rw [orElse, hid, Option.none_or, numLiteral_digits h, List.length_cons]

theorem isTemporaryWord_numbered (n : ℕ) : IsTemporaryWord ("%" ++ toString n) := by
  have hdigits : ∀ c ∈ (toString n).toList, c.isDigit = true := fun c hc =>
    isDigit_of_mem_toString hc
  have hne : (toString n).toList ≠ [] := by simp
  have hword := temporaryWord_of_match (fun c hc => by simp [isIdRest, hdigits c hc])
    (orElse_digits hdigits hne)
  have htext : ("%" ++ toString n).toList = '%' :: (toString n).toList := by
    rw [String.toList_append]
    rfl
  rwa [← htext, String.ofList_toList] at hword

theorem isTemporaryWord_of_token {text : List Char} {token : Token} (h : token ∈ irTokens text)
    (htype : token.type = .temporaryId) : IsTemporaryWord token.text := by
  obtain ⟨word, rest, htext, hmatch, -⟩ := exists_match temporaryId h
    (by rw [htype]; simp [irRules, irRulesBeforeId, irRulesAfterId])
    temporaryId_separated.bounded
  obtain ⟨k, m, hk, hm, hlength⟩ := sequence_eq_some.mp hmatch
  obtain ⟨⟨tail, htail⟩, rfl⟩ := literal_eq_some.mp hk
  cases word with
  | nil =>
    rw [List.length_nil, List.length_singleton] at hlength
    omega
  | cons d body =>
    obtain ⟨rfl, -⟩ := List.cons.inj htail
    rw [List.length_singleton, List.length_cons] at hlength
    obtain rfl : m = body.length := by omega
    rw [htext]
    have hm' : (id (body ++ rest)).or (numLiteral (body ++ rest)) = some body.length := hm
    rcases Option.or_eq_some_iff.mp hm' with hid | ⟨-, hnum⟩
    · obtain ⟨d, tail, rfl, hd, htail⟩ := id_eq_some hid
      refine temporaryWord_of_match ?_ (by rw [orElse, id_word hd htail]; rfl)
      exact List.forall_mem_cons.mpr ⟨by simp [isIdRest, hd], htail⟩
    · rw [numLiteral, many1] at hnum
      split at hnum
      · cases hnum
      · next hpositive =>
        have hdigits := all_of_span (Option.some.inj hnum)
        refine temporaryWord_of_match (fun c hc => by simp [isIdRest, hdigits c hc])
          (orElse_digits hdigits ?_)
        rintro rfl
        exact absurd (Option.some.inj hnum) hpositive

theorem IsTemporaryWord.plain {name : String} (h : IsTemporaryWord name) :
    ∀ c ∈ name.toList, isLineText c = true ∧ c ≠ '"' := by
  intro c hc
  have hstart := h.isWordStart c hc
  simp only [Parser.isWordStart, Bool.or_eq_true, beq_iff_eq] at hstart
  rcases hstart with hrest | rfl
  · refine ⟨isLineText_of_isIdRest hrest, ?_⟩
    rintro rfl
    cases hrest
  · exact ⟨rfl, by decide⟩

end Raksha.Parser
