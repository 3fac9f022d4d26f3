import Raksha.Parser.IrLexer

/-!
# Words of the intermediate representation

Which texts the lexer takes as which tokens: punctuation anywhere, and words in front of a
separator.
-/

namespace Raksha.Parser
open Raksha.Lib.Lexing

/-- The characters that end a word: no word goes on with them. -/
def isSeparator (c : Char) : Bool :=
  c == ' ' || c == '\n' || c == ',' || c == ':' || c == ')' || c == ']'

/-- The text has the given tokens, whatever follows. -/
def LexesTo (text : List Char) (tokens : List Token) : Prop :=
  ∀ rest, irTokens (text ++ rest) = tokens ++ irTokens rest

/-- The text has the given tokens when a separator follows. -/
def LexesBefore (text : List Char) (tokens : List Token) : Prop :=
  ∀ c rest, isSeparator c = true →
    irTokens (text ++ c :: rest) = tokens ++ irTokens (c :: rest)

theorem LexesTo.nil : LexesTo [] [] := fun _ => rfl

theorem LexesTo.append {text text' : List Char} {tokens tokens' : List Token}
    (h : LexesTo text tokens) (h' : LexesTo text' tokens') :
    LexesTo (text ++ text') (tokens ++ tokens') := by
  intro rest
  rw [List.append_assoc, h, h', List.append_assoc]

theorem LexesTo.before {text text' : List Char} {tokens tokens' : List Token}
    (h : LexesTo text tokens) (h' : LexesBefore text' tokens') :
    LexesBefore (text ++ text') (tokens ++ tokens') := by
  intro c rest hc
  rw [List.append_assoc, h, h' c rest hc, List.append_assoc]

theorem LexesBefore.append {text text' : List Char} {tokens tokens' : List Token} {c : Char}
    (h : LexesBefore text tokens) (hc : isSeparator c = true)
    (h' : LexesTo (c :: text') tokens') :
    LexesTo (text ++ c :: text') (tokens ++ tokens') := by
  intro rest
  rw [List.append_assoc, List.cons_append, h c (text' ++ rest) hc, List.append_assoc]
  exact congrArg _ (h' rest)

theorem LexesBefore.before {text text' : List Char} {tokens tokens' : List Token} {c : Char}
    (h : LexesBefore text tokens) (hc : isSeparator c = true)
    (h' : LexesBefore (c :: text') tokens') : LexesBefore (text ++ c :: text') (tokens ++ tokens') := by
  intro d rest hd
  rw [List.append_assoc, List.cons_append, h c (text' ++ d :: rest) hc, List.append_assoc]
  exact congrArg _ (h' d rest hd)

theorem LexesBefore.nil : LexesBefore [] [] := fun _ _ _ => rfl

theorem LexesTo.lexesBefore {text : List Char} {tokens : List Token} (h : LexesTo text tokens) :
    LexesBefore text tokens := fun _ _ _ => h _

/-! ### Single tokens -/

theorem irTokens_append {word rest : List Char} {t : TokenType} (hne : word ≠ [])
    (hmatch : longestMatch irRules (word ++ rest) = some (t, word.length))
    (hskip : isSkipped t = false) :
    irTokens (word ++ rest) = ⟨t, String.ofList word⟩ :: irTokens rest := by
  have htokens : irLexer.tokens (word ++ rest) = (t, word) :: irLexer.tokens rest :=
    Lexer.tokens_append hne hmatch hskip
  rw [irTokens, htokens, List.map_cons]
  rfl

theorem irTokens_append_skip {word rest : List Char} {t : TokenType} (hne : word ≠ [])
    (hmatch : longestMatch irRules (word ++ rest) = some (t, word.length))
    (hskip : isSkipped t = true) : irTokens (word ++ rest) = irTokens rest := by
  have htokens : irLexer.tokens (word ++ rest) = irLexer.tokens rest :=
    Lexer.tokens_append_skip hne hmatch hskip
  rw [irTokens, htokens]
  rfl

theorem lexesTo_punctuation {c : Char} {type : TokenType}
    (h : ∀ rest, longestMatch irRules (c :: rest) = some (type, 1))
    (hskip : isSkipped type = false) : LexesTo [c] [⟨type, String.ofList [c]⟩] :=
  fun rest => irTokens_append (by simp) (h rest) hskip

theorem lexesTo_colon : LexesTo [':'] [⟨.colon, ":"⟩] := lexesTo_punctuation (fun _ => rfl) rfl
theorem lexesTo_comma : LexesTo [','] [⟨.comma, ","⟩] := lexesTo_punctuation (fun _ => rfl) rfl
theorem lexesTo_equals : LexesTo ['='] [⟨.equals, "="⟩] := lexesTo_punctuation (fun _ => rfl) rfl
theorem lexesTo_openBracket : LexesTo ['['] [⟨.openBracket, "["⟩] :=
  lexesTo_punctuation (fun _ => rfl) rfl
theorem lexesTo_closeBracket : LexesTo [']'] [⟨.closeBracket, "]"⟩] :=
  lexesTo_punctuation (fun _ => rfl) rfl
theorem lexesTo_openParen : LexesTo ['('] [⟨.openParen, "("⟩] :=
  lexesTo_punctuation (fun _ => rfl) rfl
theorem lexesTo_closeParen : LexesTo [')'] [⟨.closeParen, ")"⟩] :=
  lexesTo_punctuation (fun _ => rfl) rfl
theorem lexesTo_openBrace : LexesTo ['{'] [⟨.openBrace, "\x7b"⟩] :=
  lexesTo_punctuation (fun _ => rfl) rfl
theorem lexesTo_closeBrace : LexesTo ['}'] [⟨.closeBrace, "\x7d"⟩] :=
  lexesTo_punctuation (fun _ => rfl) rfl

theorem lexesTo_any : LexesTo anyWord [⟨.any, "<<ANY>>"⟩] :=
  fun rest => irTokens_append (by simp [anyWord]) rfl rfl

/-! ### Skipped text -/

theorem none_of_map {rules : List (Rule Char TokenType)} {input : List Char} {n : ℕ}
    (h : (rules.map fun rule => rule.matcher input) = List.replicate n none) :
    ∀ rule ∈ rules, ∀ m, rule.matcher input = some m → False := by
  intro rule hrule m hm
  have hmem : rule.matcher input ∈ List.replicate n none := by
    rw [← h]
    exact List.mem_map_of_mem hrule
  rw [hm] at hmem
  cases List.eq_of_mem_replicate hmem

theorem longestMatch_of_none (before after : List (Rule Char TokenType))
    (rule : Rule Char TokenType) {input : List Char} {n b a : ℕ}
    (hrules : irRules = before ++ rule :: after) (hrule : rule.matcher input = some n)
    (hbefore : (before.map fun rule => rule.matcher input) = List.replicate b none)
    (hafter : (after.map fun rule => rule.matcher input) = List.replicate a none) :
    longestMatch irRules input = some (rule.type, n) := by
  rw [hrules]
  exact longestMatch_of hrule (fun r hr m hm => (none_of_map hbefore r hr m hm).elim)
    (fun r hr m hm => (none_of_map hafter r hr m hm).elim)

theorem longestMatch_whitespace {c : Char} (h : isWhitespace c = true) (rest : List Char) :
    longestMatch irRules (c :: rest) =
      some (.whitespaceIgnore, span isWhitespace (c :: rest)) := by
  have hmatch : whitespaceIgnore (c :: rest) = some (span isWhitespace (c :: rest)) := by
    rw [whitespaceIgnore, many1, span_cons rest h, if_neg (Nat.succ_ne_zero _)]
  let before : List (Rule Char TokenType) := irRulesBeforeId ++
    [⟨.id, id⟩, ⟨.stringLiteral, stringLiteral⟩, ⟨.temporaryId, temporaryId⟩]
  let after : List (Rule Char TokenType) :=
    [⟨.commentSingle, commentSingle⟩, ⟨.commentMulti, commentMulti⟩]
  have hbefore : before.map (fun rule => rule.matcher (c :: rest)) = List.replicate 21 none := by
    simp only [isWhitespace, Bool.or_eq_true, beq_iff_eq] at h
    rcases h with ((rfl | rfl) | rfl) | rfl <;> rfl
  have hafter : after.map (fun rule => rule.matcher (c :: rest)) = List.replicate 2 none := by
    simp only [isWhitespace, Bool.or_eq_true, beq_iff_eq] at h
    rcases h with ((rfl | rfl) | rfl) | rfl <;> rfl
  exact longestMatch_of_none before after ⟨.whitespaceIgnore, whitespaceIgnore⟩ rfl hmatch
    hbefore hafter

theorem irTokens_dropWhile (text : List Char) :
    irTokens text = irTokens (text.dropWhile isWhitespace) := by
  cases text with
  | nil => rfl
  | cons c rest =>
    cases hc : isWhitespace c with
    | false => rw [List.dropWhile_cons_of_neg (by simp [hc])]
    | true =>
      have hmatch := longestMatch_whitespace hc rest
      have hne : (c :: rest).takeWhile isWhitespace ≠ [] := by simp [hc]
      have hskip := irTokens_append_skip (t := .whitespaceIgnore) hne (by
        rw [List.takeWhile_append_dropWhile]
        exact hmatch) rfl
      rwa [List.takeWhile_append_dropWhile] at hskip

theorem lexesTo_whitespace {c : Char} (h : isWhitespace c = true) : LexesTo [c] [] := by
  intro rest
  rw [List.singleton_append, List.nil_append, irTokens_dropWhile,
    List.dropWhile_cons_of_pos h, ← irTokens_dropWhile]

theorem lexesTo_blank : LexesTo [' '] [] := lexesTo_whitespace rfl

theorem lexesTo_lineEnd : LexesTo ['\n'] [] := lexesTo_whitespace rfl

theorem lexesTo_block : LexesTo (blockWord ++ [' ']) [⟨.block, "block"⟩] := by
  intro rest
  have hblock : irTokens (blockWord ++ ' ' :: rest) = ⟨.block, "block"⟩ :: irTokens (' ' :: rest) :=
    irTokens_append (by simp [blockWord]) rfl rfl
  rw [List.append_assoc, List.singleton_append, hblock]
  exact congrArg _ (lexesTo_blank rest)

theorem lexesTo_module : LexesTo (moduleWord ++ [' ']) [⟨.module, "module"⟩] := by
  intro rest
  have hmodule : irTokens (moduleWord ++ ' ' :: rest) =
      ⟨.module, "module"⟩ :: irTokens (' ' :: rest) :=
    irTokens_append (by simp [moduleWord]) rfl rfl
  rw [List.append_assoc, List.singleton_append, hmodule]
  exact congrArg _ (lexesTo_blank rest)

theorem lexesTo_blanks (n : ℕ) : LexesTo (List.replicate n ' ') [] := by
  induction n with
  | zero => exact .nil
  | succ n ih => exact lexesTo_blank.append ih

theorem lexesTo_comment {text : List Char} (h : ∀ c ∈ text, isLineText c = true) :
    LexesTo ('/' :: '/' :: ' ' :: text ++ ['\n']) [] := by
  intro rest
  have hbody : ∀ c ∈ ' ' :: text, isLineText c = true := by
    intro c hc
    rcases List.mem_cons.mp hc with rfl | hc
    · rfl
    · exact h c hc
  have hspan : many isLineText ((' ' :: text) ++ '\n' :: rest) = some (' ' :: text).length :=
    congrArg some (span_append hbody (stops_cons rest rfl))
  have hline : sequence (many isLineText)
      (sequence (optional (literal ['\r'])) (literal ['\n'])) ((' ' :: text) ++ '\n' :: rest) =
        some ((' ' :: text).length + 1) := sequence_append hspan rfl
  have hmatch : commentSingle (['/', '/'] ++ ((' ' :: text) ++ '\n' :: rest)) =
      some (2 + ((' ' :: text).length + 1)) := sequence_append rfl hline
  have hid : id (['/', '/'] ++ ((' ' :: text) ++ '\n' :: rest)) = some 2 := rfl
  have hlongest : longestMatch irRules (['/', '/'] ++ ((' ' :: text) ++ '\n' :: rest)) =
      some (.commentSingle, 2 + ((' ' :: text).length + 1)) := by
    have hrules : irRules = (irRulesBeforeId ++ ⟨.id, id⟩ :: [⟨.stringLiteral, stringLiteral⟩,
        ⟨.temporaryId, temporaryId⟩, ⟨.whitespaceIgnore, whitespaceIgnore⟩]) ++
          ⟨.commentSingle, commentSingle⟩ :: [⟨.commentMulti, commentMulti⟩] := rfl
    rw [hrules]
    refine longestMatch_of hmatch ?_ ?_
    · intro r hr m hm
      rcases List.mem_append.mp hr with hr | hr
      · exact (none_of_map (n := 18) rfl r hr m hm).elim
      · rcases List.mem_cons.mp hr with rfl | hr
        · cases hid.symm.trans hm
          rw [List.length_cons]
          omega
        · exact (none_of_map (n := 3) rfl r hr m hm).elim
    · intro r hr m hm
      exact (none_of_map (n := 1) rfl r hr m hm).elim
  have htext : '/' :: '/' :: ' ' :: text ++ ['\n'] ++ rest =
      ['/', '/'] ++ ((' ' :: text) ++ '\n' :: rest) := by simp
  refine irTokens_append_skip (t := .commentSingle) (by simp) ?_ rfl
  rw [htext, hlongest]
  simp only [List.length_cons, List.length_append, List.length_nil]
  congr 2
  omega

/-! ### Strings, temporaries and numbers -/

theorem through_append {body : List Char} {closing : Char} (h : closing ∉ body)
    (rest : List Char) : through [closing] (body ++ closing :: rest) = some (body.length + 1) := by
  induction body with
  | nil => simp [through]
  | cons c body ih =>
    have hne : closing ≠ c := by
      rintro rfl
      exact h (List.mem_cons_self ..)
    have hrest := ih fun hmem => h (List.mem_cons_of_mem _ hmem)
    rw [List.cons_append, through, hrest]
    simp [hne]

theorem lexesTo_stringLiteral {body : List Char} (h : '"' ∉ body) :
    LexesTo ('"' :: body ++ ['"']) [⟨.stringLiteral, String.ofList ('"' :: body ++ ['"'])⟩] := by
  intro rest
  have hmatch : stringLiteral (['"'] ++ (body ++ '"' :: rest)) = some (1 + (body.length + 1)) :=
    sequence_append rfl (through_append h rest)
  have hlongest : longestMatch irRules (['"'] ++ (body ++ '"' :: rest)) =
      some (.stringLiteral, 1 + (body.length + 1)) :=
    longestMatch_of_none (b := 19) (a := 4) (irRulesBeforeId ++ [⟨.id, id⟩])
      [⟨.temporaryId, temporaryId⟩, ⟨.whitespaceIgnore, whitespaceIgnore⟩,
        ⟨.commentSingle, commentSingle⟩, ⟨.commentMulti, commentMulti⟩]
      ⟨.stringLiteral, stringLiteral⟩ rfl hmatch rfl rfl
  have htext : '"' :: body ++ ['"'] ++ rest = ['"'] ++ (body ++ '"' :: rest) := by simp
  refine irTokens_append (t := .stringLiteral) (by simp) ?_ rfl
  rw [htext, hlongest]
  simp only [List.length_cons, List.length_append, List.length_nil]
  congr 2
  omega

/-! ### Words in front of a separator -/

theorem isSeparator_stops {p : Char → Bool}
    (h : ([' ', '\n', ',', ':', ')', ']'].any p) = false) :
    ∀ c, isSeparator c = true → p c = false := by
  intro c hc
  simp only [isSeparator, Bool.or_eq_true, beq_iff_eq] at hc
  simp only [List.any_cons, List.any_nil, Bool.or_eq_false_iff] at h
  rcases hc with ((((rfl | rfl) | rfl) | rfl) | rfl) | rfl <;> tauto

theorem numLiteral_separated : Separated isSeparator numLiteral :=
  .many1 (isSeparator_stops rfl)

theorem sign_separated : Separated isSeparator sign := .one (isSeparator_stops rfl)

theorem literal_separated {word : List Char} (h : word.any isSeparator = false) :
    Separated isSeparator (literal word) :=
  .literal fun c hc => by simpa using List.any_eq_false.mp h c hc

theorem fractionalPart_separated : Separated isSeparator fractionalPart :=
  .sequence (literal_separated rfl) (.many (isSeparator_stops rfl))

theorem exponent_separated : Separated isSeparator exponent :=
  .sequence (.one (isSeparator_stops rfl)) (.sequence (.optional sign_separated)
    numLiteral_separated)

theorem floatTail_separated : Separated isSeparator floatTail :=
  .nonempty (.sequence (.optional fractionalPart_separated)
    (.sequence (.optional exponent_separated) (.optional (literal_separated rfl))))

theorem floatLiteral_separated : Separated isSeparator floatLiteral :=
  .sequence (.optional sign_separated) (.sequence numLiteral_separated floatTail_separated)

theorem id_separated : Separated isSeparator id :=
  .sequence (.one (isSeparator_stops rfl)) (.many (isSeparator_stops rfl))

theorem temporaryId_separated : Separated isSeparator temporaryId :=
  .sequence (literal_separated rfl) (.orElse id_separated numLiteral_separated)

def isWordStart (c : Char) : Bool := isIdRest c || c == '%'

theorem literal_of_ne {c d : Char} {word : List Char} (rest : List Char) (h : c ≠ d) :
    literal (c :: word) (d :: rest) = none := by
  simp [literal, List.isPrefixOf, h]

theorem sequence_of_none {first second : Matcher Char} {input : List Char}
    (h : first input = none) : Lib.Lexing.sequence first second input = none := by
  simp [Lib.Lexing.sequence, h]

theorem comment_of_separator {word : List Char} {d : Char} {body : Matcher Char}
    (hd : isSeparator d = false) (hcomment : ¬ ['/', d] <+: word) {c : Char} (rest : List Char)
    (hc : isSeparator c = true) : Lib.Lexing.sequence (literal ['/', d]) body (word ++ c :: rest) =
      Lib.Lexing.sequence (literal ['/', d]) body word := by
  have hslashes : Separated isSeparator (literal ['/', d]) := by
    refine .literal fun x hx => ?_
    rcases List.mem_cons.mp hx with rfl | hx
    · rfl
    · rwa [List.mem_singleton.mp hx]
  have hnone : literal ['/', d] word = none := by
    refine Option.eq_none_iff_forall_ne_some.mpr fun n hn => ?_
    exact hcomment (literal_eq_some.mp hn).1
  have hnone' := (hslashes.stopsAt word c rest hc).trans hnone
  rw [sequence_of_none hnone, sequence_of_none hnone']

/-- What stands behind a separator does not matter for a word that does not start a comment. -/
theorem longestMatch_append_separator {word : List Char} {d : Char} (hd : isWordStart d = true)
    (hline : ¬ ['/', '/'] <+: d :: word) (hmulti : ¬ ['/', '*'] <+: d :: word) {c : Char}
    (rest : List Char) (hc : isSeparator c = true) :
    longestMatch irRules (d :: word ++ c :: rest) = longestMatch irRules (d :: word) := by
  have hpunctuation : ∀ x, isWordStart x = false → literal [x] (d :: word ++ c :: rest) =
      literal [x] (d :: word) := by
    intro x hx
    have hne : x ≠ d := by
      rintro rfl
      rw [hd] at hx
      cases hx
    rw [List.cons_append, literal_of_ne _ hne, literal_of_ne _ hne]
  have hwhitespace : isWhitespace d = false := by
    refine Bool.eq_false_iff.mpr fun h => ?_
    simp only [isWhitespace, Bool.or_eq_true, beq_iff_eq] at h
    rcases h with ((rfl | rfl) | rfl) | rfl <;> cases hd
  have hsingle : commentSingle (d :: word ++ c :: rest) = commentSingle (d :: word) :=
    comment_of_separator rfl hline rest hc
  have hmulti : commentMulti (d :: word ++ c :: rest) = commentMulti (d :: word) :=
    comment_of_separator rfl hmulti rest hc
  refine longestMatch_congr ?_
  simp only [irRules, irRulesBeforeId, irRulesAfterId, List.cons_append, List.nil_append,
    List.forall_mem_cons, List.not_mem_nil, false_implies, implies_true, and_true]
  refine ⟨hpunctuation ':' rfl, hpunctuation ',' rfl, hpunctuation '=' rfl, hpunctuation '[' rfl,
    hpunctuation ']' rfl, hpunctuation '(' rfl, hpunctuation ')' rfl, hpunctuation '{' rfl,
    hpunctuation '}' rfl, ?_, ?_, ?_, sign_separated.stopsAt (d :: word) c rest hc,
    numLiteral_separated.stopsAt (d :: word) c rest hc,
    fractionalPart_separated.stopsAt (d :: word) c rest hc,
    exponent_separated.stopsAt (d :: word) c rest hc,
    floatTail_separated.stopsAt (d :: word) c rest hc,
    floatLiteral_separated.stopsAt (d :: word) c rest hc,
    id_separated.stopsAt (d :: word) c rest hc, ?_,
    temporaryId_separated.stopsAt (d :: word) c rest hc, ?_, hsingle, hmulti⟩
  · exact (literal_separated rfl).stopsAt (d :: word) c rest hc
  · exact (literal_separated rfl).stopsAt (d :: word) c rest hc
  · exact (literal_separated rfl).stopsAt (d :: word) c rest hc
  · have hne : '"' ≠ d := by
      rintro rfl
      cases hd
    rw [stringLiteral, sequence_of_none (literal_of_ne _ hne),
      sequence_of_none (literal_of_ne _ hne)]
  · rw [whitespaceIgnore, many1_of_stops (stops_cons _ hwhitespace),
      many1_of_stops (stops_cons _ hwhitespace)]

theorem lexesBefore_word {word : List Char} {d : Char} {t : TokenType}
    (hd : isWordStart d = true) (hline : ¬ ['/', '/'] <+: d :: word)
    (hmulti : ¬ ['/', '*'] <+: d :: word)
    (hmatch : longestMatch irRules (d :: word) = some (t, (d :: word).length))
    (hskip : isSkipped t = false) :
    LexesBefore (d :: word) [⟨t, String.ofList (d :: word)⟩] := by
  intro c rest hc
  refine irTokens_append (List.cons_ne_nil _ _) ?_ hskip
  rw [longestMatch_append_separator hd hline hmulti rest hc, hmatch]

/-! ### Numbers and names -/

theorem isDigit_cases {d : Char} (h : d.isDigit = true) :
    d = '0' ∨ d = '1' ∨ d = '2' ∨ d = '3' ∨ d = '4' ∨ d = '5' ∨ d = '6' ∨ d = '7' ∨ d = '8' ∨
      d = '9' := by
  obtain ⟨hlow, hhigh⟩ := Char.isDigit_iff_toNat.mp h
  have hnat : d.toNat ∈ List.range' 48 10 := by
    rw [List.mem_range'_1]
    exact ⟨hlow, Nat.lt_succ_of_le hhigh⟩
  rw [← Char.ofNat_toNat d]
  simp only [List.range', List.mem_cons, List.not_mem_nil, or_false] at hnat
  rcases hnat with h | h | h | h | h | h | h | h | h | h <;> rw [h] <;> decide

theorem span_digits {p : Char → Bool} {digits : List Char} (h : ∀ c ∈ digits, c.isDigit = true)
    (hp : ∀ c : Char, c.isDigit = true → p c = true) : span p digits = digits.length := by
  have hspan := span_append (fun c hc => hp c (h c hc)) (stops_nil p)
  rwa [List.append_nil] at hspan

theorem numLiteral_digits {d : Char} {digits : List Char}
    (h : ∀ c ∈ d :: digits, c.isDigit = true) :
    numLiteral (d :: digits) = some (digits.length + 1) := by
  rw [numLiteral, many1, span_digits h fun _ hc => hc, if_neg (List.length_cons ▸ Nat.succ_ne_zero _)]
  rfl

theorem longestMatch_digits {d : Char} {digits : List Char}
    (h : ∀ c ∈ d :: digits, c.isDigit = true) :
    longestMatch irRules (d :: digits) = some (.numLiteral, digits.length + 1) := by
  have hnum := numLiteral_digits h
  have hfloat : floatLiteral (d :: digits) = none := by
    have hsign : optional sign (d :: digits) = some 0 := by
      rcases isDigit_cases (h d (List.mem_cons_self ..)) with
        rfl | rfl | rfl | rfl | rfl | rfl | rfl | rfl | rfl | rfl <;> rfl
    simp only [floatLiteral, Lib.Lexing.sequence, hsign, Option.bind_some, List.drop_zero, hnum,
      List.drop_succ_cons, List.drop_length]
    rfl
  let before : List (Rule Char TokenType) := irRulesBeforeId.take 13
  let after : List (Rule Char TokenType) :=
    (irRulesBeforeId.drop 14).take 3 ++ ⟨.floatLiteral, floatLiteral⟩ :: ⟨.id, id⟩ :: irRulesAfterId
  have hbefore : before.map (fun rule => rule.matcher (d :: digits)) = List.replicate 13 none := by
    rcases isDigit_cases (h d (List.mem_cons_self ..)) with
      rfl | rfl | rfl | rfl | rfl | rfl | rfl | rfl | rfl | rfl <;> rfl
  have hafter : after.map (fun rule => rule.matcher (d :: digits)) = List.replicate 10 none := by
    simp only [after, List.map_append, List.map_cons, hfloat]
    rcases isDigit_cases (h d (List.mem_cons_self ..)) with
      rfl | rfl | rfl | rfl | rfl | rfl | rfl | rfl | rfl | rfl <;> rfl
  exact longestMatch_of_none before after ⟨.numLiteral, numLiteral⟩ rfl hnum hbefore hafter

theorem lexesBefore_number (n : ℕ) :
    LexesBefore (toString n).toList [⟨.numLiteral, toString n⟩] := by
  obtain ⟨d, digits, hlist⟩ := exists_cons_toString n
  have hdigits : ∀ c ∈ d :: digits, c.isDigit = true := by
    intro c hc
    rw [← hlist] at hc
    exact isDigit_of_mem_toString hc
  have hd := hdigits d (List.mem_cons_self ..)
  have hslash : d ≠ '/' := by
    rintro rfl
    cases hd
  have hstart : isWordStart d = true := by simp [isWordStart, isIdRest, hd]
  have hword := lexesBefore_word hstart
    (fun h => hslash (List.cons_prefix_cons.mp h).1.symm)
    (fun h => hslash (List.cons_prefix_cons.mp h).1.symm) (longestMatch_digits hdigits) rfl
  rwa [← hlist, String.ofList_toList] at hword

theorem isLineText_of_isIdRest {c : Char} (h : isIdRest c = true) : isLineText c = true := by
  by_contra hline
  simp only [isLineText, Bool.and_eq_true, bne_iff_ne, ne_eq, not_and_or, not_not] at hline
  rcases hline with rfl | rfl <;> cases h

/-- The name of a block or of the module. -/
theorem lexesBefore_numbered {c : Char} (hc : c = 'b' ∨ c = 'm') (n : ℕ) :
    LexesBefore (String.ofList [c] ++ toString n).toList
      [⟨.id, String.ofList [c] ++ toString n⟩] := by
  obtain ⟨d, digits, hlist⟩ := exists_cons_toString n
  have hdigits : ∀ c ∈ d :: digits, c.isDigit = true := by
    intro c hc
    rw [← hlist] at hc
    exact isDigit_of_mem_toString hc
  have htext : (String.ofList [c] ++ toString n).toList = c :: d :: digits := by
    rw [String.toList_append, hlist, String.toList_ofList]
    rfl
  have hspan : span isIdRest (d :: digits) = digits.length + 1 :=
    span_digits hdigits fun c hc => by simp [isIdRest, hc]
  have hid : id (c :: d :: digits) = some (1 + (digits.length + 1)) := by
    have hone : one isIdStart ([c] ++ d :: digits) = some [c].length := by
      rcases hc with rfl | rfl <;> rfl
    exact sequence_append hone (congrArg some hspan)
  have hbefore : irRulesBeforeId.map (fun rule => rule.matcher (c :: d :: digits)) =
      List.replicate 18 none := by
    rcases isDigit_cases (hdigits d (List.mem_cons_self ..)) with
      rfl | rfl | rfl | rfl | rfl | rfl | rfl | rfl | rfl | rfl <;>
      rcases hc with rfl | rfl <;> rfl
  have hafter : irRulesAfterId.map (fun rule => rule.matcher (c :: d :: digits)) =
      List.replicate 5 none := by
    rcases hc with rfl | rfl <;> rfl
  have hstart : isWordStart c = true := by rcases hc with rfl | rfl <;> rfl
  have hslash : c ≠ '/' := by rcases hc with rfl | rfl <;> decide
  have hmatch : longestMatch irRules (c :: d :: digits) =
      some (.id, (c :: d :: digits).length) := by
    rw [List.length_cons, List.length_cons, Nat.add_comm]
    exact longestMatch_of_none irRulesBeforeId irRulesAfterId ⟨.id, id⟩ rfl hid hbefore hafter
  have hword := lexesBefore_word hstart (fun h => hslash (List.cons_prefix_cons.mp h).1.symm)
    (fun h => hslash (List.cons_prefix_cons.mp h).1.symm) hmatch rfl
  rwa [← htext, String.ofList_toList] at hword

end Raksha.Parser
