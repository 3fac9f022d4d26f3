import Raksha.Ir.NamedText
import Raksha.Parser.PrintedText
import Raksha.Parser.ReadWords

/-!
# Lines of a printed module

A name with two slashes can turn the rest of its line into a comment. The lexer reads all tokens of
a printed text, or it misses an opening parenthesis or a string.
-/

namespace Raksha.Parser
open Raksha.Common Raksha.Ir Raksha.Lib.Lexing

/-! ### Counting tokens -/

def stringCount (tokens : List Token) : ℕ := tokens.countP fun token => token.type = .stringLiteral

/-- Every operation has one. -/
def parenCount (tokens : List Token) : ℕ := tokens.countP fun token => token.type = .openParen

@[simp] theorem stringCount_append (tokens tokens' : List Token) :
    stringCount (tokens ++ tokens') = stringCount tokens + stringCount tokens' :=
  List.countP_append

@[simp] theorem parenCount_append (tokens tokens' : List Token) :
    parenCount (tokens ++ tokens') = parenCount tokens + parenCount tokens' :=
  List.countP_append

theorem stringCount_le (text : List Char) : 2 * stringCount (irTokens text) ≤ text.count '"' := by
  rw [stringCount, irTokens, List.countP_map]
  refine Lexer.countP_tokens_le ?_ text
  intro input type n hmatch htype
  obtain rfl : type = .stringLiteral := of_decide_eq_true htype
  obtain ⟨⟨rule, hrule, hruleType, hmatcher⟩, -⟩ := longestMatch_spec hmatch
  have hrules : ∀ rule ∈ irRules, rule.type = .stringLiteral → rule.matcher = stringLiteral := by
    simp [irRules, irRulesBeforeId, irRulesAfterId]
  rw [hrules rule hrule hruleType] at hmatcher
  obtain ⟨body, rest, rfl, -, rfl⟩ := stringLiteral_eq_some hmatcher
  have htake : ('"' :: (body ++ '"' :: rest)).take (body.length + 2) = '"' :: (body ++ ['"']) := by
    rw [List.take_succ_cons, List.take_append, List.take_of_length_le (by omega)]
    simp
  rw [htake]
  simp only [List.countP_cons, List.countP_append, List.countP_nil, beq_self_eq_true, if_true]
  omega

theorem LexesTo.stringCount_le {text : List Char} {tokens : List Token} (h : LexesTo text tokens) :
    2 * stringCount tokens ≤ text.count '"' := by
  have hall := h []
  rw [List.append_nil, show irTokens [] = [] from rfl, List.append_nil] at hall
  rw [← hall]
  exact Parser.stringCount_le text

/-! ### Printed texts -/

/-- If all strings are read, then a parenthesis is missed, and all strings behind the text are read
as well. -/
def Loses (text : List Char) (tokens : List Token) : Prop := ∀ rest,
  2 * stringCount tokens + rest.count '"' ≤ 2 * stringCount (irTokens (text ++ rest)) →
    rest.count '"' ≤ 2 * stringCount (irTokens rest) ∧
      parenCount (irTokens (text ++ rest)) < parenCount tokens + parenCount (irTokens rest)

/-- The text of the given tokens. Unless it is clear of comments, some of them are lost. -/
structure Printed (text : List Char) (tokens : List Token) (clear : Prop) : Prop where
  quotes : text.count '"' = 2 * stringCount tokens
  lexes : clear → LexesTo text tokens
  loses : ¬ clear → Loses text tokens

theorem Printed.congr {text : List Char} {tokens : List Token} {clear clear' : Prop}
    (h : Printed text tokens clear) (hclear : clear ↔ clear') : Printed text tokens clear' where
  quotes := h.quotes
  lexes hc := h.lexes (hclear.mpr hc)
  loses hc := h.loses fun hc' => hc (hclear.mp hc')

theorem LexesTo.printed {text : List Char} {tokens : List Token} (h : LexesTo text tokens)
    (hquotes : '"' ∉ text) : Printed text tokens True := by
  have hzero := List.count_eq_zero.mpr hquotes
  have hle := h.stringCount_le
  exact ⟨by omega, fun _ => h, fun hclear => absurd trivial hclear⟩

theorem Printed.append {text text' : List Char} {tokens tokens' : List Token}
    {clear clear' : Prop} (h : Printed text tokens clear) (h' : Printed text' tokens' clear') :
    Printed (text ++ text') (tokens ++ tokens') (clear ∧ clear') := by
  have hquotes := h.quotes
  have hquotes' := h'.quotes
  refine ⟨?_, fun hclear => (h.lexes hclear.1).append (h'.lexes hclear.2), ?_⟩
  · rw [List.count_append, stringCount_append]
    omega
  · intro hclear rest hall
    rw [List.append_assoc] at hall ⊢
    rw [stringCount_append] at hall
    rw [parenCount_append]
    -- What the second text does when all strings behind the first are read.
    have hsecond : (text' ++ rest).count '"' ≤ 2 * stringCount (irTokens (text' ++ rest)) →
        rest.count '"' ≤ 2 * stringCount (irTokens rest) ∧
          parenCount (irTokens (text' ++ rest)) ≤ parenCount tokens' + parenCount (irTokens rest) ∧
          (¬ clear' → parenCount (irTokens (text' ++ rest)) <
            parenCount tokens' + parenCount (irTokens rest)) := by
      intro hbehind
      rw [List.count_append] at hbehind
      by_cases hclear' : clear'
      · rw [h'.lexes hclear' rest, stringCount_append] at hbehind
        rw [h'.lexes hclear' rest, parenCount_append]
        exact ⟨by omega, le_rfl, fun hnot => absurd hclear' hnot⟩
      · obtain ⟨hrest, hlost⟩ := h'.loses hclear' rest (by omega)
        exact ⟨hrest, hlost.le, fun _ => hlost⟩
    by_cases hfirst : clear
    · rw [h.lexes hfirst, stringCount_append] at hall
      rw [h.lexes hfirst, parenCount_append]
      obtain ⟨hrest, -, hlost⟩ := hsecond (by rw [List.count_append]; omega)
      have hlost := hlost fun hclear' => hclear ⟨hfirst, hclear'⟩
      exact ⟨hrest, by omega⟩
    · obtain ⟨hbehind, hlost⟩ := h.loses hfirst (text' ++ rest) (by
        rw [List.count_append]
        omega)
      obtain ⟨hrest, hle, -⟩ := hsecond hbehind
      exact ⟨hrest, by omega⟩

theorem printed_join {α : Type} {text : α → String} {tokens : α → List Token} {clear : α → Prop}
    {l : List α} (h : ∀ a ∈ l, Printed (text a).toList (tokens a) (clear a)) :
    Printed (String.join (l.map text)).toList (l.flatMap tokens) (∀ a ∈ l, clear a) := by
  rw [String.toList_join]
  induction l with
  | nil => exact (LexesTo.nil.printed List.not_mem_nil).congr (by simp)
  | cons a l ih =>
    have hfirst := h a (List.mem_cons_self ..)
    rw [List.map_cons, List.flatMap_cons, List.flatMap_cons]
    exact (hfirst.append (ih fun x hx => h x (List.mem_cons_of_mem _ hx))).congr
      List.forall_mem_cons.symm

/-! ### The rest of a line -/

/-- The name starts a comment that is closed, when the strings behind it in the line have the given
text. -/
def StartsComment (name : String) (later : List Char) : Prop :=
  ['/', '/'] <+: name.toList ∧ endsLine later = true

instance (name : String) (later : List Char) : Decidable (StartsComment name later) :=
  inferInstanceAs (Decidable (_ ∧ _))

/-- The line breaks in the rest of a line are those in its strings and the line end. -/
structure RestOfLine (text : List Char) (tokens : List Token) (later : List Char)
    (clear : Prop) : Prop extends Printed text tokens clear where
  lineBreak : ∀ rest, endsLine (text ++ rest) = endsLine later
  lineEnd : '\n' ∈ text
  breaks : ∃ body after, (∀ c ∈ body, isLineText c = true) ∧ '"' ∉ body ∧
    (text = body ++ ['\n'] ∨ text = body ++ '"' :: after)
  paren : 1 ≤ parenCount tokens

variable {text word : List Char} {tokens wordTokens : List Token} {later : List Char}
  {clear : Prop}

/-- Text that is read without fail in front of the rest of a line. -/
theorem RestOfLine.behind {later' : List Char} (h : RestOfLine text tokens later clear)
    (hlexes : ∀ rest, irTokens (word ++ (text ++ rest)) = wordTokens ++ irTokens (text ++ rest))
    (hquotes : word.count '"' = 2 * stringCount wordTokens)
    (hends : ∀ rest, endsLine rest = endsLine later → endsLine (word ++ rest) = endsLine later')
    (hbreaks : (∀ c ∈ word, isLineText c = true) ∧ '"' ∉ word ∨ ∃ body after,
      (∀ c ∈ body, isLineText c = true) ∧ '"' ∉ body ∧ word = body ++ '"' :: after) :
    RestOfLine (word ++ text) (wordTokens ++ tokens) later' clear where
  quotes := by
    rw [List.count_append, stringCount_append, hquotes, h.quotes, Nat.mul_add]
  lexes hclear := by
    intro rest
    rw [List.append_assoc, hlexes, h.lexes hclear, List.append_assoc]
  loses hclear := by
    intro rest hall
    rw [List.append_assoc, hlexes, stringCount_append, stringCount_append] at hall
    obtain ⟨hrest, hlost⟩ := h.loses hclear rest (by omega)
    rw [List.append_assoc, hlexes, parenCount_append, parenCount_append]
    exact ⟨hrest, by omega⟩
  lineBreak rest := by
    rw [List.append_assoc]
    exact hends _ (h.lineBreak rest)
  lineEnd := List.mem_append_right _ h.lineEnd
  breaks := by
    rcases hbreaks with ⟨hline, hquote⟩ | ⟨body, after, hbody, hquote, rfl⟩
    · obtain ⟨body, after, hbody, hquote', htext⟩ := h.breaks
      refine ⟨word ++ body, after, ?_, ?_, ?_⟩
      · intro c hc
        exact (List.mem_append.mp hc).elim (hline c) (hbody c)
      · intro hmem
        exact (List.mem_append.mp hmem).elim hquote hquote'
      · rw [List.append_assoc, List.append_assoc]
        exact htext.imp (congrArg _) (congrArg _)
    · exact ⟨body, after ++ text, hbody, hquote, .inr (by rw [List.append_assoc]; rfl)⟩
  paren := by
    have hparen := h.paren
    rw [parenCount_append]
    omega

theorem lineBreak_unique {body body' rest rest' : List Char} {c c' : Char}
    (h : body ++ c :: rest = body' ++ c' :: rest')
    (hbody : ∀ d ∈ body, isLineText d = true) (hbody' : ∀ d ∈ body', isLineText d = true)
    (hc : isLineText c = false) (hc' : isLineText c' = false) :
    body = body' ∧ c = c' ∧ rest = rest' := by
  have hspan := congrArg (List.takeWhile isLineText) h
  rw [List.takeWhile_append_of_pos hbody, List.takeWhile_append_of_pos hbody',
    List.takeWhile_cons_of_neg (by simp [hc]), List.takeWhile_cons_of_neg (by simp [hc']),
    List.append_nil, List.append_nil] at hspan
  subst hspan
  exact ⟨rfl, List.cons.inj (List.append_cancel_left h)⟩

theorem prefix_of_lineBreak {line body rest after : List Char} {c : Char}
    (h : line ++ rest = body ++ c :: after) (hline : ∀ d ∈ line, isLineText d = true)
    (hc : isLineText c = false) : line <+: body := by
  rcases List.append_eq_append_iff.mp h with ⟨as, hbody, -⟩ | ⟨bs, hfront, hback⟩
  · exact ⟨as, hbody.symm⟩
  · cases bs with
    | nil =>
      rw [List.append_nil] at hfront
      rw [hfront]
    | cons x bs =>
      obtain ⟨rfl, -⟩ := List.cons.inj hback
      have hx := hline c (by rw [hfront]; simp)
      rw [hc] at hx
      cases hx

variable {name : String}

theorem IsIdWord.not_mem_quote (h : IsIdWord name) : '"' ∉ name.toList := by
  intro hmem
  cases h.isIdRest _ hmem

theorem RestOfLine.commentBody_isSome (h : RestOfLine text tokens later clear)
    {tail : List Char} (htail : ∀ c ∈ tail, isLineText c = true) (rest : List Char) :
    (commentBody (tail ++ (text ++ rest))).isSome = endsLine later := by
  obtain ⟨front, back, htext⟩ := List.append_of_mem h.lineEnd
  have hsplit : tail ++ (text ++ rest) = (tail ++ front) ++ '\n' :: (back ++ rest) := by
    rw [htext]
    simp
  rw [← h.lineBreak rest, ← endsLine_append htail, hsplit, Parser.commentBody_isSome]

theorem RestOfLine.commentSingle_iff (h : RestOfLine text tokens later clear) (hname : IsIdWord name)
    {c : Char} {text' : List Char} (htext : text = c :: text') (hc : isSeparator c = true)
    (rest : List Char) :
    (commentSingle (name.toList ++ (text ++ rest))).isSome = true ↔ StartsComment name later := by
  constructor
  · intro hcomment
    have hslashes : ∃ tail, name.toList = '/' :: '/' :: tail := by
      rw [htext, List.cons_append] at hcomment
      exact hname.slashes hc hcomment
    obtain ⟨tail, hlist⟩ := hslashes
    refine ⟨⟨tail, hlist.symm⟩, ?_⟩
    have hline := hname.isLineText
    rw [hlist] at hcomment hline
    rw [List.cons_append, List.cons_append, commentSingle_slashes, Option.isSome_map,
      h.commentBody_isSome fun d hd => hline d (by simp [hd])] at hcomment
    exact hcomment
  · rintro ⟨⟨tail, hlist⟩, hends⟩
    have hline := hname.isLineText
    rw [← hlist] at hline ⊢
    rw [List.append_assoc, List.cons_append, List.singleton_append, commentSingle_slashes,
      Option.isSome_map, h.commentBody_isSome fun d hd => hline d (by simp [hd])]
    exact hends

/-- A comment takes the whole rest of the line, with its parenthesis, or it takes a quote. -/
theorem RestOfLine.loses_of_startsComment (h : RestOfLine text tokens later clear)
    (hname : IsIdWord name) {c : Char} {text' : List Char} (htext : text = c :: text')
    (hc : isSeparator c = true) (hcomment : StartsComment name later) :
    Loses (name.toList ++ text) (⟨.id, name⟩ :: tokens) := by
  intro rest hall
  have hsome := (h.commentSingle_iff hname htext hc rest).mpr hcomment
  have hsplit : ∃ body lineEnd after, name.toList ++ (text ++ rest) = body ++ (lineEnd ++ after) ∧
      (∀ c ∈ body, isLineText c = true) ∧ (lineEnd = ['\n'] ∨ lineEnd = ['\r', '\n']) ∧
      irTokens (name.toList ++ (text ++ rest)) = irTokens after := by
    rw [htext, List.cons_append] at hsome ⊢
    exact irTokens_commented hname hc hsome
  obtain ⟨body, lineEnd, after, hsplit, hbody, hend, htokens⟩ := hsplit
  have hcount : stringCount (⟨.id, name⟩ :: tokens) = stringCount tokens := by
    simp [stringCount]
  have hparens : parenCount (⟨.id, name⟩ :: tokens) = parenCount tokens := by
    simp [parenCount]
  rw [List.append_assoc, htokens, hcount] at hall
  rw [List.append_assoc, htokens, hparens]
  have hquotes := h.quotes
  have hafter := stringCount_le after
  have hnamed := congrArg (List.count '"') hsplit
  simp only [List.count_append] at hnamed
  obtain ⟨d, lineEnd', hlineEnd, hd⟩ : ∃ d lineEnd', lineEnd = d :: lineEnd' ∧
      isLineText d = false := by
    rcases hend with rfl | rfl
    · exact ⟨_, _, rfl, rfl⟩
    · exact ⟨_, _, rfl, rfl⟩
  obtain ⟨front, back, hfront, hquote, hshape | hshape⟩ := h.breaks
  · have hline : ∀ c ∈ name.toList ++ front, isLineText c = true := by
      intro x hx
      exact (List.mem_append.mp hx).elim (hname.isLineText x) (hfront x)
    have heq : (name.toList ++ front) ++ '\n' :: rest = body ++ d :: (lineEnd' ++ after) := by
      rw [hshape, hlineEnd] at hsplit
      simpa using hsplit
    obtain ⟨-, rfl, hrest⟩ := lineBreak_unique heq hline hbody rfl hd
    have hlineEnd' : lineEnd' = [] := by
      rcases hend with rfl | rfl
      · exact (List.cons.inj hlineEnd).2.symm
      · cases hlineEnd
    rw [hlineEnd', List.nil_append] at hrest
    subst hrest
    have hparen := h.paren
    exact ⟨by omega, by omega⟩
  · -- A quote stands in front of the first line break.
    have hmem : '"' ∈ body := by
      have hline : ∀ c ∈ name.toList ++ front ++ ['"'], isLineText c = true := by
        intro x hx
        rcases List.mem_append.mp hx with hx | hx
        · exact (List.mem_append.mp hx).elim (hname.isLineText x) (hfront x)
        · rw [List.mem_singleton.mp hx]
          rfl
      have heq : name.toList ++ front ++ ['"'] ++ (back ++ rest) = body ++ d :: (lineEnd' ++ after) := by
        rw [hshape, hlineEnd] at hsplit
        simpa using hsplit
      exact (prefix_of_lineBreak heq hline hd).subset
        (List.mem_append_right _ (List.mem_singleton_self _))
    have hpositive := List.count_pos_iff.mpr hmem
    have hzero := List.count_eq_zero.mpr hname.not_mem_quote
    omega

theorem RestOfLine.idWord (h : RestOfLine text tokens later clear) (hname : IsIdWord name) {c : Char}
    {text' : List Char} (htext : text = c :: text') (hc : isSeparator c = true) :
    RestOfLine (name.toList ++ text) (⟨.id, name⟩ :: tokens) later
      (¬ StartsComment name later ∧ clear) := by
  have hcount : stringCount (⟨.id, name⟩ :: tokens) = stringCount tokens := by simp [stringCount]
  have hparens : parenCount (⟨.id, name⟩ :: tokens) = parenCount tokens := by simp [parenCount]
  have hlexes : ¬ StartsComment name later → ∀ rest,
      irTokens (name.toList ++ (text ++ rest)) = ⟨.id, name⟩ :: irTokens (text ++ rest) := by
    intro hnot rest
    have hnone := mt (h.commentSingle_iff hname htext hc rest).mp hnot
    rw [Bool.not_eq_true, Option.isSome_eq_false_iff, Option.isNone_iff_eq_none] at hnone
    rw [htext, List.cons_append] at hnone ⊢
    exact irTokens_name hname hc hnone
  refine ⟨⟨?_, ?_, ?_⟩, ?_, List.mem_append_right _ h.lineEnd, ?_, ?_⟩
  · rw [List.count_append, List.count_eq_zero.mpr hname.not_mem_quote, Nat.zero_add, h.quotes, hcount]
  · rintro ⟨hnot, hclear⟩ rest
    rw [List.append_assoc, hlexes hnot, h.lexes hclear, List.cons_append]
  · intro hclear
    by_cases hcomment : StartsComment name later
    · exact h.loses_of_startsComment hname htext hc hcomment
    · intro rest hall
      rw [List.append_assoc, hlexes hcomment] at hall ⊢
      have hloses := h.loses (fun hclear' => hclear ⟨hcomment, hclear'⟩) rest
      simp only [stringCount, parenCount, List.countP_cons, reduceCtorEq, decide_false,
        Bool.false_eq_true, if_false, Nat.add_zero] at hall ⊢
      exact hloses hall
  · intro rest
    rw [List.append_assoc, endsLine_append hname.isLineText, h.lineBreak rest]
  · obtain ⟨body, after, hbody, hquote, hshape⟩ := h.breaks
    refine ⟨name.toList ++ body, after, ?_, ?_, ?_⟩
    · intro x hx
      exact (List.mem_append.mp hx).elim (hname.isLineText x) (hbody x)
    · intro hmem
      exact (List.mem_append.mp hmem).elim hname.not_mem_quote hquote
    · rw [List.append_assoc, List.append_assoc]
      exact hshape.imp (congrArg _) (congrArg _)
  · rw [hparens]
    exact h.paren

/-! ### Attributes -/

variable (floatToString : BitVec 64 → String)

/-- The part of a printed attribute that can break the line. -/
def lineText : Attribute → List Char
  | .string value => value.toList ++ ['"']
  | _ => []

def NoComments : List (Σ _ : String, Attribute) → Prop
  | [] => True
  | entry :: entries =>
    ¬ StartsComment entry.1 ((entry :: entries).flatMap fun entry => lineText entry.2) ∧
      NoComments entries

def entryText (entry : Σ _ : String, Attribute) : String :=
  entry.1 ++ ": " ++ attributeToString floatToString entry.2

theorem RestOfLine.payload (h : RestOfLine text tokens later clear) {attr : Attribute}
    (hattr : Readable attr) {c : Char} {text' : List Char} (htext : text = c :: text')
    (hc : isSeparator c = true) :
    RestOfLine (':' :: ' ' :: (attributeToString floatToString attr).toList ++ text)
      (⟨.colon, ":"⟩ :: (printedPayload floatToString attr).tokens ++ tokens)
      (lineText attr ++ later) clear := by
  have hlexes : ∀ rest, irTokens (':' :: ' ' :: (attributeToString floatToString attr).toList ++
      (text ++ rest)) = ⟨.colon, ":"⟩ :: (printedPayload floatToString attr).tokens ++
        irTokens (text ++ rest) := by
    intro rest
    have hbefore := (lexesTo_colon.before (lexesTo_blank.before
      (lexesBefore_attribute floatToString hattr))) c (text' ++ rest) hc
    rw [htext]
    exact hbefore
  cases attr with
  | int64 value =>
    obtain ⟨n, rfl⟩ := Int.eq_ofNat_of_zero_le hattr
    have hline : ∀ c ∈ ':' :: ' ' :: (toString n).toList, isLineText c = true ∧ c ≠ '"' := by
      intro d hd
      rcases List.mem_cons.mp hd with rfl | hd
      · exact ⟨rfl, by decide⟩
      rcases List.mem_cons.mp hd with rfl | hd
      · exact ⟨rfl, by decide⟩
      have hdigit := isDigit_of_mem_toString hd
      refine ⟨isLineText_of_isIdRest (by simp [isIdRest, hdigit]), ?_⟩
      rintro rfl
      cases hdigit
    have hquote : '"' ∉ ':' :: ' ' :: (toString n).toList := fun hmem => (hline _ hmem).2 rfl
    refine h.behind hlexes ?_ ?_ (.inl ⟨fun c hc => (hline c hc).1, hquote⟩)
    · exact (List.count_eq_zero.mpr hquote).trans rfl
    · intro rest hrest
      exact (endsLine_append (fun c hc => (hline c hc).1) rest).trans hrest
  | string value =>
    have hvalue : '"' ∉ value.toList := hattr
    have htext' : (attributeToString floatToString (.string value)).toList =
        '"' :: (value.toList ++ ['"']) := by
      simp [attributeToString]
    rw [htext'] at hlexes ⊢
    refine h.behind hlexes ?_ ?_ (.inr ⟨[':', ' '], value.toList ++ ['"'], by simp [isLineText],
      by simp, rfl⟩)
    · simp [List.count_append, List.count_eq_zero.mpr hvalue, printedPayload,
        AttributePayloadContext.tokens, stringCount]
    · intro rest hrest
      have hquote := endsLine_quote value.toList hrest
      simp only [List.cons_append, List.append_assoc, List.nil_append, lineText] at hquote ⊢
      rw [endsLine_cons rfl, endsLine_cons rfl, endsLine_cons rfl, hquote]
  | float bits => cases hattr

theorem RestOfLine.separator (h : RestOfLine text tokens later clear)
    (hlexes : LexesTo word wordTokens) (hline : ∀ c ∈ word, isLineText c = true)
    (hquote : '"' ∉ word) : RestOfLine (word ++ text) (wordTokens ++ tokens) later clear := by
  have hle := hlexes.stringCount_le
  have hzero := List.count_eq_zero.mpr hquote
  exact h.behind (fun rest => hlexes _) (by omega)
    (fun rest hrest => (endsLine_append hline rest).trans hrest) (.inl ⟨hline, hquote⟩)

theorem restOfLine_entry (h : RestOfLine text tokens later clear) {entry : Σ _ : String, Attribute}
    (hentry : IsIdWord entry.1 ∧ Readable entry.2) {c : Char} {text' : List Char}
    (htext : text = c :: text') (hc : isSeparator c = true) :
    RestOfLine ((entryText floatToString entry).toList ++ text)
      (AttributeContext.tokens ⟨entry.1, printedPayload floatToString entry.2⟩ ++ tokens)
      (lineText entry.2 ++ later)
      (¬ StartsComment entry.1 (lineText entry.2 ++ later) ∧ clear) := by
  have hpayload := h.payload floatToString hentry.2 htext hc
  have hname := hpayload.idWord hentry.1 rfl rfl
  have htext : (entryText floatToString entry).toList ++ text = entry.1.toList ++
      (':' :: ' ' :: (attributeToString floatToString entry.2).toList ++ text) := by
    simp [entryText]
  rw [htext]
  exact hname

theorem restOfLine_entries (h : RestOfLine text tokens [] True) {text' : List Char}
    (htext : text = ']' :: text') (entries : List (Σ _ : String, Attribute))
    (hentries : ∀ entry ∈ entries, IsIdWord entry.1 ∧ Readable entry.2) :
    RestOfLine ((", ".intercalate (entries.map (entryText floatToString))).toList ++ text)
      (separated comma (fun entry => AttributeContext.tokens
        ⟨entry.1, printedPayload floatToString entry.2⟩) entries ++ tokens)
      (entries.flatMap fun entry => lineText entry.2) (NoComments entries) := by
  induction entries with
  | nil => exact h
  | cons entry entries ih =>
    have hentry := hentries entry (List.mem_cons_self ..)
    have hrest := ih fun e he => hentries e (List.mem_cons_of_mem _ he)
    cases entries with
    | nil =>
      rw [List.map_singleton, String.intercalate_singleton]
      simpa only [separated, List.flatMap_nil, List.append_nil, List.flatMap_cons, NoComments]
        using restOfLine_entry floatToString h hentry htext rfl
    | cons next entries =>
      have hblank : LexesTo [',', ' '] [comma] := lexesTo_comma.append lexesTo_blank
      have hseparator := hrest.separator hblank (by simp [isLineText]) (by simp)
      rw [List.map_cons, List.map_cons, String.intercalate_cons_cons, separated_cons_cons]
      simp only [String.toList_append, List.append_assoc]
      exact restOfLine_entry floatToString hseparator hentry rfl rfl

/-! ### Operations, blocks and modules -/

/-- The attributes in the order in which they are printed. -/
def inNameOrder (attributes : NamedAttributeMap) : List (Σ _ : String, Attribute) :=
  attributes.entries.mergeSort fun left right => decide (left.1 ≤ right.1)

/-- No name of the operation starts a comment in its printed line. -/
def Uncommented (operation : Operation) : Prop :=
  ¬ StartsComment operation.op.name
      ((inNameOrder operation.attributes).flatMap fun entry => lineText entry.2) ∧
    NoComments (inNameOrder operation.attributes)

/-- The words of the operation were read from a text, under the names of the text. -/
structure ReadOperation (symbol : Value → String) (operation : Operation) : Prop where
  operatorName : IsIdWord operation.op.name
  attributes : ∀ entry ∈ operation.attributes.entries, IsIdWord entry.1 ∧ Readable entry.2
  results : ∀ i < operation.numberOfOutputs, IsTemporaryWord (symbol (operation.getOutputValue i))
  inputs : ∀ v ∈ operation.inputs, v = .any ∨ IsTemporaryWord (symbol v)

section

variable {symbol : Value → String} {blockId : ℕ → String}

theorem LexesTo.restOfLine {text : List Char} {tokens : List Token}
    (h : LexesTo (text ++ ['\n']) tokens) (hplain : ∀ c ∈ text, isLineText c = true ∧ c ≠ '"')
    (hparen : 1 ≤ parenCount tokens) : RestOfLine (text ++ ['\n']) tokens [] True := by
  have hquote : '"' ∉ text := fun hmem => (hplain _ hmem).2 rfl
  have hquote' : '"' ∉ text ++ ['\n'] := by simp [hquote]
  refine ⟨h.printed hquote', ?_, by simp, ⟨text, [], fun c hc => (hplain c hc).1, hquote, .inl rfl⟩,
    hparen⟩
  intro rest
  rw [List.append_assoc, endsLine_append fun c hc => (hplain c hc).1]
  rfl

theorem plain_strJoin {α : Type} {text : α → String} {l : List α}
    (h : ∀ a ∈ l, ∀ c ∈ (text a).toList, isLineText c = true ∧ c ≠ '"') :
    ∀ c ∈ (", ".intercalate (l.map text)).toList, isLineText c = true ∧ c ≠ '"' := by
  induction l with
  | nil => simp
  | cons a l ih =>
    have hfirst := h a (List.mem_cons_self ..)
    have hrest := ih fun x hx => h x (List.mem_cons_of_mem _ hx)
    cases l with
    | nil =>
      rw [List.map_singleton, String.intercalate_singleton]
      exact hfirst
    | cons b l =>
      rw [List.map_cons, List.map_cons, String.intercalate_cons_cons]
      intro c hc
      simp only [String.toList_append, List.mem_append] at hc
      rcases hc with (hc | hc) | hc
      · exact hfirst c hc
      · have hcomma : c = ',' ∨ c = ' ' := by simpa using hc
        rcases hcomma with rfl | rfl <;> exact ⟨rfl, by decide⟩
      · exact hrest c hc

theorem plain_symbol (hany : symbol .any = "<<ANY>>") {v : Value}
    (h : v = .any ∨ IsTemporaryWord (symbol v)) :
    ∀ c ∈ (symbol v).toList, isLineText c = true ∧ c ≠ '"' := by
  rcases h with rfl | h
  · rw [hany]
    intro c hc
    have hmem : c ∈ anyWord := hc
    simp only [anyWord, List.mem_cons, List.not_mem_nil, or_false] at hmem
    rcases hmem with rfl | rfl | rfl | rfl | rfl | rfl | rfl <;> exact ⟨rfl, by decide⟩
  · exact h.plain

theorem restOfLine_inputs (hany : symbol .any = "<<ANY>>") (values : List Value)
    (h : ∀ v ∈ values, v = .any ∨ IsTemporaryWord (symbol v)) :
    RestOfLine ("](" ++ ", ".intercalate (values.map symbol) ++ ")\n").toList
      (⟨.closeBracket, "]"⟩ :: ⟨.openParen, "("⟩ ::
        (separated comma ValueContext.tokens (values.map (printedValue symbol)) ++
          [⟨.closeParen, ")"⟩])) [] True := by
  have hvalues := lexesBefore_strJoin fun v hv =>
    lexesBefore_value hany ((h v hv).imp_right IsTemporaryWord.lexesBefore)
  have hplain := plain_strJoin fun v hv => plain_symbol hany (h v hv)
  have hlexes := lexesTo_closeBracket.append (lexesTo_openParen.append
    (hvalues.append rfl (lexesTo_closeParen.append lexesTo_lineEnd)))
  have htext : ("](" ++ ", ".intercalate (values.map symbol) ++ ")\n").toList =
      (']' :: '(' :: (", ".intercalate (values.map symbol)).toList ++ [')']) ++ ['\n'] := by
    simp
  rw [htext, separated_map]
  refine LexesTo.restOfLine ?_ ?_ ?_
  · simpa using hlexes
  · intro c hc
    simp only [List.cons_append, List.mem_cons, List.mem_append, List.not_mem_nil, or_false] at hc
    rcases hc with rfl | rfl | hc | rfl
    · exact ⟨rfl, by decide⟩
    · exact ⟨rfl, by decide⟩
    · exact hplain c hc
    · exact ⟨rfl, by decide⟩
  · simp [parenCount]

theorem printed_results {operation : Operation} (h : ReadOperation symbol operation)
    (indent : ℕ) :
    Printed ((indentation indent).toList ++ ((", ".intercalate
      (((List.range operation.numberOfOutputs).map operation.getOutputValue).map symbol)).toList ++
        [' ', '=', ' '])) (separated comma (fun text => [⟨.temporaryId, text⟩])
          (printedOperation floatToString symbol operation).result ++ [⟨.equals, "="⟩]) True := by
  have hresults := lexesBefore_results floatToString fun i hi => (h.results i hi).lexesBefore
  have hplain : ∀ c ∈ (", ".intercalate
      (((List.range operation.numberOfOutputs).map operation.getOutputValue).map symbol)).toList,
      isLineText c = true ∧ c ≠ '"' := by
    rw [List.map_map]
    exact plain_strJoin fun i hi => (h.results i (List.mem_range.mp hi)).plain
  have hstart := (lexesTo_indentation indent).append
    (hresults.append rfl (lexesTo_blank.append (lexesTo_equals.append lexesTo_blank)))
  refine hstart.printed ?_
  simp only [List.mem_append, not_or]
  refine ⟨?_, fun hmem => (hplain _ hmem).2 rfl, by decide⟩
  rw [indentation, String.toList_ofList]
  intro hmem
  cases List.eq_of_mem_replicate hmem

theorem printed_operation (hany : symbol .any = "<<ANY>>") {operation : Operation}
    (h : ReadOperation symbol operation) (indent : ℕ) :
    Printed (operationText floatToString symbol indent operation).toList
      (printedOperation floatToString symbol operation).tokens (Uncommented operation) := by
  have hentries : ∀ entry ∈ inNameOrder operation.attributes, IsIdWord entry.1 ∧ Readable entry.2 :=
    fun entry hentry => h.attributes entry (List.mem_mergeSort.mp hentry)
  have hbracket : ("](" ++ ", ".intercalate (operation.inputs.map symbol) ++ ")\n").toList =
      ']' :: '(' :: ((", ".intercalate (operation.inputs.map symbol)).toList ++ [')', '\n']) := by
    simp
  have hattributes := restOfLine_entries floatToString
    (restOfLine_inputs hany operation.inputs h.inputs) hbracket _ hentries
  have hname := (hattributes.separator (lexesTo_blank.append lexesTo_openBracket)
    (by simp [isLineText]) (by simp)).idWord h.operatorName rfl rfl
  have hline := (printed_results floatToString h indent).append hname.toPrinted
  have htext : (operationText floatToString symbol indent operation).toList =
      (indentation indent).toList ++ ((", ".intercalate (((List.range
        operation.numberOfOutputs).map operation.getOutputValue).map symbol)).toList ++
          [' ', '=', ' ']) ++ (operation.op.name.toList ++ ([' ', '['] ++
      ((", ".intercalate ((inNameOrder operation.attributes).map (entryText floatToString))).toList ++
        ("](" ++ ", ".intercalate (operation.inputs.map symbol) ++ ")\n").toList))) := by
    rw [operationText]
    simp only [String.toList_append, List.append_assoc]
    rfl
  have htokens : (printedOperation floatToString symbol operation).tokens =
      separated comma (fun text => [⟨.temporaryId, text⟩])
        (printedOperation floatToString symbol operation).result ++ [⟨.equals, "="⟩] ++
      (⟨.id, operation.op.name⟩ :: ⟨.openBracket, "["⟩ ::
      (separated comma (fun entry => AttributeContext.tokens
        ⟨entry.1, printedPayload floatToString entry.2⟩) (inNameOrder operation.attributes) ++
      ⟨.closeBracket, "]"⟩ :: ⟨.openParen, "("⟩ ::
      (separated comma ValueContext.tokens (operation.inputs.map (printedValue symbol)) ++
        [⟨.closeParen, ")"⟩]))) := by
    rw [OperationContext.tokens, List.append_assoc,
      ← separated_map comma AttributeContext.tokens fun entry : (Σ _ : String, Attribute) =>
        ⟨entry.1, printedPayload floatToString entry.2⟩]
    rfl
  rw [htext, htokens]
  exact hline.congr (Iff.of_eq (true_and _))

/-- Where the line in front and the closing line are read without fail. -/
theorem Printed.within {openText closeText : List Char} {openTokens closeTokens : List Token}
    {text : List Char} {tokens : List Token} {clear : Prop} (h : Printed text tokens clear)
    (hopen : LexesTo openText openTokens) (hclose : LexesTo closeText closeTokens)
    (hquote : '"' ∉ openText) (hquote' : '"' ∉ closeText) :
    Printed (openText ++ (text ++ closeText)) (openTokens ++ (tokens ++ closeTokens)) clear :=
  ((hopen.printed hquote).append (h.append (hclose.printed hquote'))).congr (by simp)

theorem not_mem_quote_numbered {c : Char} (hc : c ≠ '"') (n : ℕ) :
    '"' ∉ (String.ofList [c] ++ toString n).toList := by
  rw [String.toList_append, String.toList_ofList, List.mem_append, List.mem_singleton]
  rintro (hmem | hmem)
  · exact hc hmem.symm
  · cases isDigit_of_mem_toString hmem

theorem not_mem_quote_indentation (indent : ℕ) : '"' ∉ (indentation indent).toList := by
  rw [indentation, String.toList_ofList]
  intro hmem
  cases List.eq_of_mem_replicate hmem

theorem printed_block (hany : symbol .any = "<<ANY>>") {block : Block}
    (h : ∀ operation ∈ block.operations, ReadOperation symbol operation) {k n : ℕ}
    (hn : blockId k = "b" ++ toString n) (indent : ℕ) :
    Printed (blockText floatToString symbol blockId indent (block, k)).toList
      (printedBlock floatToString symbol blockId (block, k)).tokens
      (∀ operation ∈ block.operations, Uncommented operation) := by
  have hoperations := printed_join fun operation hop =>
    printed_operation floatToString hany (h operation hop) (indent + 1)
  have hline : ∀ c ∈ (blockId k).toList, isLineText c = true := by
    rw [hn]
    exact isLineText_toString 'b' rfl n
  have hid : '"' ∉ (blockId k).toList := by
    rw [hn]
    exact not_mem_quote_numbered (c := 'b') (by decide) n
  have hindent := not_mem_quote_indentation indent
  have hname : LexesBefore (blockId k).toList [⟨.id, blockId k⟩] := by
    rw [hn]
    exact lexesBefore_numbered (.inl rfl) n
  have hword : ∀ c ∈ ['b', 'l', 'o', 'c', 'k', ' '], isLineText c = true :=
    List.all_eq_true.mp rfl
  have hopen := (lexesTo_indentation indent).append (lexesTo_block.append
    (hname.append rfl (lexesTo_blank.append (lexesTo_openBrace.append lexesTo_lineEnd))))
  have hclose := (lexesTo_indentation indent).append (lexesTo_closing hword hline)
  have hwhole := hoperations.within hopen hclose (by simp [hindent, hid, blockWord])
    (by simp [hindent, hid])
  have htokens : (printedBlock floatToString symbol blockId (block, k)).tokens =
      [⟨.block, "block"⟩, ⟨.id, blockId k⟩, ⟨.openBrace, "\x7b"⟩] ++
        (block.operations.flatMap (fun operation =>
          (printedOperation floatToString symbol operation).tokens) ++ [⟨.closeBrace, "\x7d"⟩]) := by
    simp only [BlockContext.tokens, printedBlock, List.flatMap_map, List.cons_append,
      List.nil_append]
  rw [htokens, blockText]
  simp only [String.toList_append, List.append_assoc]
  simp only [List.append_assoc] at hwhole
  exact hwhole

theorem printed_module {module : Module} {moduleId : String} (hany : symbol .any = "<<ANY>>")
    (h : ∀ operation ∈ module.operations, ReadOperation symbol operation)
    (hblock : ∀ block ∈ module.blocks.zipIdx, ∃ n : ℕ, blockId block.2 = "b" ++ toString n)
    (hmodule : ∃ n : ℕ, moduleId = "m" ++ toString n) :
    Printed (moduleText floatToString symbol blockId moduleId module).toList
      (printedModule floatToString symbol blockId moduleId module).tokens
      (∀ operation ∈ module.operations, Uncommented operation) := by
  have hprinted : ∀ block ∈ module.blocks.zipIdx,
      Printed (blockText floatToString symbol blockId 1 block).toList
        (printedBlock floatToString symbol blockId block).tokens
        (∀ operation ∈ block.1.operations, Uncommented operation) := by
    intro block hmem
    obtain ⟨n, hn⟩ := hblock block hmem
    exact printed_block floatToString hany (fun operation hop => h operation
      (List.mem_flatMap.mpr ⟨block.1, List.fst_mem_of_mem_zipIdx hmem, hop⟩)) hn 1
  have hblocks := printed_join hprinted
  obtain ⟨n, hn⟩ := hmodule
  have hname : LexesBefore moduleId.toList [⟨.id, moduleId⟩] := by
    rw [hn]
    exact lexesBefore_numbered (.inr rfl) n
  have hword : ∀ c ∈ ['m', 'o', 'd', 'u', 'l', 'e', ' '], isLineText c = true :=
    List.all_eq_true.mp rfl
  have hline : ∀ c ∈ moduleId.toList, isLineText c = true := by
    rw [hn]
    exact isLineText_toString 'm' rfl n
  have hid : '"' ∉ moduleId.toList := by
    rw [hn]
    exact not_mem_quote_numbered (c := 'm') (by decide) n
  have hopen := lexesTo_module.append (hname.append rfl (lexesTo_blank.append
    (lexesTo_openBrace.append lexesTo_lineEnd)))
  have hwhole := hblocks.within hopen (lexesTo_closing hword hline)
    (by simp [hid, moduleWord]) (by simp [hid])
  have htokens : (printedModule floatToString symbol blockId moduleId module).tokens =
      [⟨.module, "module"⟩, ⟨.id, moduleId⟩, ⟨.openBrace, "\x7b"⟩] ++
        (module.blocks.zipIdx.flatMap (fun block =>
          (printedBlock floatToString symbol blockId block).tokens) ++
            [⟨.closeBrace, "\x7d"⟩]) := by
    simp only [ModuleContext.tokens, printedModule, List.flatMap_map, List.cons_append,
      List.nil_append]
  have hclear : (∀ block ∈ module.blocks.zipIdx, ∀ operation ∈ block.1.operations,
      Uncommented operation) ↔ ∀ operation ∈ module.operations, Uncommented operation := by
    constructor
    · intro hall operation hop
      obtain ⟨block, hblock, hop⟩ := List.mem_flatMap.mp hop
      obtain ⟨k, hk⟩ := List.mem_iff_getElem?.mp hblock
      exact hall (block, k) (List.mem_zipIdx_iff_getElem?.mpr hk) operation hop
    · intro hall block hblock operation hop
      exact hall operation (List.mem_flatMap.mpr
        ⟨block.1, List.fst_mem_of_mem_zipIdx hblock, hop⟩)
  rw [htokens, moduleText]
  simp only [String.toList_append, List.append_assoc]
  simp only [List.append_assoc] at hwhole
  exact hwhole.congr hclear

end

end Raksha.Parser
