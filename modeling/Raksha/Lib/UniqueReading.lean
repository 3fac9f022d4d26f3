import Mathlib.Data.List.Basic

/-!
# Unique reading

When a printed value is followed by something, the value can be told from the text if no other
value has a text that begins alike and is followed by something as well. Lists of such values can
be told from their texts between separators.
-/

namespace Raksha.Lib.UniqueReading

variable {α σ : Type}

/-- The text of the value, with something behind it, is that of no other good value. -/
def ReadsAs (good : α → Prop) (text : α → List σ) (follows : List σ → Prop) (a : α) : Prop :=
  ∀ a' s s', good a' → follows s → follows s' → text a ++ s = text a' ++ s' → a' = a ∧ s' = s

/-- The texts of the values, with the separator between them and the closing symbol at the end. -/
def closedList (text : α → List σ) (separator : List σ) (closing : σ) : List α → List σ
  | [] => [closing]
  | [a] => text a ++ [closing]
  | a :: b :: l => text a ++ (separator ++ closedList text separator closing (b :: l))

variable {good : α → Prop} {text : α → List σ} {follows : List σ → Prop} {separator : List σ}
  {closing : σ}

/-- What stands behind the first value of a list. -/
def behind (text : α → List σ) (separator : List σ) (closing : σ) : List α → List σ
  | [] => [closing]
  | l => separator ++ closedList text separator closing l

theorem closedList_cons (a : α) (l : List α) : closedList text separator closing (a :: l) =
    text a ++ behind text separator closing l := by
  cases l <;> rfl

theorem behind_cons (a : α) (l : List α) (s : List σ) :
    behind text separator closing (a :: l) ++ s =
      separator ++ (closedList text separator closing (a :: l) ++ s) :=
  List.append_assoc ..

theorem readsAs_closedList (hclosing : ∀ s, follows (closing :: s))
    (hseparator : ∀ s, follows (separator ++ s))
    (hbegins : ∀ a, good a → ∀ s s', text a ++ s ≠ closing :: s')
    (hapart : ∀ s s', separator ++ s ≠ closing :: s') {l : List α} (hgood : ∀ a ∈ l, good a)
    (hreads : ∀ a ∈ l, ReadsAs good text follows a) :
    ReadsAs (fun l => ∀ a ∈ l, good a) (closedList text separator closing) (fun _ => True) l := by
  have hfollows : ∀ l s, follows (behind text separator closing l ++ s) := by
    intro l s
    cases l with
    | nil => exact hclosing s
    | cons b l =>
      rw [behind_cons]
      exact hseparator _
  induction l with
  | nil =>
    intro l' s s' hgood' _ _ heq
    cases l' with
    | nil => exact ⟨rfl, (List.cons.inj heq).2.symm⟩
    | cons a l' =>
      rw [closedList_cons, List.append_assoc] at heq
      exact absurd heq.symm (hbegins a (hgood' a (List.mem_cons_self ..)) _ _)
  | cons a l ih =>
    intro l' s s' hgood' _ _ heq
    cases l' with
    | nil =>
      rw [closedList_cons, List.append_assoc] at heq
      exact absurd heq (hbegins a (hgood a (List.mem_cons_self ..)) _ _)
    | cons a' l' =>
      rw [closedList_cons, closedList_cons, List.append_assoc, List.append_assoc] at heq
      obtain ⟨rfl, htail⟩ := hreads a (List.mem_cons_self ..) a' _ _
        (hgood' a' (List.mem_cons_self ..)) (hfollows l s) (hfollows l' s') heq
      have hrest := ih (fun b hb => hgood b (List.mem_cons_of_mem _ hb))
        (fun b hb => hreads b (List.mem_cons_of_mem _ hb)) l' s s'
        (fun b hb => hgood' b (List.mem_cons_of_mem _ hb)) trivial trivial
      cases l with
      | nil =>
        cases l' with
        | nil => exact ⟨rfl, (List.cons.inj htail).2⟩
        | cons b' l' =>
          rw [behind_cons] at htail
          exact absurd htail (hapart _ _)
      | cons b l =>
        cases l' with
        | nil =>
          rw [behind_cons] at htail
          exact absurd htail.symm (hapart _ _)
        | cons b' l' =>
          rw [behind_cons, behind_cons] at htail
          obtain ⟨hlist, hs⟩ := hrest (List.append_cancel_left htail).symm
          exact ⟨congrArg _ hlist, hs⟩

theorem closedList_eq (l : List α) : closedList text separator closing l =
    separator.intercalate (l.map text) ++ [closing] := by
  induction l with
  | nil => rfl
  | cons a l ih =>
    cases l with
    | nil => simp [closedList]
    | cons b l => simp [closedList, ih, List.intercalate_cons_cons]

theorem mem_closedList {c : σ} {l : List α} (h : c ∈ closedList text separator closing l) :
    c = closing ∨ c ∈ separator ∨ ∃ a ∈ l, c ∈ text a := by
  induction l with
  | nil => exact .inl (List.mem_singleton.mp h)
  | cons a l ih =>
    rw [closedList_cons] at h
    rcases List.mem_append.mp h with hfirst | hbehind
    · exact .inr (.inr ⟨a, List.mem_cons_self .., hfirst⟩)
    cases l with
    | nil => exact .inl (List.mem_singleton.mp hbehind)
    | cons b l =>
      rcases List.mem_append.mp hbehind with hseparator | hlater
      · exact .inr (.inl hseparator)
      rcases ih hlater with hclosing | hseparator | ⟨b, hb, htext⟩
      · exact .inl hclosing
      · exact .inr (.inl hseparator)
      · exact .inr (.inr ⟨b, List.mem_cons_of_mem _ hb, htext⟩)

/-! ### Stretches -/

/-- Where the symbols of a kind end, a stretch of them ends. -/
theorem stretch_unique (kind : σ → Prop) {l l' s s' : List σ} (hl : ∀ c ∈ l, kind c)
    (hl' : ∀ c ∈ l', kind c) (hs : ∀ c ∈ s.head?, ¬ kind c) (hs' : ∀ c ∈ s'.head?, ¬ kind c)
    (h : l ++ s = l' ++ s') : l = l' ∧ s = s' := by
  induction l generalizing l' with
  | nil =>
    cases l' with
    | nil => exact ⟨rfl, h⟩
    | cons c l' =>
      refine absurd (hl' c (List.mem_cons_self ..)) (hs c ?_)
      rw [show s = c :: (l' ++ s') from h]
      rfl
  | cons c l ih =>
    cases l' with
    | nil =>
      refine absurd (hl c (List.mem_cons_self ..)) (hs' c ?_)
      rw [show s' = c :: (l ++ s) from h.symm]
      rfl
    | cons c' l' =>
      obtain ⟨rfl, hrest⟩ := List.cons.inj h
      obtain ⟨rfl, rfl⟩ := ih (fun d hd => hl d (List.mem_cons_of_mem _ hd))
        (fun d hd => hl' d (List.mem_cons_of_mem _ hd)) hrest
      exact ⟨rfl, rfl⟩

/-- The lists between single separators can be told when the separator is in none of them. -/
theorem intercalate_unique {c : σ} {l l' : List (List σ)} (hl : ∀ x ∈ l, c ∉ x)
    (hl' : ∀ x ∈ l', c ∉ x) (hne : l ≠ []) (hne' : l' ≠ [])
    (h : [c].intercalate l = [c].intercalate l') : l = l' := by
  have hbehind : ∀ (x : List σ) rest, [c].intercalate (x :: rest) =
      x ++ (if rest = [] then [] else c :: [c].intercalate rest) := by
    intro x rest
    cases rest with
    | nil => simp
    | cons y rest => simp [List.intercalate_cons_cons]
  have hhead : ∀ (rest : List (List σ)), ∀ d ∈
      (if rest = [] then [] else c :: [c].intercalate rest).head?, ¬ d ≠ c := by
    intro rest d hd
    split at hd
    · cases hd
    · rw [not_not]
      exact (Option.some.inj hd).symm
  induction l generalizing l' with
  | nil => exact absurd rfl hne
  | cons x rest ih =>
    cases l' with
    | nil => exact absurd rfl hne'
    | cons x' rest' =>
      rw [hbehind, hbehind] at h
      obtain ⟨rfl, hrest⟩ := stretch_unique (· ≠ c)
        (fun d hd heq => hl x (List.mem_cons_self ..) (heq ▸ hd))
        (fun d hd heq => hl' x' (List.mem_cons_self ..) (heq ▸ hd)) (hhead rest) (hhead rest') h
      refine congrArg (x :: ·) ?_
      by_cases hnil : rest = []
      · by_cases hnil' : rest' = []
        · rw [hnil, hnil']
        · rw [if_pos hnil, if_neg hnil'] at hrest
          cases hrest
      · by_cases hnil' : rest' = []
        · rw [if_neg hnil, if_pos hnil'] at hrest
          cases hrest
        · rw [if_neg hnil, if_neg hnil'] at hrest
          exact ih (fun y hy => hl y (List.mem_cons_of_mem _ hy))
            (fun y hy => hl' y (List.mem_cons_of_mem _ hy)) hnil hnil' (List.cons.inj hrest).2

/-! ### Readers -/

section

variable {τ μ : Type} {good : α → Prop} {text : α → τ} {meaning : α → μ}
  (h : ∀ a a', good a → good a' → text a = text a' → meaning a = meaning a')

include h

/-- What the texts of good values determine can be read from the texts. -/
theorem exists_read : ∃ read : τ → Option μ, ∀ l : List α, (∀ a ∈ l, good a) →
    (l.map text).filterMap read = l.map meaning := by
  classical
  refine ⟨fun t => if ht : ∃ a, good a ∧ text a = t then some (meaning ht.choose) else none, ?_⟩
  intro l hl
  induction l with
  | nil => rfl
  | cons a l ih =>
    have hread : ∃ a', good a' ∧ text a' = text a := ⟨a, hl a (List.mem_cons_self ..), rfl⟩
    rw [List.map_cons, List.filterMap_cons, dif_pos hread,
      h _ _ hread.choose_spec.1 (hl a (List.mem_cons_self ..)) hread.choose_spec.2,
      ih fun b hb => hl b (List.mem_cons_of_mem _ hb)]
    rfl

theorem map_eq_of_texts {l l' : List α} (hl : ∀ a ∈ l, good a) (hl' : ∀ a ∈ l', good a)
    (heq : l.map text = l'.map text) : l.map meaning = l'.map meaning := by
  obtain ⟨read, hread⟩ := exists_read h
  rw [← hread l hl, ← hread l' hl', heq]

theorem perm_of_texts {l l' : List α} (hl : ∀ a ∈ l, good a) (hl' : ∀ a ∈ l', good a)
    (heq : (l.map text).Perm (l'.map text)) : (l.map meaning).Perm (l'.map meaning) := by
  obtain ⟨read, hread⟩ := exists_read h
  rw [← hread l hl, ← hread l' hl']
  exact heq.filterMap read

end

end Raksha.Lib.UniqueReading
