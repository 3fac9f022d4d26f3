import Mathlib.Data.List.AList
import Mathlib.Tactic

/-!
# Checks and hash maps

The parts of the C++ library that the modelled code is written in: `CHECK`, which aborts with
a message, and `absl::flat_hash_map`. A hash map is kept as an association list without
duplicate keys, whose order stands for the unspecified iteration order.
-/

namespace Raksha.Common

/-- A computation that may abort in a failing `CHECK`, with the text of the check. -/
abbrev Checked (α : Type) : Type := Except String α

/-- `CHECK(condition) << message`. -/
def check (condition : Prop) [Decidable condition] (message : String) : Checked Unit :=
  if condition then .ok () else .error message

@[simp] theorem check_eq_ok (condition : Prop) [Decidable condition] (message : String)
    (u : Unit) : check condition message = .ok u ↔ condition := by
  unfold check
  split <;> simp [*]

theorem check_of (condition : Prop) [Decidable condition] (message : String)
    (h : condition) : check condition message = .ok () := by
  simp only [check, h, if_true]

@[simp] theorem Checked.bind_eq_ok {α β : Type} (x : Checked α) (f : α → Checked β) (b : β) :
    (x >>= f) = .ok b ↔ ∃ a, x = .ok a ∧ f a = .ok b := by
  cases x with
  | error e => simp [bind, Except.bind]
  | ok a => simp [bind, Except.bind]

@[simp] theorem Checked.map_eq_ok {α β : Type} (f : α → β) (x : Checked α) (b : β) :
    (f <$> x) = .ok b ↔ ∃ a, x = .ok a ∧ f a = b := by
  cases x with
  | error e => simp [Functor.map, Except.map]
  | ok a => simp [Functor.map, Except.map]

@[simp] theorem Checked.pure_eq_ok {α : Type} (a b : α) :
    (pure a : Checked α) = .ok b ↔ a = b := by
  simp [pure, Except.pure]

theorem Checked.exists_eq_ok_of_isOk {α : Type} {x : Checked α} (h : x.isOk = true) :
    ∃ a, x = .ok a := by
  cases x with
  | error message => cases h
  | ok a => exact ⟨a, rfl⟩

theorem Checked.foldlM_invariant {α β : Type} (motive : β → Prop) (f : β → α → Checked β)
    (l : List α) (hstep : ∀ b, motive b → ∀ a ∈ l, ∀ b', f b a = .ok b' → motive b')
    {b b' : β} (hb : motive b) (h : l.foldlM f b = .ok b') : motive b' := by
  induction l generalizing b with
  | nil =>
    simp only [List.foldlM_nil, Checked.pure_eq_ok] at h
    exact h ▸ hb
  | cons a l ih =>
    simp only [List.foldlM_cons, Checked.bind_eq_ok] at h
    obtain ⟨b₁, h₁, h₂⟩ := h
    refine ih ?_ (hstep b hb a (List.mem_cons_self ..) b₁ h₁) h₂
    intro c hc x hx
    exact hstep c hc x (List.mem_cons_of_mem _ hx)

/-- Every element of a checked loop takes one step between the initial and the final
accumulator, in any preorder that the steps follow. -/
theorem Checked.foldlM_step {α β : Type} (r : β → β → Prop) (hrefl : ∀ b, r b b)
    (htrans : ∀ a b c, r a b → r b c → r a c) (f : β → α → Checked β) (l : List α)
    (hstep : ∀ b, ∀ a ∈ l, ∀ b', f b a = .ok b' → r b b') {b b' : β}
    (h : l.foldlM f b = .ok b') :
    r b b' ∧ ∀ a ∈ l, ∃ s s', r b s ∧ f s a = .ok s' ∧ r s' b' := by
  induction l generalizing b with
  | nil =>
    simp only [List.foldlM_nil, Checked.pure_eq_ok] at h
    subst h
    exact ⟨hrefl b, fun a ha => absurd ha (List.not_mem_nil)⟩
  | cons a l ih =>
    simp only [List.foldlM_cons, Checked.bind_eq_ok] at h
    obtain ⟨mid, hmid, hrest⟩ := h
    have hfirst := hstep b a (List.mem_cons_self ..) mid hmid
    obtain ⟨hlast, hsteps⟩ :=
      ih (fun c x hx => hstep c x (List.mem_cons_of_mem _ hx)) hrest
    refine ⟨htrans _ _ _ hfirst hlast, ?_⟩
    intro x hx
    rcases List.mem_cons.mp hx with rfl | hmem
    · exact ⟨b, mid, hrefl b, hmid, hlast⟩
    · obtain ⟨s, s', hbs, hs, hend⟩ := hsteps x hmem
      exact ⟨s, s', htrans _ _ _ hfirst hbs, hs, hend⟩

/-- A checked loop whose elements exclude each other: what one element leaves behind makes the
later ones fail that are not related to it. -/
theorem Checked.foldlM_pairwise {α β : Type} {r : α → α → Prop} (left : β → α → Prop)
    {f : β → α → Checked β} {l : List α}
    (hleft : ∀ b, ∀ a ∈ l, ∀ b', f b a = .ok b' → left b' a)
    (hkeep : ∀ b a b', left b a → ∀ x ∈ l, f b x = .ok b' → left b' a ∧ r a x)
    {b b' : β} (h : l.foldlM f b = .ok b') : l.Pairwise r := by
  have hafter : ∀ (rest : List α), (∀ x ∈ rest, x ∈ l) → ∀ a b b', left b a →
      rest.foldlM f b = .ok b' → ∀ x ∈ rest, r a x := by
    intro rest
    induction rest with
    | nil => exact fun _ _ _ _ _ _ x hx => absurd hx List.not_mem_nil
    | cons y rest ih =>
      intro hsub a b b' hb hfold x hx
      simp only [List.foldlM_cons, Checked.bind_eq_ok] at hfold
      obtain ⟨mid, hmid, hrest⟩ := hfold
      obtain ⟨hmidLeft, hrelated⟩ := hkeep b a mid hb y (hsub y (List.mem_cons_self ..)) hmid
      rcases List.mem_cons.mp hx with rfl | hx
      · exact hrelated
      · exact ih (fun x hx => hsub x (List.mem_cons_of_mem _ hx)) a mid b' hmidLeft hrest x hx
  have hall : ∀ (rest : List α), (∀ x ∈ rest, x ∈ l) → ∀ b b', rest.foldlM f b = .ok b' →
      rest.Pairwise r := by
    intro rest
    induction rest with
    | nil => exact fun _ _ _ _ => .nil
    | cons y rest ih =>
      intro hsub b b' hfold
      simp only [List.foldlM_cons, Checked.bind_eq_ok] at hfold
      obtain ⟨mid, hmid, hrest⟩ := hfold
      have hsub' : ∀ x ∈ rest, x ∈ l := fun x hx => hsub x (List.mem_cons_of_mem _ hx)
      have hy := hleft b y (hsub y (List.mem_cons_self ..)) mid hmid
      exact .cons (hafter rest hsub' y mid b' hy hrest) (ih hsub' mid b' hrest)
  exact hall l (fun _ hx => hx) b b' h

/-- Two checked loops over one list whose bodies keep a relation of their accumulators. -/
theorem Checked.foldlM_rel {α β γ : Type} {r : β → γ → Prop} {f : β → α → Checked β}
    {g : γ → α → Checked γ} {l : List α}
    (hstep : ∀ a ∈ l, ∀ b c b' c', r b c → f b a = .ok b' → g c a = .ok c' → r b' c')
    {b b' : β} {c c' : γ} (hr : r b c) (hf : l.foldlM f b = .ok b')
    (hg : l.foldlM g c = .ok c') : r b' c' := by
  induction l generalizing b c with
  | nil =>
    cases hf
    cases hg
    exact hr
  | cons a l ih =>
    simp only [List.foldlM_cons, Checked.bind_eq_ok] at hf hg
    obtain ⟨mid, hmid, hrest⟩ := hf
    obtain ⟨mid', hmid', hrest'⟩ := hg
    exact ih (fun x hx => hstep x (List.mem_cons_of_mem _ hx))
      (hstep a (List.mem_cons_self ..) b c mid mid' hr hmid hmid') hrest hrest'

theorem Checked.mapM_of_forall {α β : Type} (f : α → Checked β) (g : α → β) (l : List α)
    (h : ∀ a ∈ l, f a = .ok (g a)) : l.mapM f = .ok (l.map g) := by
  induction l with
  | nil => rfl
  | cons a l ih =>
    have ha := h a (List.mem_cons_self ..)
    have hl := ih fun b hb => h b (List.mem_cons_of_mem _ hb)
    simp only [List.mapM_cons, ha, hl]
    rfl

theorem Checked.mapM_eq_ok {α β : Type} {f : α → Checked β} {l : List α} {l' : List β}
    (h : l.mapM f = .ok l') : List.Forall₂ (fun a b => f a = .ok b) l l' := by
  induction l generalizing l' with
  | nil =>
    simp only [List.mapM_nil, Checked.pure_eq_ok] at h
    subst h
    exact .nil
  | cons a l ih =>
    simp only [List.mapM_cons, Checked.bind_eq_ok, Checked.pure_eq_ok] at h
    obtain ⟨b, hb, bs, hbs, rfl⟩ := h
    exact .cons hb (ih hbs)

theorem Checked.mapM_of {α β : Type} {f : α → Checked β} {l : List α} (h : ∀ a ∈ l, ∃ b, f a = .ok b) :
    ∃ l', l.mapM f = .ok l' := by
  induction l with
  | nil => exact ⟨[], rfl⟩
  | cons a l ih =>
    obtain ⟨b, hb⟩ := h a (List.mem_cons_self ..)
    obtain ⟨bs, hbs⟩ := ih fun x hx => h x (List.mem_cons_of_mem _ hx)
    refine ⟨b :: bs, ?_⟩
    simp only [List.mapM_cons, Checked.bind_eq_ok, Checked.pure_eq_ok]
    exact ⟨b, hb, bs, hbs, rfl⟩

theorem Checked.forM_of {α : Type} {f : α → Checked Unit} {l : List α}
    (h : ∀ a ∈ l, f a = .ok ()) : l.forM f = .ok () := by
  induction l with
  | nil => rfl
  | cons a l ih =>
    rw [List.forM, h a (List.mem_cons_self ..)]
    exact ih fun x hx => h x (List.mem_cons_of_mem _ hx)

theorem forall₂_trans {α β γ : Type} {r : α → β → Prop} {s : β → γ → Prop} {t : α → γ → Prop}
    {xs : List α} {ys : List β} {zs : List γ} (hr : List.Forall₂ r xs ys)
    (hs : List.Forall₂ s ys zs) (h : ∀ x y z, r x y → s y z → t x z) :
    List.Forall₂ t xs zs := by
  induction hr generalizing zs with
  | nil =>
    cases hs
    exact .nil
  | cons hxy _ ih =>
    cases hs with
    | cons hyz hs => exact .cons (h _ _ _ hxy hyz) (ih hs)

/-- Every element on the right has its partner at the same place on the left. -/
theorem forall₂_left {α β : Type} {r : α → β → Prop} {xs : List α} {ys : List β}
    (h : List.Forall₂ r xs ys) {k : ℕ} {y : β} (hy : ys[k]? = some y) :
    ∃ x, xs[k]? = some x ∧ r x y := by
  induction h generalizing k with
  | nil => cases hy
  | cons hxy _ ih =>
    cases k with
    | zero =>
      cases hy
      exact ⟨_, rfl, hxy⟩
    | succ k => exact ih hy

theorem forall₂_getElem? {α β : Type} {r : α → β → Prop} {xs : List α} {ys : List β}
    (h : List.Forall₂ r xs ys) {k : ℕ} {x : α} {y : β} (hx : xs[k]? = some x)
    (hy : ys[k]? = some y) : r x y := by
  obtain ⟨x', hx', hr⟩ := forall₂_left h hy
  rw [hx] at hx'
  cases hx'
  exact hr

/-- Conditions that related elements share hold of all of one list or of all of the other. -/
theorem forall_mem_iff_of_forall₂ {α β : Type} {R : α → β → Prop} {l : List α} {l' : List β}
    (hlists : List.Forall₂ R l l') {P : α → Prop} {Q : β → Prop}
    (hiff : ∀ a b, R a b → (P a ↔ Q b)) : (∀ a ∈ l, P a) ↔ ∀ b ∈ l', Q b := by
  induction hlists with
  | nil => simp
  | cons hab _ ih => rw [List.forall_mem_cons, List.forall_mem_cons, hiff _ _ hab, ih]

theorem exists_mem_iff_of_forall₂ {α β : Type} {R : α → β → Prop} {l : List α} {l' : List β}
    (hlists : List.Forall₂ R l l') {P : α → Prop} {Q : β → Prop}
    (hiff : ∀ a b, R a b → (P a ↔ Q b)) : (∃ a ∈ l, P a) ↔ ∃ b ∈ l', Q b := by
  induction hlists with
  | nil => simp
  | cons hab _ ih => rw [List.exists_mem_cons_iff, List.exists_mem_cons_iff, hiff _ _ hab, ih]

/-- A symmetric relation of the pairs of a list holds of any two places. -/
theorem pairwise_of_ne {α : Type} {r : α → α → Prop} {l : List α} (h : l.Pairwise r)
    (hsymm : ∀ x y, r x y → r y x) {i j : ℕ} {x y : α} (hx : l[i]? = some x)
    (hy : l[j]? = some y) (hne : i ≠ j) : r x y := by
  obtain ⟨hi, rfl⟩ := List.getElem?_eq_some_iff.mp hx
  obtain ⟨hj, rfl⟩ := List.getElem?_eq_some_iff.mp hy
  have hpairs := List.pairwise_iff_getElem.mp h
  rcases Nat.lt_or_gt_of_ne hne with hlt | hgt
  · exact hpairs i j hi hj hlt
  · exact hsymm _ _ (hpairs j i hj hi hgt)

theorem getElem?_concat_eq_some {α : Type} (xs : List α) (x y : α) (i : ℕ) :
    (xs ++ [x])[i]? = some y ↔ xs[i]? = some y ∨ (i = xs.length ∧ x = y) := by
  rcases Nat.lt_trichotomy i xs.length with hlt | rfl | hgt
  · have hne : i ≠ xs.length := by omega
    simp [List.getElem?_append_left hlt, hne]
  · simp
  · have hne : i ≠ xs.length := by omega
    have hlen : (xs ++ [x]).length ≤ i := by
      rw [List.length_append, List.length_singleton]
      omega
    rw [List.getElem?_eq_none hlen, List.getElem?_eq_none (by omega)]
    simp [hne]

/-- `absl::flat_hash_map`. -/
abbrev FlatHashMap (κ α : Type) : Type := AList (fun _ : κ => α)

namespace FlatHashMap

variable {κ α : Type} [DecidableEq κ]

/-- `insert`: keeps an existing entry; the flag tells whether the entry is new. -/
def tryInsert (m : FlatHashMap κ α) (key : κ) (value : α) : FlatHashMap κ α × Bool :=
  if key ∈ m then (m, false) else (AList.insert key value m, true)

/-- `insert_or_assign`. -/
def insertOrAssign (m : FlatHashMap κ α) (key : κ) (value : α) : FlatHashMap κ α :=
  AList.insert key value m

@[simp] theorem lookup_insertOrAssign (m : FlatHashMap κ α) (key k : κ) (value : α) :
    (m.insertOrAssign key value).lookup k = if k = key then some value else m.lookup k := by
  unfold insertOrAssign
  split
  · next h => rw [h, AList.lookup_insert]
  · next h => rw [AList.lookup_insert_ne h]

theorem dlookup_cons (entries : List (Σ _ : κ, α)) (key k : κ) (value : α) :
    List.dlookup k (⟨key, value⟩ :: entries) =
      if k = key then some value else entries.dlookup k := by
  split
  · next h => rw [h, List.dlookup_cons_eq]
  · next h => exact List.dlookup_cons_ne entries ⟨key, value⟩ h

theorem mem_iff_lookup (m : FlatHashMap κ α) (k : κ) : k ∈ m ↔ m.lookup k ≠ none := by
  rw [← AList.lookup_isSome, ← Option.isSome_iff_ne_none]

theorem lookup_eq_none_iff (m : FlatHashMap κ α) (k : κ) : m.lookup k = none ↔ k ∉ m := by
  rw [mem_iff_lookup, not_not]

theorem tryInsert_of_notMem (m : FlatHashMap κ α) (key : κ) (value : α) (h : key ∉ m) :
    m.tryInsert key value = (m.insertOrAssign key value, true) := by
  simp only [tryInsert, h, if_false, insertOrAssign]

theorem tryInsert_of_mem (m : FlatHashMap κ α) (key : κ) (value : α) (h : key ∈ m) :
    m.tryInsert key value = (m, false) := by
  simp only [tryInsert, h, if_true]

theorem tryInsert_snd (m : FlatHashMap κ α) (key : κ) (value : α) :
    (m.tryInsert key value).2 = true ↔ key ∉ m := by
  unfold tryInsert
  split <;> simp [*]

@[simp] theorem lookup_tryInsert (m : FlatHashMap κ α) (key k : κ) (value : α) :
    (m.tryInsert key value).1.lookup k =
      if k = key then some ((m.lookup key).getD value) else m.lookup k := by
  by_cases hmem : key ∈ m
  · rw [tryInsert_of_mem m key value hmem]
    obtain ⟨a, ha⟩ := Option.ne_none_iff_exists'.mp ((mem_iff_lookup m key).mp hmem)
    split
    · next h => rw [h, ha, Option.getD_some]
    · rfl
  · rw [tryInsert_of_notMem m key value hmem, lookup_insertOrAssign,
      (lookup_eq_none_iff m key).mpr hmem, Option.getD_none]

def ofPairs (pairs : List (κ × α)) : FlatHashMap κ α :=
  pairs.foldl (fun m pair => (m.tryInsert pair.1 pair.2).1) ∅

theorem lookup_ofPairs {pairs : List (κ × α)} (h : (pairs.map Prod.fst).Nodup) (k : κ) (v : α) :
    (ofPairs pairs).lookup k = some v ↔ (k, v) ∈ pairs := by
  induction pairs using List.reverseRecOn generalizing k v with
  | nil => simp [ofPairs]
  | append_singleton pairs pair ih =>
    rw [List.map_append, List.nodup_append] at h
    have hfresh : pair.1 ∉ ofPairs pairs := by
      rw [mem_iff_lookup, not_not]
      refine Option.eq_none_iff_forall_ne_some.mpr fun a ha => ?_
      have hmem := List.mem_map_of_mem (f := Prod.fst) ((ih h.1 _ a).mp ha)
      exact h.2.2 _ hmem _ (List.mem_singleton_self _) rfl
    have hstep : ofPairs (pairs ++ [pair]) = (ofPairs pairs).insertOrAssign pair.1 pair.2 := by
      rw [ofPairs, List.foldl_append, List.foldl_cons, List.foldl_nil, ← ofPairs,
        tryInsert_of_notMem _ _ _ hfresh]
    rw [hstep, lookup_insertOrAssign, List.mem_append, List.mem_singleton]
    by_cases hk : k = pair.1
    · subst hk
      have hnone := (lookup_eq_none_iff _ _).mpr hfresh
      have hold : (pair.1, v) ∉ pairs := by
        rw [← ih h.1, hnone]
        exact fun heq => Option.some_ne_none v heq.symm
      rw [if_pos rfl, Option.some.injEq, Prod.ext_iff]
      simp only [hold, false_or, true_and, eq_comm]
    · rw [if_neg hk, ih h.1, Prod.ext_iff]
      simp only [hk, false_and, or_false]

end FlatHashMap

theorem mergeSort_eq_of_perm {κ α : Type} {r : κ → κ → Prop} [DecidableRel r]
    (htrans : ∀ a b c, r a b → r b c → r a c) (htotal : ∀ a b, r a b ∨ r b a)
    (hantisymm : ∀ a b, r a b → r b a → a = b) {l l' : List (Σ _ : κ, α)} (hnodup : l.NodupKeys)
    (h : l'.Perm l) : l'.mergeSort (fun a b => decide (r a.1 b.1)) =
      l.mergeSort fun a b => decide (r a.1 b.1) := by
  have htrans' : ∀ a b c : Σ _ : κ, α, decide (r a.1 b.1) = true → decide (r b.1 c.1) = true →
      decide (r a.1 c.1) = true := by
    intro a b c hab hbc
    exact decide_eq_true (htrans _ _ _ (of_decide_eq_true hab) (of_decide_eq_true hbc))
  have htotal' : ∀ a b : Σ _ : κ, α,
      (decide (r a.1 b.1) || decide (r b.1 a.1)) = true := by
    intro a b
    rw [Bool.or_eq_true, decide_eq_true_iff, decide_eq_true_iff]
    exact htotal a.1 b.1
  refine List.Perm.eq_of_pairwise ?_ (List.pairwise_mergeSort htrans' htotal' _)
    (List.pairwise_mergeSort htrans' htotal' _) ?_
  · intro a b ha hb hab hba
    exact hnodup.eq_of_fst_eq (h.subset (List.mem_mergeSort.mp ha)) (List.mem_mergeSort.mp hb)
      (hantisymm _ _ (of_decide_eq_true hab) (of_decide_eq_true hba))
  · exact ((List.mergeSort_perm _ _).trans h).trans (List.mergeSort_perm _ _).symm

/-! ### Loops that add new entries -/

section

variable {S κ α β : Type} [DecidableEq κ]

/-- A loop body that adds an entry to a table and refuses a key that the table has. -/
structure InsertsNew (lookup : S → κ → Option α) (key : β → κ) (val : β → Checked α)
    (step : S → β → Checked S) : Prop where
  spec : ∀ s b s', step s b = .ok s' → lookup s (key b) = none ∧ ∃ v, val b = .ok v ∧
    ∀ k, lookup s' k = if k = key b then some v else lookup s k
  of : ∀ s b v, lookup s (key b) = none → val b = .ok v → ∃ s', step s b = .ok s'

variable {lookup : S → κ → Option α} {key : β → κ} {val : β → Checked α}
  {step : S → β → Checked S}

theorem InsertsNew.foldlM (hstep : InsertsNew lookup key val step) {l : List β} {s s' : S}
    (h : l.foldlM step s = .ok s') :
    (l.map key).Nodup ∧ (∀ b ∈ l, lookup s (key b) = none) ∧ (∀ b ∈ l, ∃ v, val b = .ok v) ∧
    ∀ k v, lookup s' k = some v ↔ lookup s k = some v ∨ ∃ b ∈ l, key b = k ∧ val b = .ok v := by
  induction l generalizing s with
  | nil =>
    simp only [List.foldlM_nil, Checked.pure_eq_ok] at h
    subst h
    simp
  | cons b l ih =>
    simp only [List.foldlM_cons, Checked.bind_eq_ok] at h
    obtain ⟨mid, hmid, hrest⟩ := h
    obtain ⟨hfresh, v, hv, hinsert⟩ := hstep.spec s b mid hmid
    obtain ⟨hnodup, hnew, hvals, hlookup⟩ := ih hrest
    have hdifferent : ∀ b' ∈ l, key b' ≠ key b := by
      intro b' hb' heq
      have hnone := hnew b' hb'
      rw [hinsert, if_pos heq] at hnone
      cases hnone
    refine ⟨?_, ?_, ?_, ?_⟩
    · refine List.nodup_cons.mpr ⟨?_, hnodup⟩
      intro hmem
      obtain ⟨b', hb', heq⟩ := List.mem_map.mp hmem
      exact hdifferent b' hb' heq
    · intro b' hb'
      rcases List.mem_cons.mp hb' with rfl | hb'
      · exact hfresh
      · have hnone := hnew b' hb'
        rwa [hinsert, if_neg (hdifferent b' hb')] at hnone
    · intro b' hb'
      rcases List.mem_cons.mp hb' with rfl | hb'
      · exact ⟨v, hv⟩
      · exact hvals b' hb'
    · intro k w
      rw [hlookup, hinsert]
      by_cases hk : k = key b
      · subst hk
        rw [if_pos rfl, hfresh]
        constructor
        · rintro (heq | ⟨b', hb', heq, -⟩)
          · cases heq
            exact Or.inr ⟨b, List.mem_cons_self .., rfl, hv⟩
          · exact absurd heq (hdifferent b' hb')
        · rintro (heq | ⟨b', hb', heq, hw⟩)
          · cases heq
          · rcases List.mem_cons.mp hb' with rfl | hb'
            · rw [hv] at hw
              cases hw
              exact Or.inl rfl
            · exact absurd heq (hdifferent b' hb')
      · rw [if_neg hk]
        refine or_congr_right ⟨?_, ?_⟩
        · rintro ⟨b', hb', heq, hw⟩
          exact ⟨b', List.mem_cons_of_mem _ hb', heq, hw⟩
        · rintro ⟨b', hb', heq, hw⟩
          rcases List.mem_cons.mp hb' with rfl | hb'
          · exact absurd heq.symm hk
          · exact ⟨b', hb', heq, hw⟩

theorem InsertsNew.foldlM_of (hstep : InsertsNew lookup key val step) {l : List β} {s : S}
    (hnodup : (l.map key).Nodup) (hfresh : ∀ b ∈ l, lookup s (key b) = none)
    (hvals : ∀ b ∈ l, ∃ v, val b = .ok v) : ∃ s', l.foldlM step s = .ok s' := by
  induction l generalizing s with
  | nil => exact ⟨s, rfl⟩
  | cons b l ih =>
    obtain ⟨hnot, hnodup⟩ := List.nodup_cons.mp hnodup
    obtain ⟨v, hv⟩ := hvals b (List.mem_cons_self ..)
    obtain ⟨mid, hmid⟩ := hstep.of s b v (hfresh b (List.mem_cons_self ..)) hv
    obtain ⟨-, _, -, hinsert⟩ := hstep.spec s b mid hmid
    obtain ⟨s', hs'⟩ := ih hnodup (s := mid) (by
      intro b' hb'
      have hne : key b' ≠ key b := fun heq => hnot (List.mem_map.mpr ⟨b', hb', heq⟩)
      rw [hinsert, if_neg hne]
      exact hfresh b' (List.mem_cons_of_mem _ hb'))
      (fun b' hb' => hvals b' (List.mem_cons_of_mem _ hb'))
    refine ⟨s', ?_⟩
    rw [List.foldlM_cons, hmid]
    exact hs'

theorem FlatHashMap.insertsNew {key : β → κ} {val : β → Checked α}
    {step : FlatHashMap κ α → β → Checked (FlatHashMap κ α)}
    (hstep : ∀ m b m', step m b = .ok m' ↔
      ∃ v, val b = .ok v ∧ key b ∉ m ∧ m' = m.insertOrAssign (key b) v) :
    InsertsNew (fun m k => m.lookup k) key val step := by
  refine ⟨?_, ?_⟩
  · intro m b m' h
    obtain ⟨v, hv, hfresh, rfl⟩ := (hstep m b m').mp h
    exact ⟨(lookup_eq_none_iff _ _).mpr hfresh, v, hv, fun k => lookup_insertOrAssign m (key b) k v⟩
  · intro m b v hfresh hv
    exact ⟨_, (hstep m b _).mpr ⟨v, hv, (lookup_eq_none_iff _ _).mp hfresh, rfl⟩⟩

end

end Raksha.Common
