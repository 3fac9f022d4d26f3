import Raksha.AuthLogic.DelegationChains

/-!
# The declarations for `canSay`

From the second depth on a declaration extends the one at the index `depth - 2` of all
declarations made so far. This is the one of the depth before only if the first relation in the
iteration is the only one that goes so deep.
-/

namespace Raksha.AuthLogic

/-- The declaration of the relation behind `k` times `canSay_`. -/
def canSayLevel (declaration : RelationDeclaration) : ℕ → RelationDeclaration
  | 0 => declaration
  | k + 1 => canSayDeclaration (k + 1) (canSayLevel declaration k)

theorem canSayLevel_name (declaration : RelationDeclaration) (k : ℕ) :
    (canSayLevel declaration k).relationName = canSayName k declaration.relationName := by
  induction k with
  | zero => rfl
  | succ k ih => rw [canSayLevel, canSayDeclaration, ih, canSayName]

theorem canSayLevel_arity (declaration : RelationDeclaration) (k : ℕ) :
    (canSayLevel declaration k).arguments.length = k + declaration.arguments.length := by
  induction k with
  | zero => exact (Nat.zero_add _).symm
  | succ k ih =>
    rw [canSayLevel, canSayDeclaration, List.length_cons, ih]
    omega

/-! ### Names behind `canSay_` -/

theorem canSayName_add (j k : ℕ) (name : String) :
    canSayName (j + k) name = canSayName j (canSayName k name) := by
  induction j with
  | zero => rw [Nat.zero_add, canSayName]
  | succ j ih => rw [Nat.succ_add, canSayName, canSayName, ih]

theorem canSayName_inj {k : ℕ} {name name' : String} :
    canSayName k name = canSayName k name' ↔ name = name' := by
  refine ⟨?_, fun h => congrArg _ h⟩
  induction k with
  | zero => exact fun h => h
  | succ k ih => exact fun h => ih ((String.append_right_inj _).mp h)

theorem length_canSayName (k : ℕ) (name : String) :
    (canSayName k name).length = 7 * k + name.length := by
  have hprefix : "canSay_".length = 7 := by decide
  induction k with
  | zero => simp [canSayName]
  | succ k ih =>
    rw [canSayName, String.length_append, ih, hprefix]
    omega

theorem canSayName_level_inj {j k : ℕ} {name : String}
    (h : canSayName j name = canSayName k name) : j = k := by
  have hlength := congrArg String.length h
  rw [length_canSayName, length_canSayName] at hlength
  omega

theorem eq_canSayName_of_le {j k : ℕ} {name name' : String}
    (h : canSayName j name = canSayName k name') (hle : j ≤ k) :
    name = canSayName (k - j) name' := by
  obtain ⟨d, rfl⟩ := Nat.exists_eq_add_of_le hle
  rw [canSayName_add, canSayName_inj] at h
  rwa [Nat.add_sub_cancel_left]

theorem canSayName_ne_canActAs {k : ℕ} (hk : 1 ≤ k) (name : String) :
    canSayName k name ≠ "canActAs" := by
  obtain ⟨k, rfl⟩ := Nat.exists_eq_add_of_le' hk
  intro h
  have hchars := congrArg (fun s : String => s.toList[3]?) h
  have hprefix : "canSay_".toList = ['c', 'a', 'n', 'S', 'a', 'y', '_'] := by decide
  rw [canSayName, String.toList_append, hprefix] at hchars
  exact absurd (Option.some.inj hchars) (by decide)

/-! ### The declarations of one relation -/

theorem canSayDeclarationsAt_succ (declaration : RelationDeclaration) (n : ℕ)
    (made : List RelationDeclaration) : canSayDeclarationsAt declaration (n + 1) made =
      canSayDeclarationsAt declaration n made ++
        if n = 0 then [canSayDeclaration 1 declaration]
        else ((canSayDeclarationsAt declaration n made)[n - 1]?.map
          (canSayDeclaration (n + 1))).toList := by
  rw [canSayDeclarationsAt, List.range'_concat, List.foldl_append, List.foldl_cons, List.foldl_nil,
    ← canSayDeclarationsAt, Nat.one_mul, Nat.add_comm 1 n]
  by_cases hn : n = 0
  · rw [if_pos (Nat.add_eq_right.mpr hn), if_pos hn, hn]
  · rw [if_neg (mt Nat.add_eq_right.mp hn), if_neg hn]
    rfl

/-- The declarations are right if they are the first ones, or if they do not go deep. -/
theorem canSayDeclarationsAt_eq (declaration : RelationDeclaration) (n : ℕ)
    (made : List RelationDeclaration) (h : n ≤ 1 ∨ made = []) :
    canSayDeclarationsAt declaration n made =
      made ++ (List.range n).map fun k => canSayLevel declaration (k + 1) := by
  induction n with
  | zero => exact (List.append_nil _).symm
  | succ n ih =>
    have hbefore := ih (h.imp (fun h => by omega) id)
    rw [canSayDeclarationsAt_succ, List.range_succ, List.map_append, ← List.append_assoc,
      ← hbefore]
    refine congrArg _ ?_
    by_cases hn : n = 0
    · rw [if_pos hn, hn]
      rfl
    · obtain rfl : made = [] := h.resolve_left (by omega)
      obtain ⟨m, rfl⟩ := Nat.exists_eq_succ_of_ne_zero hn
      rw [if_neg hn, hbefore]
      simp [canSayLevel]

/-! ### The declarations of all relations -/

section

variable (env : String → Option RelationDeclaration)

/-- One round of the loop over the recorded depths. -/
def addCanSayDeclarations (made : List RelationDeclaration) (entry : String × ℕ) :
    List RelationDeclaration :=
  match env entry.1 with
  | none => made
  | some declaration => canSayDeclarationsAt declaration entry.2 made

theorem getCanSayDeclarations_foldl (entries : List (String × ℕ)) :
    getCanSayDeclarations env entries = entries.foldl (addCanSayDeclarations env) [] := rfl

/-- The declarations that are due for an entry. -/
def canSayDeclarationsOf (entry : String × ℕ) : List RelationDeclaration :=
  match env entry.1 with
  | none => []
  | some declaration => (List.range entry.2).map fun k => canSayLevel declaration (k + 1)

/-- A relation of the environment that occurs behind `canSay`. -/
def IsDelegated (entry : String × ℕ) : Prop := 1 ≤ entry.2 ∧ (env entry.1).isSome

variable {env}

theorem addCanSayDeclarations_eq (made : List RelationDeclaration) (entry : String × ℕ)
    (h : made = [] ∨ (IsDelegated env entry → entry.2 ≤ 1)) :
    addCanSayDeclarations env made entry = made ++ canSayDeclarationsOf env entry := by
  unfold addCanSayDeclarations canSayDeclarationsOf
  cases hentry : env entry.1 with
  | none => exact (List.append_nil _).symm
  | some declaration =>
    refine canSayDeclarationsAt_eq declaration entry.2 made ?_
    rcases h with hmade | hshallow
    · exact .inr hmade
    · by_cases hdepth : 1 ≤ entry.2
      · exact .inl (hshallow ⟨hdepth, by rw [hentry]; rfl⟩)
      · exact .inl (by omega)

theorem canSayDeclarationsOf_eq_nil {entry : String × ℕ} (h : ¬ IsDelegated env entry) :
    canSayDeclarationsOf env entry = [] := by
  unfold canSayDeclarationsOf
  cases hentry : env entry.1 with
  | none => rfl
  | some declaration =>
    have hdepth : entry.2 = 0 := by
      by_contra hne
      exact h ⟨by omega, by rw [hentry]; rfl⟩
    simp only [hdepth, List.range_zero, List.map_nil]

theorem foldl_addCanSayDeclarations (entries : List (String × ℕ)) (hnodup : entries.Nodup)
    (halone : ∀ entry ∈ entries, ∀ other ∈ entries, IsDelegated env entry → 2 ≤ entry.2 →
      IsDelegated env other → other = entry)
    (made : List RelationDeclaration)
    (hmade : made = [] ∨ ∀ entry ∈ entries, IsDelegated env entry → entry.2 ≤ 1) :
    entries.foldl (addCanSayDeclarations env) made =
      made ++ entries.flatMap (canSayDeclarationsOf env) := by
  induction entries generalizing made with
  | nil => exact (List.append_nil _).symm
  | cons entry entries ih =>
    obtain ⟨hnew, hnodup⟩ := List.nodup_cons.mp hnodup
    have hstep := addCanSayDeclarations_eq made entry
      (hmade.imp id fun h => h entry (List.mem_cons_self ..))
    have hrest : ∀ e ∈ entries, ∀ other ∈ entries, IsDelegated env e → 2 ≤ e.2 →
        IsDelegated env other → other = e := fun e he other hother =>
      halone e (List.mem_cons_of_mem _ he) other (List.mem_cons_of_mem _ hother)
    rw [List.foldl_cons, hstep, List.flatMap_cons, ← List.append_assoc]
    refine ih hnodup hrest _ ?_
    by_cases hdelegated : IsDelegated env entry
    · -- a later deep relation would be the same entry once more
      refine .inr fun later hlater hdeep => ?_
      by_contra hdepth
      have heq := halone later (List.mem_cons_of_mem _ hlater) entry (List.mem_cons_self ..) hdeep
        (by omega) hdelegated
      exact hnew (heq ▸ hlater)
    · rw [canSayDeclarationsOf_eq_nil hdelegated, List.append_nil]
      exact hmade.imp id fun h later hlater => h later (List.mem_cons_of_mem _ hlater)

theorem getCanSayDeclarations_eq (entries : List (String × ℕ)) (hnodup : entries.Nodup)
    (halone : ∀ entry ∈ entries, ∀ other ∈ entries, IsDelegated env entry → 2 ≤ entry.2 →
      IsDelegated env other → other = entry) :
    getCanSayDeclarations env entries = entries.flatMap (canSayDeclarationsOf env) := by
  rw [getCanSayDeclarations_foldl, foldl_addCanSayDeclarations entries hnodup halone [] (.inl rfl),
    List.nil_append]

end

/-! ### Stems and levels

A declared name is a relation of the program, its stem, behind a number of `canSay_`. -/

def declaredName (levelled : String × ℕ) : String := canSayName levelled.2 levelled.1

/-- `canSayDeclarationsAt` on stems and levels. -/
def levelsAt (stem : String) : ℕ → List (String × ℕ) → List (String × ℕ)
  | 0, made => made
  | n + 1, made => levelsAt stem n made ++
      if n = 0 then [(stem, 1)]
      else ((levelsAt stem n made)[n - 1]?.map fun before => (before.1, before.2 + 1)).toList

/-- `addCanSayDeclarations` on stems and levels. -/
def addLevels (env : String → Option RelationDeclaration) (made : List (String × ℕ))
    (entry : String × ℕ) : List (String × ℕ) :=
  match env entry.1 with
  | none => made
  | some declaration => levelsAt declaration.relationName entry.2 made

theorem map_canSayDeclarationsAt (declaration : RelationDeclaration) (n : ℕ)
    {made : List RelationDeclaration} {levels : List (String × ℕ)}
    (h : made.map RelationDeclaration.relationName = levels.map declaredName) :
    (canSayDeclarationsAt declaration n made).map RelationDeclaration.relationName =
      (levelsAt declaration.relationName n levels).map declaredName := by
  induction n with
  | zero => exact h
  | succ n ih =>
    rw [canSayDeclarationsAt_succ, levelsAt, List.map_append, List.map_append, ih]
    refine congrArg _ ?_
    by_cases hn : n = 0
    · rw [if_pos hn, if_pos hn]
      rfl
    · have hget := congrArg (fun names : List String => names[n - 1]?) ih
      simp only [List.getElem?_map] at hget
      rw [if_neg hn, if_neg hn]
      cases hbefore : (canSayDeclarationsAt declaration n made)[n - 1]? with
      | none =>
        rw [hbefore] at hget
        rw [Option.map_eq_none_iff.mp hget.symm]
        rfl
      | some before =>
        rw [hbefore] at hget
        obtain ⟨level, hlevel, hname⟩ := Option.map_eq_some_iff.mp hget.symm
        rw [hlevel]
        simp only [Option.map_some, Option.toList_some, List.map_cons, List.map_nil,
          canSayDeclaration, declaredName, canSayName, ← hname]

theorem map_foldl_addCanSayDeclarations (env : String → Option RelationDeclaration)
    (entries : List (String × ℕ)) {made : List RelationDeclaration} {levels : List (String × ℕ)}
    (h : made.map RelationDeclaration.relationName = levels.map declaredName) :
    (entries.foldl (addCanSayDeclarations env) made).map RelationDeclaration.relationName =
      (entries.foldl (addLevels env) levels).map declaredName := by
  induction entries generalizing made levels with
  | nil => exact h
  | cons entry entries ih =>
    rw [List.foldl_cons, List.foldl_cons]
    refine ih ?_
    unfold addCanSayDeclarations addLevels
    cases env entry.1 with
    | none => exact h
    | some declaration => exact map_canSayDeclarationsAt declaration entry.2 h

theorem map_getCanSayDeclarations (env : String → Option RelationDeclaration)
    (entries : List (String × ℕ)) :
    (getCanSayDeclarations env entries).map RelationDeclaration.relationName =
      (entries.foldl (addLevels env) []).map declaredName :=
  @map_foldl_addCanSayDeclarations env entries [] [] rfl

/-- An entry of the list is an old one, the first level, or one level above another entry. -/
theorem levelsAt_cases {stem : String} {n : ℕ} {made : List (String × ℕ)} {j : ℕ}
    {level : String × ℕ} (h : (levelsAt stem (n + 1) made)[j]? = some level) :
    (levelsAt stem n made)[j]? = some level ∨
      j = (levelsAt stem n made).length ∧ ((n = 0 ∧ level = (stem, 1)) ∨
        1 ≤ n ∧ ∃ before, (levelsAt stem n made)[n - 1]? = some before ∧
          level = (before.1, before.2 + 1)) := by
  rw [levelsAt, List.getElem?_append] at h
  by_cases hj : j < (levelsAt stem n made).length
  · rw [if_pos hj] at h
    exact .inl h
  · rw [if_neg hj] at h
    by_cases hn : n = 0
    · rw [if_pos hn, List.getElem?_singleton] at h
      obtain ⟨hindex, hlevel⟩ := Option.ite_none_right_eq_some.mp h
      cases hlevel
      exact .inr ⟨by omega, .inl ⟨hn, rfl⟩⟩
    · rw [if_neg hn] at h
      cases hbefore : (levelsAt stem n made)[n - 1]? with
      | none =>
        rw [hbefore] at h
        cases h
      | some before =>
        rw [hbefore, Option.map_some, Option.toList_some, List.getElem?_singleton] at h
        obtain ⟨hindex, hlevel⟩ := Option.ite_none_right_eq_some.mp h
        cases hlevel
        exact .inr ⟨by omega, .inr ⟨by omega, before, rfl, rfl⟩⟩

theorem length_levelsAt (stem : String) (n : ℕ) (made : List (String × ℕ)) :
    (levelsAt stem n made).length = made.length + n := by
  induction n with
  | zero => rfl
  | succ n ih =>
    rw [levelsAt, List.length_append, ih]
    by_cases hn : n = 0
    · rw [if_pos hn, List.length_singleton]
      omega
    · have hlt : n - 1 < (levelsAt stem n made).length := by omega
      rw [if_neg hn, List.getElem?_eq_getElem hlt]
      simp only [Option.map_some, Option.toList_some, List.length_singleton]
      omega

/-- No level is above the place in the list or above the depths. -/
def LevelsWithin (depth : ℕ) (levels : List (String × ℕ)) : Prop :=
  ∀ j level, levels[j]? = some level → 1 ≤ level.2 ∧ level.2 ≤ j + 1 ∧ level.2 ≤ depth

theorem LevelsWithin.levelsAt {depth : ℕ} {made : List (String × ℕ)}
    (h : LevelsWithin depth made) (stem : String) {n : ℕ} (hn : n ≤ depth) :
    LevelsWithin depth (levelsAt stem n made) := by
  induction n with
  | zero => exact h
  | succ n ih =>
    have hlength := length_levelsAt stem n made
    intro j level hlevel
    rcases levelsAt_cases hlevel with hold | ⟨rfl, ⟨rfl, rfl⟩ | ⟨hn1, before, hbefore, rfl⟩⟩
    · exact ih (by omega) j level hold
    · exact ⟨le_refl 1, by omega, hn⟩
    · obtain ⟨hpos, hplace, -⟩ := ih (by omega) _ before hbefore
      refine ⟨by omega, ?_, ?_⟩
      · show before.2 + 1 ≤ _
        omega
      · show before.2 + 1 ≤ depth
        omega

theorem stem_of_mem_levelsAt {stem : String} {n : ℕ} {made : List (String × ℕ)}
    {level : String × ℕ} (h : level ∈ levelsAt stem n made) :
    level.1 = stem ∨ ∃ old ∈ made, old.1 = level.1 := by
  induction n generalizing level with
  | zero => exact .inr ⟨level, h, rfl⟩
  | succ n ih =>
    obtain ⟨j, hget⟩ := List.mem_iff_getElem?.mp h
    rcases levelsAt_cases hget with hold | ⟨-, ⟨-, rfl⟩ | ⟨-, before, hbefore, rfl⟩⟩
    · exact ih (List.mem_of_getElem? hold)
    · exact .inl rfl
    · have hstem := ih (List.mem_of_getElem? hbefore)
      exact hstem

/-- Behind other declarations the deepest one of a relation is not made: a level is reached only
some rounds after the depth of the same number. -/
theorem top_not_mem_levelsAt {stem : String} {made : List (String × ℕ)} {depth : ℕ}
    (hdepth : 2 ≤ depth) (hmade : made ≠ []) (hother : ∀ level ∈ made, level.1 ≠ stem) :
    (stem, depth) ∉ levelsAt stem depth made := by
  have hpos : 0 < made.length := List.length_pos_iff.mpr hmade
  have hlate : ∀ n j level, (levelsAt stem n made)[j]? = some level → level.1 = stem →
      made.length ≤ j ∧ (level.2 = 1 ∨ level.2 + made.length ≤ j) := by
    intro n
    induction n with
    | zero =>
      intro j level hlevel hstem
      exact absurd hstem (hother level (List.mem_of_getElem? hlevel))
    | succ n ih =>
      have hlength := length_levelsAt stem n made
      intro j level hlevel hstem
      rcases levelsAt_cases hlevel with hold | ⟨rfl, ⟨-, rfl⟩ | ⟨hn1, before, hbefore, rfl⟩⟩
      · exact ih j level hold hstem
      · exact ⟨by omega, .inl rfl⟩
      · obtain ⟨hplace, hlevels⟩ := ih _ before hbefore hstem
        refine ⟨by omega, .inr ?_⟩
        show before.2 + 1 + made.length ≤ _
        omega
  intro hmem
  obtain ⟨j, hget⟩ := List.mem_iff_getElem?.mp hmem
  have hj := (List.getElem?_eq_some_iff.mp hget).1
  rw [length_levelsAt] at hj
  obtain ⟨-, hone | hplace⟩ := hlate depth j _ hget rfl
  · exact absurd hone (by omega)
  · exact absurd hj (by omega)

section

variable {env : String → Option RelationDeclaration}

theorem levelsWithin_foldl {depth : ℕ} (entries : List (String × ℕ))
    (hdepth : ∀ entry ∈ entries, entry.2 ≤ depth) {made : List (String × ℕ)}
    (h : LevelsWithin depth made) : LevelsWithin depth (entries.foldl (addLevels env) made) := by
  induction entries generalizing made with
  | nil => exact h
  | cons entry entries ih =>
    rw [List.foldl_cons]
    refine ih (fun e he => hdepth e (List.mem_cons_of_mem _ he)) ?_
    unfold addLevels
    cases env entry.1 with
    | none => exact h
    | some declaration => exact h.levelsAt _ (hdepth entry (List.mem_cons_self ..))

theorem stem_of_mem_foldl (entries : List (String × ℕ)) {made : List (String × ℕ)}
    {level : String × ℕ} (h : level ∈ entries.foldl (addLevels env) made) :
    (∃ entry ∈ entries, ∃ declaration, env entry.1 = some declaration ∧
      declaration.relationName = level.1) ∨ ∃ old ∈ made, old.1 = level.1 := by
  induction entries generalizing made with
  | nil => exact .inr ⟨level, h, rfl⟩
  | cons entry entries ih =>
    rw [List.foldl_cons] at h
    rcases ih h with ⟨e, he, hstem⟩ | ⟨old, hold, heq⟩
    · exact .inl ⟨e, List.mem_cons_of_mem _ he, hstem⟩
    · unfold addLevels at hold
      cases hentry : env entry.1 with
      | none =>
        rw [hentry] at hold
        exact .inr ⟨old, hold, heq⟩
      | some declaration =>
        rw [hentry] at hold
        rcases stem_of_mem_levelsAt hold with hstem | ⟨older, holder, hstem⟩
        · exact .inl ⟨entry, List.mem_cons_self .., declaration, hentry, hstem.symm.trans heq⟩
        · exact .inr ⟨older, holder, hstem.trans heq⟩

theorem length_le_foldl (entries : List (String × ℕ)) (made : List (String × ℕ)) :
    made.length ≤ (entries.foldl (addLevels env) made).length := by
  induction entries generalizing made with
  | nil => exact le_refl _
  | cons entry entries ih =>
    rw [List.foldl_cons]
    refine le_trans ?_ (ih _)
    unfold addLevels
    cases env entry.1 with
    | none => exact le_refl _
    | some declaration =>
      rw [length_levelsAt]
      omega

theorem foldl_addLevels_ne_nil {entries : List (String × ℕ)} {entry : String × ℕ}
    (hentry : entry ∈ entries) (hdelegated : IsDelegated env entry) (made : List (String × ℕ)) :
    entries.foldl (addLevels env) made ≠ [] := by
  obtain ⟨before, after, rfl⟩ := List.append_of_mem hentry
  obtain ⟨hdepth, hsome⟩ := hdelegated
  obtain ⟨declaration, hdeclaration⟩ := Option.isSome_iff_exists.mp hsome
  rw [List.foldl_append, List.foldl_cons]
  have hlength : 1 ≤ (addLevels env (before.foldl (addLevels env) made) entry).length := by
    unfold addLevels
    rw [hdeclaration]
    simp only [length_levelsAt]
    omega
  intro hnil
  have hle := @length_le_foldl env after
    (addLevels env (before.foldl (addLevels env) made) entry)
  rw [hnil, List.length_nil] at hle
  omega

end

end Raksha.AuthLogic
