import Raksha.Common.ConsistentMemory

/-!
# Counts and owners

After every operation on the pointers of a program the count of an object is the number of its
owners, and an object goes away with the last of them.
-/

namespace Raksha.Common
open Raksha.Lib.Ownership

namespace Memory

variable {memory : Memory} {p : PointerName} {o : ObjectId}

/-! ### Construction -/

/-- Every counter can still be increased. -/
def CountersFit (memory : Memory) : Prop :=
  ∀ o counter, memory.objects.lookup o = some counter → counter.count + 1 < 2 ^ 64

/-- The object that is given as a raw pointer. -/
def Initializer.rawObject : Initializer → Option ObjectId
  | .raw object => some object
  | _ => none

/-- What the construction of a pointer leaves as it was. -/
structure Constructs (memory memory' : Memory) (pointer : PointerName) (raw : Option ObjectId) :
    Prop where
  balanced : Balanced memory'.count memory'.target
  objects : ∀ o, o ∈ memory'.objects ↔ o ∈ memory.objects
  pointers : ∀ q, q ∈ memory'.pointers ↔ q = pointer ∨ q ∈ memory.pointers
  created : memory'.created = memory.created
  deletions : memory'.deletions = memory.deletions
  owned : ∀ o, Owned memory'.target o ↔ Owned memory.target o ∨ raw = some o

theorem mem_setPtr {ptr : Option ObjectId} {q : PointerName} :
    q ∈ (memory.setPtr p ptr).pointers ↔ q = p ∨ q ∈ memory.pointers := by
  rw [setPtr, FlatHashMap.insertOrAssign, AList.mem_insert]

theorem retain_spec (h : Balanced memory.count memory.target) (hfit : memory.CountersFit)
    (hp : p ∉ memory.pointers) (ho : o ∈ memory.objects) :
    ∃ memory', memory.retain (some o) = .ok memory' ∧
      memory.Constructs (memory'.setPtr p (some o)) p (some o) := by
  obtain ⟨counter, hcounter⟩ := Option.ne_none_iff_exists'.mp
    ((FlatHashMap.mem_iff_lookup _ _).mp ho)
  have hcount : memory.count o = some counter.count := by rw [count, hcounter, Option.map_some]
  have hnull := target_of_notMem hp
  have hfetch : (counter.fetchAdd 1).2 = ⟨counter.count + 1⟩ := by
    rw [RefCounter.fetchAdd, Nat.mod_eq_of_lt (hfit o counter hcounter)]
  refine ⟨memory.setCounter o ⟨counter.count + 1⟩, ?_, ?_⟩
  · simp only [retain, counterOf, hcounter, ← hfetch]
    rfl
  · refine ⟨?_, ?_, fun q => mem_setPtr, rfl, rfl, ?_⟩
    · rw [count_setPtr, count_setCounter, target_setPtr, target_setCounter]
      exact h.acquire hnull hcount
    · intro o'
      rw [setPtr, setCounter, FlatHashMap.insertOrAssign, AList.mem_insert]
      exact or_iff_right_of_imp fun heq => heq ▸ ho
    · intro o'
      rw [target_setPtr, target_setCounter, Option.some.injEq]
      exact owned_set hnull

theorem owned_update_null (hp : p ∉ memory.pointers) :
    Function.update memory.target p none = memory.target := by
  rw [← target_of_notMem hp, Function.update_eq_self]

theorem retain_target_spec (h : Balanced memory.count memory.target) (hfit : memory.CountersFit)
    (hp : p ∉ memory.pointers) (source : PointerName) :
    ∃ memory', memory.retain (memory.target source) = .ok memory' ∧
      memory.Constructs (memory'.setPtr p (memory.target source)) p none := by
  cases htarget : memory.target source with
  | none =>
    refine ⟨memory, rfl, ?_, fun _ => .rfl, fun q => mem_setPtr, rfl, rfl, ?_⟩
    · rw [count_setPtr, target_setPtr, owned_update_null hp]
      exact h
    · intro o
      rw [target_setPtr, owned_update_null hp]
      simp
  | some o =>
    have ho : o ∈ memory.objects := count_ne_none.mp (h.live source o htarget)
    obtain ⟨memory', hretain, hconstructs⟩ := retain_spec h hfit hp ho
    refine ⟨memory', hretain, { hconstructs with owned := ?_ }⟩
    intro o'
    rw [hconstructs.owned, or_iff_left (Option.some_ne_none o').symm, Option.some.injEq]
    exact or_iff_left_of_imp fun heq => ⟨source, heq ▸ htarget⟩

/-- What a program can construct a pointer from. -/
def Initializer.InScope (memory : Memory) : Initializer → Prop
  | .null => True
  | .raw object => object ∈ memory.objects
  | .copy source => source ∈ memory.pointers
  | .convert source => source ∈ memory.pointers
  | .move source => source ∈ memory.pointers

theorem construct_spec (h : Balanced memory.count memory.target) (hfit : memory.CountersFit)
    (hp : p ∉ memory.pointers) {initializer : Initializer} (hscope : initializer.InScope memory) :
    ∃ memory', memory.construct p initializer = .ok memory' ∧
      memory.Constructs memory' p initializer.rawObject := by
  cases initializer with
  | null =>
    refine ⟨_, rfl, ?_, fun _ => .rfl, fun q => mem_setPtr, rfl, rfl, ?_⟩
    · rw [count_setPtr, target_setPtr, owned_update_null hp]
      exact h
    · intro o
      rw [target_setPtr, owned_update_null hp]
      simp [Initializer.rawObject]
  | raw object =>
    obtain ⟨memory', hretain, hconstructs⟩ := retain_spec h hfit hp hscope
    refine ⟨_, ?_, hconstructs⟩
    simp only [construct, hretain]
    rfl
  | copy source =>
    obtain ⟨memory', hretain, hconstructs⟩ := retain_target_spec h hfit hp source
    refine ⟨_, ?_, hconstructs⟩
    simp only [construct, get_of_mem hscope]
    exact congrArg (fun retained : Checked Memory =>
      retained >>= fun memory' => pure (memory'.setPtr p (memory.target source))) hretain
  | convert source =>
    obtain ⟨memory', hretain, hconstructs⟩ := retain_target_spec h hfit hp source
    refine ⟨_, ?_, hconstructs⟩
    simp only [construct, get_of_mem hscope]
    exact congrArg (fun retained : Checked Memory =>
      retained >>= fun memory' => pure (memory'.setPtr p (memory.target source))) hretain
  | move source =>
    -- The new pointer holds nothing yet, so the two exchange what they hold.
    have htarget : ((memory.setPtr p (memory.target source)).setPtr source none).target =
        memory.target ∘ Equiv.swap source p := by
      rw [← exchange_eq, target_setPtr, target_setPtr, target_of_notMem hp]
    refine ⟨(memory.setPtr p (memory.target source)).setPtr source none, ?_, ?_, fun _ => .rfl, ?_,
      rfl, rfl, ?_⟩
    · simp only [construct, get_of_mem hscope]
      rfl
    · rw [htarget]
      exact h.exchange source p
    · intro q
      rw [mem_setPtr, mem_setPtr]
      exact or_iff_right_of_imp fun heq => .inr (heq ▸ hscope)
    · intro o
      rw [htarget, owned_exchange]
      simp [Initializer.rawObject]

/-! ### Operations -/

/-- A variable that does not exist yet, or a member of an object that is not deleted. -/
def IsConstructible (memory : Memory) : PointerName → Prop
  | .var index => .var index ∉ memory.pointers
  | .member object field => object ∈ memory.objects ∧ .member object field ∉ memory.pointers
  | .other => False

namespace PointerOperation

/-- The operation names pointers and objects that exist. -/
def InScope (memory : Memory) : PointerOperation → Prop
  | .newObject => True
  | .create pointer => memory.IsConstructible pointer
  | .construct pointer initializer =>
    memory.IsConstructible pointer ∧ initializer.InScope memory
  | .assign pointer right => pointer ∈ memory.pointers ∧ right.InScope memory
  | .destroy index => .var index ∈ memory.pointers

/-- The object that the operation takes from a raw pointer. -/
def rawObject : PointerOperation → Option ObjectId
  | .construct _ initializer => initializer.rawObject
  | .assign _ right => right.rawObject
  | _ => none

end PointerOperation

theorem IsConstructible.notMem (h : memory.IsConstructible p) : p ∉ memory.pointers := by
  cases p with
  | var index => exact h
  | member object field => exact h.2
  | other => exact h.elim

/-- The pointer that is constructed is a variable or a member, or it is the parameter and will be
destroyed. -/
theorem Constructs.consistent {memory' : Memory} {raw : Option ObjectId}
    (h : memory.Consistent []) (hconstructs : memory.Constructs memory' p raw)
    {pending : List PointerName} (honce : pending.Nodup) (hpending : ∀ q ∈ pending, q = .other)
    (hmember : ∀ o, p.isMemberOf o = true → o ∈ memory.objects)
    (hparameter : .other ∈ pending ↔ p = .other) : memory'.Consistent pending where
  balanced := hconstructs.balanced
  created := fun o ho => hconstructs.created ▸ h.created o ((hconstructs.objects o).mp ho)
  deletedOnce := hconstructs.deletions ▸ h.deletedOnce
  deleted := by
    intro o
    rw [hconstructs.deletions, hconstructs.created, hconstructs.objects]
    exact h.deleted o
  pendingOnce := honce
  awaits := by
    intro q hq
    have hother := hpending q hq
    refine ⟨(hconstructs.pointers q).mpr (.inl ?_), fun o ho => ?_⟩
    · rw [hother, hparameter.mp (hother ▸ hq)]
    · rw [hother] at ho
      cases ho
  members := by
    intro q hq o ho
    rw [hconstructs.objects]
    rcases (hconstructs.pointers q).mp hq with rfl | hq
    · exact .inr (hmember o ho)
    · exact .inr ((h.members q hq o ho).resolve_left List.not_mem_nil)
  parameter := by
    intro hother
    rcases (hconstructs.pointers _).mp hother with heq | hother
    · exact hparameter.mpr heq.symm
    · exact absurd (h.parameter hother) List.not_mem_nil

theorem IsConstructible.consistent {memory' : Memory} {raw : Option ObjectId}
    (h : memory.Consistent []) (hp : memory.IsConstructible p)
    (hconstructs : memory.Constructs memory' p raw) : memory'.Consistent [] := by
  refine hconstructs.consistent h .nil (fun q hq => absurd hq List.not_mem_nil) ?_ ?_
  · intro o ho
    cases p with
    | var index => cases ho
    | member owner field => exact of_decide_eq_true ho ▸ hp.1
    | other => cases ho
  · refine iff_of_false List.not_mem_nil ?_
    rintro rfl
    exact hp

theorem swap_spec {pending : List PointerName} (h : memory.Consistent pending) {q : PointerName}
    (hp : p ∈ memory.pointers) (hq : q ∈ memory.pointers) :
    ∃ memory', memory.swap p q = .ok memory' ∧ memory'.Consistent pending ∧
      memory'.deletions = memory.deletions ∧
      ∀ o, Owned memory'.target o ↔ Owned memory.target o := by
  have htarget : ((memory.setPtr q (memory.target p)).setPtr p (memory.target q)).target =
      memory.target ∘ Equiv.swap p q := by
    rw [← exchange_eq, target_setPtr, target_setPtr]
  have hpointers : ∀ r, r ∈ ((memory.setPtr q (memory.target p)).setPtr p
      (memory.target q)).pointers ↔ r ∈ memory.pointers := by
    intro r
    rw [mem_setPtr, mem_setPtr]
    constructor
    · rintro (rfl | rfl | hr)
      · exact hp
      · exact hq
      · exact hr
    · exact fun hr => .inr (.inr hr)
  refine ⟨(memory.setPtr q (memory.target p)).setPtr p (memory.target q), ?_, ?_, rfl, ?_⟩
  · simp only [swap, get_of_mem hp, get_of_mem hq]
    rfl
  · refine { h with balanced := ?_, awaits := ?_, members := ?_, parameter := ?_ }
    · rw [htarget]
      exact h.balanced.exchange p q
    · exact fun r hr => ⟨(hpointers r).mpr (h.awaits r hr).1, (h.awaits r hr).2⟩
    · exact fun r hr => h.members r ((hpointers r).mp hr)
    · exact fun hother => h.parameter ((hpointers _).mp hother)
  · intro o
    rw [htarget, owned_exchange]

/-- What an operation of the program does: it goes through, and an object is deleted when its last
owner goes away. -/
structure Performs (memory : Memory) (operation : PointerOperation) (memory' : Memory) : Prop where
  ok : memory.perform operation = .ok memory'
  deletions : ∀ o, o ∈ memory'.deletions ↔ o ∈ memory.deletions ∨
    ((memory.owners o ≠ [] ∨ operation.rawObject = some o) ∧ memory'.owners o = [])

theorem performs_of_owned {operation : PointerOperation} {memory' : Memory}
    (hok : memory.perform operation = .ok memory')
    (h : ∀ o, o ∈ memory'.deletions ↔ o ∈ memory.deletions ∨
      ((Owned memory.target o ∨ operation.rawObject = some o) ∧ ¬ Owned memory'.target o)) :
    memory.Performs operation memory' := by
  refine ⟨hok, fun o => ?_⟩
  rw [h, owned_iff_owners, owned_iff_owners, not_not]

/-- An operation after which every owned object still has an owner deletes nothing. -/
theorem performs_of_kept {operation : PointerOperation} {memory' : Memory}
    (hok : memory.perform operation = .ok memory')
    (hdeletions : memory'.deletions = memory.deletions)
    (hkept : ∀ o, Owned memory.target o ∨ operation.rawObject = some o → Owned memory'.target o) :
    memory.Performs operation memory' := by
  refine performs_of_owned hok fun o => ?_
  rw [hdeletions]
  exact (or_iff_left fun hlost => hlost.2 (hkept o hlost.1)).symm

theorem newObject_consistent (h : memory.Consistent []) : memory.newObject.Consistent [] := by
  have hnew : memory.created ∉ memory.objects := fun hmem => Nat.lt_irrefl _ (h.created _ hmem)
  have hcount : memory.count memory.created = none := by
    by_contra hcount
    exact hnew (count_ne_none.mp hcount)
  have hobjects : ∀ o, o ∈ memory.newObject.objects ↔ o = memory.created ∨ o ∈ memory.objects := by
    intro o
    rw [newObject, setCounter, FlatHashMap.insertOrAssign, AList.mem_insert]
  refine { h with balanced := ?_, created := ?_, deleted := ?_, awaits := ?_, members := ?_ }
  · change Balanced (memory.setCounter memory.created ⟨0⟩).count _
    rw [count_setCounter]
    exact h.balanced.allocate hcount
  · intro o ho
    rcases (hobjects o).mp ho with rfl | ho
    · exact Nat.lt_succ_self _
    · exact Nat.lt_succ_of_lt (h.created o ho)
  · intro o
    change o ∈ memory.deletions ↔ o < memory.created + 1 ∧ _
    rw [hobjects, h.deleted, not_or]
    constructor
    · rintro ⟨hlt, hnot⟩
      exact ⟨Nat.lt_succ_of_lt hlt, Nat.ne_of_lt hlt, hnot⟩
    · rintro ⟨hlt, hne, hnot⟩
      exact ⟨Nat.lt_of_le_of_ne (Nat.le_of_lt_succ hlt) hne, hnot⟩
  · exact fun p hp => absurd hp List.not_mem_nil
  · intro p hp o ho
    rw [hobjects]
    exact (h.members p hp o ho).imp id .inr

theorem newObject_countersFit (hfit : memory.CountersFit) : memory.newObject.CountersFit := by
  intro o counter hcounter
  rw [newObject, setCounter, FlatHashMap.lookup_insertOrAssign] at hcounter
  split at hcounter
  · cases hcounter
    exact Nat.one_lt_two_pow (by decide)
  · exact hfit o counter hcounter

theorem assign_spec (h : memory.Consistent []) (hfit : memory.CountersFit)
    (hp : p ∈ memory.pointers) {right : Initializer} (hscope : right.InScope memory) :
    ∃ memory', memory.Performs (.assign p right) memory' ∧ memory'.Consistent [] := by
  have hother : .other ∉ memory.pointers := fun hmem => absurd (h.parameter hmem) List.not_mem_nil
  obtain ⟨constructed, hconstruct, hconstructs⟩ := construct_spec h.balanced hfit hother hscope
  have hconsistent : constructed.Consistent [.other] := by
    refine hconstructs.consistent h (List.nodup_singleton _) (fun q hq => List.mem_singleton.mp hq)
      ?_ (iff_of_true (List.mem_singleton_self _) rfl)
    intro o ho
    cases ho
  obtain ⟨swapped, hswap, hconsistent, hdeletions, howned⟩ := swap_spec hconsistent
    ((hconstructs.pointers p).mpr (.inr hp)) ((hconstructs.pointers _).mpr (.inl rfl))
  obtain ⟨memory', hdestroy, hconsistent, hsheds⟩ := destroy_spec hconsistent
  refine ⟨memory', performs_of_owned ?_ ?_, hconsistent⟩
  · rw [perform, assign, hconstruct]
    change (constructed.swap p .other >>= fun memory => memory.destroy .other) = _
    rw [hswap]
    exact hdestroy
  · intro o
    have hdeleted := hsheds.deleted o
    simp only [Set.mem_ofPred_eq, howned, hdeletions, hconstructs.deletions,
      hconstructs.owned] at hdeleted
    exact hdeleted

theorem perform_spec (h : memory.Consistent []) (hfit : memory.CountersFit)
    {operation : PointerOperation} (hscope : operation.InScope memory) :
    ∃ memory', memory.Performs operation memory' ∧ memory'.Consistent [] := by
  cases operation with
  | newObject =>
    refine ⟨_, performs_of_kept rfl rfl ?_, newObject_consistent h⟩
    rintro o (howned | hraw)
    · exact howned
    · cases hraw
  | create pointer =>
    have hnew := newObject_consistent h
    have hlive : (Initializer.raw memory.created).InScope memory.newObject := by
      change memory.created ∈ memory.newObject.objects
      rw [newObject, setCounter, FlatHashMap.insertOrAssign, AList.mem_insert]
      exact .inl rfl
    have hpointer : memory.newObject.IsConstructible pointer := by
      cases pointer with
      | var index => exact hscope
      | member object field =>
        refine ⟨?_, hscope.2⟩
        rw [newObject, setCounter, FlatHashMap.insertOrAssign, AList.mem_insert]
        exact .inr hscope.1
      | other => exact hscope
    obtain ⟨memory', hconstruct, hconstructs⟩ := construct_spec hnew.balanced
      (newObject_countersFit hfit) hpointer.notMem hlive
    refine ⟨memory', performs_of_kept hconstruct hconstructs.deletions ?_,
      hpointer.consistent hnew hconstructs⟩
    rintro o (howned | hraw)
    · exact (hconstructs.owned o).mpr (.inl howned)
    · cases hraw
  | construct pointer initializer =>
    obtain ⟨memory', hconstruct, hconstructs⟩ :=
      construct_spec h.balanced hfit hscope.1.notMem hscope.2
    refine ⟨memory', performs_of_kept hconstruct hconstructs.deletions ?_,
      hscope.1.consistent h hconstructs⟩
    exact fun o howned => (hconstructs.owned o).mpr howned
  | assign pointer right => exact assign_spec h hfit hscope.1 hscope.2
  | destroy index =>
    have hpending : memory.Consistent [.var index] := by
      refine { h with
        pendingOnce := List.nodup_singleton _, awaits := ?_, members := ?_, parameter := ?_ }
      · intro p hp
        rw [List.mem_singleton.mp hp]
        refine ⟨hscope, fun o ho => ?_⟩
        cases ho
      · exact fun p hp o ho => .inr ((h.members p hp o ho).resolve_left List.not_mem_nil)
      · exact fun hother => absurd (h.parameter hother) List.not_mem_nil
    obtain ⟨memory', hdestroy, hconsistent, hsheds⟩ := destroy_spec hpending
    refine ⟨memory', performs_of_owned hdestroy ?_, hconsistent⟩
    intro o
    have hraw : (PointerOperation.destroy index).rawObject = none := rfl
    rw [hraw, or_iff_left (Option.some_ne_none o).symm]
    exact hsheds.deleted o

/-! ### Runs -/

/-- The memory behind a sequence of operations in which no counter wraps around. -/
inductive Reachable : Memory → Prop
  | initial : Reachable initial
  | step {memory memory' : Memory} {operation : PointerOperation} : Reachable memory →
    operation.InScope memory → memory.CountersFit → memory.perform operation = .ok memory' →
    Reachable memory'

theorem Reachable.consistent (h : Reachable memory) : memory.Consistent [] := by
  induction h with
  | initial => exact initial_consistent
  | step _ hscope hfit hok ih =>
    obtain ⟨memory', hperforms, hconsistent⟩ := perform_spec ih hfit hscope
    cases hok.symm.trans hperforms.ok
    exact hconsistent

/-- Every object that is not deleted counts its owners, no pointer holds another one, and none is
deleted twice. -/
structure CountsOwners (memory : Memory) : Prop where
  counts : ∀ o counter, memory.objects.lookup o = some counter →
    counter.count = (memory.owners o).length
  held : ∀ p o, memory.pointers.lookup p = some (some o) → o ∈ memory.objects
  deletedOnce : memory.deletions.Nodup
  deleted : ∀ o, o ∈ memory.deletions ↔ o < memory.created ∧ o ∉ memory.objects

theorem referenceCounts_eq_owners (h : Reachable memory) :
    memory.CountsOwners ∧ ∀ operation : PointerOperation, operation.InScope memory →
      memory.CountersFit → ∃ memory', memory.Performs operation memory' := by
  have hconsistent := h.consistent
  refine ⟨⟨?_, ?_, hconsistent.deletedOnce, hconsistent.deleted⟩, ?_⟩
  · intro o counter hcounter
    have hcount : memory.count o = some counter.count := by rw [count, hcounter, Option.map_some]
    have howners := hconsistent.balanced.counts o counter.count hcount
    rw [encard_owners] at howners
    exact (Nat.cast_inj.mp howners).symm
  · intro p o hp
    exact count_ne_none.mp (hconsistent.balanced.live p o (target_of_lookup hp))
  · intro operation hscope hfit
    obtain ⟨memory', hperforms, -⟩ := perform_spec hconsistent hfit hscope
    exact ⟨memory', hperforms⟩

/-! ### A run -/

instance : Decidable memory.CountersFit :=
  decidable_of_iff (∀ entry ∈ memory.objects.entries, entry.2.count + 1 < 2 ^ 64) <| by
    constructor
    · exact fun h o counter hcounter => h ⟨o, counter⟩ (AList.mem_lookup_iff.mp hcounter)
    · exact fun h entry hentry => h entry.1 entry.2 (AList.mem_lookup_iff.mpr hentry)

instance (initializer : Initializer) : Decidable (initializer.InScope memory) :=
  match initializer with
  | .null => .isTrue trivial
  | .raw object => inferInstanceAs (Decidable (object ∈ memory.objects))
  | .copy source => inferInstanceAs (Decidable (source ∈ memory.pointers))
  | .convert source => inferInstanceAs (Decidable (source ∈ memory.pointers))
  | .move source => inferInstanceAs (Decidable (source ∈ memory.pointers))

instance : DecidablePred memory.IsConstructible := fun pointer =>
  match pointer with
  | .var index => inferInstanceAs (Decidable (PointerName.var index ∉ memory.pointers))
  | .member object field => inferInstanceAs
      (Decidable (object ∈ memory.objects ∧ PointerName.member object field ∉ memory.pointers))
  | .other => .isFalse fun h => h

instance (operation : PointerOperation) : Decidable (operation.InScope memory) :=
  match operation with
  | .newObject => .isTrue trivial
  | .create pointer => inferInstanceAs (Decidable (memory.IsConstructible pointer))
  | .construct pointer initializer =>
    inferInstanceAs (Decidable (memory.IsConstructible pointer ∧ initializer.InScope memory))
  | .assign pointer right =>
    inferInstanceAs (Decidable (pointer ∈ memory.pointers ∧ right.InScope memory))
  | .destroy index => inferInstanceAs (Decidable (PointerName.var index ∈ memory.pointers))

/-- A step of a program. -/
def performInScope (memory : Memory) (operation : PointerOperation) : Checked Memory := do
  check (operation.InScope memory ∧ memory.CountersFit) "the operation is not possible here"
  memory.perform operation

theorem Reachable.foldlM {memory' : Memory} (h : Reachable memory)
    {operations : List PointerOperation}
    (hrun : operations.foldlM performInScope memory = .ok memory') : Reachable memory' := by
  induction operations generalizing memory with
  | nil =>
    cases hrun
    exact h
  | cons operation operations ih =>
    simp only [List.foldlM_cons, Checked.bind_eq_ok, performInScope, check_eq_ok,
      exists_const] at hrun
    obtain ⟨next, ⟨⟨hscope, hfit⟩, hperform⟩, hrest⟩ := hrun
    exact ih (h.step hscope hfit hperform) hrest

/-- Two objects change hands by copies, moves and assignments. -/
def sharedObjects : List PointerOperation :=
  [.create (.var 0), .construct (.var 1) (.copy (.var 0)), .construct (.var 2) (.move (.var 0)),
    .create (.var 3), .assign (.var 1) (.copy (.var 3)), .assign (.var 2) (.copy (.var 2)),
    .assign (.var 2) (.move (.var 3)), .destroy 1]

/-- The first object is deleted, and the second one has an owner left. -/
theorem sharedObjects_countsOwners : ∃ memory, sharedObjects.foldlM performInScope initial =
    .ok memory ∧ memory.deletions = [0] ∧ memory.owners 1 = [.var 2] ∧ memory.CountsOwners := by
  obtain ⟨memory, hrun⟩ := Checked.exists_eq_ok_of_isOk
    (x := sharedObjects.foldlM performInScope initial) (by decide)
  have hstate : (sharedObjects.foldlM performInScope initial).toOption.any (fun memory =>
      memory.deletions = [0] ∧ memory.owners 1 = [.var 2]) = true := by
    decide
  rw [hrun] at hstate
  obtain ⟨hdeletions, howners⟩ := of_decide_eq_true hstate
  have hreachable := Reachable.initial.foldlM hrun
  exact ⟨memory, hrun, hdeletions, howners, (referenceCounts_eq_owners hreachable).1⟩

/-- The member of the second object is the last owner of the first one. -/
example : ([.create (.var 0), .create (.var 1), .construct (.member 1 0) (.move (.var 0)),
    .destroy 0, .destroy 1].foldlM perform initial).map Memory.deletions = .ok [0, 1] := by
  decide

end Memory

end Raksha.Common
