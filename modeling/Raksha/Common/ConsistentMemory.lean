import Raksha.Common.IntrusivePtr
import Raksha.Lib.Ownership

/-!
# Consistent memories

The counts of the objects are the numbers of their owners, also while an object is destroyed with
its members.
-/

namespace Raksha.Common
open Raksha.Lib.Ownership

namespace Memory

/-! ### Views of the memory -/

def target (memory : Memory) (pointer : PointerName) : Option ObjectId :=
  (memory.pointers.lookup pointer).join

def count (memory : Memory) (object : ObjectId) : Option ℕ :=
  (memory.objects.lookup object).map RefCounter.count

def owners (memory : Memory) (object : ObjectId) : List PointerName :=
  memory.pointers.keys.filter fun pointer => memory.target pointer = some object

variable {memory : Memory} {p : PointerName} {o : ObjectId}

theorem target_of_lookup {ptr : Option ObjectId} (h : memory.pointers.lookup p = some ptr) :
    memory.target p = ptr := by
  rw [target, h, Option.join_some]

theorem target_of_notMem (h : p ∉ memory.pointers) : memory.target p = none := by
  rw [target, (FlatHashMap.lookup_eq_none_iff _ _).mpr h]
  rfl

theorem mem_of_target (h : memory.target p = some o) : p ∈ memory.pointers := by
  by_contra hp
  cases h.symm.trans (target_of_notMem hp)

theorem count_ne_none : memory.count o ≠ none ↔ o ∈ memory.objects := by
  rw [FlatHashMap.mem_iff_lookup, count, ne_eq, Option.map_eq_none_iff]

theorem get_of_mem (h : p ∈ memory.pointers) : memory.get p = .ok (memory.target p) := by
  obtain ⟨ptr, hptr⟩ := Option.ne_none_iff_exists'.mp ((FlatHashMap.mem_iff_lookup _ _).mp h)
  rw [get, hptr, target_of_lookup hptr]

theorem counter_of_held (h : Balanced memory.count memory.target) (hp : memory.target p = some o) :
    ∃ n, memory.objects.lookup o = some ⟨n + 1⟩ := by
  obtain ⟨counter, hcounter⟩ := Option.ne_none_iff_exists'.mp
    ((FlatHashMap.mem_iff_lookup _ _).mp (count_ne_none.mp (h.live p o hp)))
  have hcount : memory.count o = some counter.count := by rw [count, hcounter, Option.map_some]
  obtain ⟨n, hn⟩ := Nat.exists_eq_add_of_le' (h.pos hp hcount)
  exact ⟨n, by rw [hcounter, ← hn]⟩

@[simp] theorem target_setPtr (ptr : Option ObjectId) :
    (memory.setPtr p ptr).target = Function.update memory.target p ptr := by
  funext q
  rw [target, setPtr, FlatHashMap.lookup_insertOrAssign]
  by_cases hq : q = p
  · rw [if_pos hq, hq, Function.update_self, Option.join_some]
  · rw [if_neg hq, Function.update_of_ne hq, target]

@[simp] theorem count_setPtr (ptr : Option ObjectId) : (memory.setPtr p ptr).count = memory.count :=
  rfl

@[simp] theorem count_setCounter (counter : RefCounter) :
    (memory.setCounter o counter).count =
      Function.update memory.count o (some counter.count) := by
  funext o'
  rw [count, setCounter, FlatHashMap.lookup_insertOrAssign]
  by_cases ho : o' = o
  · rw [if_pos ho, ho, Function.update_self, Option.map_some]
  · rw [if_neg ho, Function.update_of_ne ho, count]

@[simp] theorem target_setCounter (counter : RefCounter) :
    (memory.setCounter o counter).target = memory.target := rfl

@[simp] theorem count_delete : (memory.delete o).count = Function.update memory.count o none := by
  funext o'
  by_cases ho : o' = o
  · rw [ho, Function.update_self, count, delete, AList.lookup_erase]
    rfl
  · rw [Function.update_of_ne ho, count, delete, AList.lookup_erase_ne ho, count]

def erase (memory : Memory) (pointer : PointerName) : Memory :=
  { memory with pointers := memory.pointers.erase pointer }

@[simp] theorem target_erase : (memory.erase p).target = Function.update memory.target p none := by
  funext q
  by_cases hq : q = p
  · rw [hq, Function.update_self, target, erase, AList.lookup_erase]
    rfl
  · rw [Function.update_of_ne hq, target, erase, AList.lookup_erase_ne hq, target]

theorem mem_owners : p ∈ memory.owners o ↔ memory.target p = some o := by
  rw [owners, List.mem_filter, decide_eq_true_iff]
  refine and_iff_right_of_imp fun h => ?_
  exact AList.mem_keys.mp (mem_of_target h)

theorem owned_iff_owners : Owned memory.target o ↔ memory.owners o ≠ [] := by
  constructor
  · rintro ⟨p, hp⟩
    exact List.ne_nil_of_mem (mem_owners.mpr hp)
  · intro h
    obtain ⟨p, hp⟩ := List.exists_mem_of_ne_nil _ h
    exact ⟨p, mem_owners.mp hp⟩

theorem encard_owners :
    (Lib.Ownership.owners memory.target o).encard = (memory.owners o).length := by
  have hset : Lib.Ownership.owners memory.target o = ((memory.owners o).toFinset : Set _) := by
    ext p
    rw [Finset.mem_coe, List.mem_toFinset, mem_owners]
    rfl
  have hnodup : (memory.owners o).Nodup := memory.pointers.keys_nodup.filter _
  rw [hset, Set.encard_coe_eq_coe_finsetCard, List.toFinset_card_of_nodup hnodup]

/-! ### Consistent memories -/

/-- The pointers that are still to be destroyed are pending, among them all members of deleted
objects and the parameter of an assignment. -/
structure Consistent (memory : Memory) (pending : List PointerName) : Prop where
  balanced : Balanced memory.count memory.target
  created : ∀ o ∈ memory.objects, o < memory.created
  deletedOnce : memory.deletions.Nodup
  deleted : ∀ o, o ∈ memory.deletions ↔ o < memory.created ∧ o ∉ memory.objects
  pendingOnce : pending.Nodup
  awaits : ∀ p ∈ pending, p ∈ memory.pointers ∧
    ∀ o, p.isMemberOf o = true → o ∉ memory.objects
  members : ∀ p ∈ memory.pointers, ∀ o, p.isMemberOf o = true → p ∈ pending ∨ o ∈ memory.objects
  parameter : .other ∈ memory.pointers → .other ∈ pending

theorem initial_consistent : initial.Consistent [] where
  balanced := ⟨fun _ _ hn => absurd hn.symm (Option.some_ne_none _),
    fun _ _ hp => absurd hp.symm (Option.some_ne_none _)⟩
  created := fun o ho => absurd ho (AList.notMem_empty o)
  deletedOnce := List.nodup_nil
  deleted := fun o => ⟨fun h => absurd h List.not_mem_nil, fun h => absurd h.1 (Nat.not_lt_zero o)⟩
  pendingOnce := List.nodup_nil
  awaits := fun _ hp => absurd hp List.not_mem_nil
  members := fun _ hp => absurd hp (AList.notMem_empty _)
  parameter := fun h => absurd h (AList.notMem_empty _)

/-! ### Destruction -/

/-- Objects lose owners from the one memory to the other and are deleted with the last one. -/
def Sheds (memory memory' : Memory) : Prop :=
  Lib.Ownership.Sheds memory.target {o | o ∈ memory.deletions} memory'.target
    {o | o ∈ memory'.deletions}

theorem mem_membersOf : p ∈ memory.membersOf o ↔ p ∈ memory.pointers ∧ p.isMemberOf o = true := by
  rw [membersOf, List.mem_insertionSort, List.mem_filter, ← AList.mem_keys]

theorem membersOf_nodup : (memory.membersOf o).Nodup :=
  (List.perm_insertionSort _ _).nodup_iff.mpr (memory.pointers.keys_nodup.filter _)

theorem isMemberOf_inj {o o' : ObjectId} (h : p.isMemberOf o = true) (h' : p.isMemberOf o' = true) :
    o = o' := by
  cases p with
  | var index => cases h
  | member owner field => exact (of_decide_eq_true h).symm.trans (of_decide_eq_true h')
  | other => cases h

theorem destroyPointer_null (hp : p ∈ memory.pointers) (hnull : memory.target p = none) :
    memory.destroyPointer p = .ok (memory.erase p, []) := by
  simp only [destroyPointer, get_of_mem hp, hnull]
  rfl

/-- What the destructor does to the count of an object with further owners. -/
theorem destroyPointer_shared {n : ℕ} (hp : p ∈ memory.pointers)
    (ho : memory.target p = some o) (hn : memory.objects.lookup o = some ⟨n + 2⟩) :
    memory.destroyPointer p = .ok ((memory.erase p).setCounter o ⟨n + 1⟩, []) := by
  have hcounter : (memory.erase p).counterOf o = .ok ⟨n + 2⟩ := by
    rw [counterOf, erase, hn]
  simp only [destroyPointer, get_of_mem hp, ho]
  change (memory.erase p).release (some o) = _
  simp only [release, hcounter]
  rfl

theorem destroyPointer_last (hp : p ∈ memory.pointers)
    (ho : memory.target p = some o) (hn : memory.objects.lookup o = some ⟨1⟩) :
    memory.destroyPointer p = .ok (((memory.erase p).setCounter o ⟨0⟩).delete o,
      (memory.erase p).membersOf o) := by
  have hcounter : (memory.erase p).counterOf o = .ok ⟨1⟩ := by
    rw [counterOf, erase, hn]
  simp only [destroyPointer, get_of_mem hp, ho]
  change (memory.erase p).release (some o) = _
  simp only [release, hcounter]
  rfl

section

variable {pending : List PointerName}

theorem mem_erase_of_pending (h : memory.Consistent (p :: pending)) {q : PointerName}
    (hq : q ∈ pending) : q ∈ memory.pointers.erase p := by
  refine AList.mem_erase.mpr ⟨?_, (h.awaits q (List.mem_cons_of_mem _ hq)).1⟩
  rintro rfl
  exact (List.nodup_cons.mp h.pendingOnce).1 hq

theorem Consistent.erased (h : memory.Consistent (p :: pending)) {memory' : Memory}
    (hbalanced : Balanced memory'.count memory'.target)
    (hobjects : ∀ o, o ∈ memory'.objects ↔ o ∈ memory.objects)
    (hpointers : memory'.pointers = memory.pointers.erase p)
    (hcreated : memory'.created = memory.created)
    (hdeletions : memory'.deletions = memory.deletions) : memory'.Consistent pending where
  balanced := hbalanced
  created := fun o ho => hcreated ▸ h.created o ((hobjects o).mp ho)
  deletedOnce := hdeletions ▸ h.deletedOnce
  deleted := by
    intro o
    rw [hdeletions, hcreated, hobjects]
    exact h.deleted o
  pendingOnce := (List.nodup_cons.mp h.pendingOnce).2
  awaits := by
    intro q hq
    refine ⟨hpointers ▸ mem_erase_of_pending h hq, fun o ho => ?_⟩
    rw [hobjects]
    exact (h.awaits q (List.mem_cons_of_mem _ hq)).2 o ho
  members := by
    intro q hq o ho
    rw [hpointers, AList.mem_erase] at hq
    rw [hobjects]
    rcases h.members q hq.2 o ho with hpending | hlive
    · exact .inl ((List.mem_cons.mp hpending).resolve_left hq.1)
    · exact .inr hlive
  parameter := by
    intro hother
    rw [hpointers, AList.mem_erase] at hother
    exact (List.mem_cons.mp (h.parameter hother.2)).resolve_left hother.1

/-- The destructor with a deletion: the members of the object are destroyed next. -/
theorem Consistent.deleting (h : memory.Consistent (p :: pending)) (ho : o ∈ memory.objects)
    {memory' : Memory} (hbalanced : Balanced memory'.count memory'.target)
    (hobjects : ∀ o', o' ∈ memory'.objects ↔ o' ≠ o ∧ o' ∈ memory.objects)
    (hpointers : memory'.pointers = memory.pointers.erase p)
    (hcreated : memory'.created = memory.created)
    (hdeletions : memory'.deletions = o :: memory.deletions) :
    memory'.Consistent ((memory.erase p).membersOf o ++ pending) where
  balanced := hbalanced
  created := fun o' ho' => hcreated ▸ h.created o' ((hobjects o').mp ho').2
  deletedOnce := by
    rw [hdeletions]
    exact List.nodup_cons.mpr ⟨fun hmem => ((h.deleted o).mp hmem).2 ho, h.deletedOnce⟩
  deleted := by
    intro o'
    rw [hdeletions, hcreated, hobjects, List.mem_cons, h.deleted]
    have hlt := h.created o ho
    by_cases hne : o' = o
    · subst hne
      tauto
    · tauto
  pendingOnce := by
    refine List.nodup_append.mpr ⟨membersOf_nodup, (List.nodup_cons.mp h.pendingOnce).2, ?_⟩
    rintro q hmember q' hpending rfl
    exact (h.awaits q (List.mem_cons_of_mem _ hpending)).2 o (mem_membersOf.mp hmember).2 ho
  awaits := by
    intro q hq
    rcases List.mem_append.mp hq with hmember | hpending
    · obtain ⟨hmem, hmemberOf⟩ := mem_membersOf.mp hmember
      refine ⟨hpointers ▸ hmem, fun o' ho' hlive => ?_⟩
      exact ((hobjects o').mp hlive).1 (isMemberOf_inj ho' hmemberOf)
    · refine ⟨hpointers ▸ mem_erase_of_pending h hpending, fun o' ho' hlive => ?_⟩
      exact (h.awaits q (List.mem_cons_of_mem _ hpending)).2 o' ho' ((hobjects o').mp hlive).2
  members := by
    intro q hq o' ho'
    rw [hpointers] at hq
    obtain ⟨hne, hmem⟩ := AList.mem_erase.mp hq
    rw [hobjects]
    by_cases heq : o' = o
    · exact .inl (List.mem_append_left _ (mem_membersOf.mpr ⟨hq, heq ▸ ho'⟩))
    · rcases h.members q hmem o' ho' with hpending | hlive
      · exact .inl (List.mem_append_right _ ((List.mem_cons.mp hpending).resolve_left hne))
      · exact .inr ⟨heq, hlive⟩
  parameter := by
    intro hother
    rw [hpointers, AList.mem_erase] at hother
    exact List.mem_append_right _ ((List.mem_cons.mp (h.parameter hother.2)).resolve_left hother.1)

theorem length_keys_erase (hp : p ∈ memory.pointers) :
    (memory.pointers.erase p).keys.length + 1 = memory.pointers.keys.length := by
  have hkey := AList.mem_keys.mp hp
  have hpos := List.length_pos_of_mem hkey
  rw [AList.keys_erase, List.length_erase_of_mem hkey]
  omega

theorem destroyPointer_spec (h : memory.Consistent (p :: pending)) :
    ∃ memory' members, memory.destroyPointer p = .ok (memory', members) ∧
      memory'.Consistent (members ++ pending) ∧ memory.Sheds memory' ∧
      memory'.pointers.keys.length + 1 = memory.pointers.keys.length := by
  have hp := (h.awaits p (List.mem_cons_self ..)).1
  cases htarget : memory.target p with
  | none =>
    have hsame : (memory.erase p).target = memory.target := by
      rw [target_erase, ← htarget, Function.update_eq_self]
    refine ⟨_, _, destroyPointer_null hp htarget, ?_, ?_, length_keys_erase hp⟩
    · exact h.erased (hsame ▸ h.balanced) (fun _ => .rfl) rfl rfl rfl
    · rw [Sheds, hsame]
      exact .refl _ _
  | some o =>
    obtain ⟨n, hn⟩ := counter_of_held h.balanced htarget
    have hcount : memory.count o = some (n + 1) := by rw [count, hn, Option.map_some]
    have ho : o ∈ memory.objects := count_ne_none.mp (hcount ▸ Option.some_ne_none _)
    have hbalanced := h.balanced.release htarget hcount
    have hsheds := Lib.Ownership.Sheds.release h.balanced htarget hcount {o | o ∈ memory.deletions}
    cases n with
    | zero =>
      refine ⟨_, _, destroyPointer_last hp htarget hn, ?_, ?_, length_keys_erase hp⟩
      · refine h.deleting ho ?_ ?_ rfl rfl rfl
        · rw [count_delete, count_setCounter, Function.update_idem]
          change Balanced (Function.update memory.count o none) (memory.erase p).target
          rw [target_erase]
          exact hbalanced none rfl
        · intro o'
          rw [delete, setCounter, FlatHashMap.insertOrAssign, AList.mem_erase, AList.mem_insert]
          change _ ∧ (_ ∨ o' ∈ memory.objects) ↔ _
          tauto
      · rw [Sheds]
        change Lib.Ownership.Sheds _ _ (memory.erase p).target {o' | o' ∈ o :: memory.deletions}
        rw [target_erase]
        exact hsheds _ fun o' => by simp [or_comm]
    | succ n =>
      refine ⟨_, _, destroyPointer_shared hp htarget hn, ?_, ?_, length_keys_erase hp⟩
      · refine h.erased ?_ ?_ rfl rfl rfl
        · rw [count_setCounter, target_setCounter, target_erase]
          exact hbalanced (some (n + 1)) rfl
        · intro o'
          rw [setCounter, FlatHashMap.insertOrAssign, AList.mem_insert]
          change _ ∨ o' ∈ memory.objects ↔ _
          exact or_iff_right_of_imp fun heq => heq ▸ ho
      · rw [Sheds]
        change Lib.Ownership.Sheds _ _ (memory.erase p).target {o' | o' ∈ memory.deletions}
        rw [target_erase]
        exact hsheds _ fun o' => by simp

theorem destroyAll_spec (fuel : ℕ) (h : memory.Consistent pending)
    (hfuel : memory.pointers.keys.length ≤ fuel) :
    ∃ memory', destroyAll fuel memory pending = .ok memory' ∧ memory'.Consistent [] ∧
      memory.Sheds memory' := by
  induction fuel generalizing memory pending with
  | zero =>
    cases pending with
    | nil => exact ⟨memory, rfl, h, .refl _ _⟩
    | cons p pending =>
      have hpos := List.length_pos_of_mem (AList.mem_keys.mp (h.awaits p (List.mem_cons_self ..)).1)
      omega
  | succ fuel ih =>
    cases pending with
    | nil => exact ⟨memory, rfl, h, .refl _ _⟩
    | cons p pending =>
      obtain ⟨next, members, hnext, hconsistent, hsheds, hlength⟩ := destroyPointer_spec h
      obtain ⟨memory', hrest, hconsistent', hsheds'⟩ := ih hconsistent (by omega)
      refine ⟨memory', ?_, hconsistent', hsheds.trans hsheds'⟩
      rw [destroyAll, hnext]
      exact hrest

end

theorem destroy_spec (h : memory.Consistent [p]) : ∃ memory', memory.destroy p = .ok memory' ∧
    memory'.Consistent [] ∧ memory.Sheds memory' :=
  destroyAll_spec _ h le_rfl

end Memory

end Raksha.Common
