import Mathlib.Data.Finset.Card
import Raksha.Ir.SsaNames

/-!
# All names of `SsaNames`

`ir/ssa_names.h` keeps names of blocks, modules and values in three tables. A generated name is made
of the size of its table, whatever names other entities were given.
-/

namespace Raksha.Ir
open Raksha.Common

/-! ### The tables -/

section

variable {T : Type} [DecidableEq T]

/-- `FindID`: true when the entity has no name. -/
def IDManager.findID (manager : IDManager T) (entity : T) : Bool :=
  manager.itemIds.lookup entity = none

def IDManager.updateID (manager : IDManager T) (entity : T) (id : String) :
    String × IDManager T :=
  (id, { manager with itemIds := manager.itemIds.insertOrAssign entity id })

/-- `AddID`, for a table of the given kind. -/
def IDManager.addID (kind : String) (manager : IDManager T) (entity : T) (id : String) :
    Checked (String × IDManager T) := do
  check (manager.findID entity = true)
    ("Trying to update new ID " ++ id ++ " to an existing " ++ kind ++ " map")
  return manager.updateID entity id

end

/-- Blocks and modules are told apart by their addresses. -/
inductive Entity
  | block (address : Address)
  | module (address : Address)
  | value (value : Value)
deriving DecidableEq

inductive EntityKind
  | block
  | module
  | value
deriving DecidableEq

def Entity.kind : Entity → EntityKind
  | .block _ => .block
  | .module _ => .module
  | .value _ => .value

def EntityKind.namePrefix : EntityKind → String
  | .block => "b"
  | .module => "m"
  | .value => "%"

/-- An `SsaNames` object. -/
structure NameTables where
  blockIds : IDManager Address := { namePrefix := EntityKind.block.namePrefix }
  moduleIds : IDManager Address := { namePrefix := EntityKind.module.namePrefix }
  valueIds : IDManager Value := { namePrefix := EntityKind.value.namePrefix }

namespace NameTables

def getOrCreateID (names : NameTables) : Entity → String × NameTables
  | .block address =>
    let (id, blockIds) := names.blockIds.getOrCreateID address
    (id, { names with blockIds })
  | .module address =>
    let (id, moduleIds) := names.moduleIds.getOrCreateID address
    (id, { names with moduleIds })
  | .value value =>
    let (id, valueIds) := names.valueIds.getOrCreateID value
    (id, { names with valueIds })

def addID (names : NameTables) (entity : Entity) (id : String) : Checked (String × NameTables) :=
  match entity with
  | .block address => do
    let (id, blockIds) ← names.blockIds.addID "block" address id
    return (id, { names with blockIds })
  | .module address => do
    let (id, moduleIds) ← names.moduleIds.addID "module" address id
    return (id, { names with moduleIds })
  | .value value => do
    let (id, valueIds) ← names.valueIds.addID "value" value id
    return (id, { names with valueIds })

def find? (names : NameTables) : Entity → Option String
  | .block address => names.blockIds.itemIds.lookup address
  | .module address => names.moduleIds.itemIds.lookup address
  | .value value => names.valueIds.itemIds.lookup value

def size (names : NameTables) : EntityKind → ℕ
  | .block => names.blockIds.itemIds.entries.length
  | .module => names.moduleIds.itemIds.entries.length
  | .value => names.valueIds.itemIds.entries.length

/-- The prefixes are those of the constructor. -/
structure Named (names : NameTables) : Prop where
  block : names.blockIds.namePrefix = EntityKind.block.namePrefix
  module : names.moduleIds.namePrefix = EntityKind.module.namePrefix
  value : names.valueIds.namePrefix = EntityKind.value.namePrefix

end NameTables

/-! ### One call -/

section

variable {T : Type} [DecidableEq T]

/-- The call leaves the entity with this name and all others as they were. -/
structure IDManager.Gives (manager : IDManager T) (entity : T) (id : String)
    (manager' : IDManager T) : Prop where
  namePrefix : manager'.namePrefix = manager.namePrefix
  lookup : ∀ other, manager'.itemIds.lookup other =
    if other = entity then some id else manager.itemIds.lookup other
  length : manager'.itemIds.entries.length = manager.itemIds.entries.length +
    if manager.itemIds.lookup entity = none then 1 else 0

theorem FlatHashMap.length_insertOrAssign {m : FlatHashMap T String} {key : T} {value : String}
    (h : m.lookup key = none) : (m.insertOrAssign key value).entries.length =
      m.entries.length + 1 := by
  have hfresh := (FlatHashMap.lookup_eq_none_iff _ _).mp h
  simp only [FlatHashMap.insertOrAssign]
  rw [AList.insert_of_notMem hfresh, List.length_cons]

theorem IDManager.getOrCreateID_gives (manager : IDManager T) (entity : T) :
    manager.Gives entity (manager.getOrCreateID entity).1 (manager.getOrCreateID entity).2 where
  namePrefix := rfl
  lookup := manager.lookup_getOrCreateID entity
  length := by
    cases hlookup : manager.itemIds.lookup entity with
    | none =>
      have hfresh := (FlatHashMap.lookup_eq_none_iff _ _).mp hlookup
      simp only [getOrCreateID, FlatHashMap.tryInsert_of_notMem _ _ _ hfresh, if_true]
      exact FlatHashMap.length_insertOrAssign hlookup
    | some id =>
      have hmem : entity ∈ manager.itemIds :=
        (FlatHashMap.mem_iff_lookup _ _).mpr (by simp [hlookup])
      simp only [getOrCreateID, FlatHashMap.tryInsert_of_mem _ _ _ hmem, reduceCtorEq, if_false,
        Nat.add_zero]

theorem IDManager.addID_eq_ok {kind : String} {manager manager' : IDManager T} {entity : T}
    {id id' : String} : manager.addID kind entity id = .ok (id', manager') ↔
      manager.itemIds.lookup entity = none ∧ (id', manager') = manager.updateID entity id := by
  simp only [addID, Checked.bind_eq_ok, check_eq_ok, exists_const, Checked.pure_eq_ok, findID,
    decide_eq_true_eq, eq_comm (a := (id', manager'))]

theorem IDManager.updateID_gives {manager : IDManager T} {entity : T}
    (h : manager.itemIds.lookup entity = none) (id : String) :
    manager.Gives entity id (manager.updateID entity id).2 where
  namePrefix := rfl
  lookup other := FlatHashMap.lookup_insertOrAssign _ _ other _
  length := by
    rw [if_pos h]
    exact FlatHashMap.length_insertOrAssign h

end

namespace NameTables

structure Gives (names : NameTables) (entity : Entity) (id : String) (names' : NameTables) :
    Prop where
  named : names.Named → names'.Named
  find? : ∀ other, names'.find? other = if other = entity then some id else names.find? other
  size : ∀ kind, names'.size kind = names.size kind +
    if kind = entity.kind ∧ names.find? entity = none then 1 else 0

variable {names : NameTables} {id : String}

theorem gives_block {address : Address} {blockIds : IDManager Address}
    (h : names.blockIds.Gives address id blockIds) :
    names.Gives (.block address) id { names with blockIds } where
  named hnamed := ⟨h.namePrefix.trans hnamed.block, hnamed.module, hnamed.value⟩
  find? other := by
    cases other with
    | block other =>
      simp only [Entity.block.injEq]
      exact h.lookup other
    | module other => rfl
    | value other => rfl
  size kind := by
    cases kind with
    | block =>
      simp only [Entity.kind, true_and]
      exact h.length
    | module => rfl
    | value => rfl

theorem gives_module {address : Address} {moduleIds : IDManager Address}
    (h : names.moduleIds.Gives address id moduleIds) :
    names.Gives (.module address) id { names with moduleIds } where
  named hnamed := ⟨hnamed.block, h.namePrefix.trans hnamed.module, hnamed.value⟩
  find? other := by
    cases other with
    | block other => rfl
    | module other =>
      simp only [Entity.module.injEq]
      exact h.lookup other
    | value other => rfl
  size kind := by
    cases kind with
    | block => rfl
    | module =>
      simp only [Entity.kind, true_and]
      exact h.length
    | value => rfl

theorem gives_value {value : Value} {valueIds : IDManager Value}
    (h : names.valueIds.Gives value id valueIds) :
    names.Gives (.value value) id { names with valueIds } where
  named hnamed := ⟨hnamed.block, hnamed.module, h.namePrefix.trans hnamed.value⟩
  find? other := by
    cases other with
    | block other => rfl
    | module other => rfl
    | value other =>
      simp only [Entity.value.injEq]
      exact h.lookup other
  size kind := by
    cases kind with
    | block => rfl
    | module => rfl
    | value =>
      simp only [Entity.kind, true_and]
      exact h.length

theorem getOrCreateID_gives (names : NameTables) (entity : Entity) :
    names.Gives entity (names.getOrCreateID entity).1 (names.getOrCreateID entity).2 := by
  cases entity with
  | block address => exact gives_block (names.blockIds.getOrCreateID_gives address)
  | module address => exact gives_module (names.moduleIds.getOrCreateID_gives address)
  | value value => exact gives_value (names.valueIds.getOrCreateID_gives value)

theorem getOrCreateID_fst (h : names.Named) (entity : Entity) :
    (names.getOrCreateID entity).1 = (names.find? entity).getD
      (entity.kind.namePrefix ++ toString (names.size entity.kind)) := by
  cases entity with
  | block address =>
    simp only [getOrCreateID, IDManager.getOrCreateID, find?, size, Entity.kind, h.block]
  | module address =>
    simp only [getOrCreateID, IDManager.getOrCreateID, find?, size, Entity.kind, h.module]
  | value value =>
    simp only [getOrCreateID, IDManager.getOrCreateID, find?, size, Entity.kind, h.value]

theorem addID_gives {entity : Entity} {result : String × NameTables}
    (h : names.addID entity id = .ok result) :
    names.find? entity = none ∧ names.Gives entity id result.2 := by
  cases entity with
  | block address =>
    simp only [addID, Checked.bind_eq_ok, Checked.pure_eq_ok, Prod.exists,
      IDManager.addID_eq_ok] at h
    obtain ⟨_, _, ⟨hnone, heq⟩, rfl⟩ := h
    cases heq
    exact ⟨hnone, gives_block (IDManager.updateID_gives hnone id)⟩
  | module address =>
    simp only [addID, Checked.bind_eq_ok, Checked.pure_eq_ok, Prod.exists,
      IDManager.addID_eq_ok] at h
    obtain ⟨_, _, ⟨hnone, heq⟩, rfl⟩ := h
    cases heq
    exact ⟨hnone, gives_module (IDManager.updateID_gives hnone id)⟩
  | value value =>
    simp only [addID, Checked.bind_eq_ok, Checked.pure_eq_ok, Prod.exists,
      IDManager.addID_eq_ok] at h
    obtain ⟨_, _, ⟨hnone, heq⟩, rfl⟩ := h
    cases heq
    exact ⟨hnone, gives_value (IDManager.updateID_gives hnone id)⟩

theorem addID_of {entity : Entity} (h : names.find? entity = none) (id : String) :
    ∃ result, names.addID entity id = .ok result := by
  cases entity with
  | block address =>
    have hadd : names.blockIds.addID "block" address id = _ := IDManager.addID_eq_ok.mpr ⟨h, rfl⟩
    simp only [addID, hadd]
    exact ⟨_, rfl⟩
  | module address =>
    have hadd : names.moduleIds.addID "module" address id = _ := IDManager.addID_eq_ok.mpr ⟨h, rfl⟩
    simp only [addID, hadd]
    exact ⟨_, rfl⟩
  | value value =>
    have hadd : names.valueIds.addID "value" value id = _ := IDManager.addID_eq_ok.mpr ⟨h, rfl⟩
    simp only [addID, hadd]
    exact ⟨_, rfl⟩

end NameTables

/-! ### Sequences of calls -/

inductive NameCall
  | getOrCreateID (entity : Entity)
  | addID (entity : Entity) (id : String)
deriving DecidableEq

namespace NameTables

/-- One call, with the name that it returns. -/
def step (names : NameTables) : NameCall → Checked (String × NameTables)
  | .getOrCreateID entity => .ok (names.getOrCreateID entity)
  | .addID entity id => names.addID entity id

theorem step_getOrCreateID {names names' : NameTables} {entity : Entity} {id : String} :
    names.step (.getOrCreateID entity) = .ok (id, names') ↔
      (names.getOrCreateID entity).1 = id ∧ (names.getOrCreateID entity).2 = names' := by
  rw [step, Except.ok.injEq, Prod.ext_iff]

def run (calls : List NameCall) : Checked NameTables :=
  calls.foldlM (fun (names : NameTables) call => do return (← names.step call).2) {}

end NameTables

def NameCall.entity : NameCall → Entity
  | .getOrCreateID entity => entity
  | .addID entity _ => entity

/-- In every state of the run a new name is not the name of another entity of its kind, and no call
changes a name. -/
def NamesUnique (calls : List NameCall) : Prop :=
  ∀ before call after, calls = before ++ call :: after → ∀ names, NameTables.run before = .ok names →
    ∀ id names', names.step call = .ok (id, names') →
      (∀ entity name, names.find? entity = some name → names'.find? entity = some name) ∧
      ∀ entity, call = .getOrCreateID entity → names.find? entity = none →
        names'.find? entity = some id ∧
        ∀ other, other.kind = entity.kind → other ≠ entity → names.find? other ≠ some id

def entitiesOf (kind : EntityKind) (calls : List NameCall) : Finset Entity :=
  (calls.map NameCall.entity).toFinset.filter fun entity => entity.kind = kind

/-- No call adds a name to an entity of an earlier call. -/
def AddsOnce (calls : List NameCall) : Prop :=
  ∀ before entity id after, calls = before ++ .addID entity id :: after →
    ∀ call ∈ before, call.entity ≠ entity

/-- No name was supplied that is generated later on: the prefix of the kind with the number of the
entities of this kind so far. -/
def SuppliesNoGenerated (calls : List NameCall) : Prop :=
  ∀ before entity after, calls = before ++ .getOrCreateID entity :: after →
    AddsOnce before → (∀ call ∈ before, call.entity ≠ entity) →
    ∀ other, other.kind = entity.kind → NameCall.addID other
      (entity.kind.namePrefix ++ toString (entitiesOf entity.kind before).card) ∉ before

/-! ### Runs -/

/-- What is known of the tables after some calls. -/
structure RanTo (calls : List NameCall) (names : NameTables) : Prop where
  named : names.Named
  known : ∀ entity, names.find? entity = none ↔ ∀ call ∈ calls, call.entity ≠ entity
  size : ∀ kind, names.size kind = (entitiesOf kind calls).card
  supplied : ∀ entity id, .addID entity id ∈ calls → names.find? entity = some id
  origin : ∀ entity id, names.find? entity = some id → .addID entity id ∈ calls ∨
    ∃ n < names.size entity.kind, id = entity.kind.namePrefix ++ toString n
  addsOnce : AddsOnce calls

theorem entitiesOf_append (kind : EntityKind) (calls : List NameCall) (call : NameCall) :
    entitiesOf kind (calls ++ [call]) = if call.entity.kind = kind
      then insert call.entity (entitiesOf kind calls) else entitiesOf kind calls := by
  have hall : ((calls ++ [call]).map NameCall.entity).toFinset =
      insert call.entity (calls.map NameCall.entity).toFinset := by
    ext entity
    simp
  rw [entitiesOf, hall, Finset.filter_insert]
  rfl

theorem ranTo_nil : RanTo [] {} where
  named := ⟨rfl, rfl, rfl⟩
  known entity := by
    cases entity <;> simp [NameTables.find?]
  size kind := by
    cases kind <;> rfl
  supplied entity id h := by cases h
  origin entity id h := by
    cases entity <;> simp [NameTables.find?] at h
  addsOnce before entity id after h := by simp at h

theorem addsOnce_append {calls : List NameCall} {call : NameCall} :
    AddsOnce (calls ++ [call]) ↔ AddsOnce calls ∧
      ∀ entity id, call = .addID entity id → ∀ c ∈ calls, c.entity ≠ entity := by
  constructor
  · intro h
    refine ⟨?_, ?_⟩
    · intro before entity id after hsplit
      refine h before entity id (after ++ [call]) ?_
      rw [hsplit, List.append_assoc, List.cons_append]
    · rintro entity id rfl
      exact h calls entity id [] rfl
  · rintro ⟨hcalls, hlast⟩ before entity id after hsplit
    rcases List.eq_nil_or_concat' after with rfl | ⟨after, last, rfl⟩
    · obtain ⟨rfl, hcall⟩ := List.append_inj' hsplit rfl
      exact hlast entity id (List.cons.inj hcall).1
    · rw [← List.cons_append, ← List.append_assoc] at hsplit
      obtain ⟨rfl, -⟩ := List.append_inj' hsplit rfl
      exact hcalls before entity id after rfl

section

variable {calls : List NameCall} {names names' : NameTables} {call : NameCall} {id : String}

theorem RanTo.known_append (h : RanTo calls names) (hgives : names.Gives call.entity id names')
    (entity : Entity) : names'.find? entity = none ↔
      ∀ c ∈ calls ++ [call], c.entity ≠ entity := by
  rw [hgives.find?]
  by_cases hsame : entity = call.entity
  · subst hsame
    simp
  · rw [if_neg hsame, h.known, List.forall_mem_append, List.forall_mem_singleton]
    exact ⟨fun hold => ⟨hold, fun heq => hsame heq.symm⟩, And.left⟩

theorem RanTo.size_append (h : RanTo calls names) (hgives : names.Gives call.entity id names')
    (kind : EntityKind) : names'.size kind = (entitiesOf kind (calls ++ [call])).card := by
  rw [hgives.size, entitiesOf_append, h.size]
  by_cases hkind : call.entity.kind = kind
  · subst hkind
    simp only [true_and, if_true]
    have hmem : call.entity ∈ entitiesOf call.entity.kind calls ↔
        ∃ c ∈ calls, c.entity = call.entity := by
      simp [entitiesOf]
    by_cases hnone : names.find? call.entity = none
    · have hfresh : call.entity ∉ entitiesOf call.entity.kind calls := by
        rw [hmem]
        rintro ⟨c, hc, heq⟩
        exact (h.known _).mp hnone c hc heq
      rw [if_pos hnone, Finset.card_insert_of_notMem hfresh]
    · have hold : call.entity ∈ entitiesOf call.entity.kind calls := by
        rw [hmem]
        by_contra hnot
        exact hnone ((h.known _).mpr fun c hc heq => hnot ⟨c, hc, heq⟩)
      rw [if_neg hnone, Finset.insert_eq_of_mem hold, Nat.add_zero]
  · rw [if_neg fun heq => hkind heq.1.symm, if_neg hkind, Nat.add_zero]

theorem RanTo.origin_append (h : RanTo calls names) (hgives : names.Gives call.entity id names')
    {entity : Entity} {name : String} (hname : names.find? entity = some name) :
    .addID entity name ∈ calls ++ [call] ∨
      ∃ n < names'.size entity.kind, name = entity.kind.namePrefix ++ toString n := by
  refine (h.origin _ _ hname).imp (List.mem_append_left _) ?_
  rintro ⟨n, hn, heq⟩
  refine ⟨n, hn.trans_le ?_, heq⟩
  rw [hgives.size]
  exact Nat.le_add_right _ _

end

theorem RanTo.getOrCreateID {calls : List NameCall} {names : NameTables} (h : RanTo calls names)
    (entity : Entity) :
    RanTo (calls ++ [.getOrCreateID entity]) (names.getOrCreateID entity).2 := by
  have hgives := names.getOrCreateID_gives entity
  have hgives' : names.Gives (NameCall.getOrCreateID entity).entity _ _ := hgives
  have hid := NameTables.getOrCreateID_fst h.named entity
  refine ⟨hgives.named h.named, h.known_append hgives', h.size_append hgives', ?_, ?_,
    addsOnce_append.mpr ⟨h.addsOnce, fun _ _ heq => by cases heq⟩⟩
  · intro other name hmem
    have hold := h.supplied other name (by simpa using hmem)
    rw [hgives.find?]
    by_cases hsame : other = entity
    · subst hsame
      rw [hold, Option.getD_some] at hid
      rw [if_pos rfl, hid]
    · rw [if_neg hsame, hold]
  · intro other name hname
    by_cases hsame : other = entity
    · subst hsame
      rw [hgives.find?, if_pos rfl, Option.some.injEq] at hname
      cases hlookup : names.find? other with
      | none =>
        rw [hlookup, Option.getD_none] at hid
        refine .inr ⟨_, ?_, hname.symm.trans hid⟩
        rw [hgives.size, if_pos ⟨rfl, hlookup⟩]
        exact Nat.lt_succ_self _
      | some old =>
        rw [hlookup, Option.getD_some, hname] at hid
        exact h.origin_append hgives' (hid ▸ hlookup)
    · rw [hgives.find?, if_neg hsame] at hname
      exact h.origin_append hgives' hname

theorem RanTo.addID {calls : List NameCall} {names names' : NameTables} {entity : Entity}
    {id : String} (h : RanTo calls names) (hnone : names.find? entity = none)
    (hgives : names.Gives entity id names') : RanTo (calls ++ [.addID entity id]) names' := by
  have hgives' : names.Gives (NameCall.addID entity id).entity id names' := hgives
  refine ⟨hgives.named h.named, h.known_append hgives', h.size_append hgives', ?_, ?_, ?_⟩
  · intro other name hmem
    rw [hgives.find?]
    rcases List.mem_append.mp hmem with hmem | hmem
    · have hold := h.supplied other name hmem
      by_cases hsame : other = entity
      · rw [hsame, hnone] at hold
        cases hold
      · rw [if_neg hsame, hold]
    · cases List.mem_singleton.mp hmem
      rw [if_pos rfl]
  · intro other name hname
    rw [hgives.find?] at hname
    by_cases hsame : other = entity
    · rw [if_pos hsame, Option.some.injEq] at hname
      rw [hsame, hname]
      exact .inl (List.mem_append_right _ (List.mem_singleton_self _))
    · rw [if_neg hsame] at hname
      exact h.origin_append hgives' hname
  · refine addsOnce_append.mpr ⟨h.addsOnce, ?_⟩
    rintro other name heq
    cases heq
    exact (h.known entity).mp hnone

/-- A run is accepted just when no name is added to an entity of an earlier call. -/
theorem run_spec (calls : List NameCall) :
    (∀ names, NameTables.run calls = .ok names → RanTo calls names) ∧
      (AddsOnce calls → ∃ names, NameTables.run calls = .ok names) := by
  induction calls using List.reverseRecOn with
  | nil =>
    refine ⟨?_, fun _ => ⟨_, rfl⟩⟩
    intro names hrun
    cases hrun
    exact ranTo_nil
  | append_singleton calls call ih =>
    have hstep : ∀ names, NameTables.run (calls ++ [call]) = .ok names ↔
        ∃ mid, NameTables.run calls = .ok mid ∧ ∃ id, mid.step call = .ok (id, names) := by
      intro names
      simp [NameTables.run, List.foldlM_append]
    refine ⟨?_, ?_⟩
    · intro names hrun
      obtain ⟨mid, hmid, id, hcall⟩ := (hstep names).mp hrun
      have hran := ih.1 mid hmid
      cases call with
      | getOrCreateID entity =>
        obtain ⟨-, rfl⟩ := NameTables.step_getOrCreateID.mp hcall
        exact hran.getOrCreateID entity
      | addID entity name =>
        obtain ⟨hnone, hgives⟩ := NameTables.addID_gives hcall
        exact hran.addID hnone hgives
    · intro hadds
      obtain ⟨hbefore, hlast⟩ := addsOnce_append.mp hadds
      obtain ⟨mid, hmid⟩ := ih.2 hbefore
      cases call with
      | getOrCreateID entity => exact ⟨_, (hstep _).mpr ⟨mid, hmid, _, rfl⟩⟩
      | addID entity name =>
        have hnone := ((ih.1 mid hmid).known entity).mpr (hlast entity name rfl)
        obtain ⟨⟨id, names⟩, hadd⟩ := NameTables.addID_of hnone name
        exact ⟨names, (hstep _).mpr ⟨mid, hmid, id, hadd⟩⟩

theorem RanTo.keeps {calls : List NameCall} {names names' : NameTables} {call : NameCall}
    {id : String} (h : RanTo calls names) (hstep : names.step call = .ok (id, names'))
    {entity : Entity} {name : String} (hname : names.find? entity = some name) :
    names'.find? entity = some name := by
  cases call with
  | getOrCreateID other =>
    obtain ⟨-, rfl⟩ := NameTables.step_getOrCreateID.mp hstep
    rw [(names.getOrCreateID_gives other).find?]
    by_cases hsame : entity = other
    · subst hsame
      rw [if_pos rfl, NameTables.getOrCreateID_fst h.named, hname, Option.getD_some]
    · rw [if_neg hsame, hname]
  | addID other name' =>
    obtain ⟨hnone, hgives⟩ := NameTables.addID_gives hstep
    rw [hgives.find?]
    by_cases hsame : entity = other
    · rw [hsame, hnone] at hname
      cases hname
    · rw [if_neg hsame, hname]

/-- The name that an entity without one gets is held by another entity just when it was supplied. -/
theorem RanTo.generated_taken_iff {calls : List NameCall} {names : NameTables}
    (h : RanTo calls names) {entity other : Entity} (hnone : names.find? entity = none)
    (hkind : other.kind = entity.kind) :
    names.find? other = some (names.getOrCreateID entity).1 ↔ NameCall.addID other
      (entity.kind.namePrefix ++ toString (entitiesOf entity.kind calls).card) ∈ calls := by
  rw [NameTables.getOrCreateID_fst h.named, hnone, Option.getD_none, h.size]
  refine ⟨fun hother => ?_, h.supplied other _⟩
  rcases h.origin other _ hother with hsupplied | ⟨n, hn, heq⟩
  · exact hsupplied
  · rw [hkind] at hn heq
    have hsize := Nat.repr_injective ((String.append_right_inj _).mp heq)
    rw [h.size] at hn
    omega

theorem NamesUnique.supplies {calls : List NameCall} (h : NamesUnique calls) :
    SuppliesNoGenerated calls := by
  intro before entity after hsplit hadds hfresh other hkind hsupplied
  obtain ⟨names, hrun⟩ := (run_spec before).2 hadds
  have hran := (run_spec before).1 names hrun
  have hnone := (hran.known entity).mpr hfresh
  obtain ⟨-, hnew⟩ := h before _ after hsplit names hrun _ _ rfl
  exact (hnew entity rfl hnone).2 other hkind (hfresh _ hsupplied)
    ((hran.generated_taken_iff hnone hkind).mpr hsupplied)

/-- Generated names are unique just when no name was supplied that is generated later on. -/
theorem namesUnique_iff (calls : List NameCall) :
    NamesUnique calls ↔ SuppliesNoGenerated calls := by
  refine ⟨NamesUnique.supplies, ?_⟩
  intro hsupplies before call after hsplit names hrun id names' hstep
  have hran := (run_spec before).1 names hrun
  refine ⟨fun entity name hname => hran.keeps hstep hname, ?_⟩
  rintro entity rfl hnone
  obtain ⟨rfl, rfl⟩ := NameTables.step_getOrCreateID.mp hstep
  refine ⟨?_, ?_⟩
  · rw [(names.getOrCreateID_gives entity).find?, if_pos rfl]
  · intro other hkind _ htaken
    exact hsupplies before entity after hsplit hran.addsOnce ((hran.known entity).mp hnone)
      other hkind ((hran.generated_taken_iff hnone hkind).mp htaken)

/-- The value that asks for a name behind one supplied as `%1` gets the name `%1` as well. -/
theorem suppliedName_taken : ¬ NamesUnique [.addID (.value (.operationResult 0 0)) "%1",
    .getOrCreateID (.value (.operationResult 1 0))] := by
  intro hunique
  have hadds : AddsOnce [.addID (.value (.operationResult 0 0)) "%1"] :=
    (@addsOnce_append [] _).mpr ⟨ranTo_nil.addsOnce, fun _ _ _ => by simp⟩
  have hnot := hunique.supplies [.addID (.value (.operationResult 0 0)) "%1"]
    (.value (.operationResult 1 0)) [] rfl hadds (by decide) (.value (.operationResult 0 0)) rfl
  exact hnot (by decide)

end Raksha.Ir
