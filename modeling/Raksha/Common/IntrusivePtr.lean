import Mathlib.Data.List.Sort
import Raksha.Common.Utils

/-!
# Reference counted pointers

`common/utils/intrusive_ptr.h`, `ref_counted.h` and `ref_counter.h`. Objects are told apart by the
order in which they are created. A pointer is a variable, a member of an object or the parameter of
`operator=`; the members of an object are destroyed with it.
-/

namespace Raksha.Common

/-! ### Counters -/

structure RefCounter where
  count : ℕ
deriving DecidableEq, Repr

namespace RefCounter

def fetchAdd (counter : RefCounter) (increment : ℕ) : ℕ × RefCounter :=
  (counter.count, ⟨(counter.count + increment) % 2 ^ 64⟩)

def fetchSub (counter : RefCounter) (decrement : ℕ) : Checked (ℕ × RefCounter) := do
  check (decrement ≤ counter.count) "FetchSub can decrement below zero."
  return (counter.count, ⟨counter.count - decrement⟩)

end RefCounter

/-! ### Objects and pointers -/

abbrev ObjectId : Type := ℕ

inductive PointerName
  | var (index : ℕ)
  | member (object : ObjectId) (field : ℕ)
  | other
deriving DecidableEq, Repr

def PointerName.isMemberOf (object : ObjectId) : PointerName → Bool
  | .member owner _ => owner = object
  | _ => false

def PointerName.field : PointerName → ℕ
  | .member _ field => field
  | _ => 0

/-- The objects that are not deleted with their counters, and the pointers with their `ptr_`. -/
structure Memory where
  objects : FlatHashMap ObjectId RefCounter
  pointers : FlatHashMap PointerName (Option ObjectId)
  created : ℕ
  deletions : List ObjectId

namespace Memory

def initial : Memory := ⟨∅, ∅, 0, []⟩

def get (memory : Memory) (pointer : PointerName) : Checked (Option ObjectId) :=
  match memory.pointers.lookup pointer with
  | some ptr => .ok ptr
  | none => .error "There is no such pointer."

def setPtr (memory : Memory) (pointer : PointerName) (ptr : Option ObjectId) : Memory :=
  { memory with pointers := memory.pointers.insertOrAssign pointer ptr }

def counterOf (memory : Memory) (object : ObjectId) : Checked RefCounter :=
  match memory.objects.lookup object with
  | some counter => .ok counter
  | none => .error "The object is deleted."

def setCounter (memory : Memory) (object : ObjectId) (counter : RefCounter) : Memory :=
  { memory with objects := memory.objects.insertOrAssign object counter }

/-- `new T`. -/
def newObject (memory : Memory) : Memory :=
  { memory.setCounter memory.created ⟨0⟩ with created := memory.created + 1 }

/-! ### Retain and release -/

def retain (memory : Memory) : Option ObjectId → Checked Memory
  | none => .ok memory
  | some object => do
    let counter ← memory.counterOf object
    return memory.setCounter object (counter.fetchAdd 1).2

/-- The members are destroyed in the reverse order of their declaration. -/
def membersOf (memory : Memory) (object : ObjectId) : List PointerName :=
  (memory.pointers.keys.filter (PointerName.isMemberOf object)).insertionSort
    fun p q => q.field ≤ p.field

def delete (memory : Memory) (object : ObjectId) : Memory :=
  { memory with objects := memory.objects.erase object, deletions := object :: memory.deletions }

/-- With the members that are destroyed when the object is deleted. -/
def release (memory : Memory) : Option ObjectId → Checked (Memory × List PointerName)
  | none => .ok (memory, [])
  | some object => do
    let counter ← memory.counterOf object
    let (old, counter) ← counter.fetchSub 1
    let memory := memory.setCounter object counter
    if old = 1 then return (memory.delete object, memory.membersOf object)
    else return (memory, [])

/-! ### The members of `intrusive_ptr` -/

/-- What a pointer is constructed from. -/
inductive Initializer
  | null
  | raw (object : ObjectId)
  | copy (source : PointerName)
  | convert (source : PointerName)
  | move (source : PointerName)
deriving DecidableEq, Repr

def construct (memory : Memory) (pointer : PointerName) : Initializer → Checked Memory
  | .null => .ok (memory.setPtr pointer none)
  | .raw object => do
    let memory ← memory.retain (some object)
    return memory.setPtr pointer (some object)
  | .copy source => do
    let ptr ← memory.get source
    let memory ← memory.retain ptr
    return memory.setPtr pointer ptr
  | .convert source => do
    let ptr ← memory.get source
    let memory ← memory.retain ptr
    return memory.setPtr pointer ptr
  | .move source => do
    let ptr ← memory.get source
    return (memory.setPtr pointer ptr).setPtr source none

/-- The destructor, up to the members of an object that it deletes. -/
def destroyPointer (memory : Memory) (pointer : PointerName) :
    Checked (Memory × List PointerName) := do
  let ptr ← memory.get pointer
  { memory with pointers := memory.pointers.erase pointer }.release ptr

/-- Destroys the pointers one after the other, each with all that goes away with it. -/
def destroyAll : ℕ → Memory → List PointerName → Checked Memory
  | _, memory, [] => .ok memory
  | 0, _, _ :: _ => .error "Pointers are left."
  | fuel + 1, memory, pointer :: pointers => do
    let (memory, members) ← memory.destroyPointer pointer
    destroyAll fuel memory (members ++ pointers)

/-- No pointer is destroyed twice, so their number is enough. -/
def destroy (memory : Memory) (pointer : PointerName) : Checked Memory :=
  destroyAll memory.pointers.keys.length memory [pointer]

def swap (memory : Memory) (this right : PointerName) : Checked Memory := do
  let tmp ← memory.get right
  let ptr ← memory.get this
  return (memory.setPtr right ptr).setPtr this tmp

/-- `operator=`: the parameter is constructed from the right side and destroyed at the end. -/
def assign (memory : Memory) (pointer : PointerName) (right : Initializer) : Checked Memory := do
  let memory ← memory.construct .other right
  let memory ← memory.swap pointer .other
  memory.destroy .other

/-- `make_intrusive_ptr`. -/
def create (memory : Memory) (pointer : PointerName) : Checked Memory :=
  memory.newObject.construct pointer (.raw memory.created)

/-! ### Operations of a program -/

inductive PointerOperation
  | newObject
  | create (pointer : PointerName)
  | construct (pointer : PointerName) (initializer : Initializer)
  | assign (pointer : PointerName) (right : Initializer)
  | destroy (index : ℕ)
deriving DecidableEq, Repr

def perform (memory : Memory) : PointerOperation → Checked Memory
  | .newObject => .ok memory.newObject
  | .create pointer => memory.create pointer
  | .construct pointer initializer => memory.construct pointer initializer
  | .assign pointer right => memory.assign pointer right
  | .destroy index => memory.destroy (.var index)

end Memory

end Raksha.Common
