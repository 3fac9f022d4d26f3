import Raksha.Ir.Module

/-!
# Isomorphic modules

Two modules with the same operations at the same places. Their operations and blocks live at
different addresses, so a value of the one stands for the value at the same place of the other.
-/

namespace Raksha.Ir
open Raksha.Common

/-- The addresses of the operations by block and position, and those of the blocks. -/
structure Layout where
  operationAt : ℕ → ℕ → Option Address
  blockAt : ℕ → Option Address

/-- The values are the same result of operations at the same place or the same argument of blocks at
the same place, or both can be anything. -/
inductive SameValue (layout layout' : Layout) : Value → Value → Prop
  | any : SameValue layout layout' .any .any
  | result {b k i : ℕ} {a a' : Address} (h : layout.operationAt b k = some a)
      (h' : layout'.operationAt b k = some a') :
      SameValue layout layout' (.operationResult a i) (.operationResult a' i)
  | argument {b i : ℕ} {a a' : Address} (h : layout.blockAt b = some a)
      (h' : layout'.blockAt b = some a') :
      SameValue layout layout' (.blockArgument a i) (.blockArgument a' i)

structure SameOperation (layout layout' : Layout) (operation operation' : Operation) : Prop where
  op : operation'.op = operation.op
  attributes : ∀ name, operation'.attributes.lookup name = operation.attributes.lookup name
  inputs : List.Forall₂ (SameValue layout layout') operation.inputs operation'.inputs

/-- The blocks of a module have no addresses of their own. -/
def Module.layout (module : Module) : Layout where
  operationAt b k := (module.blocks[b]?).bind fun block =>
    (block.operations[k]?).map Operation.address
  blockAt _ := none

theorem Module.operationAt_layout {module : Module} {b k : ℕ} {block : Block} {op : Operation}
    (hblock : module.blocks[b]? = some block) (hop : block.operations[k]? = some op) :
    module.layout.operationAt b k = some op.address := by
  simp only [layout, hblock, Option.bind_some, hop, Option.map_some]

/-- The same blocks in order with the same operations in order. -/
def Isomorphic (module module' : Module) : Prop :=
  List.Forall₂ (fun block block' =>
    List.Forall₂ (SameOperation module.layout module'.layout) block.operations block'.operations)
    module.blocks module'.blocks

theorem Isomorphic.exists_operation {module module' : Module} (h : Isomorphic module module')
    {op : Operation} (hop : op ∈ module.operations) :
    ∃ op' ∈ module'.operations, SameOperation module.layout module'.layout op op' := by
  obtain ⟨block, hblock, hop⟩ := List.mem_flatMap.mp hop
  obtain ⟨b, hb⟩ := List.mem_iff_getElem?.mp hblock
  obtain ⟨block', hb', hsame⟩ := forall₂_left h.flip hb
  obtain ⟨k, hk⟩ := List.mem_iff_getElem?.mp hop
  obtain ⟨op', hk', hoperation⟩ := forall₂_left hsame.flip hk
  exact ⟨op', List.mem_flatMap.mpr ⟨block', List.mem_of_getElem? hb', List.mem_of_getElem? hk'⟩,
    hoperation⟩

end Raksha.Ir
