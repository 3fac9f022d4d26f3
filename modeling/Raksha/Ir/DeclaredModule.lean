import Raksha.Ir.Isomorphism

/-!
# Blocks with results

Blocks as `ir/module.h` and `ir/block_builder.h` have them: with an identity of their own, declared
outputs and named results. Types of outputs play no part.
-/

namespace Raksha.Ir
open Raksha.Common

structure DeclaredBlock extends Block where
  address : Address
  outputs : List String := []
  results : FlatHashMap String Value := ∅
  /-- `AddResult` asks for a declaration. -/
  declared : ∀ name ∈ results, name ∈ outputs

namespace BlockBuilder

def new (address : Address) : DeclaredBlock where
  operations := []
  address
  declared name h := absurd h (AList.notMem_empty name)

theorem declared_tryInsert {outputs : List String} {results : FlatHashMap String Value}
    (declared : ∀ name ∈ results, name ∈ outputs) {name : String} (h : name ∈ outputs)
    (output : Value) : ∀ other ∈ (results.tryInsert name output).1, other ∈ outputs := by
  intro other hother
  rw [FlatHashMap.mem_iff_lookup, FlatHashMap.lookup_tryInsert] at hother
  by_cases hsame : other = name
  · rwa [hsame]
  · rw [if_neg hsame] at hother
    exact declared other ((FlatHashMap.mem_iff_lookup _ _).mpr hother)

def addResult (block : DeclaredBlock) (name : String) (output : Value) : Checked DeclaredBlock :=
  if h : name ∈ block.outputs then
    .ok { block with
      results := (block.results.tryInsert name output).1
      declared := declared_tryInsert block.declared h output }
  else .error ("Output '" ++ name ++ "' is not declared in the block.")

def addOperation (block : DeclaredBlock) (operation : Operation) : DeclaredBlock :=
  { block with operations := block.operations ++ [operation] }

end BlockBuilder

/-- `ir::Module`. Operations and blocks are told apart by their addresses. -/
structure DeclaredModule where
  blocks : List DeclaredBlock
  distinct : ((blocks.flatMap fun block => block.operations).map Operation.address).Nodup
  distinctBlocks : (blocks.map DeclaredBlock.address).Nodup

namespace DeclaredModule

def operations (module : DeclaredModule) : List Operation :=
  module.blocks.flatMap fun block => block.operations

def layout (module : DeclaredModule) : Layout where
  operationAt b k := (module.blocks[b]?).bind fun block =>
    (block.operations[k]?).map Operation.address
  blockAt b := (module.blocks[b]?).map DeclaredBlock.address

theorem operationAt_layout {module : DeclaredModule} {b k : ℕ} {block : DeclaredBlock}
    {op : Operation} (hblock : module.blocks[b]? = some block)
    (hop : block.operations[k]? = some op) :
    module.layout.operationAt b k = some op.address := by
  simp only [layout, hblock, Option.bind_some, hop, Option.map_some]

theorem blockAt_layout {module : DeclaredModule} {b : ℕ} {block : DeclaredBlock}
    (hblock : module.blocks[b]? = some block) :
    module.layout.blockAt b = some block.address := by
  simp only [layout, hblock, Option.map_some]

/-- The same operations in order and the same named results. -/
structure SameBlock (layout layout' : Layout) (block block' : DeclaredBlock) : Prop where
  operations : List.Forall₂ (SameOperation layout layout') block.operations block'.operations
  results : ∀ name, Option.Rel (SameValue layout layout') (block.results.lookup name)
    (block'.results.lookup name)

def Isomorphic (module module' : DeclaredModule) : Prop :=
  List.Forall₂ (SameBlock module.layout module'.layout) module.blocks module'.blocks

end DeclaredModule

end Raksha.Ir
