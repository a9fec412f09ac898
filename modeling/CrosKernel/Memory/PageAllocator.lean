import CrosKernel.Memory.MemoryMap
import CrosKernel.Util.Math

/-!
# The page allocator

`PageAllocator` of `src/memory/pageallocator.cpp`: a buddy allocator whose lists run through the
array `blockMap`, one `Block` for each page. Addresses and counters are `unsigned long` values.
An operation returns `none` where the code would follow a null pointer, leave one of its arrays,
divide by zero or shift a word by its width.
-/

namespace CrosKernel.Memory

open Util

/-- The values of `Block::tag`. -/
inductive Tag where
  | RESERVED | FREE
  deriving DecidableEq, Repr

/-- A `Block *`: into the array `availList` of the allocator or into `blockMap`. -/
inductive BlockPtr where
  | null | availList (k : Nat) | blockMap (index : Nat)
  deriving DecidableEq, Repr

/-- `PageAllocator::Block`. -/
structure Block where
  linkf : BlockPtr
  linkb : BlockPtr
  kval : Nat
  tag : Tag
  deriving DecidableEq, Repr

/-- `sizeof(PageAllocator::Block)`. -/
def sizeofBlock : Nat := 32

/-- `PageAllocator::availListSize`. -/
def availListSize : Nat := 32

/-- `PageAllocator::NOMEM`. -/
def NOMEM : Nat := 2 ^ 64 - 1

/-- `PageAllocator`, with the contents of the blocks of both arrays. -/
structure PageAllocator where
  blocks : BlockPtr → Block
  blockMapSize : Nat
  maxKVal : Nat
  blockSize : Nat
  offset : Nat
  freeBlockCount : Nat

namespace PageAllocator

/-- The number of blocks in `blockMap`. -/
def numBlocks (a : PageAllocator) : Nat := a.blockMapSize / sizeofBlock

/-- The pointers to the blocks of the two arrays. -/
def InBounds (numBlocks : Nat) : BlockPtr → Prop
  | .null => False
  | .availList k => k < availListSize
  | .blockMap index => index < numBlocks

instance (numBlocks : Nat) (p : BlockPtr) : Decidable (InBounds numBlocks p) :=
  match p with
  | .null => .isFalse id
  | .availList k => inferInstanceAs (Decidable (k < availListSize))
  | .blockMap index => inferInstanceAs (Decidable (index < numBlocks))

/-- The block at a pointer. -/
def load (a : PageAllocator) (p : BlockPtr) : Option Block :=
  if InBounds a.numBlocks p then some (a.blocks p) else none

/-- Assign the block at a pointer. -/
def store (a : PageAllocator) (p : BlockPtr) (b : Block) : Option PageAllocator :=
  if InBounds a.numBlocks p then some { a with blocks := Function.update a.blocks p b } else none

/-! ## Inserting a block -/

/-- The statements of `insert` that take the buddy out of its list. -/
def unlink (a : PageAllocator) (buddyIndex : Nat) : Option PageAllocator := do
  let buddy ← a.load (.blockMap buddyIndex)
  let behind ← a.load buddy.linkb
  let a ← a.store buddy.linkb { behind with linkf := buddy.linkf }
  let buddy ← a.load (.blockMap buddyIndex)
  let before ← a.load buddy.linkf
  let a ← a.store buddy.linkf { before with linkb := buddy.linkb }
  let buddy ← a.load (.blockMap buddyIndex)
  a.store (.blockMap buddyIndex) { buddy with tag := .RESERVED }

/-- The loop of `insert`, which merges the block with its buddy while `remaining` orders are left
up to `maxKVal`. -/
def mergeLoop (a : PageAllocator) (index k : Nat) : Nat → Option (PageAllocator × Nat × Nat)
  | 0 => some (a, index, k)
  | remaining + 1 => do
      let buddyIndex := index ^^^ 2 ^ k
      let buddy ← a.load (.blockMap buddyIndex)
      if buddy.tag ≠ .FREE ∨ buddy.kval ≠ k then some (a, index, k)
      else
        let a ← a.unlink buddyIndex
        mergeLoop a (if buddyIndex < index then buddyIndex else index) (k + 1) remaining

/-- The statements of `insert` that put the merged block into the list of its order. -/
def link (a : PageAllocator) (index k : Nat) : Option PageAllocator := do
  let head ← a.load (.availList k)
  let p := head.linkf
  let a ← a.store (.blockMap index) ⟨p, .availList k, k, .FREE⟩
  let first ← a.load p
  let a ← a.store p { first with linkb := .blockMap index }
  let head ← a.load (.availList k)
  a.store (.availList k) { head with linkf := .blockMap index }

/-- `PageAllocator::insert`. -/
def insert (a : PageAllocator) (index k : Nat) : Option PageAllocator := do
  let a := { a with freeBlockCount := (a.freeBlockCount + 2 ^ k) % 2 ^ 64 }
  let (a, index, k) ← a.mergeLoop index k (a.maxKVal - k)
  a.link index k

/-! ## Reserving and freeing -/

/-- The loop of `reserve` that looks for a list with blocks, with `remaining` orders left from `j`
on. -/
def findLoop (a : PageAllocator) (j : Nat) : Nat → Option (Option Nat)
  | 0 => some none
  | remaining + 1 => do
      let head ← a.load (.availList j)
      if head.linkf ≠ .availList j then some (some j) else findLoop a (j + 1) remaining

/-- The statements of `reserve` that take the last block out of the list of order `j`. -/
def pop (a : PageAllocator) (j : Nat) : Option (PageAllocator × BlockPtr) := do
  let head ← a.load (.availList j)
  let block := head.linkb
  let last ← a.load block
  let a ← a.store (.availList j) { head with linkb := last.linkb }
  let before ← a.load last.linkb
  let a ← a.store last.linkb { before with linkf := .availList j }
  let last ← a.load block
  let a ← a.store block { last with tag := .RESERVED }
  pure (a, block)

/-- The loop of `reserve` that splits a block down to order `k`, with `remaining` halvings left. -/
def splitLoop (a : PageAllocator) (index k : Nat) : Nat → Option PageAllocator
  | 0 => some a
  | remaining + 1 => do
      let j := k + remaining
      let buddy := .blockMap (index + 2 ^ j)
      let a ← a.store buddy ⟨.availList j, .availList j, j, .FREE⟩
      let block ← a.load (.blockMap index)
      let a ← a.store (.blockMap index) { block with kval := j }
      let head ← a.load (.availList j)
      let a ← a.store (.availList j) { head with linkb := buddy, linkf := buddy }
      splitLoop a index k remaining

/-- The body of the loop of `reserve` at the list of order `j`, which returns the address of a block
of order `k`. -/
def takeBlock (a : PageAllocator) (k j : Nat) : Option (PageAllocator × Nat) := do
  match ← a.pop j with
  | (a, .blockMap index) => do
      let a ← a.splitLoop index k (j - k)
      let location := (a.offset + index * a.blockSize) % 2 ^ 64
      pure ({ a with freeBlockCount := sub64 a.freeBlockCount (2 ^ k) }, location)
  | _ => none

/-- The order of the block that `reserve` looks for. -/
def orderOf (a : PageAllocator) (size : Nat) : Nat :=
  llog2 ((sub64 size 1 / a.blockSize + 1) % 2 ^ 64)

/-- `PageAllocator::reserve`. -/
def reserve (a : PageAllocator) (size : Nat) : Option (PageAllocator × Nat) :=
  if a.blockSize = 0 then none
  else do
    let k := a.orderOf size
    match ← a.findLoop k (a.maxKVal + 1 - k) with
    | none => some (a, NOMEM)
    | some j => a.takeBlock k j

/-- `PageAllocator::free`. -/
def free (a : PageAllocator) (location : Nat) : Option (PageAllocator × Nat) :=
  if a.blockSize = 0 then none
  else do
    let index := sub64 location a.offset / a.blockSize
    let block ← a.load (.blockMap index)
    let a' ← a.insert index block.kval
    pure (a', 2 ^ block.kval * a.blockSize % 2 ^ 64)

/-! ## Construction -/

/-- The loop of `mapSize` that looks for the last region that is available, with `index` regions
left below. -/
def lastAvailable (map : MemoryMap) : Nat → Option MemoryRegion
  | 0 => none
  | index + 1 => do
      let region ← map[index]?
      if region.type = .AVAILABLE then some region else lastAvailable map index

/-- `PageAllocator::mapSize`. -/
def mapSize (map : MemoryMap) (blockSize : Nat) : Option Nat := do
  let region ← lastAvailable map map.length
  if blockSize = 0 then none
  else
    let shift := llog2 (sizeofBlock * region.finish % 2 ^ 64 / blockSize)
    if shift < 64 then some (2 ^ shift) else none

/-- The loop of the constructor that empties the lists, with `remaining` orders left from `k` on. -/
def initLists (a : PageAllocator) (k : Nat) : Nat → Option PageAllocator
  | 0 => some a
  | remaining + 1 => do
      let head ← a.load (.availList k)
      let a ← a.store (.availList k) { head with linkf := .availList k, linkb := .availList k }
      initLists a (k + 1) remaining

/-- The loop of the constructor that reserves all blocks, with `remaining` blocks left from `index`
on. -/
def initBlocks (a : PageAllocator) (index : Nat) : Nat → Option PageAllocator
  | 0 => some a
  | remaining + 1 => do
      let a ← a.store (.blockMap index) ⟨.null, .null, 0, .RESERVED⟩
      initBlocks a (index + 1) remaining

/-- The loop of the constructor over the pages of a region. A step passes `blockSize` bytes of the
region. -/
def insertPages (finish : Nat) : Nat → PageAllocator → Nat → Option PageAllocator
  | 0, _, _ => none
  | fuel + 1, a, location =>
      if (location + a.blockSize) % 2 ^ 64 ≤ finish then do
        let a ← a.insert (location / a.blockSize) 0
        let a := { a with freeBlockCount := (a.freeBlockCount + 1) % 2 ^ 64 }
        insertPages finish fuel a ((location + a.blockSize) % 2 ^ 64)
      else some a

/-- The first page boundary in a region. -/
def firstPage (location blockSize : Nat) : Nat :=
  let location := (location + blockSize + (2 ^ 64 - 1)) % 2 ^ 64
  location - location % blockSize

/-- The loop of the constructor over the regions. -/
def insertRegions : MemoryMap → PageAllocator → Option PageAllocator
  | [], a => some a
  | region :: map, a =>
      if region.type ≠ .AVAILABLE then insertRegions map a
      else do
        let a ← insertPages region.finish (region.finish / a.blockSize + 1) a
          (firstPage region.location a.blockSize)
        insertRegions map a

/-- `PageAllocator::PageAllocator`, where `mapBase` is what lies in the two arrays before. -/
def construct (map : MemoryMap) (mapBase : BlockPtr → Block) (blockSize : Nat) :
    Option PageAllocator := do
  let blockMapSize ← mapSize map blockSize
  let a : PageAllocator :=
    { blocks := mapBase
      blockMapSize := blockMapSize
      maxKVal := llog2 (blockMapSize / sizeofBlock)
      blockSize := blockSize
      offset := 0
      freeBlockCount := 0 }
  let a ← a.initLists 0 (a.maxKVal + 1)
  let a ← a.initBlocks 0 a.numBlocks
  insertRegions map a

end PageAllocator

end CrosKernel.Memory
