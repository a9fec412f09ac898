import CrosKernel.Memory.PageAllocator

/-!
# The kernel heap

`src/memory/heap.cpp`. The heap is an array of blocks. A block has a header of three words (its size
in words, the next free block and a flag that says that it is in use), its data, and a footer of two
words (size and flag). The free blocks form a list, and two rovers, `search_previous` and
`search_current`, walk along it between the calls. `expand_heap` is left out: a call that needs it
yields `none`, as does a loop that runs out of fuel.
-/

namespace CrosKernel.Memory

/-- The global variables of `heap.cpp` with the memory, whose words go by their addresses. -/
structure Heap where
  mem : Nat → Nat
  heap : Nat
  linkedListStart : Nat
  searchStart : Nat
  searchPrevious : Nat
  searchCurrent : Nat
  heapEnd : Nat

/-- `OVERHEAD`. -/
def OVERHEAD : Nat := 5

/-- `ALIGN`. -/
def align (size : Nat) : Nat := (size + 7) % 2 ^ 64 / 8 * 8

namespace Heap

/-- `p[i]`, for a pointer to words. -/
def word (h : Heap) (p i : Nat) : Nat := h.mem (p + 8 * i)

/-- `p[i] = value`. -/
def setWord (h : Heap) (p i value : Nat) : Heap :=
  { h with mem := Function.update h.mem (p + 8 * i) value }

/-- `overhead_adj_size / SIZE_T_SIZE`: the difference is stored in an `int` and widened again. -/
def initialSize (memSize : Nat) : Nat :=
  let low := sub64 memSize (8 * OVERHEAD) % 2 ^ 32
  (if low < 2 ^ 31 then low else low + (2 ^ 64 - 2 ^ 32)) / 8

/-- `init_heap`. -/
def initHeap (mem : Nat → Nat) (heapPtr memSize : Nat) : Heap :=
  let h : Heap := ⟨mem, heapPtr, 0, 0, 0, 0, 0⟩
  let h := h.setWord heapPtr 0 (initialSize memSize)
  let h := h.setWord heapPtr 1 0
  let h := h.setWord heapPtr 2 0
  let h := h.setWord heapPtr (memSize / 8 - 2) (h.word heapPtr 0)
  let h := h.setWord heapPtr (memSize / 8 - 1) (h.word heapPtr 1)
  { h with linkedListStart := heapPtr, searchStart := heapPtr, searchCurrent := heapPtr,
           heapEnd := heapPtr + 8 * (memSize / 8) }

/-- The five assignments of `split_blk` to the header and the footer of a block. -/
def writeBlk (h : Heap) (blk size next flag : Nat) : Heap :=
  let h := h.setWord blk 0 size
  let h := h.setWord blk 1 next
  let h := h.setWord blk 2 flag
  let h := h.setWord blk (h.word blk 0 + OVERHEAD - 2) (h.word blk 0)
  h.setWord blk (h.word blk 0 + OVERHEAD - 1) flag

/-- `if (old == p) { p = new; }`, for a pointer `p` that is kept up to date. -/
def redirect (old new p : Nat) : Nat := if old = p then new else p

/-- `split_blk`, with the address that it returns. -/
def splitBlk (h : Heap) (size blk : Nat) : Heap × Nat :=
  let split := blk + 8 * (size / 8) + 8 * OVERHEAD
  let h := h.writeBlk split (sub64 (sub64 (h.word blk 0) (size / 8)) OVERHEAD) (h.word blk 1) 0
  let h := if h.searchPrevious ≠ 0 ∧ h.word h.searchPrevious 1 ≠ 0 then
    h.setWord h.searchPrevious 1 split else h
  let h := { h with linkedListStart := redirect blk split h.linkedListStart,
                    searchPrevious := redirect blk split h.searchPrevious,
                    searchCurrent := redirect blk split h.searchCurrent }
  (h.writeBlk blk (size / 8) 0 1, blk + 8 * 3)

/-- One pass of the loop of `find_fit` at a block that is taken as it is. -/
def takeBlk (h : Heap) : Heap × Nat :=
  let blk := h.searchCurrent
  let h := if h.searchPrevious ≠ 0 ∧ h.searchCurrent ≠ h.searchStart then
    h.setWord h.searchPrevious 1 (h.word blk 1) else h
  let h := { h with searchCurrent := h.word blk 1 }
  let h := h.setWord blk 2 1
  let h := h.setWord blk (h.word blk 0 + 2) 1
  (h, blk + 8 * 3)

/-- The loop of `find_fit`. The address is 0 when no block is big enough. -/
def findFitLoop (size : Nat) : Nat → Heap → Option (Heap × Nat)
  | 0, _ => none
  | fuel + 1, h =>
      if h.word h.searchCurrent 0 * 8 % 2 ^ 64 = (size + OVERHEAD) % 2 ^ 64 then some h.takeBlk
      else if align ((size + (OVERHEAD + 1) * 8 * 2) % 2 ^ 64) <
          h.word h.searchCurrent 0 * 8 % 2 ^ 64 then
        some (h.splitBlk size h.searchCurrent)
      else
        let next := if h.word h.searchCurrent 1 ≠ 0 then h.word h.searchCurrent 1
          else h.linkedListStart
        let h := { h with searchPrevious := h.searchCurrent, searchCurrent := next }
        if h.searchPrevious ≠ 0 ∧ h.searchStart ≠ h.searchCurrent ∧ h.searchCurrent < h.heapEnd then
          findFitLoop size fuel h
        else some (h, 0)

/-- `find_fit`. -/
def findFit (fuel : Nat) (h : Heap) (size : Nat) : Option (Heap × Nat) :=
  findFitLoop size fuel { h with searchStart := h.searchCurrent }

/-- `rmalloc` without the expansion of the heap. -/
def rmalloc (fuel : Nat) (h : Heap) (size : Nat) : Option (Heap × Nat) := do
  let (h, block) ← findFit fuel h (align size)
  if block = 0 then none else some (h, block)

/-- The inner loop of `rebuild_list`: the next block that is free. -/
def skipUsed (h : Heap) : Nat → Nat → Option Nat
  | 0, _ => none
  | fuel + 1, cur =>
      if h.word cur 2 ≠ 0 then skipUsed h fuel (cur + 8 * h.word cur 0 + 8 * OVERHEAD) else some cur

/-- The outer loop of `rebuild_list`, with the last block that was linked. -/
def rebuildLoop (current : Nat) : Nat → Heap → Nat → Nat → Option (Heap × Nat)
  | 0, _, _, _ => none
  | fuel + 1, h, prev, cur =>
      if cur < h.heapEnd then do
        let cur ← h.skipUsed fuel cur
        if cur ≠ h.linkedListStart then
          let h := if cur = current then { h with searchPrevious := prev, searchCurrent := cur }
            else h
          let h := h.setWord prev 1 cur
          rebuildLoop current fuel h cur (cur + 8 * h.word cur 0 + 8 * OVERHEAD)
        else some (h, prev)
      else some (h, prev)

/-- `rebuild_list`. -/
def rebuildList (fuel : Nat) (h : Heap) (current : Nat) : Option Heap := do
  let (h, prev) ← rebuildLoop current fuel h h.linkedListStart h.heap
  let h := if current = h.linkedListStart ∧ h.word h.linkedListStart 1 ≠ 0 then
    { h with searchPrevious := h.linkedListStart, searchCurrent := h.word h.linkedListStart 1 }
    else h
  some (h.setWord prev 1 0)

/-- The part of `merge` that adds the block `next` to the block `current` in front of it. -/
def absorb (h : Heap) (current next : Nat) : Heap :=
  let h := h.setWord current 0 (h.word current 0 + h.word next 0 + OVERHEAD)
  let h := h.setWord next 1 0
  let h := { h with linkedListStart := redirect next current h.linkedListStart,
                    searchCurrent := redirect next current h.searchCurrent }
  h.setWord current (h.word current 0 + OVERHEAD - 2) (h.word current 0)

/-- `previous` in `merge`: the block in front of `current` if it is free. -/
def previousFree (h : Heap) (current : Nat) : Option Nat :=
  if current ≠ h.heap ∧ h.mem (current - 8) = 0 then
    some (current - 8 * (h.mem (current - 16) + OVERHEAD))
  else none

/-- `next` in `merge`: the block behind `current` if it is free. -/
def nextFree (h : Heap) (current : Nat) : Option Nat :=
  let behind := current + 8 * h.word current 0 + 8 * OVERHEAD
  if h.word behind 2 = 0 ∧ behind + 8 * 2 < h.heapEnd then some behind else none

/-- `merge`. -/
def merge (fuel : Nat) (h : Heap) (current : Nat) : Option Heap :=
  let previous := h.previousFree current
  let next := h.nextFree current
  let h₁ := previous.elim h fun previous => h.absorb previous current
  let current := previous.getD current
  let h₂ := next.elim h₁ fun next => h₁.absorb current next
  if previous.isSome ∨ next.isSome then rebuildList fuel h₂ current else some h₂

/-- The part of `rfree` that inserts a block into the linked list. -/
def insertBlk (h : Heap) (blk : Nat) : Heap :=
  let h := if h.searchPrevious ≠ 0 then
      (h.setWord blk 1 (h.word h.searchPrevious 1)).setWord h.searchPrevious 1 blk
    else
      let h := { h with searchPrevious := h.linkedListStart }
      h.setWord h.searchPrevious 1 blk
  { h with searchCurrent := blk }

/-- `rfree`. -/
def rfree (fuel : Nat) (h : Heap) (ptr : Nat) : Option Heap :=
  let blk := ptr - 8 * 3
  let h := h.setWord blk 2 0
  let h := h.setWord blk (h.word blk 0 + OVERHEAD - 1) 0
  merge fuel (h.insertBlk blk) blk

end Heap

end CrosKernel.Memory
