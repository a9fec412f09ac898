import CrosKernel.Memory.HeapSearch
import CrosKernel.Memory.Mmu

/-!
# The expansion of the heap

`expand_heap` reserves frames, maps them at the end of the heap and moves the end up. It counts the
size as bytes when it maps and as words when it moves the end, and it makes no block of the new
memory. `rmalloc` searches a second time after it.
-/

namespace CrosKernel.Memory

open Lib

/-- `PAGE_RW`. -/
def PAGE_RW : Nat := 1

/-- The loop of `next_power_of_2`, which runs at most once for each bit of the word. -/
def shiftCount : Nat → Nat → Nat
  | 0, _ => 0
  | bits + 1, n => if n ≠ 0 then shiftCount bits (n / 2) + 1 else 0

/-- `1 << count`. The shift is one of an `int` that is widened: a shift by 31 gives the smallest
`int`, and from 32 on it is not defined. -/
def shiftOne (count : Nat) : Option Nat :=
  if count < 31 then some (2 ^ count)
  else if count = 31 then some (2 ^ 64 - 2 ^ 31)
  else none

/-- `next_power_of_2`. -/
def nextPowerOf2 (n : Nat) : Option Nat :=
  if n ≠ 0 ∧ n &&& (n - 1) = 0 then some n else shiftOne (shiftCount 64 n)

/-- The pages that `map_region` writes the entries of. -/
def mappedPages (addr size : Nat) : List Nat :=
  (Mmu.offsets size).map fun p => (addr + p) % 2 ^ 64 / pageSize

/-- The words of the memory after `map_region` put frames behind the pages; `fresh` is what the
frames hold. -/
def remap (fresh mem : Nat → Nat) (addr size : Nat) : Nat → Nat := fun a =>
  if a / pageSize ∈ mappedPages addr size then fresh a else mem a

/-- The heap and the machine that maps its pages. -/
structure MappedHeap where
  heap : Heap
  mmu : Mmu

namespace MappedHeap

/-- The heap after the assignment to `heap_end` in `expand_heap`. -/
def moveEnd (fresh : Nat → Nat) (h : Heap) (adjSize : Nat) : Heap :=
  { h with mem := remap fresh h.mem h.heapEnd adjSize,
           heapEnd := (h.heapEnd + 8 * adjSize) % 2 ^ 64 }

/-- `expand_heap`. -/
def expandHeap (fuel : Nat) (fresh : Nat → Nat) (s : MappedHeap) (size : Nat) :
    Option MappedHeap := do
  let adjSize ← nextPowerOf2 size
  let (a, newFrame) ← s.mmu.pageAllocator.reserve (if size ≤ 4096 then 4096 else adjSize)
  let m ← Mmu.mapRegion fuel { s.mmu with pageAllocator := a } s.heap.heapEnd adjSize newFrame
    PAGE_RW
  let h ← Heap.rebuildList fuel (moveEnd fresh s.heap adjSize) s.heap.searchCurrent
  pure ⟨h, m⟩

/-- `rmalloc`. -/
def rmalloc (fuel : Nat) (fresh : Nat → Nat) (s : MappedHeap) (size : Nat) :
    Option (MappedHeap × Nat) := do
  let (h, block) ← s.heap.findFit fuel (align size)
  if block ≠ 0 then pure (⟨h, s.mmu⟩, block)
  else
    let s ← expandHeap fuel fresh ⟨h, s.mmu⟩ size
    let (h, block) ← s.heap.findFit fuel (align size)
    pure (⟨h, s.mmu⟩, block)

end MappedHeap

variable {h h' : Heap} {s s' : MappedHeap} {tiles : List Tile} {t : Tile} {fresh mem : Nat → Nat}
  {addr size fuel a : Nat}

/-! ## Memory below the new frames -/

theorem mem_mappedPages {page : Nat} : page ∈ mappedPages addr size ↔
    ∃ k < (size + pageSize - 1) / pageSize, (addr + k * pageSize) % 2 ^ 64 / pageSize = page := by
  simp [mappedPages, Mmu.offsets]

/-- The pages in front of the one that the region begins in stay, unless the region goes round the
address space and comes to them again. -/
theorem remap_below (haddr : addr < 2 ^ 64)
    (hround : addr + size ≤ 2 ^ 64 + a / pageSize * pageSize)
    (ha : a < addr / pageSize * pageSize) : remap fresh mem addr size a = mem a := by
  refine if_neg fun hmem => ?_
  obtain ⟨k, hk, hpage⟩ := mem_mappedPages.1 hmem
  unfold pageSize at *
  omega

namespace Heap

/-- The last block ends behind all others. -/
theorem Laid.blocks_end (hl : Laid h tiles) (ht : t ∈ tiles) :
    t.addr + 8 * (t.words + 5) ≤
      h.linkedListStart + 8 * (h.word h.linkedListStart 0 + OVERHEAD) := by
  obtain ⟨init, z, rfl, -, hstart⟩ := hl.last
  obtain ⟨e, htiling, -⟩ := hl.tiling
  have hsize : h.word z.addr 0 = z.words := (hl.tagged z (by simp)).size
  obtain ⟨c, -, hz, hend⟩ := tiling_append.1 htiling
  have hbound := (htiling.bounds ht).2
  have hlen : t.len = 8 * (t.words + 5) := rfl
  have hlen' : z.len = 8 * (z.words + 5) := rfl
  rw [← hstart, hsize, OVERHEAD]
  change c + z.len = e at hend
  omega

/-- The blocks and the rovers stay, and the end of the heap moves. -/
structure Moved (h h' : Heap) (tiles : List Tile) : Prop where
  heap : h'.heap = h.heap
  start : h'.linkedListStart = h.linkedListStart
  previous : h'.searchPrevious = h.searchPrevious
  current : h'.searchCurrent = h.searchCurrent
  words : ∀ t ∈ tiles, ∀ a, t.addr ≤ a → a < t.addr + 8 * (t.words + 5) → h'.mem a = h.mem a

theorem Moved.link (hmoved : Moved h h' tiles) (ha : a ∈ freeAddrs tiles) :
    h'.mem (a + 8) = h.mem (a + 8) := by
  obtain ⟨t, ht, -, rfl⟩ := mem_freeAddrs.1 ha
  exact hmoved.words t ht _ (by omega) (by omega)

theorem Moved.laid (hmoved : Moved h h' tiles) (hl : Laid h tiles) (hle : h.heapEnd ≤ h'.heapEnd)
    (hlt : h'.heapEnd < 2 ^ 64) : Laid h' tiles where
  tiling := by
    obtain ⟨e, htiling, he⟩ := hl.tiling
    rw [hmoved.heap]
    exact ⟨e, htiling, he.trans hle⟩
  tagged t ht := (hl.tagged t ht).congr fun a howns =>
    hmoved.words t ht a (Tile.owns_iff.1 howns).1 (Tile.owns_iff.1 howns).2.1
  last := by rw [hmoved.start]; exact hl.last
  heap_pos := by rw [hmoved.heap]; exact hl.heap_pos
  end_lt := hlt

/-- The blocks stay in order when the end of the heap moves up. -/
theorem Moved.ordered (hmoved : Moved h h' tiles) (hordered : Ordered h tiles)
    (hle : h.heapEnd ≤ h'.heapEnd) (hlt : h'.heapEnd < 2 ^ 64) : Ordered h' tiles := by
  obtain ⟨hl, hunlinked, chain, hlist, hrovers⟩ := hordered
  have hlink : ∀ x ∈ chain, h'.mem (x + 8) = h.mem (x + 8) := fun x hx =>
    hmoved.link (hlist.perm.mem_iff.1 hx)
  refine ⟨hmoved.laid hl hle hlt, fun t ht => ?_, chain,
    ⟨hlist.links.congr hlink, ?_, hlist.perm⟩, ?_⟩
  · rw [hmoved.words t (mem_usedTiles.1 ht).1 _ (by omega) (by omega)]
    exact hunlinked t ht
  · rw [hmoved.start]
    exact hlist.head
  · rw [Rovers, hmoved.previous, hmoved.current, hmoved.start]
    refine hrovers.imp_left fun hboth => ?_
    rw [hlink _ hboth.1]
    exact hboth

/-- In a heap whose blocks are in order `rebuild_list` leaves them in order, and the rovers at free
blocks, unless it leaves `search_previous` where it is. -/
theorem Ordered.rebuildList (hordered : Ordered h tiles)
    (hcurrent : h.searchCurrent ∈ freeAddrs tiles)
    (hrun : Heap.rebuildList fuel h h.searchCurrent = some h') :
    Ordered h' tiles ∧
      (h'.searchPrevious = h.searchPrevious ∨ h'.searchPrevious ∈ freeAddrs tiles) ∧
      h'.searchCurrent ∈ freeAddrs tiles := by
  obtain ⟨hl, hunlinked, chain, hlist, hrovers⟩ := hordered
  have hrebuilt := hl.rebuildList hrun
  have hkeep := hrebuilt.keeps
  refine ⟨⟨hrebuilt.laid, hunlinked.congr rfl (hkeep.mono fun t ht => (mem_usedTiles.1 ht).1),
    hrebuilt.linked hcurrent⟩, hrebuilt.previous hcurrent, ?_⟩
  obtain hmem | ⟨hone, heq⟩ := hrebuilt.found hcurrent
  · exact hmem
  · -- the only node of the list has no link
    have hchain : chain = [h.searchCurrent] := List.perm_singleton.1 (hone ▸ hlist.perm)
    have hlinks := hlist.links
    rw [hchain] at hlinks
    have hlink : h.mem (h.searchCurrent + 8) = 0 := (NullList.cons.1 hlinks).1
    rw [heq, if_pos hlink]
    exact hcurrent

/-- There is room for the end of the heap to move up to, and no block lies in the page that it is in
before. -/
structure GrowReady (h : Heap) (size : Nat) : Prop where
  room : ∀ adjSize, nextPowerOf2 size = some adjSize → h.heapEnd + 8 * adjSize < 2 ^ 64
  page : h.linkedListStart + 8 * (h.word h.linkedListStart 0 + OVERHEAD) ≤
    h.heapEnd / pageSize * pageSize

end Heap

namespace MappedHeap

open Heap

/-- The frames are mapped behind the blocks. -/
theorem moveEnd_moved {adjSize : Nat} (hl : Laid h tiles)
    (hround : h.heapEnd + adjSize ≤ 2 ^ 64 + h.heap / pageSize * pageSize)
    (hpage : ∀ t ∈ tiles, t.addr + 8 * (t.words + 5) ≤ h.heapEnd / pageSize * pageSize) :
    Moved h (moveEnd fresh h adjSize) tiles := by
  refine ⟨rfl, rfl, rfl, rfl, fun t ht a hlow hhigh => ?_⟩
  have hbounds := hl.bounds ht
  have hend := hpage t ht
  have hmono : h.heap / pageSize * pageSize ≤ a / pageSize * pageSize :=
    Nat.mul_le_mul_right _ (Nat.div_le_div_right (by omega))
  exact remap_below hl.end_lt (by omega) (by omega)

/-- What `expand_heap` does to the blocks: they stay as they are, and the rovers are at free ones.
-/
theorem expandHeap_ordered (hordered : Ordered s.heap tiles)
    (hprevious : s.heap.searchPrevious ∈ freeAddrs tiles)
    (hcurrent : s.heap.searchCurrent ∈ freeAddrs tiles) (hready : s.heap.GrowReady size)
    (hrun : expandHeap fuel fresh s size = some s') :
    Ordered s'.heap tiles ∧ s'.heap.searchPrevious ∈ freeAddrs tiles ∧
      s'.heap.searchCurrent ∈ freeAddrs tiles := by
  obtain ⟨adjSize, hadj, hrun⟩ := Option.bind_eq_some_iff.1 hrun
  obtain ⟨⟨allocator, newFrame⟩, -, hrun⟩ := Option.bind_eq_some_iff.1 hrun
  obtain ⟨m, -, hrun⟩ := Option.bind_eq_some_iff.1 hrun
  obtain ⟨h, hrebuild, hrun⟩ := Option.bind_eq_some_iff.1 hrun
  cases hrun
  have hroom := hready.room adjSize hadj
  have hmoved : Moved s.heap (moveEnd fresh s.heap adjSize) tiles :=
    moveEnd_moved hordered.1 (by omega) fun t ht => (hordered.1.blocks_end ht).trans hready.page
  have hend : (moveEnd fresh s.heap adjSize).heapEnd = s.heap.heapEnd + 8 * adjSize :=
    Nat.mod_eq_of_lt hroom
  have hordered' := hmoved.ordered hordered (by omega) (by omega)
  obtain ⟨hdone, hsame, hsearch⟩ := hordered'.rebuildList hcurrent hrebuild
  exact ⟨hdone, hsame.elim (fun hsame => hsame ▸ hprevious) id, hsearch⟩

end MappedHeap

end CrosKernel.Memory
