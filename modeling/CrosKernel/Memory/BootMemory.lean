import CrosKernel.Memory.HeapExhausted
import CrosKernel.Memory.PageFrames

/-!
# The memory at boot

The memory map that `aarch64_boot` of `src/aarch64/aarch64.cpp` describes, and `initMemory` of
`src/kernel.cpp`, which constructs the page allocator and the heap behind the image of the kernel.
`bootMemory_layout`: the two share no memory with each other, and none with what the kernel uses.
-/

namespace CrosKernel.Memory

open MemoryMap MemoryRegion Heap MappedHeap

/-! ## The code -/

/-- The memory map of `aarch64_boot`, with the offset of `__end` from `__high_mem`. -/
def bootMap (kernelSize imageEnd : Nat) : Option MemoryMap := do
  let (map, _) ← place [] .AVAILABLE 0 0x20000000
  let (map, _) ← place map MemoryType.MMIO 0x3f000000 0x1000000
  let (map, _) ← place map .UNAVAILABLE 0 kernelSize
  let size ← PageAllocator.mapSize map pageSize
  let (map, _) ← place map .UNAVAILABLE imageEnd size
  let (map, _) ← place map .UNAVAILABLE 0x8000000 (2 ^ 26)
  pure map

/-- `Kernel::initMemory`. `mapBase` is what lies behind the image of the kernel before, and `mem` are
the words of the memory. -/
def initMemory (mapBase : BlockPtr → Block) (mem : Nat → Nat) (map : MemoryMap)
    (kernelSize imageEnd : Nat) : Option (PageAllocator × Heap) := do
  let a ← PageAllocator.construct map mapBase pageSize
  let size ← PageAllocator.mapSize map pageSize
  let pageMapEnd := (highMem + imageEnd + size) % 2 ^ 64
  let pageMapEnd := (pageMapEnd + (pageSize - 1)) % 2 ^ 64 / pageSize * pageSize
  let heapSize := sub64 ((highMem + kernelSize) % 2 ^ 64) pageMapEnd
  pure (a, initHeap mem pageMapEnd heapSize)

/-! ## The map -/

/-- The size of the block map of the page allocator. -/
def blockMapBytes : Nat := 0x400000

/-- The map with the image of the kernel. -/
def imageMap (kernelSize : Nat) : MemoryMap :=
  [⟨.UNAVAILABLE, 0, kernelSize⟩, ⟨.AVAILABLE, kernelSize, 0x20000000 - kernelSize⟩,
    ⟨ MemoryType.MMIO, 0x3f000000, 0x1000000⟩]

/-- The map with the files of the initial file system. -/
def ramFSMap (kernelSize : Nat) : MemoryMap :=
  [⟨.UNAVAILABLE, 0, kernelSize⟩, ⟨.AVAILABLE, kernelSize, 0x8000000 - kernelSize⟩,
    ⟨.UNAVAILABLE, 0x8000000, 2 ^ 26⟩, ⟨.AVAILABLE, 0xC000000, 0x14000000⟩,
    ⟨ MemoryType.MMIO, 0x3f000000, 0x1000000⟩]

/-- The image of the kernel with the block map behind it, and room for a block of the heap. -/
structure BootLayout (kernelSize imageEnd : Nat) : Prop where
  image_pos : 0 < imageEnd
  image_page : imageEnd % pageSize = 0
  kernel_page : kernelSize % pageSize = 0
  room : imageEnd + blockMapBytes < kernelSize
  below : kernelSize < 0x8000000

variable {kernelSize imageEnd : Nat} {a : PageAllocator} {mapBase : BlockPtr → Block}
  {mem : Nat → Nat}

section Map

variable (h : BootLayout kernelSize imageEnd)
include h

theorem BootLayout.bounds : 0 < kernelSize ∧ imageEnd + 0x400000 < kernelSize ∧
    kernelSize < 0x8000000 := by
  have hroom := h.room
  have hbelow := h.below
  unfold blockMapBytes at hroom
  omega

/-- The image is cut off the front of the memory. -/
theorem place_image :
    place [⟨.AVAILABLE, 0, 0x20000000⟩, ⟨ MemoryType.MMIO, 0x3f000000, 0x1000000⟩] .UNAVAILABLE 0
        kernelSize =
      some (imageMap kernelSize, 0) := by
  obtain ⟨hpos, -, hbelow⟩ := h.bounds
  have hmod : kernelSize % 18446744073709551616 = kernelSize := by omega
  have hlt : kernelSize < 0x20000000 := by omega
  have hle : ¬ 0x20000000 ≤ kernelSize := by omega
  have hmmio : ¬ 0x3f000000 < kernelSize := by omega
  have hstop : kernelSize + (0x20000000 - kernelSize) = 0x20000000 := by omega
  have hsub : sub64 0x20000000 kernelSize = 0x20000000 - kernelSize := sub64_eq (by omega) (by omega)
  simp [imageMap, place, MemoryMap.insert, capacity, insertLoop, lt, trimLoop, trim, overlaps,
    contains, finish, remove, MemoryType.value, hmod, hpos, hlt, hle, hmmio, hstop, hsub]

/-- The block map lies in the part that was cut off. -/
theorem place_blockMap :
    place (imageMap kernelSize) .UNAVAILABLE imageEnd blockMapBytes =
      some (imageMap kernelSize, 0) := by
  obtain ⟨-, hroom, hbelow⟩ := h.bounds
  have hne : ¬ imageEnd = 0 := h.image_pos.ne'
  have hmod : kernelSize % 18446744073709551616 = kernelSize := by omega
  have hmod' : (imageEnd + 0x400000) % 18446744073709551616 = imageEnd + 0x400000 := by omega
  have hlt : imageEnd < kernelSize := by omega
  have hfront : ¬ imageEnd = kernelSize := by omega
  have hstop' : ¬ kernelSize < imageEnd + 0x400000 := by omega
  have hmmio : ¬ 0x3f000000 < kernelSize := by omega
  have hmmio' : kernelSize < 0x3f000000 := by omega
  have hback : ¬ kernelSize = 0x3f000000 := by omega
  have hstop : kernelSize + (0x20000000 - kernelSize) = 0x20000000 := by omega
  have hsub : sub64 kernelSize 0 = kernelSize := sub64_eq (by omega) (by omega)
  simp [imageMap, blockMapBytes, place, MemoryMap.insert, capacity, insertLoop, lt, trimLoop, trim,
    overlaps, contains, finish, remove, MemoryType.value, hne, hmod, hmod', hlt, hfront, hstop',
    hmmio, hmmio', hback, hstop, hsub]

/-- The files of the initial file system split the rest. -/
theorem place_ramFS :
    place (imageMap kernelSize) .UNAVAILABLE 0x8000000 (2 ^ 26) =
      some (ramFSMap kernelSize, 0) := by
  have hbelow := h.below
  have hmod : kernelSize % 18446744073709551616 = kernelSize := by omega
  have hfront : ¬ 0x8000000 < kernelSize := by omega
  have hle : ¬ 0x8000000 ≤ kernelSize := by omega
  have hne : ¬ 0x8000000 = kernelSize := by omega
  have hfront' : ¬ 0xC000000 < kernelSize := by omega
  have hne' : ¬ 0xC000000 = kernelSize := by omega
  have hstop : kernelSize + (0x20000000 - kernelSize) = 0x20000000 := by omega
  have hsize : ¬ 0x8000000 - kernelSize = 0 := by omega
  have hsub : sub64 0x8000000 kernelSize = 0x8000000 - kernelSize := sub64_eq (by omega) (by omega)
  have hsub' : sub64 0x20000000 0xC000000 = 0x14000000 := by decide
  simp [imageMap, ramFSMap, place, MemoryMap.insert, capacity, insertLoop, lt, trimLoop, trim,
    overlaps, contains, finish, remove, MemoryType.value, hbelow, hmod, hfront, hle, hne, hfront',
    hne', hstop, hsize, hsub, hsub']

theorem mapSize_imageMap : PageAllocator.mapSize (imageMap kernelSize) pageSize =
    some blockMapBytes := by
  have hbelow := h.below
  have hlast : PageAllocator.lastAvailable (imageMap kernelSize) (imageMap kernelSize).length =
      some ⟨.AVAILABLE, kernelSize, 0x20000000 - kernelSize⟩ := by
    simp [imageMap, PageAllocator.lastAvailable]
  have hfinish : (⟨.AVAILABLE, kernelSize, 0x20000000 - kernelSize⟩ : MemoryRegion).finish =
      0x20000000 := by
    unfold finish
    dsimp only
    omega
  rw [PageAllocator.mapSize, hlast, Option.bind_eq_bind, Option.bind_some, hfinish]
  decide

/-- The calls of `place` describe the memory. -/
theorem bootMap_eq : bootMap kernelSize imageEnd = some (ramFSMap kernelSize) := by
  have hfirst : place [] .AVAILABLE 0 0x20000000 = some ([⟨.AVAILABLE, 0, 0x20000000⟩], 0) := rfl
  have hmmio : place [⟨.AVAILABLE, 0, 0x20000000⟩] MemoryType.MMIO 0x3f000000 0x1000000 =
      some ([⟨.AVAILABLE, 0, 0x20000000⟩, ⟨ MemoryType.MMIO, 0x3f000000, 0x1000000⟩], 0) := rfl
  simp only [bootMap, hfirst, hmmio, place_image h, mapSize_imageMap h, place_blockMap h,
    place_ramFS h, Option.bind_eq_bind, Option.bind_some]
  rfl

/-! ## The page allocator and the heap -/

theorem disjoint_ramFSMap : (ramFSMap kernelSize).Disjoint pageSize := by
  have hbelow := h.below
  have hapart : (ramFSMap kernelSize).Pairwise fun r s => r.limit ≤ s.location := by
    simp [ramFSMap, limit]
    omega
  refine ⟨hapart.imp fun hle => (Nat.le_add_right ..).trans hle, hapart.imp ?_, ?_⟩
  · rintro r s hle ⟨x, ⟨-, hlt⟩, hge, -⟩
    exact absurd (hlt.trans_le (hle.trans hge)) (Nat.lt_irrefl x)
  · intro r hr htype
    simp only [ramFSMap, List.mem_cons, List.not_mem_nil, or_false] at hr
    obtain rfl | rfl | rfl | rfl | rfl := hr <;> unfold limit pageSize <;> dsimp only <;> omega

theorem endsWith_ramFSMap :
    (ramFSMap kernelSize).EndsWith ⟨.AVAILABLE, 0xC000000, 0x14000000⟩ := by
  have hbelow := h.below
  constructor
  · rfl
  · intro r hr htype
    simp only [ramFSMap, List.mem_cons, List.not_mem_nil, or_false] at hr
    obtain rfl | rfl | rfl | rfl | rfl := hr <;> unfold limit <;> dsimp only at * <;> first
      | omega
      | cases htype

theorem mapSize_ramFSMap :
    PageAllocator.mapSize (ramFSMap kernelSize) pageSize = some blockMapBytes := by
  rw [PageAllocator.mapSize, (endsWith_ramFSMap h).found]
  decide

/-- The free pages lie in two parts of the memory. -/
theorem isPage_ramFSMap (p : Nat) : (ramFSMap kernelSize).IsPage pageSize p ↔
    kernelSize ≤ p * pageSize ∧ (p + 1) * pageSize ≤ 0x8000000 ∨
      0xC000000 ≤ p * pageSize ∧ (p + 1) * pageSize ≤ 0x20000000 := by
  have hbelow := h.below
  have hstop : kernelSize + (0x8000000 - kernelSize) = 0x8000000 := by omega
  simp [MemoryMap.IsPage, ramFSMap, MemoryRegion.IsPage, limit, hstop]

/-- The heap begins behind the block map and has the rest of the memory of the kernel. -/
theorem initMemory_eq (ha : PageAllocator.construct (ramFSMap kernelSize) mapBase pageSize =
    some a) : initMemory mapBase mem (ramFSMap kernelSize) kernelSize imageEnd =
      some (a, initHeap mem (highMem + imageEnd + blockMapBytes)
        (kernelSize - (imageEnd + blockMapBytes))) := by
  obtain ⟨-, hroom, hbelow⟩ := h.bounds
  have hpage := h.image_page
  have hpageMapEnd : ((highMem + imageEnd + blockMapBytes) % 2 ^ 64 + (pageSize - 1)) % 2 ^ 64 /
      pageSize * pageSize = highMem + imageEnd + blockMapBytes := by
    unfold highMem blockMapBytes pageSize at *
    omega
  have hheapSize : sub64 ((highMem + kernelSize) % 2 ^ 64) (highMem + imageEnd + blockMapBytes) =
      kernelSize - (imageEnd + blockMapBytes) := by
    unfold sub64 highMem blockMapBytes at *
    omega
  simp only [initMemory, ha, mapSize_ramFSMap h, Option.bind_eq_bind, Option.bind_some, hpageMapEnd,
    hheapSize]
  rfl

end Map

/-- A heap that ends with a page. -/
theorem initHeap_wellFormed {heapPtr memSize : Nat} (hkernel : highMem ≤ heapPtr)
    (hend : heapPtr + memSize < 2 ^ 64) (hpage : (heapPtr + memSize) % pageSize = 0)
    (hword : memSize % 8 = 0) (hmin : 8 * OVERHEAD ≤ memSize) (hmax : memSize < 2 ^ 31) :
    WellFormed (initHeap mem heapPtr memSize) [⟨heapPtr, memSize / 8 - 5, false⟩] ∧
      (initHeap mem heapPtr memSize).heapEnd = heapPtr + memSize := by
  have hordered : Ordered (initHeap mem heapPtr memSize) [⟨heapPtr, memSize / 8 - 5, false⟩] :=
    initHeap_ordered (by unfold highMem at hkernel; omega) hend hmin (by omega)
  have hstop : heapPtr + 8 * (memSize / 8) = heapPtr + memSize := by omega
  refine ⟨⟨hordered, List.mem_singleton.2 rfl, hkernel, ?_⟩, hstop⟩
  have hsize : (initHeap mem heapPtr memSize).mem heapPtr = memSize / 8 - 5 :=
    (hordered.1.tagged _ (List.mem_singleton.2 rfl)).size
  show heapPtr + 8 * ((initHeap mem heapPtr memSize).mem heapPtr + OVERHEAD) ≤
    (heapPtr + 8 * (memSize / 8)) / pageSize * pageSize
  rw [hsize]
  unfold OVERHEAD pageSize at *
  omega

/-- The block that the heap begins with. -/
def bootTile (kernelSize imageEnd : Nat) : Tile :=
  ⟨highMem + imageEnd + blockMapBytes, (kernelSize - (imageEnd + blockMapBytes)) / 8 - 5, false⟩

/-- The pages of the memory outside the kernel and the files of the initial file system. -/
def SparePage (kernelSize p : Nat) : Prop :=
  kernelSize ≤ p * pageSize ∧ (p + 1) * pageSize ≤ 0x8000000 ∨
    0xC000000 ≤ p * pageSize ∧ (p + 1) * pageSize ≤ 0x20000000

theorem initMemory_spec (h : BootLayout kernelSize imageEnd) (mapBase : BlockPtr → Block)
    (mem : Nat → Nat) :
    ∃ a heap, initMemory mapBase mem (ramFSMap kernelSize) kernelSize imageEnd = some (a, heap) ∧
      a.Managed ∧ (∀ p, p ∈ a.freePages ↔ SparePage kernelSize p) ∧
      WellFormed heap [bootTile kernelSize imageEnd] ∧ heap.heapEnd = highMem + kernelSize := by
  obtain ⟨-, hroom, hbelow⟩ := h.bounds
  have himage := h.image_page
  have hkernel := h.kernel_page
  obtain ⟨a, ha⟩ := PageAllocator.construct_total mapBase (by decide) (disjoint_ramFSMap h)
    (endsWith_ramFSMap h) (by decide) (by decide)
  obtain ⟨hmanaged, hpages⟩ := PageAllocator.managed_construct (disjoint_ramFSMap h) ha
  have hstop : highMem + imageEnd + blockMapBytes + (kernelSize - (imageEnd + blockMapBytes)) =
      highMem + kernelSize := by
    unfold blockMapBytes
    omega
  obtain ⟨hwell, hend⟩ := @initHeap_wellFormed mem (highMem + imageEnd + blockMapBytes)
    (kernelSize - (imageEnd + blockMapBytes)) (by omega)
    (by unfold highMem at *; omega) (by unfold highMem pageSize at *; omega)
    (by unfold blockMapBytes pageSize at *; omega)
    (by unfold blockMapBytes pageSize OVERHEAD at *; omega) (by omega)
  exact ⟨a, _, initMemory_eq h ha, hmanaged, fun p => (hpages p).trans (isPage_ramFSMap h p), hwell,
    hend.trans hstop⟩

/-- When the image of the kernel and the block map fit into the memory of the kernel, there are an
allocator and a heap after `initMemory`. The allocator has the pages outside the kernel and the files
of the initial file system, and the heap is one block behind the block map. -/
theorem bootMemory_layout (h : BootLayout kernelSize imageEnd) (mapBase : BlockPtr → Block)
    (mem : Nat → Nat) :
    ∃ map a heap, bootMap kernelSize imageEnd = some map ∧
      initMemory mapBase mem map kernelSize imageEnd = some (a, heap) ∧ a.Managed ∧
      (∀ p, p ∈ a.freePages ↔ SparePage kernelSize p) ∧
      WellFormed heap [bootTile kernelSize imageEnd] ∧ heap.heapEnd = highMem + kernelSize :=
  ⟨_, _, _, bootMap_eq h, (initMemory_spec h mapBase mem).choose_spec.choose_spec⟩

/-- A kernel of one megabyte. -/
theorem bootMemory_layout_one :
    ∃ map a heap, bootMap 0x2000000 0x100000 = some map ∧
      initMemory (fun _ => ⟨.null, .null, 0, .RESERVED⟩) (fun _ => 0) map 0x2000000 0x100000 =
        some (a, heap) ∧ a.Managed ∧ (∀ p, p ∈ a.freePages ↔ SparePage 0x2000000 p) ∧
      WellFormed heap [bootTile 0x2000000 0x100000] ∧ heap.heapEnd = highMem + 0x2000000 :=
  bootMemory_layout ⟨by decide, by decide, by decide, by decide, by decide⟩ _ _

end CrosKernel.Memory
