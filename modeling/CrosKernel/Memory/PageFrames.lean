import CrosKernel.Memory.Mmu
import CrosKernel.Memory.PageRuns

/-!
# Page frames from the allocator

What the code that writes translation tables needs to know about `PageAllocator::reserve`: it takes
an aligned block out of the free pages, or reports that there is none and changes nothing.
-/

namespace CrosKernel.Memory

open Lib Util

namespace PageAllocator

/-- The allocator of the kernel in a state that its constructor and its operations lead to. -/
structure Managed (a : PageAllocator) : Prop where
  holds : ∃ lists, a.Holds a.freePages lists
  blockSize_eq : a.blockSize = pageSize
  offset_eq : a.offset = 0

/-- The allocator `a'` is left after the block of order `k` at `index` was reserved from `a`. -/
structure Reserved (a a' : PageAllocator) (index k : Nat) : Prop where
  managed : a'.Managed
  aligned : 2 ^ k ∣ index
  subset : block (index, k) ⊆ a.freePages
  freePages_eq : a'.freePages = a.freePages \ block (index, k)
  kval_eq : kvalOf a'.blocks index = k
  kvals_eq : ∀ i ∉ a.freePages, kvalOf a'.blocks i = kvalOf a.blocks i

variable {a a' : PageAllocator} {index k size : Nat}

/-- Physical addresses of pages have at most 43 bits. -/
theorem Managed.lt_of_free (h : a.Managed) {p : Nat} (hp : p ∈ a.freePages) : p < 2 ^ 31 := by
  obtain ⟨lists, hholds⟩ := h.holds
  have hlt := hholds.lt_numBlocks hp
  have hmax : a.maxKVal ≤ 31 := Nat.le_of_lt_succ hholds.max_lt
  have hpow : 2 ^ a.maxKVal ≤ 2 ^ 31 := Nat.pow_le_pow_right (by omega) hmax
  rw [hholds.numBlocks_eq hlt] at hlt
  omega

/-- After construction the free pages are the pages of the map. -/
theorem managed_construct {map : MemoryMap} {mapBase : BlockPtr → Block}
    (hmap : map.Disjoint pageSize) (h : construct map mapBase pageSize = some a) :
    a.Managed ∧ ∀ p, p ∈ a.freePages ↔ map.IsPage pageSize p := by
  obtain ⟨lists, hholds, hsize, hoffset⟩ := construct_holds (by decide) hmap h
  have hpages := hholds.freePages_eq
  exact ⟨⟨⟨lists, hpages.symm ▸ hholds⟩, hsize, hoffset⟩, fun p => hpages ▸ Iff.rfl⟩

/-- `reserve` takes a block, or changes nothing. -/
theorem Managed.reserve (h : a.Managed) (hsize : size < 2 ^ 64) :
    a.reserve size = some (a, NOMEM) ∨
      ∃ a' index, a.reserve size = some (a', index * pageSize) ∧ index * pageSize ≠ NOMEM ∧
        Reserved a a' index (a.orderOf size) ∧ size ≤ 2 ^ a.orderOf size * pageSize := by
  obtain ⟨lists, hholds⟩ := h.holds
  have hpos : 0 < a.blockSize := by
    rw [h.blockSize_eq]
    decide
  by_cases hblocks : ∃ m, a.orderOf size ≤ m ∧ lists m ≠ []
  · obtain ⟨index, blocks', count', lists', hreserve, halign, hsub, hholds', hkval, hkvals⟩ :=
      reserve_some hholds hpos.ne' hblocks
    have hlt := h.lt_of_free (hsub (self_mem_block (index, _)))
    have hlocation : (a.offset + index * a.blockSize) % 2 ^ 64 = index * pageSize := by
      rw [h.offset_eq, h.blockSize_eq, Nat.zero_add]
      unfold pageSize
      omega
    rw [hlocation] at hreserve
    have hpages := hholds'.freePages_eq
    refine .inr ⟨_, index, hreserve, ?_, ⟨⟨⟨lists', ?_⟩, h.blockSize_eq, h.offset_eq⟩, halign,
      hsub, hpages, hkval, hkvals⟩, ?_⟩
    · unfold NOMEM pageSize
      omega
    · rwa [hpages]
    · rcases Nat.eq_zero_or_pos size with rfl | hone
      · exact Nat.zero_le _
      · have hlarge := size_le hpos hone hsize
        rwa [h.blockSize_eq] at hlarge
  · have hempty : ∀ m, a.orderOf size ≤ m → lists m = [] := by
      intro m hm
      by_contra hne
      exact hblocks ⟨m, hm, hne⟩
    exact .inl (reserve_none hholds hpos.ne' hempty)

/-- A table has one page. -/
theorem Managed.orderOf_page (h : a.Managed) : a.orderOf pageSize = 0 := by
  rw [orderOf, h.blockSize_eq]
  decide

/-- The pages of a reserved block that a region of `size` bytes needs. -/
theorem Reserved.page_mem (h : Reserved a a' index k) (hsize : size ≤ 2 ^ k * pageSize) {p : Nat}
    (hp : p < size) : index + p / pageSize ∈ a.freePages := by
  refine h.subset ((mem_block_iff h.aligned).2 ⟨Nat.le_add_right _ _, ?_⟩)
  have hlt : p / pageSize < 2 ^ k := by
    rw [Nat.div_lt_iff_lt_mul (by decide)]
    omega
  omega

/-- A frame address and the field of a descriptor. -/
theorem outputOf_page {p : Nat} (hp : p < 2 ^ 31) :
    PageTableEntry.outputOf (p * pageSize) = p := by
  unfold PageTableEntry.outputOf pageSize
  omega

/-- What the allocator gives for a table is a free page. -/
theorem Managed.reserve_page (h : a.Managed) {frame : Nat}
    (hreserve : a.reserve pageSize = some (a', frame)) (hne : frame ≠ NOMEM) :
    ∃ index, frame = index * pageSize ∧ Reserved a a' index 0 := by
  obtain hnone | ⟨a₁, index, hsome, -, hreserved, -⟩ := h.reserve (by decide : pageSize < 2 ^ 64)
  · rw [hnone] at hreserve
    cases hreserve
    exact absurd rfl hne
  · rw [hsome] at hreserve
    cases hreserve
    rw [h.orderOf_page] at hreserved
    exact ⟨index, rfl, hreserved⟩

/-- The same with the field of the descriptor for that page. -/
theorem Managed.reserve_outputOf (h : a.Managed) {frame : Nat}
    (hreserve : a.reserve pageSize = some (a', frame)) (hne : frame ≠ NOMEM) :
    a'.Managed ∧ PageTableEntry.outputOf frame ∈ a.freePages ∧
      a'.freePages = a.freePages \ {PageTableEntry.outputOf frame} := by
  obtain ⟨index, rfl, hreserved⟩ := h.reserve_page hreserve hne
  have hfree : index ∈ a.freePages := hreserved.subset (self_mem_block (index, 0))
  rw [outputOf_page (h.lt_of_free hfree)]
  refine ⟨hreserved.managed, hfree, ?_⟩
  rw [hreserved.freePages_eq, block_zero]

end PageAllocator

/-! ## A small machine -/

/-- A memory with the top tables 1 and 2, and a page of each half. -/
def fewTables : Nat → Nat → PageTableEntry
  | 1, 511 => .tableDescriptor 0x1000
  | 1, 0 => .tableDescriptor 0x6000
  | 2, 511 => .tableDescriptor 0x2000
  | 2, 0 => .tableDescriptor 0x3000
  | 3, 0 => .tableDescriptor 0x4000
  | 4, 0 => .pageDescriptor 0x5000 3
  | 6, 0 => .tableDescriptor 0x7000
  | 7, 0 => .pageDescriptor 0x8000 3
  | _, _ => .cleared

/-- The machine with that memory. -/
def fewTablesMachine (a : PageAllocator) : Mmu := ⟨fewTables, 1, 2, a, []⟩

/-- The pages from 16 to 31. -/
def upperPages : MemoryMap := [⟨.AVAILABLE, 0x10000, 0x10000⟩]

/-- A block that nothing was written to. -/
def unwritten : Block := ⟨.null, .null, 0, .RESERVED⟩

theorem upperPages_disjoint : upperPages.Disjoint pageSize :=
  ⟨List.pairwise_singleton .., List.pairwise_singleton .., by decide⟩

end CrosKernel.Memory
