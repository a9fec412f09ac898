import CrosKernel.Memory.HeapExpansion
import CrosKernel.Memory.PageFrames

/-!
# A full heap

`rmalloc` on a heap where no free block fits. `expand_heap` maps frames behind the heap and moves
its end up, but it puts no block there, so that the second search finds what the first one found.
This is so for every size, page allocator and memory, also where the new end overflows.
-/

namespace CrosKernel.Memory

open Lib

namespace Heap

variable {h h' : Heap} {tiles : List Tile} {fuel size ptr a : Nat}

/-- A search for a size that no free block fits moves the rovers and returns null. -/
theorem Ordered.findFitLoop_miss (hordered : Ordered h tiles)
    (hcurrent : h.searchCurrent ∈ freeAddrs tiles)
    (hnone : ∀ a ∈ freeAddrs tiles, ¬Fits size (h.word a 0))
    (hrun : Heap.findFitLoop size fuel h = some (h', ptr)) : ptr = 0 ∧ Missed h h' tiles := by
  induction fuel generalizing h with
  | zero => cases hrun
  | succ fuel ih =>
      have hadvance := hordered.advance hcurrent
      rw [findFitLoop_move (hnone _ hcurrent)] at hrun
      split at hrun
      next =>
        have hnone' : ∀ a ∈ freeAddrs tiles, ¬Fits size (h.advance.word a 0) := hnone
        obtain ⟨hzero, hmissed⟩ := ih hadvance.ordered hadvance.current hnone' hrun
        exact ⟨hzero, hadvance.trans hmissed⟩
      next =>
        cases hrun
        exact ⟨rfl, hadvance⟩

theorem Ordered.findFit_miss (hordered : Ordered h tiles)
    (hcurrent : h.searchCurrent ∈ freeAddrs tiles)
    (hnone : ∀ a ∈ freeAddrs tiles, ¬Fits size (h.word a 0))
    (hrun : h.findFit fuel size = some (h', ptr)) : ptr = 0 ∧ Missed h h' tiles := by
  exact ((hordered.startAt h.searchCurrent).findFitLoop_miss hcurrent hnone hrun).imp_right
    Missed.of_startAt

/-- The sizes of the blocks do not depend on where the heap ends. -/
theorem Laid.word_eq (hl : Laid h tiles) (hl' : Laid h' tiles) (ha : a ∈ freeAddrs tiles) :
    h'.word a 0 = h.word a 0 := by
  obtain ⟨t, ht, -, rfl⟩ := mem_freeAddrs.1 ha
  exact (hl'.tagged t ht).size.trans (hl.tagged t ht).size.symm

/-- When the end of the heap lies in front of it, `rebuild_list` passes no block. -/
theorem rebuildList_beyond {current : Nat} (hge : h.heapEnd ≤ h.heap)
    (hrun : rebuildList fuel h current = some h') :
    h' = (h.startRovers current).setWord h.linkedListStart 1 0 := by
  obtain ⟨⟨h₁, last⟩, hloop, hrest⟩ := Option.bind_eq_some_iff.1 hrun
  cases fuel with
  | zero => cases hloop
  | succ fuel =>
      rw [rebuildLoop, if_neg (Nat.not_lt_of_le hge)] at hloop
      cases hloop
      exact (Option.some_inj.1 hrest).symm

/-- A search whose next block lies behind the end of the heap gives up after one pass. -/
theorem findFitLoop_beyond (hfits : ¬Fits size (h.word h.searchCurrent 0))
    (hge : h.heapEnd ≤ h.nextSearch) (hrun : findFitLoop size fuel h = some (h', ptr)) :
    ptr = 0 := by
  cases fuel with
  | zero => cases hrun
  | succ fuel =>
      rw [findFitLoop_move hfits, if_neg fun hall => Nat.not_lt_of_le hge hall.2.2] at hrun
      cases hrun
      rfl

/-- The second search finds nothing when the end of the heap overflowed. -/
theorem Moved.findFit_beyond {k k' : Heap} {fuel' : Nat} (hmoved : Moved h k tiles)
    (hordered : Ordered h tiles) (hcurrent : h.searchCurrent ∈ freeAddrs tiles)
    (hnone : ∀ a ∈ freeAddrs tiles, ¬Fits size (h.word a 0)) (hge : k.heapEnd ≤ k.heap)
    (hrebuild : rebuildList fuel k h.searchCurrent = some k')
    (hrun : k'.findFit fuel' size = some (h', ptr)) : ptr = 0 := by
  obtain ⟨hl, -, chain, hlist, -⟩ := hordered
  obtain rfl := rebuildList_beyond hge hrebuild
  obtain ⟨hmem, -, hend, hstart⟩ := k.startRovers_same h.searchCurrent
  generalize hr : k.startRovers h.searchCurrent = r at *
  have hmem' : ∀ a, (r.setWord k.linkedListStart 1 0).mem a =
      if a = h.linkedListStart + 8 then 0 else k.mem a := fun a => by
    rw [mem_setWord, hmem, hmoved.start]
  have hlinks : ∀ a ∈ freeAddrs tiles, h.mem (a + 8) = 0 ∨ h.mem (a + 8) ∈ freeAddrs tiles :=
    fun a ha => (hlist.links.next_mem (hlist.perm.mem_iff.2 ha)).imp_right hlist.perm.mem_iff.1
  have hfirst : h.linkedListStart ∈ freeAddrs tiles :=
    hlist.perm.mem_iff.1 (List.mem_of_mem_head? hlist.head)
  have hsearch : r.searchCurrent ∈ freeAddrs tiles := by
    rw [← hr, startRovers]
    split
    next hboth =>
      have hlink : k.word k.linkedListStart 1 = h.mem (h.linkedListStart + 8) := by
        rw [hmoved.start]
        exact hmoved.link hfirst
      rw [hlink] at hboth ⊢
      exact (hlinks _ hfirst).resolve_left hboth.2
    next => exact hmoved.current ▸ hcurrent
  have hsize : (r.setWord k.linkedListStart 1 0).word r.searchCurrent 0 =
      h.word r.searchCurrent 0 := by
    obtain ⟨t, ht, hfree, haddr⟩ := mem_freeAddrs.1 hsearch
    have hne : t.addr ≠ h.linkedListStart + 8 := by
      obtain ⟨u, hu, hufree, hustart⟩ := mem_freeAddrs.1 hfirst
      obtain rfl | hapart := hl.apart ht hu
      · omega
      · omega
    rw [← haddr]
    exact (hmem' t.addr).trans ((if_neg hne).trans (hmoved.words t ht _ le_rfl (by omega)))
  refine findFitLoop_beyond (h := { r.setWord k.linkedListStart 1 0 with searchStart := _ })
    ?_ ?_ hrun
  · show ¬Fits size ((r.setWord k.linkedListStart 1 0).word r.searchCurrent 0)
    rw [hsize]
    exact hnone _ hsearch
  · have hnext : nextSearch { r.setWord k.linkedListStart 1 0 with
        searchStart := r.searchCurrent } ∈ freeAddrs tiles := by
      show (if (r.setWord k.linkedListStart 1 0).mem (r.searchCurrent + 8) ≠ 0 then
        (r.setWord k.linkedListStart 1 0).mem (r.searchCurrent + 8) else r.linkedListStart) ∈ _
      rw [hmem', hstart, hmoved.start, hmoved.link hsearch]
      split_ifs with hzero hlink hlink
      · exact absurd rfl hlink
      · exact hfirst
      · exact (hlinks _ hsearch).resolve_left hlink
      · exact hfirst
    obtain ⟨t, ht, -, haddr⟩ := mem_freeAddrs.1 hnext
    have hbounds := hl.bounds ht
    refine le_trans ?_ haddr.le
    show r.heapEnd ≤ t.addr
    rw [hend]
    exact hge.trans (hmoved.heap.trans_le hbounds.1)

end Heap

/-! ## What can be mapped -/

theorem mapLoop_canonical {fuel addr frame flags p : Nat} {ps : List Nat} {m m' : Mmu}
    (hrun : Mmu.mapLoop fuel addr frame flags ps m = some m') (hp : p ∈ ps) :
    highMem ≤ (addr + p) % 2 ^ 64 ∨ (addr + p) % 2 ^ 64 < lowEnd := by
  induction ps generalizing m with
  | nil => cases hp
  | cons q ps ih =>
      obtain ⟨m₁, hset, hrest⟩ := Option.bind_eq_some_iff.1 hrun
      obtain rfl | hp := List.mem_cons.1 hp
      · rw [Mmu.setPageEntry, if_neg (by omega)] at hset
        obtain ⟨entry, hentry, -⟩ := Option.bind_eq_some_iff.1 hset
        rw [Mmu.entryAddress] at hentry
        split at hentry
        next hhigh => exact .inl hhigh
        next =>
          split at hentry
          next hlow => exact .inr hlow
          next => cases hentry
      · exact ih hrest hp

/-- There is no page between the two halves of the address space, so a region that begins in the
upper half ends in the lower one at the latest. -/
theorem mapRegion_size_le {fuel addr size frame flags : Nat} {m m' : Mmu}
    (hhigh : highMem ≤ addr) (haddr : addr < 2 ^ 64)
    (hrun : Mmu.mapRegion fuel m addr size frame flags = some m') : size ≤ 2 ^ 43 := by
  by_contra hsize
  have hp : (2 ^ 52 - addr / pageSize + 2 ^ 30) * pageSize ∈ Mmu.offsets size := by
    refine List.mem_map.2 ⟨_, List.mem_range.2 ?_, rfl⟩
    unfold pageSize highMem at *
    omega
  have hcanonical := mapLoop_canonical hrun hp
  unfold pageSize highMem lowEnd at *
  omega

/-! ## Requests that no free block fits -/

namespace MappedHeap

open Heap

variable {s : MappedHeap} {tiles : List Tile} {fresh : Nat → Nat} {size : Nat}

/-- The blocks of a kernel heap are in order, the search is at a free one, and no block lies in the
page that the end of the heap is in. -/
structure WellFormed (h : Heap) (tiles : List Tile) : Prop where
  ordered : Ordered h tiles
  current : h.searchCurrent ∈ freeAddrs tiles
  kernel : highMem ≤ h.heap
  page : h.linkedListStart + 8 * (h.word h.linkedListStart 0 + OVERHEAD) ≤
    h.heapEnd / pageSize * pageSize

/-- There is a block of the size at `ptr`, in mapped memory and apart from the blocks that were in
use, and the heap ends in mapped memory. -/
structure Serves (s' : MappedHeap) (tiles : List Tile) (size ptr : Nat) : Prop where
  nonnull : ptr ≠ 0
  room : size ≤ 8 * s'.heap.word (ptr - 24) 0
  apart : ∀ t ∈ usedTiles tiles, ptr + size ≤ t.addr + 24 ∨ t.addr + 24 + 8 * t.words ≤ ptr
  mapped : ∀ a, ptr ≤ a → a < ptr + size → ∃ r, s'.mmu.walk a = .ok r
  mappedEnd : ∀ a, s'.heap.heap ≤ a → a < s'.heap.heapEnd → ∃ r, s'.mmu.walk a = .ok r

/-- When no free block fits, `rmalloc` returns null or not at all. -/
theorem rmalloc_null {fuel ptr : Nat} {s' : MappedHeap} (hwell : WellFormed s.heap tiles)
    (hnone : ∀ a ∈ freeAddrs tiles, ¬Fits (align size) (s.heap.word a 0))
    (hrun : s.rmalloc fuel fresh size = some (s', ptr)) : ptr = 0 := by
  obtain ⟨hordered, hcurrent, hkernel, hpage⟩ := hwell
  obtain ⟨⟨h₁, block⟩, hfind, hrun⟩ := Option.bind_eq_some_iff.1 hrun
  obtain ⟨rfl, hmissed⟩ := hordered.findFit_miss hcurrent hnone hfind
  dsimp only at hrun
  rw [if_neg (not_not.2 rfl)] at hrun
  obtain ⟨⟨h₂, mmu⟩, hexpand, hrun⟩ := Option.bind_eq_some_iff.1 hrun
  obtain ⟨⟨h₃, block⟩, hfind', hrun⟩ := Option.bind_eq_some_iff.1 hrun
  cases hrun
  obtain ⟨adjSize, -, hexpand⟩ := Option.bind_eq_some_iff.1 hexpand
  obtain ⟨⟨allocator, newFrame⟩, -, hexpand⟩ := Option.bind_eq_some_iff.1 hexpand
  obtain ⟨m, hmap, hexpand⟩ := Option.bind_eq_some_iff.1 hexpand
  obtain ⟨h, hrebuild, hexpand⟩ := Option.bind_eq_some_iff.1 hexpand
  cases hexpand
  have hl := hmissed.ordered.1
  have hkernel₁ : highMem ≤ h₁.heap := hmissed.heap.symm ▸ hkernel
  have hpage₁ : h₁.linkedListStart + 8 * (h₁.word h₁.linkedListStart 0 + OVERHEAD) ≤
      h₁.heapEnd / pageSize * pageSize := by
    rw [hmissed.heapEnd, hmissed.start, word, hmissed.mem]
    exact hpage
  have hnone₁ : ∀ a ∈ freeAddrs tiles, ¬Fits (align size) (h₁.word a 0) := fun a ha => by
    rw [word, hmissed.mem]
    exact hnone a ha
  have hend := hl.end_lt
  have hheap : h₁.heap ≤ h₁.heapEnd := by
    obtain ⟨t, ht, -⟩ := mem_freeAddrs.1 hmissed.current
    have hbounds := hl.bounds ht
    omega
  have hsize : adjSize ≤ 2 ^ 43 := mapRegion_size_le (hkernel₁.trans hheap) hend hmap
  have hmoved : Moved h₁ (moveEnd fresh h₁ adjSize) tiles := by
    refine moveEnd_moved hl ?_ fun t ht => (hl.blocks_end ht).trans hpage₁
    unfold pageSize highMem at *
    omega
  by_cases hroom : h₁.heapEnd + 8 * adjSize < 2 ^ 64
  · have hend' : (moveEnd fresh h₁ adjSize).heapEnd = h₁.heapEnd + 8 * adjSize :=
      Nat.mod_eq_of_lt hroom
    have hordered' := hmoved.ordered hmissed.ordered (by omega) (by omega)
    obtain ⟨hdone, -, hsearch⟩ := hordered'.rebuildList hmissed.current hrebuild
    refine (hdone.findFit_miss hsearch (fun a ha => ?_) hfind').1
    rw [hl.word_eq hdone.1 ha]
    exact hnone₁ a ha
  · refine hmoved.findFit_beyond hmissed.ordered hmissed.current hnone₁ ?_ hrebuild hfind'
    show (h₁.heapEnd + 8 * adjSize) % 2 ^ 64 ≤ h₁.heap
    unfold highMem at *
    omega

/-- `rmalloc` never serves a request that no free block fits. -/
theorem rmalloc_never_serves (hwell : WellFormed s.heap tiles)
    (hnone : ∀ a ∈ freeAddrs tiles, ¬Fits (align size) (s.heap.word a 0)) (fresh : Nat → Nat) :
    ¬ ∃ fuel s' ptr, s.rmalloc fuel fresh size = some (s', ptr) ∧ Serves s' tiles size ptr := by
  intro hserved
  obtain ⟨fuel, s', ptr, hrun, hserves⟩ := hserved
  exact hserves.nonnull (rmalloc_null hwell hnone hrun)

/-- One page of heap. -/
def onePage : Heap := Heap.initHeap (fun _ => 0) highMem 4096

theorem onePage_wellFormed : WellFormed onePage [⟨highMem, 507, false⟩] where
  ordered := initHeap_ordered (by decide) (by decide) (by decide) (by decide)
  current := List.mem_singleton.2 rfl
  kernel := le_rfl
  page := by decide +kernel

/-- The block of the page has no room for 4096 bytes. -/
theorem onePage_full :
    ∀ a ∈ freeAddrs [⟨highMem, 507, false⟩], ¬Fits (align 4096) (onePage.word a 0) := by
  intro a ha
  obtain rfl : a = highMem := List.mem_singleton.1 ha
  decide +kernel

theorem rmalloc_never_serves_page :
    ¬ ∃ fuel s' ptr,
      rmalloc fuel (fun _ => 0) ⟨onePage, fewTablesMachine (.blank (fun _ => unwritten) 0 pageSize)⟩
        4096 = some (s', ptr) ∧ Serves s' [⟨highMem, 507, false⟩] 4096 ptr :=
  rmalloc_never_serves (s := ⟨onePage, _⟩) onePage_wellFormed onePage_full fun _ => 0

/-- The frame for one more page is there and is mapped, and `rmalloc` returns null. -/
theorem expansion_returns_null :
    ∃ a, PageAllocator.construct upperPages (fun _ => unwritten) pageSize = some a ∧
      (∃ a' frame, a.reserve 4096 = some (a', frame) ∧ frame ≠ NOMEM) ∧
      (∃ s', rmalloc 5 (fun _ => 0) ⟨onePage, fewTablesMachine a⟩ 4096 = some (s', 0)) ∧
      ¬ ∃ fuel s' ptr, rmalloc fuel (fun _ => 0) ⟨onePage, fewTablesMachine a⟩ 4096 =
        some (s', ptr) ∧ Serves s' [⟨highMem, 507, false⟩] 4096 ptr := by
  have hrun : (PageAllocator.construct upperPages (fun _ => unwritten) pageSize).any fun a =>
      (a.reserve 4096).any (fun r => r.2 != NOMEM) &&
        (rmalloc 5 (fun _ => 0) ⟨onePage, fewTablesMachine a⟩ 4096).any fun r => r.2 == 0 := by
    decide +kernel
  obtain ⟨a, hconstruct, hrun⟩ := (Option.any_eq_true ..).1 hrun
  obtain ⟨hreserve, hreturn⟩ := Bool.and_eq_true_iff.1 hrun
  obtain ⟨⟨a', frame⟩, hreserve, hframe⟩ := (Option.any_eq_true ..).1 hreserve
  obtain ⟨⟨s', ptr⟩, hreturn, hptr⟩ := (Option.any_eq_true ..).1 hreturn
  obtain rfl : ptr = 0 := of_decide_eq_true hptr
  refine ⟨a, hconstruct, ⟨a', frame, hreserve, bne_iff_ne.1 hframe⟩, ⟨s', hreturn⟩, ?_⟩
  intro hserved
  obtain ⟨fuel, s', ptr, hrun, hserves⟩ := hserved
  exact hserves.nonnull (rmalloc_null (s := ⟨onePage, _⟩) onePage_wellFormed onePage_full hrun)

end MappedHeap

end CrosKernel.Memory
