import CrosKernel.Memory.HeapExhausted
import CrosKernel.Memory.HeapFree
import CrosKernel.Memory.HeapOverrun

/-!
# Another size for a block

`realloc` shrinks a block in place. `split_blk` takes the size in whole words and drops the rest,
where `rmalloc` rounds it up first. A bigger block is never returned: what `find_fit` finds gets a
copy of the data and stays in use, the heap is expanded twice, and the result is null. The copy is
as many bytes as the old block has words, and can go over the footer of the block that was found.
-/

namespace CrosKernel.Memory

open Lib Set

namespace Heap

/-- `((char *)p)[i]`. The first byte of a word is the lowest one. -/
def byte (h : Heap) (p i : Nat) : Nat := h.word p (i / 8) / 2 ^ (8 * (i % 8)) % 2 ^ 8

/-- `((char *)p)[i] = value`. -/
def setByte (h : Heap) (p i value : Nat) : Heap :=
  let w := h.word p (i / 8)
  let low := 2 ^ (8 * (i % 8))
  h.setWord p (i / 8) (w / (low * 2 ^ 8) * (low * 2 ^ 8) + value * low + w % low)

/-- The loop of `memcpy` from the byte `i` on, with the number of bytes that are left. -/
def memcpyLoop (dest src : Nat) : Nat → Nat → Heap → Heap
  | 0, _, h => h
  | left + 1, i, h => memcpyLoop dest src left (i + 1) (h.setByte dest i (h.byte src i))

/-- `memcpy`. The index is an `int`, which overflows when it gets to 2^31. -/
def memcpy (h : Heap) (dest src count : Nat) : Option Heap :=
  if count < 2 ^ 31 then some (memcpyLoop dest src count 0 h) else none

/-- What `realloc` copies to the block that it found, if any: as many bytes as the old block has
words. -/
def copyOld (h : Heap) (block ptr : Nat) : Option Heap :=
  if block ≠ 0 then h.memcpy block ptr (h.word (ptr - 8 * 3) 0) else some h

end Heap

namespace MappedHeap

/-- One pass of the loop of `realloc`. -/
def growPass (fuel : Nat) (fresh : Nat → Nat) (ptr newSize : Nat) (s : MappedHeap) :
    Option MappedHeap := do
  let (h, block) ← s.heap.findFit fuel newSize
  let h ← h.copyOld block ptr
  expandHeap fuel fresh ⟨h, s.mmu⟩ newSize

/-- The loop of `realloc`, with the number of passes that are left. -/
def growLoop (fuel : Nat) (fresh : Nat → Nat → Nat) (ptr newSize : Nat) :
    Nat → MappedHeap → Option MappedHeap
  | 0, s => some s
  | passes + 1, s => do
      let s ← growPass fuel (fresh passes) ptr newSize s
      growLoop fuel fresh ptr newSize passes s

/-- `realloc`. The loop runs with `flag` at 1 and at 0. -/
def realloc (fuel : Nat) (fresh : Nat → Nat → Nat) (s : MappedHeap) (ptr newSize : Nat) :
    Option (MappedHeap × Nat) :=
  if ptr = 0 then rmalloc fuel (fresh 0) s newSize
  else if (newSize + OVERHEAD + 1) % 2 ^ 64 < s.heap.word (ptr - 8 * 3) 0 then do
    let (h, returnBlk) := s.heap.splitBlk newSize (ptr - 8 * 3)
    let h ← Heap.rebuildList fuel h returnBlk
    some (⟨h, s.mmu⟩, returnBlk)
  else do
    let s ← growLoop fuel fresh ptr newSize 2 s
    some (s, 0)

end MappedHeap

/-! ## More fuel -/

namespace Mmu

variable {m m' : Mmu} {e : PageTableEntry} {fuel fuel' va : Nat}

/-- Where the one store instruction succeeds, the other one does the same. -/
def StoreLe (f g : Mmu → Nat → PageTableEntry → Option Mmu) : Prop :=
  ∀ m va e m', f m va e = some m' → g m va e = some m'

section

variable {f g : Mmu → Nat → PageTableEntry → Option Mmu} (hle : StoreLe f g)

include hle

theorem makeDescriptor_mono (hrun : makeDescriptor f m va e = some m') :
    makeDescriptor g m va e = some m' := by
  obtain ⟨m₁, hstore, hwrite⟩ := Option.bind_eq_some_iff.1 hrun
  exact Option.bind_eq_some_iff.2 ⟨m₁, hle _ _ _ _ hstore, hwrite⟩

theorem fillLoop_mono {half : Half} {targetLevel farOffset remaining i : Nat}
    (hrun : fillLoop f half targetLevel farOffset remaining i m = some m') :
    fillLoop g half targetLevel farOffset remaining i m = some m' := by
  induction remaining generalizing i m with
  | zero => exact hrun
  | succ remaining ih =>
      obtain ⟨⟨a, tableFrame⟩, hreserve, hrun⟩ := Option.bind_eq_some_iff.1 hrun
      refine Option.bind_eq_some_iff.2 ⟨(a, tableFrame), hreserve, ?_⟩
      dsimp only at hrun ⊢
      split at hrun
      next => cases hrun
      next hframe =>
        obtain ⟨m₁, hdescriptor, hrun⟩ := Option.bind_eq_some_iff.1 hrun
        rw [if_neg hframe]
        exact Option.bind_eq_some_iff.2 ⟨m₁, makeDescriptor_mono hle hdescriptor, ih hrun⟩

theorem handlePageFault_mono {level far : Nat} (hrun : handlePageFault f m level far = some m') :
    handlePageFault g m level far = some m' := by
  have hfill : ∀ targetLevel, fillTranslationTable f m level targetLevel far = some m' →
      fillTranslationTable g m level targetLevel far = some m' := by
    intro targetLevel hrun
    unfold fillTranslationTable at *
    dsimp only at *
    generalize (if highMem ≤ far then Half.kernel else .user) = half at *
    by_cases hlevel : targetLevel + level < 4
    · rw [if_pos hlevel] at hrun
      cases hrun
    · rw [if_neg hlevel] at hrun ⊢
      exact fillLoop_mono hle hrun
  unfold handlePageFault at *
  split_ifs at *
  all_goals exact hfill _ hrun

end

theorem store_mono (hfuel : fuel ≤ fuel') : StoreLe (store fuel) (store fuel') := by
  induction fuel generalizing fuel' with
  | zero =>
      intro m va e m' hrun
      cases hrun
  | succ fuel ih =>
      intro m va e m' hrun
      obtain ⟨fuel', rfl⟩ := Nat.exists_eq_succ_of_ne_zero (show fuel' ≠ 0 by omega)
      have ih := ih (Nat.le_of_succ_le_succ hfuel)
      rw [store] at hrun ⊢
      split at hrun
      next => exact hrun
      next => cases hrun
      next =>
        obtain ⟨m₁, hfault, hrun⟩ := Option.bind_eq_some_iff.1 hrun
        exact Option.bind_eq_some_iff.2 ⟨m₁, handlePageFault_mono ih hfault, ih _ _ _ _ hrun⟩

theorem mapRegion_mono {addr size frame flags : Nat} (hfuel : fuel ≤ fuel')
    (hrun : mapRegion fuel m addr size frame flags = some m') :
    mapRegion fuel' m addr size frame flags = some m' := by
  unfold mapRegion at *
  generalize offsets size = ps at *
  induction ps generalizing m with
  | nil => exact hrun
  | cons p ps ih =>
      obtain ⟨m₁, hset, hrun⟩ := Option.bind_eq_some_iff.1 hrun
      refine Option.bind_eq_some_iff.2 ⟨m₁, ?_, ih hrun⟩
      unfold setPageEntry at *
      rw [if_neg (by decide)] at hset ⊢
      obtain ⟨entry, hentry, hset⟩ := Option.bind_eq_some_iff.1 hset
      exact Option.bind_eq_some_iff.2 ⟨entry, hentry, makeDescriptor_mono (store_mono hfuel) hset⟩

end Mmu

namespace Heap

variable {h h' : Heap} {fuel fuel' current : Nat}

theorem skipUsed_mono {cur a : Nat} (hfuel : fuel ≤ fuel') (hrun : h.skipUsed fuel cur = some a) :
    h.skipUsed fuel' cur = some a := by
  induction fuel generalizing cur fuel' with
  | zero => cases hrun
  | succ fuel ih =>
      obtain ⟨fuel', rfl⟩ := Nat.exists_eq_succ_of_ne_zero (show fuel' ≠ 0 by omega)
      rw [skipUsed] at hrun ⊢
      split at hrun
      next hused =>
        rw [if_pos hused]
        exact ih (Nat.le_of_succ_le_succ hfuel) hrun
      next hfree =>
        rw [if_neg hfree]
        exact hrun

theorem rebuildLoop_mono {prev cur last : Nat} (hfuel : fuel ≤ fuel')
    (hrun : rebuildLoop current fuel h prev cur = some (h', last)) :
    rebuildLoop current fuel' h prev cur = some (h', last) := by
  induction fuel generalizing h prev cur fuel' with
  | zero => cases hrun
  | succ fuel ih =>
      obtain ⟨fuel', rfl⟩ := Nat.exists_eq_succ_of_ne_zero (show fuel' ≠ 0 by omega)
      have hfuel' := Nat.le_of_succ_le_succ hfuel
      rw [rebuildLoop_succ] at hrun ⊢
      split at hrun
      next hcur =>
        obtain ⟨a, hskip, hrun⟩ := Option.bind_eq_some_iff.1 hrun
        rw [if_pos hcur, skipUsed_mono hfuel' hskip, Option.bind_some]
        split at hrun
        next hne =>
          rw [if_pos hne]
          exact ih hfuel' hrun
        next heq =>
          rw [if_neg heq]
          exact hrun
      next hcur =>
        rw [if_neg hcur]
        exact hrun

theorem rebuildList_mono (hfuel : fuel ≤ fuel') (hrun : rebuildList fuel h current = some h') :
    rebuildList fuel' h current = some h' := by
  obtain ⟨⟨h₁, last⟩, hloop, hrun⟩ := Option.bind_eq_some_iff.1 hrun
  exact Option.bind_eq_some_iff.2 ⟨(h₁, last), rebuildLoop_mono hfuel hloop, hrun⟩

end Heap

namespace MappedHeap

variable {s s' : MappedHeap} {fuel fuel' ptr newSize : Nat}

/-- The frames that `expand_heap` maps at the end of the heap, with the size by which the end moves.
-/
def mapFrames (fuel : Nat) (m : Mmu) (heapEnd size : Nat) : Option (Nat × Mmu) := do
  let adjSize ← nextPowerOf2 size
  let (a, newFrame) ← m.pageAllocator.reserve (if size ≤ 4096 then 4096 else adjSize)
  let m ← Mmu.mapRegion fuel { m with pageAllocator := a } heapEnd adjSize newFrame PAGE_RW
  pure (adjSize, m)

/-- The frames that are mapped when the heap is expanded several times. -/
def mapPasses (fuel size : Nat) : Nat → Mmu → Nat → Option Mmu
  | 0, m, _ => some m
  | passes + 1, m, heapEnd => do
      let (adjSize, m) ← mapFrames fuel m heapEnd size
      mapPasses fuel size passes m (heapEnd + 8 * adjSize)

theorem expandHeap_eq (fuel : Nat) (fresh : Nat → Nat) (s : MappedHeap) (size : Nat) :
    expandHeap fuel fresh s size =
      (mapFrames fuel s.mmu s.heap.heapEnd size).bind fun r =>
        (Heap.rebuildList fuel (moveEnd fresh s.heap r.1) s.heap.searchCurrent).map (⟨·, r.2⟩) := by
  unfold expandHeap mapFrames
  simp only [Option.bind_eq_bind, Option.bind_assoc, Option.pure_def, Option.bind_some,
    Option.map_eq_bind, Function.comp_def]

theorem mapFrames_mono {m m' : Mmu} {heapEnd size adjSize : Nat} (hfuel : fuel ≤ fuel')
    (hrun : mapFrames fuel m heapEnd size = some (adjSize, m')) :
    mapFrames fuel' m heapEnd size = some (adjSize, m') := by
  obtain ⟨adj, hadj, hrun⟩ := Option.bind_eq_some_iff.1 hrun
  obtain ⟨⟨a, newFrame⟩, hreserve, hrun⟩ := Option.bind_eq_some_iff.1 hrun
  obtain ⟨m₁, hmap, hrun⟩ := Option.bind_eq_some_iff.1 hrun
  exact Option.bind_eq_some_iff.2 ⟨adj, hadj, Option.bind_eq_some_iff.2
    ⟨(a, newFrame), hreserve, Option.bind_eq_some_iff.2 ⟨m₁, Mmu.mapRegion_mono hfuel hmap, hrun⟩⟩⟩

theorem growPass_mono {fresh : Nat → Nat} (hfuel : fuel ≤ fuel')
    (hrun : growPass fuel fresh ptr newSize s = some s') :
    growPass fuel' fresh ptr newSize s = some s' := by
  obtain ⟨⟨h, block⟩, hfind, hrun⟩ := Option.bind_eq_some_iff.1 hrun
  obtain ⟨h₁, hcopy, hrun⟩ := Option.bind_eq_some_iff.1 hrun
  rw [expandHeap_eq] at hrun
  obtain ⟨⟨adjSize, m⟩, hmap, hrun⟩ := Option.bind_eq_some_iff.1 hrun
  obtain ⟨h₂, hrebuild, heq⟩ := Option.map_eq_some_iff.1 hrun
  refine Option.bind_eq_some_iff.2 ⟨(h, block), Heap.findFitLoop_mono hfuel hfind,
    Option.bind_eq_some_iff.2 ⟨h₁, hcopy, ?_⟩⟩
  rw [expandHeap_eq, mapFrames_mono hfuel hmap, Option.bind_some]
  exact Option.map_eq_some_iff.2 ⟨h₂, Heap.rebuildList_mono hfuel hrebuild, heq⟩

theorem growLoop_mono {fresh : Nat → Nat → Nat} {passes : Nat} (hfuel : fuel ≤ fuel')
    (hrun : growLoop fuel fresh ptr newSize passes s = some s') :
    growLoop fuel' fresh ptr newSize passes s = some s' := by
  induction passes generalizing s with
  | zero => exact hrun
  | succ passes ih =>
      obtain ⟨s₁, hpass, hrun⟩ := Option.bind_eq_some_iff.1 hrun
      exact Option.bind_eq_some_iff.2 ⟨s₁, growPass_mono hfuel hpass, ih hrun⟩

theorem mapPasses_mono {passes size heapEnd : Nat} {m m' : Mmu} (hfuel : fuel ≤ fuel')
    (hrun : mapPasses fuel size passes m heapEnd = some m') :
    mapPasses fuel' size passes m heapEnd = some m' := by
  induction passes generalizing m heapEnd with
  | zero => exact hrun
  | succ passes ih =>
      obtain ⟨⟨adjSize, m₁⟩, hmap, hrun⟩ := Option.bind_eq_some_iff.1 hrun
      exact Option.bind_eq_some_iff.2 ⟨(adjSize, m₁), mapFrames_mono hfuel hmap, ih hrun⟩

end MappedHeap

end CrosKernel.Memory
