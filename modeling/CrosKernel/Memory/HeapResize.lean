import CrosKernel.Memory.HeapGrowth
import CrosKernel.Memory.HeapLists

/-!
# What realloc does to a block

`realloc` of a block in use shrinks it when it has more words than the new size has bytes, with some
to spare, and else returns null. `realloc_meets_iff` says when this is what a caller is promised.
-/

namespace CrosKernel.Memory

open Lib

namespace Heap

variable {h h' : Heap} {tiles tiles' : List Tile} {t : Tile} {fuel newSize n ret a : Nat}

/-- There is a block of the new size with the contents of `t` at `ret`, the other blocks in use are
untouched, and all other blocks are free. -/
structure Resized (h h' : Heap) (tiles : List Tile) (t : Tile) (newSize ret : Nat) : Prop where
  blocks : ∃ tiles' n, Laid h' tiles' ∧ newSize ≤ 8 * n ∧
    ∀ u, u ∈ usedTiles tiles' ↔ u = ⟨ret - 24, n, true⟩ ∨ u ∈ usedTiles tiles ∧ u ≠ t
  contents : ∀ i < min (8 * t.words) newSize, h'.byte ret i = h.byte (t.addr + 24) i
  others : ∀ u ∈ usedTiles tiles, u ≠ t → ∀ a, Covers u a → h'.mem a = h.mem a

/-- The block `t` is there as before. -/
structure Kept (h h' : Heap) (t : Tile) : Prop where
  isBlock : h'.IsBlock t.addr
  mem_eq : ∀ a, Covers t a → h'.mem a = h.mem a

/-- What `realloc` of the block `t` promises. -/
def Reallocated (h h' : Heap) (tiles : List Tile) (t : Tile) (newSize ret : Nat) : Prop :=
  ret ≠ 0 ∧ Resized h h' tiles t newSize ret ∨ ret = 0 ∧ Kept h h' t

/-- The test of `realloc` for a size that the block is shrunk to, with `newSize` in bytes and the
size of the block in words. -/
def Shrinks (t : Tile) (newSize : Nat) : Prop := (newSize + OVERHEAD + 1) % 2 ^ 64 < t.words

instance (t : Tile) (newSize : Nat) : Decidable (Shrinks t newSize) :=
  inferInstanceAs (Decidable (_ < _))

/-! ## Shrinking -/

/-- The block `t` was cut to `n` words. -/
structure Shrunk (h h' : Heap) (tiles tiles' : List Tile) (t : Tile) (n : Nat) : Prop where
  laid : Laid h' tiles'
  used : ∀ u, u ∈ usedTiles tiles' ↔ u = ⟨t.addr, n, true⟩ ∨ u ∈ usedTiles tiles ∧ u ≠ t
  data : ∀ a, t.addr + 24 ≤ a → a < t.addr + 8 * (n + 3) → h'.mem a = h.mem a
  others : ∀ u ∈ usedTiles tiles, u ≠ t → ∀ a, Covers u a → h'.mem a = h.mem a

/-- The data of the part in use stays when a block in use is split. -/
theorem Roving.splitBlk_data (hroving : Roving h tiles) (ht : t ∈ usedTiles tiles)
    (hle : newSize / 8 + 5 ≤ t.words) (hlow : t.addr + 24 ≤ a)
    (hhigh : a < t.addr + 8 * (newSize / 8 + 3)) :
    (h.splitBlk newSize t.addr).1.mem a = h.mem a := by
  have hl := hroving.ordered.1
  obtain ⟨ht, hused⟩ := mem_usedTiles.1 ht
  have hbounds := hl.bounds ht
  have hend := hl.end_lt
  have hrest : (h.writeRest t (newSize / 8)).mem a = h.mem a := writeBlk_mem_other _ (by omega)
  rw [splitBlk_eq rfl (hl.tagged t ht).size hle (by omega), writeBlk_mem_other _ (by omega)]
  show (h.linkRest t (newSize / 8)).mem a = _
  rw [linkRest_mem, if_neg, hrest]
  rintro ⟨⟨hne, -⟩, rfl⟩
  -- the link that is written lies in a free block
  obtain ⟨u, hu, hfree, huaddr⟩ := mem_freeAddrs.1 (hroving.previous.resolve_left hne)
  obtain rfl | hapart := hl.apart hu ht
  · rw [hused] at hfree
    cases hfree
  · omega

theorem Roving.shrunk (hroving : Roving h tiles) (ht : t ∈ usedTiles tiles)
    (hle : newSize / 8 + 5 ≤ t.words) :
    ∃ tiles', Shrunk h (h.splitBlk newSize t.addr).1 tiles tiles' t (newSize / 8) := by
  obtain ⟨hmem, hused⟩ := mem_usedTiles.1 ht
  obtain ⟨l, r, rfl⟩ := List.append_of_mem hmem
  rw [List.append_cons] at hroving ht hmem ⊢
  have hl := hroving.ordered.1
  obtain ⟨h', hsplit, hdone⟩ := hl.splitBlk rfl hle (hroving.linkSafe hle)
  refine ⟨l ++ parts t (newSize / 8) ++ r, ?_, fun u => ?_, fun a hlow hhigh =>
    hroving.splitBlk_data ht hle hlow hhigh, fun u hu hne a hcover => ?_⟩
  · rw [hsplit]
    exact hdone.laid
  · simp only [mem_usedTiles, mem_parts, hl.mem_others]
    constructor
    · rintro ⟨⟨hu, hne⟩ | rfl | rfl, huse⟩
      · exact .inr ⟨⟨hu, huse⟩, hne⟩
      · exact .inl rfl
      · cases huse
    · rintro (rfl | ⟨⟨hu, huse⟩, hne⟩)
      · exact ⟨.inr (.inl rfl), rfl⟩
      · exact ⟨.inl ⟨hu, hne⟩, huse⟩
  · obtain ⟨hu, huse⟩ := mem_usedTiles.1 hu
    rw [hsplit]
    exact hdone.keeps.words u (hl.mem_others.2 ⟨hu, hne⟩) a
      (Tile.owns_iff.2 ⟨hcover.1, hcover.2, .inl huse⟩)

theorem Shrunk.rebuildList {h₁ : Heap} {current : Nat} (hshrunk : Shrunk h h₁ tiles tiles' t n)
    (hrun : Heap.rebuildList fuel h₁ current = some h') : Shrunk h h' tiles tiles' t n := by
  have hrebuilt := hshrunk.laid.rebuildList hrun
  have hkept : ∀ u ∈ usedTiles tiles', ∀ a, Covers u a → h'.mem a = h₁.mem a := by
    intro u hu a hcover
    obtain ⟨hu, huse⟩ := mem_usedTiles.1 hu
    exact hrebuilt.keeps.words u hu a (Tile.owns_iff.2 ⟨hcover.1, hcover.2, .inl huse⟩)
  refine ⟨hrebuilt.laid, hshrunk.used, fun a hlow hhigh => ?_, fun u hu hne a hcover => ?_⟩
  · rw [hkept _ ((hshrunk.used _).2 (.inl rfl)) a, hshrunk.data a hlow hhigh]
    unfold Covers Tile.len
    dsimp only
    omega
  · rw [hkept u ((hshrunk.used u).2 (.inr ⟨hu, hne⟩)) a hcover, hshrunk.others u hu hne a hcover]

/-- The words that are left have room for the new size if and only if no bytes of it were dropped.
-/
theorem Shrunk.resized_iff (hshrunk : Shrunk h h' tiles tiles' t (newSize / 8)) :
    Resized h h' tiles t newSize (t.addr + 24) ↔ 8 ∣ newSize := by
  constructor
  · intro hresized
    obtain ⟨tiles'', m, hlaid, hroom, hused⟩ := hresized.blocks
    have hm : h'.mem t.addr = m :=
      (hlaid.tagged _ (mem_usedTiles.1 ((hused _).2 (.inl rfl))).1).size
    have hn : h'.mem t.addr = newSize / 8 :=
      (hshrunk.laid.tagged _ (mem_usedTiles.1 ((hshrunk.used _).2 (.inl rfl))).1).size
    omega
  · intro hdvd
    refine ⟨⟨tiles', newSize / 8, hshrunk.laid, by omega, hshrunk.used⟩, fun i hi => ?_,
      hshrunk.others⟩
    rw [byte, byte, word, word, hshrunk.data _ (by omega) (by omega)]

end Heap

namespace MappedHeap

open Heap

variable {s s' : MappedHeap} {tiles : List Tile} {t : Tile} {fresh : Nat → Nat → Nat}
  {fuel newSize ret : Nat}

theorem word_header (hl : Laid s.heap tiles) (ht : t ∈ tiles) :
    s.heap.word (t.addr + 24 - 8 * 3) 0 = t.words := (hl.tagged t ht).size

/-- `realloc` of a block that it shrinks. -/
theorem realloc_shrinks (hl : Laid s.heap tiles) (ht : t ∈ tiles) (hshrinks : Shrinks t newSize) :
    s.realloc fuel fresh (t.addr + 24) newSize =
      (Heap.rebuildList fuel (s.heap.splitBlk newSize t.addr).1 (t.addr + 24)).map
        fun h => (⟨h, s.mmu⟩, t.addr + 24) := by
  rw [realloc, if_neg (Nat.succ_ne_zero _), word_header hl ht]
  exact (if_pos hshrinks).trans Option.map_eq_bind.symm

/-- Shrinking does what is promised if and only if the new size is a whole number of words. -/
theorem realloc_shrinks_iff (hroving : Roving s.heap tiles) (ht : t ∈ usedTiles tiles)
    (hsize : newSize < 2 ^ 64) (hshrinks : Shrinks t newSize) (fresh : Nat → Nat → Nat) :
    (∃ fuel s' ret, s.realloc fuel fresh (t.addr + 24) newSize = some (s', ret) ∧
      Reallocated s.heap s'.heap tiles t newSize ret) ↔ 8 ∣ newSize := by
  have hl := hroving.ordered.1
  have hmem := (mem_usedTiles.1 ht).1
  constructor
  · rintro ⟨fuel, s', ret, hrun, hmeets⟩
    rw [realloc_shrinks hl hmem hshrinks] at hrun
    obtain ⟨h', hrebuild, heq⟩ := Option.map_eq_some_iff.1 hrun
    cases heq
    have hresized := (hmeets.resolve_right fun hnull => absurd hnull.1 (Nat.succ_ne_zero _)).2
    by_cases hwrap : newSize + OVERHEAD + 1 < 2 ^ 64
    · rw [Shrinks, Nat.mod_eq_of_lt hwrap, OVERHEAD] at hshrinks
      obtain ⟨tiles', hshrunk⟩ := hroving.shrunk ht (show newSize / 8 + 5 ≤ t.words by omega)
      exact (hshrunk.rebuildList hrebuild).resized_iff.1 hresized
    · -- no block is as big as that
      obtain ⟨tiles'', m, hlaid, hroom, hused⟩ := hresized.blocks
      have hbounds := hlaid.bounds (mem_usedTiles.1 ((hused _).2 (.inl rfl))).1
      have hend : h'.heapEnd < 2 ^ 64 := hlaid.end_lt
      unfold OVERHEAD at hwrap
      dsimp only at hbounds
      omega
  · intro hdvd
    have hwrap : newSize + OVERHEAD + 1 < 2 ^ 64 := by
      unfold OVERHEAD
      omega
    have hle : newSize / 8 + 5 ≤ t.words := by
      rw [Shrinks, Nat.mod_eq_of_lt hwrap, OVERHEAD] at hshrinks
      omega
    obtain ⟨tiles', hshrunk⟩ := hroving.shrunk ht hle
    obtain ⟨h', hrebuild⟩ :=
      hshrunk.laid.rebuildList_returns (Nat.lt_succ_self tiles'.length) (t.addr + 24)
    refine ⟨tiles'.length + 1, ⟨h', s.mmu⟩, t.addr + 24, ?_, .inl ⟨Nat.succ_ne_zero _,
      (hshrunk.rebuildList hrebuild).resized_iff.2 hdvd⟩⟩
    rw [realloc_shrinks hl hmem hshrinks, hrebuild]
    rfl

/-! ## Growing -/

/-- No free block is taken as it is in the two passes, the end of the heap can move up twice without
overflow, and no block lies in the page that it is in. -/
structure RoomToGrow (h : Heap) (tiles : List Tile) (newSize : Nat) : Prop where
  exact : ∀ k < 2, NoneExact tiles (newSize + k * (8 * (newSize / 8 + 5)))
  room : ∀ adjSize, nextPowerOf2 newSize = some adjSize → h.heapEnd + 2 * (8 * adjSize) < 2 ^ 64
  page : h.linkedListStart + 8 * (h.word h.linkedListStart 0 + OVERHEAD) ≤
    h.heapEnd / pageSize * pageSize

/-- The frames for two expansions can be mapped, and what is copied when a free block fits is not
too long for `memcpy`. -/
structure CanExpand (s : MappedHeap) (tiles : List Tile) (t : Tile) (newSize : Nat) : Prop where
  frames : ∃ fuel m, mapPasses fuel newSize 2 s.mmu s.heap.heapEnd = some m
  copies : HasFit s.heap tiles newSize → t.words < 2 ^ 31

theorem RoomToGrow.growable (hroom : RoomToGrow s.heap tiles newSize)
    (hroving : Roving s.heap tiles) (ht : t ∈ usedTiles tiles) :
    Growable s.heap tiles t newSize 2 :=
  ⟨hroving, ht, fun _ hu => (hroving.ordered.1.blocks_end hu).trans hroom.page, hroom.exact⟩

/-- The first pass returns only when the copy is not too long. -/
theorem growPass_copies {fresh : Nat → Nat} {passes : Nat}
    (hgrow : Growable s.heap tiles t newSize (passes + 1)) (hsize : newSize < 2 ^ 64)
    (hroom : ∀ adjSize, nextPowerOf2 newSize = some adjSize → s.heap.heapEnd + 8 * adjSize < 2 ^ 64)
    (hrun : growPass fuel fresh (t.addr + 24) newSize s = some s')
    (hfit : HasFit s.heap tiles newSize) : t.words < 2 ^ 31 := by
  cases hadj : nextPowerOf2 newSize with
  | none =>
      rw [growPass_none hadj] at hrun
      cases hrun
  | some adjSize =>
      have hroom := hroom adjSize hadj
      have hle := le_of_nextPowerOf2 hsize hadj
      obtain ⟨⟨h₁, block⟩, hfind, hrun⟩ := Option.bind_eq_some_iff.1 hrun
      obtain ⟨h₂, hcopy, -⟩ := Option.bind_eq_some_iff.1 hrun
      obtain ⟨tiles', hgrow', hsearched⟩ := hgrow.search (by omega) hfind
      have hword : h₁.word (t.addr + 24 - 8 * 3) 0 = t.words :=
        (hgrow'.roving.ordered.1.tagged t (mem_usedTiles.1 hgrow'.used).1).size
      rw [copyOld, if_pos ((hgrow.roving.found_iff hfind).2 hfit), hword, memcpy] at hcopy
      by_contra hlong
      rw [if_neg hlong] at hcopy
      cases hcopy

/-- `realloc` of a block that it does not shrink. -/
theorem realloc_grows (hl : Laid s.heap tiles) (ht : t ∈ tiles) (hgrows : ¬Shrinks t newSize) :
    s.realloc fuel fresh (t.addr + 24) newSize =
      (growLoop fuel fresh (t.addr + 24) newSize 2 s).map fun s => (s, 0) := by
  rw [realloc, if_neg (Nat.succ_ne_zero _), word_header hl ht]
  exact (if_neg hgrows).trans Option.map_eq_bind.symm

/-- Growing does what is promised, with null as the result, if and only if it returns. -/
theorem realloc_grows_iff (hroving : Roving s.heap tiles) (ht : t ∈ usedTiles tiles)
    (hsize : newSize < 2 ^ 64) (hgrows : ¬Shrinks t newSize)
    (hroom : RoomToGrow s.heap tiles newSize) (fresh : Nat → Nat → Nat) :
    (∃ fuel s' ret, s.realloc fuel fresh (t.addr + 24) newSize = some (s', ret) ∧
      Reallocated s.heap s'.heap tiles t newSize ret) ↔ CanExpand s tiles t newSize := by
  have hl := hroving.ordered.1
  have hmem := (mem_usedTiles.1 ht).1
  have hgrow := hroom.growable hroving ht
  have hsame : Overwritten s.heap s.heap tiles t := ⟨s.heap.mem, rfl, fun _ _ => rfl⟩
  have hshort : t.words ≤ newSize + 6 := by
    unfold Shrinks OVERHEAD at hgrows
    omega
  constructor
  · rintro ⟨fuel, s', ret, hrun, -⟩
    rw [realloc_grows hl hmem hgrows] at hrun
    obtain ⟨s₂, hloop, -⟩ := Option.map_eq_some_iff.1 hrun
    obtain ⟨s₁, hpass, -⟩ := Option.bind_eq_some_iff.1 hloop
    have hcopies : HasFit s.heap tiles newSize → t.words < 2 ^ 31 :=
      growPass_copies hgrow hsize (fun adjSize hadj => by have := hroom.room adjSize hadj; omega)
        hpass
    refine ⟨?_, hcopies⟩
    have hfuel : tiles.length + 2 < fuel + tiles.length + 3 := by omega
    obtain ⟨-, hnone⟩ | ⟨m, s₃, h', tiles', hmap, -⟩ :=
      growLoop_spec hgrow hsame hshort hcopies hsize hroom.room hfuel fresh
    · rw [growLoop_mono (by omega) hloop] at hnone
      cases hnone
    · exact ⟨_, m, hmap⟩
  · rintro ⟨⟨fuel, m, hmap⟩, hcopies⟩
    have hfuel : tiles.length + 2 < fuel + tiles.length + 3 := by omega
    obtain ⟨hnone, -⟩ | ⟨m', s', h', tiles', -, hloop, hgrow', hsame', hkept⟩ :=
      growLoop_spec hgrow hsame hshort hcopies hsize hroom.room hfuel fresh
    · rw [mapPasses_mono (by omega) hmap] at hnone
      cases hnone
    · have hl' := hgrow'.roving.ordered.1
      have hmem' := (mem_usedTiles.1 hgrow'.used).1
      refine ⟨fuel + tiles.length + 3, s', 0, ?_, .inr ⟨rfl, ?_, fun a hcover => ?_⟩⟩
      · rw [realloc_grows hl hmem hgrows, hloop]
        rfl
      · obtain ⟨l, r, rfl⟩ := List.append_of_mem hmem'
        exact hsame'.isBlock hl' hl'.block_of_mem
      · rw [hsame'.mem_eq hl' hmem' hcover, hkept a hcover]

/-- The page after a block of 100 words was taken from it. -/
theorem onePage_block : ∃ h, onePage.rmalloc 5 800 = some (h, highMem + 24) ∧
    Roving h (parts ⟨highMem, 507, false⟩ 100) ∧ h.heapEnd = highMem + 4096 := by
  have hrun : (onePage.rmalloc 5 800).any fun r =>
      r.2 == highMem + 24 && r.1.searchPrevious == 0 := by
    decide +kernel
  obtain ⟨⟨h, ptr⟩, hrmalloc, hboth⟩ := (Option.any_eq_true ..).1 hrun
  obtain ⟨hptr, hprevious⟩ := Bool.and_eq_true_iff.1 hboth
  obtain rfl : ptr = highMem + 24 := of_decide_eq_true hptr
  have hready : onePage.RmallocReady 800 := ⟨by decide, ⟨.first, rfl⟩, .inl rfl⟩
  obtain ⟨l, z, r, heq, -, -, -, hcurrent, hkeep, hordered⟩ :=
    onePage_wellFormed.ordered.rmalloc hready hrmalloc
  obtain ⟨rfl, rfl, rfl⟩ : l = [] ∧ ⟨highMem, 507, false⟩ = z ∧ r = [] := by
    cases l with
    | nil => simpa using heq
    | cons s l => simp at heq
  refine ⟨h, hrmalloc, ⟨hordered, mem_freeAddrs.2 ⟨_, List.mem_cons_of_mem _ List.mem_cons_self,
    rfl, hcurrent.symm⟩, .inl (of_decide_eq_true hprevious)⟩, hkeep.heapEnd⟩

end MappedHeap

end CrosKernel.Memory
