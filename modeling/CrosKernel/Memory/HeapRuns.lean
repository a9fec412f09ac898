import CrosKernel.Lib.Run
import CrosKernel.Memory.HeapMerge

/-!
# Runs of the heap

Clients call `rmalloc` and `rfree` and write to the blocks that they hold. A merge can take the
header away that `search_previous` or `search_current` points to, and later calls follow the stale
pointer into memory that a client may hold by then. `ready_runs_keep_blocks` is about the runs in
which no call follows a stale pointer to a place where it does harm.
-/

namespace CrosKernel.Memory

open Lib

namespace Heap

/-- The addresses of the blocks, found by the sizes in their headers; the list starts at the last
one. -/
inductive IsBlock (h : Heap) : Nat → Prop
  | first : IsBlock h h.heap
  | next {a : Nat} : IsBlock h a → a ≠ h.linkedListStart →
      IsBlock h (a + 8 * (h.word a 0 + OVERHEAD))

/-- There is a free block at the address. -/
def FreeBlock (h : Heap) (a : Nat) : Prop := h.IsBlock a ∧ h.word a 2 = 0

/-- The size of the request does not overflow, `search_current` is at a free block, and
`search_previous` is null, at a free block, or in front of a word that `split_blk` may write to or
does not write to because it is null. -/
structure RmallocReady (h : Heap) (size : Nat) : Prop where
  size_le : size + 104 ≤ 2 ^ 64
  current : h.FreeBlock h.searchCurrent
  previous : h.searchPrevious = 0 ∨ h.FreeBlock h.searchPrevious ∨
    (h.word h.searchPrevious 1 = 0 ∨ h.searchCurrent ≤ h.searchPrevious + 8 ∧
      h.searchPrevious + 8 < h.searchCurrent + 8 * (h.word h.searchCurrent 0 + OVERHEAD)) ∧
    h.searchPrevious + 8 ≠ h.searchCurrent + 8 * (align size / 8 + OVERHEAD) ∧
    h.searchPrevious + 8 ≠ h.searchCurrent + 8 * (h.word h.searchCurrent 0 + 3)

/-- `search_previous` is null, at a free block, or in front of a data word of a free block or of the
block that is freed, and in the last case the freed block is merged with a neighbour. -/
def RfreeReady (h : Heap) (blk : Nat) : Prop :=
  h.searchPrevious = 0 ∨ h.FreeBlock h.searchPrevious ∨
    (∃ a, (a = blk ∨ h.FreeBlock a) ∧ a + 24 ≤ h.searchPrevious + 8 ∧
      h.searchPrevious + 8 < a + 8 * (h.word a 0 + 3)) ∧
    ((h.previousFree blk).isSome ∨ (h.nextFree blk).isSome)

end Heap

/-- The heap with the blocks that clients hold: their pointers and the numbers of their words. -/
structure HeapSession where
  heap : Heap
  live : List (Nat × Nat)

/-- What a client does. -/
inductive HeapCall where
  | rmalloc (size : Nat)
  | rfree (ptr : Nat)
  | write (ptr i value : Nat)

namespace HeapSession

/-- One call, or one write of a client to its block. -/
inductive Step : HeapSession → HeapCall → HeapSession → Prop
  | rmalloc {s : HeapSession} {fuel size ptr : Nat} {h : Heap} :
      s.heap.rmalloc fuel size = some (h, ptr) →
      Step s (.rmalloc size) ⟨h, (ptr, align size / 8) :: s.live⟩
  | rfree {s : HeapSession} {fuel ptr n : Nat} {h : Heap} : (ptr, n) ∈ s.live →
      s.heap.rfree fuel ptr = some h → Step s (.rfree ptr) ⟨h, s.live.erase (ptr, n)⟩
  | write {s : HeapSession} {ptr n i value : Nat} : (ptr, n) ∈ s.live → i < n →
      Step s (.write ptr i value) ⟨s.heap.setWord ptr i value, s.live⟩

/-- The rovers are where the call needs them. -/
def Ready (s : HeapSession) : HeapCall → Prop
  | .rmalloc size => s.heap.RmallocReady size
  | .rfree ptr => s.heap.RfreeReady (ptr - 8 * 3)
  | .write _ _ _ => True

/-- The data areas of the live blocks are apart and between the two addresses. -/
def Separate (s : HeapSession) (low high : Nat) : Prop :=
  s.live.Pairwise (fun b c => b.1 + 8 * b.2 ≤ c.1 ∨ c.1 + 8 * c.2 ≤ b.1) ∧
    ∀ b ∈ s.live, low ≤ b.1 ∧ b.1 + 8 * b.2 ≤ high

/-- No word in the data area of a block that is live before and after the call changes. -/
def KeepsData (s s' : HeapSession) : Prop :=
  ∀ b ∈ s.live, b ∈ s'.live → ∀ i < b.2, s'.heap.word b.1 i = s.heap.word b.1 i

/-- Right after `init_heap`. -/
def initial (mem : Nat → Nat) (heapPtr memSize : Nat) : HeapSession :=
  ⟨Heap.initHeap mem heapPtr memSize, []⟩

end HeapSession

/-! ## The heap after `init_heap` -/

namespace Heap

variable {h h' : Heap} {tiles : List Tile} {t : Tile}

/-- `init_heap` writes the header and the footer of one block. -/
theorem initHeap_mem {mem : Nat → Nat} {heapPtr memSize : Nat} (hmin : 8 * OVERHEAD ≤ memSize)
    (hmax : memSize < 2 ^ 31 + 8 * OVERHEAD) :
    (initHeap mem heapPtr memSize).mem =
      (writeBlk ⟨mem, heapPtr, 0, 0, 0, 0, 0⟩ heapPtr (memSize / 8 - 5) 0 0).mem := by
  have hsize : initialSize memSize = memSize / 8 - 5 := by
    rw [OVERHEAD] at hmin hmax
    rw [initialSize, OVERHEAD, sub64_eq hmin (by omega), if_pos (by omega)]
    omega
  generalize hh : (⟨mem, heapPtr, 0, 0, 0, 0, 0⟩ : Heap) = h
  generalize hheader : ((h.setWord heapPtr 0 (memSize / 8 - 5)).setWord heapPtr 1 0).setWord
    heapPtr 2 0 = header
  have hmem : ∀ a, header.mem a = if a = heapPtr + 16 then 0 else if a = heapPtr + 8 then 0
      else if a = heapPtr then memSize / 8 - 5 else h.mem a := fun a => by
    rw [← hheader, mem_setWord, mem_setWord, mem_setWord]
    rfl
  rw [OVERHEAD] at hmin
  have hread : header.word heapPtr 0 = memSize / 8 - 5 := by
    rw [word, hmem, if_neg (by omega), if_neg (by omega), if_pos (by omega)]
  have hread' :
      (header.setWord heapPtr (memSize / 8 - 2) (memSize / 8 - 5)).word heapPtr 1 = 0 := by
    rw [word, mem_setWord, if_neg (by omega), hmem, if_neg (by omega), if_pos (by omega)]
  have hinit : (initHeap mem heapPtr memSize).mem =
      ((header.setWord heapPtr (memSize / 8 - 2) (header.word heapPtr 0)).setWord heapPtr
        (memSize / 8 - 1) ((header.setWord heapPtr (memSize / 8 - 2)
          (header.word heapPtr 0)).word heapPtr 1)).mem := by
    rw [← hheader, ← hh, ← hsize]
    rfl
  funext a
  have hsizePlace : heapPtr + 8 * (memSize / 8 - 2) = heapPtr + 8 * (memSize / 8 - 5 + 3) := by
    omega
  have hflagPlace : heapPtr + 8 * (memSize / 8 - 1) = heapPtr + 8 * (memSize / 8 - 5 + 4) := by
    omega
  rw [hinit, hread, hread', writeBlk_mem, mem_setWord, mem_setWord, hmem, hsizePlace, hflagPlace]

theorem initHeap_ordered {mem : Nat → Nat} {heapPtr memSize : Nat} (hpos : 0 < heapPtr)
    (hend : heapPtr + memSize < 2 ^ 64) (hmin : 8 * OVERHEAD ≤ memSize)
    (hmax : memSize < 2 ^ 31 + 8 * OVERHEAD) :
    Ordered (initHeap mem heapPtr memSize) [⟨heapPtr, memSize / 8 - 5, false⟩] := by
  have htags : Tile.Tagged (initHeap mem heapPtr memSize).mem
      ⟨heapPtr, memSize / 8 - 5, false⟩ := by
    rw [initHeap_mem hmin hmax]
    exact writeBlk_tagged _ ⟨heapPtr, memSize / 8 - 5, false⟩ 0
  have hlink : (initHeap mem heapPtr memSize).mem (heapPtr + 8) = 0 := by
    rw [initHeap_mem hmin hmax, writeBlk_mem, if_neg (by omega), if_neg (by omega),
      if_neg (by omega), if_pos rfl]
  refine ⟨⟨⟨_, ⟨rfl, ?_⟩, le_rfl⟩, ?_, ⟨[], _, rfl, rfl, rfl⟩, hpos, ?_⟩, fun t ht => ?_,
    [heapPtr], ⟨?_, rfl, ?_⟩, .inr rfl⟩
  · show heapPtr + 8 * (memSize / 8 - 5 + 5) = heapPtr + 8 * (memSize / 8)
    rw [OVERHEAD] at hmin
    omega
  · intro t ht
    obtain rfl := List.mem_singleton.1 ht
    exact htags
  · show heapPtr + 8 * (memSize / 8) < 2 ^ 64
    omega
  · cases ht
  · exact NullList.cons.2 ⟨hlink, NullList.nil _ _⟩
  · exact .refl _

/-! ## The conditions in terms of the blocks -/

/-- Walking along the headers one comes to the blocks. -/
theorem Laid.isBlock {a : Nat} (hl : Laid h tiles) (hblock : h.IsBlock a) :
    ∃ t ∈ tiles, t.addr = a := by
  induction hblock with
  | first =>
      obtain ⟨init, z, rfl, -, -⟩ := hl.last
      obtain ⟨e, htiling, -⟩ := hl.tiling
      cases init with
      | nil => exact ⟨z, by simp, htiling.1⟩
      | cons t init => exact ⟨t, by simp, htiling.1⟩
  | next _ hne ih =>
      obtain ⟨t, ht, rfl⟩ := ih
      have hsize : h.word t.addr 0 = t.words := (hl.tagged t ht).size
      rw [hsize]
      obtain ⟨l, r, rfl⟩ := List.append_of_mem ht
      cases r with
      | nil => exact absurd (hl.start_eq_iff.2 rfl) hne
      | cons s r => exact ⟨s, by simp, hl.next_addr⟩

theorem Laid.freeBlock {a : Nat} (hl : Laid h tiles) (hblock : h.FreeBlock a) :
    ∃ t ∈ tiles, t.used = false ∧ t.addr = a := by
  obtain ⟨t, ht, rfl⟩ := hl.isBlock hblock.1
  refine ⟨t, ht, ?_, rfl⟩
  have hflag : t.flag = 0 := (hl.tagged t ht).flag.symm.trans hblock.2
  cases hused : t.used with
  | false => rfl
  | true => simp [Tile.flag, hused] at hflag

/-- A stale `search_previous` is safe for a split when it is ready for `rmalloc`. -/
theorem RmallocReady.linkSafe {l r : List Tile} {size : Nat} (hready : h.RmallocReady size)
    (hordered : Ordered h (l ++ [t] ++ r)) (ht : t.addr = h.searchCurrent)
    (hle : align size / 8 + 5 ≤ t.words) : LinkSafe h (l ++ r) t (align size / 8) := by
  obtain ⟨hl, -, chain, hlist, hrovers⟩ := hordered
  by_cases hmem : h.searchPrevious ∈ chain
  · exact hl.linkSafe hle (hlist.tile hmem)
  · have hpos := hl.heap_pos
    -- the block is the only free one
    obtain ⟨halone, hnull⟩ := hlist.alone hrovers hmem
    have hfree : ∃ u ∈ l ++ [t] ++ r, u.used = false ∧ u.addr = h.searchCurrent :=
      hl.freeBlock hready.current
    have hstart : h.searchCurrent = h.linkedListStart := by
      have hcurrent := hlist.perm.mem_iff.2 (mem_freeAddrs.2 hfree)
      rw [halone] at hcurrent
      exact List.mem_singleton.1 hcurrent
    have hlink : h.mem (t.addr + 8) = 0 := by rw [ht, hstart, hnull]
    have hsize : h.word h.searchCurrent 0 = t.words := by
      rw [← ht]
      exact (hl.tagged t (by simp)).size
    obtain hzero | hblock | ⟨hword, hrest, hfooter⟩ := hready.previous
    · exact ⟨fun hne => absurd hzero hne, fun hlow => by omega⟩
    · exact absurd (hlist.perm.mem_iff.2 (mem_freeAddrs.2 (hl.freeBlock hblock))) hmem
    · rw [hsize, ← ht, OVERHEAD] at hword
      rw [← ht, OVERHEAD] at hrest
      rw [hsize, ← ht] at hfooter
      refine ⟨fun _ hne hout => ?_, fun _ _ => ⟨hlink, hrest, hfooter⟩⟩
      obtain hword | hin := hword
      · exact absurd hword hne
      · omega

/-- What `find_fit` does when the write of a split through `search_previous` is safe. -/
theorem Ordered.findFit {size n fuel ptr : Nat} (hordered : Ordered h tiles)
    (hcurrent : h.searchCurrent ∈ freeAddrs tiles) (hn : size / 8 = n) (hsize : size + 104 ≤ 2 ^ 64)
    (hexact : NoneExact tiles size)
    (hsafe : ∀ l t r, tiles = l ++ [t] ++ r → t.addr = h.searchCurrent → n + 5 ≤ t.words →
      LinkSafe h (l ++ r) t n) (hfind : h.findFit fuel size = some (h', ptr)) :
    ptr = 0 ∧ Missed h h' tiles ∨ Taken h h' tiles n ptr := by
  have hsafe' : ∀ l t r, tiles = l ++ [t] ++ r → t.addr = h.searchCurrent → n + 5 ≤ t.words →
      LinkSafe { h with searchStart := h.searchCurrent } (l ++ r) t n := by
    intro l t r heq ht hle
    have hsafe := hsafe l t r heq ht hle
    exact ⟨hsafe.outside, hsafe.inside⟩
  obtain ⟨hzero, hmissed⟩ | htaken :=
    (hordered.startAt h.searchCurrent).findFitLoop hcurrent hn hsize hexact hsafe' hfind
  · exact .inl ⟨hzero, hmissed.of_startAt⟩
  · exact .inr (htaken.congr fun _ => ⟨rfl, rfl, fun _ _ _ _ => rfl⟩)

/-- The rounded size of a request that does not overflow. -/
theorem RmallocReady.align_eq {size : Nat} (hready : h.RmallocReady size) :
    align size = 8 * (align size / 8) ∧ 8 * (align size / 8) + 104 ≤ 2 ^ 64 := by
  have hsize := hready.size_le
  unfold align
  omega

/-- What the first search of `rmalloc` does. -/
theorem RmallocReady.findFit {fuel size ptr : Nat} (hready : h.RmallocReady size)
    (hordered : Ordered h tiles) (hfind : h.findFit fuel (align size) = some (h', ptr)) :
    ptr = 0 ∧ Missed h h' tiles ∨ Taken h h' tiles (align size / 8) ptr := by
  obtain ⟨halign, hle⟩ := hready.align_eq
  rw [halign] at hfind
  refine hordered.findFit (mem_freeAddrs.2 (hordered.1.freeBlock hready.current))
    (Nat.mul_div_cancel_left _ (by decide)) hle (noneExact_words tiles _) ?_ hfind
  intro l t r heq ht hle
  subst heq
  exact hready.linkSafe hordered ht hle

/-- What `rmalloc` does. -/
theorem Ordered.rmalloc {fuel size ptr : Nat} (hordered : Ordered h tiles)
    (hready : h.RmallocReady size) (hrun : h.rmalloc fuel size = some (h', ptr)) :
    Taken h h' tiles (align size / 8) ptr := by
  obtain ⟨⟨h₁, block⟩, hfind, hrest⟩ := Option.bind_eq_some_iff.1 hrun
  dsimp only at hrest
  split at hrest
  next => cases hrest
  next hne =>
    cases hrest
    exact (hready.findFit hordered hfind).resolve_left fun hmissed => hne hmissed.1

/-- A stale `search_previous` is safe for an insertion when it is ready for `rfree`. -/
theorem RfreeReady.insertSafe {l r : List Tile} (hready : h.RfreeReady t.addr)
    (hl : Laid h (l ++ [t] ++ r)) (hused : t.used = true) : InsertSafe h l r t := by
  obtain hzero | hblock | ⟨⟨a, ha, hlow, hhigh⟩, hneighbour⟩ := hready
  · exact .inl hzero
  · exact .inr (.inl (mem_freeAddrs.2 (hl.freeBlock hblock)))
  · refine .inr (.inr ⟨?_, hneighbour⟩)
    obtain rfl | hblock := ha
    · have hsize : h.word t.addr 0 = t.words := (hl.tagged t (by simp)).size
      rw [hsize] at hhigh
      exact ⟨freed t, by simp, rfl, hlow, hhigh⟩
    · obtain ⟨u, hu, hfree, rfl⟩ := hl.freeBlock hblock
      have hsize : h.word u.addr 0 = u.words := (hl.tagged u hu).size
      rw [hsize] at hhigh
      refine ⟨u, ?_, hfree, hlow, hhigh⟩
      have hne : u ≠ t := by
        rintro rfl
        rw [hused] at hfree
        cases hfree
      simp only [List.mem_append, List.mem_singleton, hne, or_false] at hu ⊢
      tauto

/-- A client that writes to its block leaves the blocks and the list alone. -/
theorem Ordered.write {i v : Nat} (hordered : Ordered h tiles) (ht : t ∈ tiles)
    (hused : t.used = true) (hi : i < t.words) :
    Ordered (h.setWord (t.addr + 24) i v) tiles := by
  obtain ⟨hl, hunlinked, chain, hlist, hrovers⟩ := hordered
  have hmem : ∀ a, a ≠ t.addr + 24 + 8 * i → (h.setWord (t.addr + 24) i v).mem a = h.mem a :=
    fun a ha => by rw [mem_setWord, if_neg ha]
  have hlink : ∀ x ∈ chain, (h.setWord (t.addr + 24) i v).mem (x + 8) = h.mem (x + 8) := by
    intro x hx
    obtain ⟨u, hu, hfree, rfl⟩ := hlist.tile hx
    obtain rfl | hapart := hl.apart hu ht
    · rw [hused] at hfree
      cases hfree
    · exact hmem _ (by omega)
  refine ⟨⟨hl.tiling, fun s hs => ?_, hl.last, hl.heap_pos, hl.end_lt⟩, fun s hs => ?_, chain,
    ⟨hlist.links.congr hlink, hlist.head, hlist.perm⟩, ?_⟩
  · have htags := hl.tagged s hs
    obtain rfl | hapart := hl.apart hs ht
    · constructor
      · exact (hmem _ (by omega)).trans htags.size
      · exact (hmem _ (by omega)).trans htags.flag
      · exact (hmem _ (by omega)).trans htags.footerSize
      · exact (hmem _ (by omega)).trans htags.footerFlag
    · exact htags.congr fun a howns => hmem a (by
        have hrange := Tile.owns_iff.1 howns
        omega)
  · refine (hmem _ ?_).trans (hunlinked s hs)
    obtain rfl | hapart := hl.apart (mem_usedTiles.1 hs).1 ht
    · omega
    · omega
  · obtain ⟨hprevious, hnext⟩ | halone := hrovers
    · refine .inl ⟨hprevious, ?_⟩
      show (h.setWord (t.addr + 24) i v).mem (h.searchPrevious + 8) = _ ∨
        (h.setWord (t.addr + 24) i v).mem (h.searchPrevious + 8) = 0 ∧ _
      rw [hlink _ hprevious]
      exact hnext
    · exact .inr halone

end Heap

/-! ## Runs -/

/-- The data area of a block: the pointer to it and its number of words. -/
def Tile.area (t : Tile) : Nat × Nat := (t.addr + 24, t.words)

namespace HeapSession

variable {s s' : HeapSession} {tiles : List Tile} {c : HeapCall}

/-- The live blocks are the blocks in use of a heap whose blocks are in order. -/
def Inv (s : HeapSession) (tiles : List Tile) : Prop :=
  s.heap.Ordered tiles ∧ s.live.Perm ((usedTiles tiles).map Tile.area)

theorem Inv.mem_live {b : Nat × Nat} (h : Inv s tiles) (hb : b ∈ s.live) :
    ∃ t ∈ tiles, t.used = true ∧ t.area = b := by
  obtain ⟨t, ht, heq⟩ := List.mem_map.1 (h.2.mem_iff.1 hb)
  exact ⟨t, (mem_usedTiles.1 ht).1, (mem_usedTiles.1 ht).2, heq⟩

theorem Inv.separate (h : Inv s tiles) : Separate s s.heap.heap s.heap.heapEnd := by
  obtain ⟨⟨hl, -⟩, hlive⟩ := id h
  constructor
  · refine (hlive.pairwise_iff fun hor => hor.symm).2 (List.pairwise_map.2 ?_)
    obtain ⟨e, htiling, -⟩ := hl.tiling
    refine (htiling.pairwise.filter _).imp fun {t u} hlt => .inl ?_
    have hlen : t.len = 8 * (t.words + 5) := rfl
    show t.addr + 24 + 8 * t.words ≤ u.addr + 24
    omega
  · intro b hb
    obtain ⟨t, ht, -, rfl⟩ := h.mem_live hb
    have hbounds := hl.bounds ht
    show s.heap.heap ≤ t.addr + 24 ∧ t.addr + 24 + 8 * t.words ≤ s.heap.heapEnd
    omega

/-- The data of the blocks whose words are kept. -/
theorem keepsData_of_keeps {us : List Tile} (hkeep : Heap.Keeps us s.heap s'.heap)
    (hlive : ∀ b ∈ s.live, b ∈ s'.live → ∃ t ∈ us, t.used = true ∧ t.area = b) :
    KeepsData s s' := by
  intro b hb hb' i hi
  obtain ⟨t, ht, hused, rfl⟩ := hlive b hb hb'
  refine hkeep.words t ht _ (Tile.owns_iff.2 ?_)
  have hi' : i < t.words := hi
  show t.addr ≤ t.addr + 24 + 8 * i ∧ t.addr + 24 + 8 * i < t.addr + 8 * (t.words + 5) ∧ _
  exact ⟨by omega, by omega, .inl hused⟩

/-- The heap stays where it is, and its blocks stay in order. -/
def Kept (s s' : HeapSession) : Prop :=
  s'.heap.heap = s.heap.heap ∧ s'.heap.heapEnd = s.heap.heapEnd ∧ ∃ tiles, Inv s' tiles

/-- A block that was taken is one of the live ones, and the search is at the rest. -/
theorem Inv.taken {n ptr : Nat} {h : Heap} (hinv : Inv s tiles)
    (htaken : Heap.Taken s.heap h tiles n ptr) :
    ∃ tiles', Inv ⟨h, (ptr, n) :: s.live⟩ tiles' ∧ h.searchCurrent ∈ freeAddrs tiles' := by
  obtain ⟨hordered, hlive⟩ := hinv
  obtain ⟨l, t, r, rfl, hfree, -, rfl, hcurrent, -, hordered'⟩ := htaken
  have hused : usedTiles (l ++ [t] ++ r) = usedTiles l ++ usedTiles r := by
    rw [usedTiles_append, usedTiles_append, usedTiles_free hfree, List.append_nil]
  have hused' : usedTiles (l ++ Heap.parts t n ++ r) =
      usedTiles l ++ ⟨t.addr, n, true⟩ :: usedTiles r := by
    rw [usedTiles_append, usedTiles_append, List.append_assoc]
    rfl
  refine ⟨_, ⟨hordered', ?_⟩, ?_⟩
  · rw [hused', List.map_append, List.map_cons]
    rw [hused, List.map_append] at hlive
    exact (hlive.cons _).trans List.perm_middle.symm
  · rw [hcurrent]
    exact mem_freeAddrs.2 ⟨⟨_, t.words - n - 5, false⟩, by simp [Heap.parts], rfl, rfl⟩

/-- The live blocks without one of them. -/
theorem Inv.erase {t : Tile} {l r tiles' : List Tile} {h : Heap} (hinv : Inv s (l ++ [t] ++ r))
    (huse : t.used = true) (htiles : usedTiles tiles' = usedTiles (l ++ r))
    (hordered : Heap.Ordered h tiles') : Inv ⟨h, s.live.erase t.area⟩ tiles' := by
  refine ⟨hordered, ?_⟩
  have hused : usedTiles (l ++ [t] ++ r) = usedTiles l ++ t :: usedTiles r := by
    rw [List.append_assoc, usedTiles_append]
    exact congrArg (usedTiles l ++ ·) (List.filter_cons_of_pos huse)
  have hlive := hinv.2
  rw [hused, List.map_append, List.map_cons] at hlive
  have herase := (hlive.trans List.perm_middle).erase t.area
  rw [htiles, usedTiles_append, List.map_append]
  exact herase.trans (.of_eq (List.erase_cons_head ..))

/-- `rmalloc` adds a block in use and keeps the others. -/
theorem Inv.rmalloc {fuel size ptr : Nat} {h : Heap} (hinv : Inv s tiles)
    (hready : s.heap.RmallocReady size) (hrun : s.heap.rmalloc fuel size = some (h, ptr)) :
    Kept s ⟨h, (ptr, align size / 8) :: s.live⟩ ∧
      KeepsData s ⟨h, (ptr, align size / 8) :: s.live⟩ := by
  have htaken := hinv.1.rmalloc hready hrun
  obtain ⟨tiles', hinv', -⟩ := hinv.taken htaken
  obtain ⟨l, t, r, rfl, hfree, -, -, -, hkeep, -⟩ := htaken
  refine ⟨⟨hkeep.heap, hkeep.heapEnd, tiles', hinv'⟩, keepsData_of_keeps hkeep fun b hb _ => ?_⟩
  obtain ⟨u, hu, huse, rfl⟩ := hinv.mem_live hb
  refine ⟨u, ?_, huse, rfl⟩
  simp only [List.mem_append, List.mem_singleton] at hu ⊢
  obtain (hu | rfl) | hu := hu
  · exact .inl hu
  · rw [hfree] at huse
    cases huse
  · exact .inr hu

/-- `rfree` takes the block from those in use and keeps the others. -/
theorem Inv.rfree {fuel ptr n : Nat} {h : Heap} (hinv : Inv s tiles)
    (hready : s.heap.RfreeReady (ptr - 8 * 3)) (hmem : (ptr, n) ∈ s.live)
    (hrun : s.heap.rfree fuel ptr = some h) :
    Kept s ⟨h, s.live.erase (ptr, n)⟩ ∧ KeepsData s ⟨h, s.live.erase (ptr, n)⟩ := by
  obtain ⟨t, ht, huse, harea⟩ := hinv.mem_live hmem
  obtain ⟨rfl, rfl⟩ := Prod.mk.inj harea
  obtain ⟨l, r, rfl⟩ := List.append_of_mem ht
  rw [List.append_cons] at hinv
  have hblk : t.addr + 24 - 8 * 3 = t.addr := by omega
  rw [hblk] at hready
  obtain ⟨tiles', h₁, ⟨htiles, -, -, -, -, hkeep⟩, -, hordered', -⟩ :=
    hinv.1.rfree huse (hready.insertSafe hinv.1.1 huse) hrun
  have hinv' : Inv ⟨h, s.live.erase t.area⟩ tiles' := hinv.erase huse htiles hordered'
  refine ⟨⟨hkeep.heap, hkeep.heapEnd, tiles', hinv'⟩, keepsData_of_keeps hkeep fun b _ hb => ?_⟩
  obtain ⟨u, hu, heq⟩ := List.mem_map.1 (hinv'.2.mem_iff.1 hb)
  exact ⟨u, htiles ▸ hu, (mem_usedTiles.1 hu).2, heq⟩

/-- A call that is ready keeps the invariant and the data of the blocks that stay live. -/
theorem Inv.step (hinv : Inv s tiles) (hready : Ready s c) (hstep : Step s c s') :
    Kept s s' ∧ ((∀ ptr i value, c ≠ .write ptr i value) → KeepsData s s') := by
  cases hstep with
  | rmalloc hrun =>
      obtain ⟨hkept, hkeep⟩ := hinv.rmalloc hready hrun
      exact ⟨hkept, fun _ => hkeep⟩
  | rfree hmem hrun =>
      obtain ⟨hkept, hkeep⟩ := hinv.rfree hready hmem hrun
      exact ⟨hkept, fun _ => hkeep⟩
  | write hmem hi =>
      obtain ⟨t, ht, huse, harea⟩ := hinv.mem_live hmem
      obtain ⟨rfl, rfl⟩ := Prod.mk.inj harea
      exact ⟨⟨rfl, rfl, tiles, hinv.1.write ht huse hi, hinv.2⟩, fun hne => absurd rfl (hne _ _ _)⟩

theorem initial_inv {mem : Nat → Nat} {heapPtr memSize : Nat} (hpos : 0 < heapPtr)
    (hend : heapPtr + memSize < 2 ^ 64) (hmin : 8 * OVERHEAD ≤ memSize)
    (hmax : memSize < 2 ^ 31 + 8 * OVERHEAD) :
    Inv (initial mem heapPtr memSize) [⟨heapPtr, memSize / 8 - 5, false⟩] :=
  ⟨Heap.initHeap_ordered hpos hend hmin hmax, .refl _⟩

/-- As long as the calls are ready, the live blocks are apart and inside the heap, and `rmalloc` and
`rfree` change no data of a block that stays live. -/
theorem ready_runs_keep_blocks {mem : Nat → Nat} {heapPtr memSize : Nat} {calls : List HeapCall}
    (hpos : 0 < heapPtr) (hend : heapPtr + memSize < 2 ^ 64) (hmin : 8 * OVERHEAD ≤ memSize)
    (hmax : memSize < 2 ^ 31 + 8 * OVERHEAD)
    (hrun : Run (Guarded Ready Step) (initial mem heapPtr memSize) calls s) :
    Separate s heapPtr (heapPtr + memSize) ∧ ∀ c s', Ready s c → Step s c s' →
      (∀ ptr i value, c ≠ .write ptr i value) →
      KeepsData s s' := by
  have hstart : Kept (initial mem heapPtr memSize) (initial mem heapPtr memSize) :=
    ⟨rfl, rfl, _, initial_inv hpos hend hmin hmax⟩
  have hkeep : ∀ s c s', Kept (initial mem heapPtr memSize) s → Guarded Ready Step s c s' →
      Kept (initial mem heapPtr memSize) s' := by
    intro s c s' hkept hstep
    obtain ⟨hheap, hheapEnd, tiles, hinv⟩ := hkept
    obtain ⟨hheap', hheapEnd', hinv'⟩ := (hinv.step hstep.1 hstep.2).1
    exact ⟨hheap'.trans hheap, hheapEnd'.trans hheapEnd, hinv'⟩
  obtain ⟨hheap, hheapEnd, tiles, hinv⟩ := hrun.invariant hstart hkeep
  refine ⟨⟨hinv.separate.1, fun b hb => ?_⟩, fun c s' hready hstep hcall =>
    (hinv.step hready hstep).2 hcall⟩
  have hbounds := hinv.separate.2 b hb
  have hlow : (initial mem heapPtr memSize).heap.heap = heapPtr := rfl
  have hhigh : (initial mem heapPtr memSize).heap.heapEnd = heapPtr + 8 * (memSize / 8) := rfl
  omega

theorem ready_runs_keep_blocks_rmalloc :
    ∃ s, s.live = [(4120, 1)] ∧ Separate s 4096 (4096 + 256) ∧
      ∀ c s', Ready s c → Step s c s' → (∀ ptr i value, c ≠ .write ptr i value) →
        KeepsData s s' := by
  have hrun : ((Heap.initHeap (fun _ => 0) 4096 256).rmalloc 5 8).any fun r =>
      r.2 == 4120 := by
    decide +kernel
  obtain ⟨⟨h, ptr⟩, hrmalloc, hptr⟩ := (Option.any_eq_true ..).1 hrun
  obtain rfl : ptr = 4120 := of_decide_eq_true hptr
  have hready : (initial (fun _ => 0) 4096 256).Ready (.rmalloc 8) :=
    ⟨by decide, ⟨.first, by decide +kernel⟩, .inl rfl⟩
  have hstep : Step (initial (fun _ => 0) 4096 256) (.rmalloc 8) ⟨h, [(4120, 1)]⟩ :=
    .rmalloc hrmalloc
  exact ⟨⟨h, [(4120, 1)]⟩, rfl, ready_runs_keep_blocks (by decide) (by decide) (by decide)
    (by decide) (.single ⟨hready, hstep⟩)⟩

/-- `rfree` merges the block behind which it put the freed one, and `search_previous` stays at the
header that is gone. The next block that is handed out covers the place, and the `rmalloc` after
that writes a list pointer over the data of its owner. -/
theorem stale_rover_overwrites_data :
    ¬ ∀ (calls : List HeapCall) (s : HeapSession),
      Run Step (initial (fun _ => 0) 4096 256) calls s → Separate s 4096 (4096 + 256) ∧
        ∀ c s', Step s c s' → (∀ ptr i value, c ≠ .write ptr i value) → KeepsData s s' := by
  have hrun : ((Heap.initHeap (fun _ => 0) 4096 256).rmalloc 5 8).any fun r₁ =>
      r₁.2 == 4120 && (r₁.1.rfree 5 4120).any fun h₂ => (h₂.rmalloc 5 64).any fun r₃ =>
        r₃.2 == 4120 && ((r₃.1.setWord 4120 4 7).rmalloc 5 8).any fun r₄ =>
          r₄.1.word 4120 4 != 7 := by
    decide +kernel
  obtain ⟨⟨h₁, ptr₁⟩, hrmalloc₁, hrun⟩ := (Option.any_eq_true ..).1 hrun
  obtain ⟨hptr₁, hrun⟩ := Bool.and_eq_true_iff.1 hrun
  obtain ⟨h₂, hrfree, hrun⟩ := (Option.any_eq_true ..).1 hrun
  obtain ⟨⟨h₃, ptr₃⟩, hrmalloc₃, hrun⟩ := (Option.any_eq_true ..).1 hrun
  obtain ⟨hptr₃, hrun⟩ := Bool.and_eq_true_iff.1 hrun
  obtain ⟨⟨h₄, ptr₄⟩, hrmalloc₄, hword⟩ := (Option.any_eq_true ..).1 hrun
  obtain rfl : ptr₁ = 4120 := of_decide_eq_true hptr₁
  obtain rfl : ptr₃ = 4120 := of_decide_eq_true hptr₃
  intro h
  have hstep₁ : Step (initial (fun _ => 0) 4096 256) (.rmalloc 8) ⟨h₁, [(4120, 1)]⟩ :=
    .rmalloc hrmalloc₁
  have hstep₂ : Step ⟨h₁, [(4120, 1)]⟩ (.rfree 4120) ⟨h₂, []⟩ :=
    .rfree (n := 1) (List.mem_singleton.2 rfl) hrfree
  have hstep₃ : Step ⟨h₂, []⟩ (.rmalloc 64) ⟨h₃, [(4120, 8)]⟩ := .rmalloc hrmalloc₃
  have hwrite : Step ⟨h₃, [(4120, 8)]⟩ (.write 4120 4 7) ⟨h₃.setWord 4120 4 7, [(4120, 8)]⟩ :=
    .write (List.mem_singleton.2 rfl) (by decide)
  have hstep₄ : Step ⟨h₃.setWord 4120 4 7, [(4120, 8)]⟩ (.rmalloc 8)
      ⟨h₄, [(ptr₄, 1), (4120, 8)]⟩ := .rmalloc hrmalloc₄
  have hcalls := (h _ _ (.cons hstep₁ (.cons hstep₂ (.cons hstep₃ (.single hwrite))))).2
  have hkeep := hcalls _ _ hstep₄ (by simp) (4120, 8) (by simp) (by simp) 4 (by decide)
  have hold : (h₃.setWord 4120 4 7).word 4120 4 = 7 := by
    rw [Heap.word, Heap.mem_setWord, if_pos rfl]
  exact (bne_iff_ne.1 hword) (hkeep.trans hold)

end HeapSession

end CrosKernel.Memory
