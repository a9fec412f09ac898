import CrosKernel.Memory.HeapExpansion

/-!
# The free list over whole runs

The list that starts at `linked_list_start` is to have each free block as a node and no other one,
with `search_current` among them, and then `find_fit` ends for every size. `rfree` breaks it when it
merges the only free blocks: `rebuild_list` sets `search_current` to the link that the merged block
had, even when that leads to a header that is gone, and `search_previous` can stay at one.
-/

namespace CrosKernel.Memory

open Lib

/-- The heap with its pages and the blocks that clients hold. -/
structure MappedSession where
  state : MappedHeap
  live : List (Nat × Nat)

namespace MappedSession

/-- One call, or one write of a client to its block. A call of `rmalloc` may expand the heap, with
frames that hold anything. -/
inductive Step : MappedSession → HeapCall → MappedSession → Prop
  | rmalloc {s : MappedSession} {m : MappedHeap} {fuel size ptr : Nat} {fresh : Nat → Nat} :
      s.state.rmalloc fuel fresh size = some (m, ptr) →
      Step s (.rmalloc size) ⟨m, if ptr = 0 then s.live else (ptr, align size / 8) :: s.live⟩
  | rfree {s : MappedSession} {fuel ptr n : Nat} {h : Heap} : (ptr, n) ∈ s.live →
      s.state.heap.rfree fuel ptr = some h →
      Step s (.rfree ptr) ⟨⟨h, s.state.mmu⟩, s.live.erase (ptr, n)⟩
  | write {s : MappedSession} {ptr n i value : Nat} : (ptr, n) ∈ s.live → i < n →
      Step s (.write ptr i value) ⟨⟨s.state.heap.setWord ptr i value, s.state.mmu⟩, s.live⟩

/-- Right after `init_heap`. -/
def initial (m : Mmu) (mem : Nat → Nat) (heapPtr memSize : Nat) : MappedSession :=
  ⟨⟨Heap.initHeap mem heapPtr memSize, m⟩, []⟩

end MappedSession

namespace Heap

variable {h h' : Heap} {tiles l r : List Tile} {chain : List Nat} {t : Tile} {fuel a : Nat}

/-- The list from `linked_list_start` on ends, its nodes are the free blocks, each of them once, and
the search is at one of them. -/
def FreeListed (h : Heap) : Prop :=
  ∃ chain, NullList (fun p => h.word p 1) 0 chain ∧ chain.head? = some h.linkedListStart ∧
    chain.Nodup ∧ (∀ a, a ∈ chain ↔ h.FreeBlock a) ∧ h.searchCurrent ∈ chain

theorem IsBlock.heap_le (hblock : h.IsBlock a) : h.heap ≤ a := by
  induction hblock with
  | first => exact le_rfl
  | next _ _ ih => omega

/-- The search never ends at the start of a list that it did not begin at, when nothing comes behind
it and it does not fit. -/
theorem findFitLoop_stuck {size : Nat} (hcurrent : h.searchCurrent = h.linkedListStart)
    (hlink : h.word h.searchCurrent 1 = 0) (hfits : ¬Fits size (h.word h.searchCurrent 0))
    (hstart : h.searchStart ≠ h.searchCurrent) (hpos : 0 < h.searchCurrent)
    (hlt : h.searchCurrent < h.heapEnd) (fuel : Nat) : findFitLoop size fuel h = none := by
  induction fuel generalizing h with
  | zero => rfl
  | succ fuel ih =>
      have hnext : h.nextSearch = h.searchCurrent := by
        rw [nextSearch, hlink, if_neg (not_not.2 rfl), hcurrent]
      have hsame : h.advance.searchCurrent = h.searchCurrent := hnext
      have hword : ∀ i, h.advance.word h.advance.searchCurrent i = h.word h.searchCurrent i :=
        fun i => by rw [hsame]; rfl
      rw [findFitLoop_move hfits, hnext, if_pos ⟨hpos.ne', hstart, hlt⟩]
      exact ih (hsame.trans hcurrent) (by rwa [hword]) (by rwa [hword]) (hsame ▸ hstart)
        (hsame ▸ hpos) (hsame ▸ hlt)

/-- A search that begins at a block outside a list of one node never ends when neither of them fits.
-/
theorem findFit_stuck {size : Nat} (hne : h.searchCurrent ≠ h.linkedListStart)
    (hpos : 0 < h.searchCurrent) (hpos' : 0 < h.linkedListStart)
    (hlt : h.linkedListStart < h.heapEnd) (hlink : h.word h.searchCurrent 1 = 0)
    (hfits : ¬Fits size (h.word h.searchCurrent 0)) (hlink' : h.word h.linkedListStart 1 = 0)
    (hfits' : ¬Fits size (h.word h.linkedListStart 0)) (fuel : Nat) :
    h.findFit fuel size = none := by
  cases fuel with
  | zero => rfl
  | succ fuel =>
      have hnext : nextSearch { h with searchStart := h.searchCurrent } = h.linkedListStart := by
        show (if h.word h.searchCurrent 1 ≠ 0 then _ else h.linkedListStart) = _
        rw [hlink, if_neg (not_not.2 rfl)]
      have hcurrent : (advance { h with searchStart := h.searchCurrent }).searchCurrent =
          h.linkedListStart := hnext
      have hmove := findFitLoop_move (h := { h with searchStart := h.searchCurrent }) hfits fuel
      rw [findFit, hmove, hnext, if_pos ⟨hpos.ne', hne, hlt⟩]
      refine findFitLoop_stuck hcurrent ?_ ?_ (fun heq => hne (heq.trans hcurrent))
        (hpos'.trans_eq hcurrent.symm) (hcurrent.trans_lt hlt) fuel
      · rw [hcurrent]
        exact hlink'
      · rw [hcurrent]
        exact hfits'

/-- The blocks are found by walking along the headers. -/
theorem Laid.block_of_mem (hl : Laid h (l ++ t :: r)) : h.IsBlock t.addr := by
  induction l using List.reverseRecOn generalizing t r with
  | nil =>
      obtain ⟨e, htiling, -⟩ := hl.tiling
      have hfirst : t.addr = h.heap := htiling.1
      exact hfirst ▸ .first
  | append_singleton l s ih =>
      have hl' : Laid h (l ++ s :: (t :: r)) := by simpa using hl
      have hsize : h.word s.addr 0 = s.words := (hl'.tagged s (by simp)).size
      have hne : s.addr ≠ h.linkedListStart := fun heq => by
        cases hl'.start_eq_iff.1 heq
      have hnext := IsBlock.next (ih hl') hne
      rw [hsize, OVERHEAD] at hnext
      rw [hl'.next_addr]
      exact hnext

theorem Laid.mem_freeAddrs_iff (hl : Laid h tiles) : a ∈ freeAddrs tiles ↔ h.FreeBlock a := by
  constructor
  · intro ha
    obtain ⟨t, ht, hfree, rfl⟩ := mem_freeAddrs.1 ha
    obtain ⟨l, r, rfl⟩ := List.append_of_mem ht
    refine ⟨hl.block_of_mem, (hl.tagged t ht).flag.trans ?_⟩
    rw [Tile.flag, hfree]
    rfl
  · exact fun hblock => mem_freeAddrs.2 (hl.freeBlock hblock)

theorem Ordered.freeListed (hordered : Ordered h tiles)
    (hcurrent : h.searchCurrent ∈ freeAddrs tiles) : h.FreeListed := by
  obtain ⟨hl, -, chain, hlist, -⟩ := hordered
  exact ⟨chain, hlist.links, hlist.head, hlist.nodup hl, fun a =>
    hlist.perm.mem_iff.trans hl.mem_freeAddrs_iff, hlist.perm.mem_iff.2 hcurrent⟩

/-! ## Freeing a block -/

/-- `rfree` leaves the search at a free block: there is one that is not merged with the freed block,
or the merged block gets no link to a header that is gone. -/
def SearchKept (h : Heap) (blk : Nat) : Prop :=
  (∃ a, h.FreeBlock a ∧ h.previousFree blk ≠ some a ∧ h.nextFree blk ≠ some a) ∨
    (∀ p, h.previousFree blk = some p → h.searchPrevious ≠ p) ∧
      (h.previousFree blk = none → h.searchPrevious = 0 ∨ h.word h.searchPrevious 1 = 0 ∨
        h.word h.searchPrevious 1 = blk)

/-- The block in front is the last one of those in front. -/
theorem Laid.previousFree_mem {p : Nat} (hl : Laid h (l ++ [t] ++ r))
    (hprevious : h.previousFree t.addr = some p) : ∃ s ∈ l, s.used = false ∧ s.addr = p := by
  rw [hl.previousFree_eq] at hprevious
  obtain ⟨s, hs, rfl⟩ := Option.map_eq_some_iff.1 hprevious
  obtain ⟨hlast, hfree⟩ := Option.filter_eq_some_iff.1 hs
  exact ⟨s, List.mem_of_mem_getLast? hlast, by simpa using hfree, rfl⟩

/-- The free blocks that were not merged are among the others. -/
theorem Merged.free_kept (hmerged : Merged h h' l r t tiles)
    (hl : Laid h (l ++ [t] ++ r)) (hused : t.used = true) (ha : a ∈ freeAddrs (l ++ [t] ++ r))
    (hprevious : h.previousFree t.addr ≠ some a) (hnext : h.nextFree t.addr ≠ some a) :
    a ∈ freeAddrs tiles ∧ a ≠ t.addr := by
  obtain ⟨u, hu, hfree, rfl⟩ := mem_freeAddrs.1 ha
  have hne : u ≠ t := by
    intro heq
    rw [heq, hused] at hfree
    cases hfree
  have hrest : u ∈ l ++ r := by
    simp only [List.mem_append, List.mem_singleton, hne, or_false] at hu ⊢
    exact hu
  exact ⟨mem_freeAddrs.2 ⟨u, hmerged.others u hrest hprevious hnext, hfree, rfl⟩,
    fun heq => hne (hl.eq_of_addr hu (by simp) heq)⟩

/-- The free block in front of the freed one has no link when the two and the last block are the
only ones that are free. -/
theorem Merged.previous_link {p : Nat} (hmerged : Merged h h' l r t tiles)
    (hordered : Ordered h (l ++ [t] ++ r)) (hused : t.used = true)
    (hprevious : h.previousFree t.addr = some p) (hone : freeAddrs tiles = [p]) :
    h.mem (p + 8) = 0 := by
  obtain ⟨hl, -, chain, hlist, -⟩ := hordered
  obtain ⟨s, hs, hfree, rfl⟩ := hl.previousFree_mem hprevious
  have hmem : s.addr ∈ freeAddrs (l ++ [t] ++ r) := mem_freeAddrs.2 ⟨s, by simp [hs], hfree, rfl⟩
  -- any other free block is the one behind
  have hother : ∀ a ∈ freeAddrs (l ++ [t] ++ r), a ≠ s.addr → h.nextFree t.addr = some a := by
    intro a ha hne
    by_contra hnext
    have hprevious' : h.previousFree t.addr ≠ some a := by
      rw [hprevious]
      exact fun heq => hne (Option.some_inj.1 heq).symm
    have hkept := (hmerged.free_kept hl hused ha hprevious' hnext).1
    rw [hone] at hkept
    exact hne (List.mem_singleton.1 hkept)
  have hstart : h.linkedListStart ∈ chain := List.mem_of_mem_head? hlist.head
  have hlast : h.linkedListStart ≠ s.addr := by
    intro heq
    obtain ⟨c, d, rfl⟩ := List.append_of_mem hs
    have hl' : Laid h (c ++ s :: (d ++ [t] ++ r)) := by simpa using hl
    simpa using hl'.start_eq_iff.1 heq.symm
  have hnext := hother _ (hlist.perm.mem_iff.1 hstart) hlast
  have hnodup := hlist.nodup hl
  obtain ⟨c, d, rfl⟩ := List.append_of_mem (hlist.perm.mem_iff.2 hmem)
  have hlink : h.mem (s.addr + 8) = d.headD 0 := hlist.links.next_eq
  cases d with
  | nil => exact hlink
  | cons y d =>
      -- the node behind it would be the last block, which is the first node
      have hy : y ∉ c ++ [s.addr] := by
        rw [List.append_cons] at hnodup
        exact (List.nodup_cons.1 (List.nodup_middle.1 hnodup)).1 ∘ List.mem_append_left d
      have hney : y ≠ s.addr := fun heq => hy (by simp [heq])
      have hnexty := hother y (hlist.perm.mem_iff.1 (by simp)) hney
      obtain rfl : y = h.linkedListStart := Option.some_inj.1 (hnexty.symm.trans hnext)
      refine absurd ?_ hy
      cases c with
      | nil => exact absurd (Option.some_inj.1 hlist.head).symm hlast
      | cons x c =>
          obtain rfl : x = h.linkedListStart := Option.some_inj.1 hlist.head
          simp

/-- After `rfree` the search is at a free block. -/
theorem SearchKept.rfree (hkept : h.SearchKept t.addr) (hordered : Ordered h (l ++ [t] ++ r))
    (hused : t.used = true) (hready : h.RfreeReady t.addr)
    (hrun : h.rfree fuel (t.addr + 24) = some h') :
    ∃ tiles, usedTiles tiles = usedTiles (l ++ r) ∧ Ordered h' tiles ∧
      h'.searchCurrent ∈ freeAddrs tiles := by
  have hl := hordered.1
  obtain ⟨tiles, h₁, hmerged, hfreed, hordered', hsearch⟩ :=
    hordered.rfree hused (hready.insertSafe hl hused) hrun
  refine ⟨tiles, hmerged.used, hordered', hsearch.elim id fun hlost => ?_⟩
  obtain ⟨hone, hne, hcurrent⟩ := hlost
  obtain ⟨a, hblock, hprevious, hnext⟩ | ⟨hbehind, hfront⟩ := hkept
  · -- another free block was not merged
    exfalso
    obtain ⟨hmem, hother⟩ :=
      hmerged.free_kept hl hused (hl.mem_freeAddrs_iff.2 hblock) hprevious hnext
    rw [hone, List.mem_singleton] at hmem
    cases hp : h.previousFree t.addr with
    | none => exact hother (hmem.trans (congrArg (Option.getD · t.addr) hp))
    | some p => exact hprevious (hp.trans (congrArg some (hmem.trans
        (congrArg (Option.getD · t.addr) hp)).symm))
  · cases hp : h.previousFree t.addr with
    | some p =>
        -- the block in front keeps its link, which is null
        exfalso
        rw [hp, Option.getD_some] at hone hne
        obtain ⟨s, hs, hfree, rfl⟩ := hl.previousFree_mem hp
        have hmem : s ∈ l ++ [t] ++ r := by simp [hs]
        have hapart : s.addr + 8 * (s.words + 5) ≤ t.addr ∨
            t.addr + 8 * (t.words + 5) ≤ s.addr := by
          have hl' : Laid h (l ++ t :: r) := by simpa using hl
          exact hl'.beside (by simp [hs])
        have hinsert : h.insertAt ≠ s.addr := by
          rw [insertAt]
          split
          next =>
            intro heq
            obtain ⟨c, d, rfl⟩ := List.append_of_mem hs
            have hl' : Laid h (c ++ s :: (d ++ [t] ++ r)) := by simpa using hl
            simpa using hl'.start_eq_iff.1 heq.symm
          next => exact hbehind _ hp
        refine hne ?_
        rw [hfreed.mem, if_neg (by omega), if_neg (by omega), if_neg (by omega)]
        exact hmerged.previous_link hordered hused hp hone
    | none =>
        rw [hp, Option.getD_none] at hone hne hcurrent
        rw [hcurrent, hone, List.mem_singleton]
        by_cases hinsert : t.addr + 8 = h.insertAt + 8
        · rw [hfreed.mem, if_pos hinsert]
        · rw [hfreed.mem, if_neg hinsert, if_pos rfl] at hne ⊢
          have hunlinked : h.mem (t.addr + 8) = 0 :=
            hordered.2.1 t (mem_usedTiles.2 ⟨by simp, hused⟩)
          rw [freedLink] at hne ⊢
          split at hne
          next => exact absurd hunlinked hne
          next hsome =>
            rw [if_neg hsome]
            exact ((hfront hp).resolve_left hsome).resolve_left hne

end Heap

/-! ## Allocating a block -/

namespace MappedHeap

open Heap

variable {s s' : MappedHeap} {tiles : List Tile} {fresh : Nat → Nat} {fuel size ptr : Nat}

/-- `rmalloc` takes a block, or it takes none and leaves the blocks as they are. -/
theorem rmalloc_ordered (hordered : Ordered s.heap tiles) (hready : s.heap.RmallocReady size)
    (hgrow : (∃ a, s.heap.FreeBlock a ∧ Fits (align size) (s.heap.word a 0)) ∨
      s.heap.GrowReady size) (hrun : s.rmalloc fuel fresh size = some (s', ptr)) :
    (ptr = 0 ∧ Ordered s'.heap tiles ∧ s'.heap.searchCurrent ∈ freeAddrs tiles) ∨
      ∃ h₁, Ordered h₁ tiles ∧ Taken h₁ s'.heap tiles (align size / 8) ptr := by
  obtain ⟨⟨h₁, block⟩, hfind, hrun⟩ := Option.bind_eq_some_iff.1 hrun
  have hfirst := hready.findFit hordered hfind
  dsimp only at hrun
  split at hrun
  next hne =>
    cases hrun
    exact .inr ⟨s.heap, hordered, hfirst.resolve_left fun hmissed => hne hmissed.1⟩
  next hzero =>
    rw [not_not] at hzero
    subst hzero
    obtain ⟨⟨h₂, mmu⟩, hexpand, hrun⟩ := Option.bind_eq_some_iff.1 hrun
    obtain ⟨⟨h₃, block⟩, hfind', hrun⟩ := Option.bind_eq_some_iff.1 hrun
    cases hrun
    have hmissed : Missed s.heap h₁ tiles := by
      obtain ⟨-, hmissed⟩ | ⟨l, t, r, -, -, -, hptr, -⟩ := hfirst
      · exact hmissed
      · omega
    have hgrow' : h₁.GrowReady size := by
      obtain ⟨a, hblock, hfits⟩ | hgrow := hgrow
      · -- the search did not miss a block that fits
        exfalso
        obtain ⟨chain, hlist, -⟩ := hordered.2.2
        have hcurrent :=
          hlist.perm.mem_iff.2 (mem_freeAddrs.2 (hordered.1.freeBlock hready.current))
        have hnone := ((hlist.onList hordered.1).findFit_null_iff hcurrent hfind).1 rfl
        exact hnone a (hlist.perm.mem_iff.2 (mem_freeAddrs.2 (hordered.1.freeBlock hblock))) hfits
      · refine ⟨fun adjSize hadj => ?_, ?_⟩
        · rw [hmissed.heapEnd]
          exact hgrow.room adjSize hadj
        · rw [hmissed.heapEnd, hmissed.start, word, hmissed.mem]
          exact hgrow.page
    obtain ⟨hordered', hprevious, hcurrent⟩ := expandHeap_ordered (s := ⟨h₁, s.mmu⟩)
      hmissed.ordered hmissed.previous hmissed.current hgrow' hexpand
    obtain ⟨halign, hle⟩ := hready.align_eq
    rw [halign] at hfind'
    have hsafe : ∀ l t r, tiles = l ++ [t] ++ r → t.addr = h₂.searchCurrent →
        align size / 8 + 5 ≤ t.words → LinkSafe h₂ (l ++ r) t (align size / 8) := by
      intro l t r heq _ hwords
      subst heq
      exact hordered'.1.linkSafe hwords (mem_freeAddrs.1 hprevious)
    obtain ⟨hzero, hmissed'⟩ | htaken := hordered'.findFit hcurrent
      (Nat.mul_div_cancel_left _ (by decide)) hle (noneExact_words tiles _) hsafe hfind'
    · exact .inl ⟨hzero, hmissed'.ordered, hmissed'.current⟩
    · exact .inr ⟨h₂, hordered', htaken⟩

end MappedHeap

/-! ## Runs -/

namespace MappedSession

open Heap

variable {s s' : MappedSession} {tiles : List Tile} {c : HeapCall}

/-- A call does no harm to the list. -/
def Ready (s : MappedSession) : HeapCall → Prop
  | .rmalloc size =>
      (s.state.heap.FreeBlock s.state.heap.searchCurrent → s.state.heap.RmallocReady size) ∧
        ((∃ a, s.state.heap.FreeBlock a ∧ Fits (align size) (s.state.heap.word a 0)) ∨
          s.state.heap.GrowReady size)
  | .rfree ptr => s.state.heap.RfreeReady (ptr - 8 * 3) ∧ s.state.heap.SearchKept (ptr - 8 * 3)
  | .write _ _ _ => True

/-- The session without the pages. -/
def session (s : MappedSession) : HeapSession := ⟨s.state.heap, s.live⟩

/-- The live blocks are the blocks in use of a heap whose blocks are in order, and the search is at
a free one. -/
def Inv (s : MappedSession) (tiles : List Tile) : Prop :=
  s.session.Inv tiles ∧ s.state.heap.searchCurrent ∈ freeAddrs tiles

theorem Inv.rmalloc {m : MappedHeap} {fuel size ptr : Nat} {fresh : Nat → Nat} (hinv : Inv s tiles)
    (hready : Ready s (.rmalloc size)) (hrun : s.state.rmalloc fuel fresh size = some (m, ptr)) :
    ∃ tiles', Inv ⟨m, if ptr = 0 then s.live else (ptr, align size / 8) :: s.live⟩ tiles' := by
  obtain ⟨⟨hordered, hlive⟩, hcurrent⟩ := hinv
  have hmalloc := hready.1 (hordered.1.mem_freeAddrs_iff.1 hcurrent)
  obtain ⟨rfl, hordered', hcurrent'⟩ | ⟨h₁, hordered₁, htaken⟩ :=
    MappedHeap.rmalloc_ordered hordered hmalloc hready.2 hrun
  · exact ⟨tiles, ⟨hordered', hlive⟩, hcurrent'⟩
  · have hne : ptr ≠ 0 := by
      obtain ⟨l, t, r, -, -, -, rfl, -⟩ := htaken
      omega
    have hinv₁ : HeapSession.Inv ⟨h₁, s.live⟩ tiles := ⟨hordered₁, hlive⟩
    rw [if_neg hne]
    exact hinv₁.taken htaken

theorem Inv.rfree {h : Heap} {fuel ptr n : Nat} (hinv : Inv s tiles) (hready : Ready s (.rfree ptr))
    (hmem : (ptr, n) ∈ s.live) (hrun : s.state.heap.rfree fuel ptr = some h) :
    ∃ tiles', Inv ⟨⟨h, s.state.mmu⟩, s.live.erase (ptr, n)⟩ tiles' := by
  obtain ⟨t, ht, hused, harea⟩ := hinv.1.mem_live hmem
  obtain ⟨rfl, rfl⟩ := Prod.mk.inj harea
  obtain ⟨l, r, rfl⟩ := List.append_of_mem ht
  rw [List.append_cons] at hinv
  have hblk : t.addr + 24 - 8 * 3 = t.addr := by omega
  rw [Ready, hblk] at hready
  obtain ⟨tiles', htiles, hordered', hcurrent⟩ :=
    hready.2.rfree hinv.1.1 hused hready.1 hrun
  exact ⟨tiles', hinv.1.erase hused htiles hordered', hcurrent⟩

/-- A call that is ready keeps the free blocks on the list and the search at one of them. -/
theorem Inv.step (hinv : Inv s tiles) (hready : Ready s c) (hstep : Step s c s') :
    ∃ tiles', Inv s' tiles' := by
  cases hstep with
  | rmalloc hrun => exact hinv.rmalloc hready hrun
  | rfree hmem hrun => exact hinv.rfree hready hmem hrun
  | write hmem hi =>
      obtain ⟨t, ht, hused, harea⟩ := hinv.1.mem_live hmem
      obtain ⟨rfl, rfl⟩ := Prod.mk.inj harea
      exact ⟨tiles, ⟨hinv.1.1.write ht hused hi, hinv.1.2⟩, hinv.2⟩

theorem guarded_run_inv {m : Mmu} {mem : Nat → Nat} {heapPtr memSize : Nat}
    {calls : List HeapCall} (hpos : 0 < heapPtr) (hend : heapPtr + memSize < 2 ^ 64)
    (hmin : 8 * OVERHEAD ≤ memSize) (hmax : memSize < 2 ^ 31 + 8 * OVERHEAD)
    (hrun : Run (Guarded Ready Step) (initial m mem heapPtr memSize) calls s) :
    ∃ tiles, Inv s tiles := by
  have hstart : Inv (initial m mem heapPtr memSize) [⟨heapPtr, memSize / 8 - 5, false⟩] :=
    ⟨HeapSession.initial_inv hpos hend hmin hmax, List.mem_singleton.2 rfl⟩
  have hkeep : ∀ s c s', (∃ tiles, Inv s tiles) → Guarded Ready Step s c s' →
      ∃ tiles, Inv s' tiles := by
    intro s c s' hinv hstep
    obtain ⟨tiles, hinv⟩ := hinv
    exact hinv.step hstep.1 hstep.2
  exact hrun.invariant ⟨_, hstart⟩ hkeep

/-- A machine that has no page frames. -/
def noFrames : Mmu :=
  ⟨fun _ _ => .cleared, 0, 0, ⟨fun _ => ⟨.null, .null, 0, .RESERVED⟩, 0, 0, pageSize, 0, 0⟩, []⟩

/-- A block is handed out on a heap of 256 bytes. -/
theorem rmalloc_run :
    ∃ s, Run (Guarded Ready Step) (initial noFrames (fun _ => 0) 4096 256) [.rmalloc 8] s := by
  have hrun : ((initial noFrames (fun _ => 0) 4096 256).state.rmalloc 5 (fun _ => 0) 8).any fun r =>
      r.2 == 4120 := by
    decide +kernel
  obtain ⟨⟨m, ptr⟩, hrmalloc, -⟩ := (Option.any_eq_true ..).1 hrun
  have hblock : (initial noFrames (fun _ => 0) 4096 256).state.heap.FreeBlock 4096 :=
    ⟨.first, by decide +kernel⟩
  have hready : (initial noFrames (fun _ => 0) 4096 256).Ready (.rmalloc 8) :=
    ⟨fun hcurrent => ⟨by decide, hcurrent, .inl rfl⟩, .inl ⟨4096, hblock, by decide +kernel⟩⟩
  exact ⟨_, .single ⟨hready, .rmalloc hrmalloc⟩⟩

/-- The only two free blocks are merged, and `search_previous` stays at the header that is gone. A
block is freed again, and the link to it is written over the flag of the one behind it. -/
theorem stale_rover_run :
    ∃ s, Run Step (initial noFrames (fun _ => 0) 4096 256)
        [.rmalloc 8, .rfree 4120, .rmalloc 0, .rfree 4120] s ∧
      (s.state.heap.heap = 4096 ∧ s.state.heap.heapEnd = 4352) ∧
      (s.state.heap.linkedListStart = 4136 ∧ s.state.heap.searchCurrent = 4096) ∧
      (s.state.heap.word 4096 0 = 0 ∧ s.state.heap.word 4096 1 = 0) ∧
      s.state.heap.word 4136 0 = 22 ∧ s.state.heap.word 4136 1 = 0 := by
  have hrun :
      ((initial noFrames (fun _ => 0) 4096 256).state.rmalloc 5 (fun _ => 0) 8).any fun r₁ =>
      r₁.2 == 4120 && (r₁.1.heap.rfree 5 4120).any fun h₂ =>
        (MappedHeap.rmalloc 5 (fun _ => 0) ⟨h₂, r₁.1.mmu⟩ 0).any fun r₃ =>
          r₃.2 == 4120 && (r₃.1.heap.rfree 5 4120).any fun h =>
            decide ((h.heap = 4096 ∧ h.heapEnd = 4352) ∧
              (h.linkedListStart = 4136 ∧ h.searchCurrent = 4096) ∧
              (h.word 4096 0 = 0 ∧ h.word 4096 1 = 0) ∧ h.word 4136 0 = 22 ∧
                h.word 4136 1 = 0) := by
    decide +kernel
  obtain ⟨⟨m₁, ptr₁⟩, hrmalloc₁, hrun⟩ := (Option.any_eq_true ..).1 hrun
  obtain ⟨hptr₁, hrun⟩ := Bool.and_eq_true_iff.1 hrun
  obtain ⟨h₂, hrfree₂, hrun⟩ := (Option.any_eq_true ..).1 hrun
  obtain ⟨⟨m₃, ptr₃⟩, hrmalloc₃, hrun⟩ := (Option.any_eq_true ..).1 hrun
  obtain ⟨hptr₃, hrun⟩ := Bool.and_eq_true_iff.1 hrun
  obtain ⟨h, hrfree, hfinal⟩ := (Option.any_eq_true ..).1 hrun
  obtain rfl : ptr₁ = 4120 := of_decide_eq_true hptr₁
  obtain rfl : ptr₃ = 4120 := of_decide_eq_true hptr₃
  have hstep₁ : Step (initial noFrames (fun _ => 0) 4096 256) (.rmalloc 8) ⟨m₁, [(4120, 1)]⟩ :=
    .rmalloc hrmalloc₁
  have hstep₂ : Step ⟨m₁, [(4120, 1)]⟩ (.rfree 4120) ⟨⟨h₂, m₁.mmu⟩, []⟩ :=
    .rfree (n := 1) (List.mem_singleton.2 rfl) hrfree₂
  have hlive : (if 4120 = 0 then [] else [(4120, align 0 / 8)]) = [(4120, 0)] := by decide
  have hstep₃ : Step ⟨⟨h₂, m₁.mmu⟩, []⟩ (.rmalloc 0) ⟨m₃, [(4120, 0)]⟩ :=
    hlive ▸ .rmalloc hrmalloc₃
  have hstep₄ : Step ⟨m₃, [(4120, 0)]⟩ (.rfree 4120) ⟨⟨h, m₃.mmu⟩, []⟩ :=
    .rfree (n := 0) (List.mem_singleton.2 rfl) hrfree
  exact ⟨_, .cons hstep₁ (.cons hstep₂ (.cons hstep₃ (.single hstep₄))), of_decide_eq_true hfinal⟩

/-- After every run whose calls are ready, the list has each free block once and no other block, and
the search is at one of them. -/
theorem guarded_runs_list_free {m : Mmu} {mem : Nat → Nat} {heapPtr memSize : Nat}
    {calls : List HeapCall} (hpos : 0 < heapPtr) (hend : heapPtr + memSize < 2 ^ 64)
    (hmin : 8 * OVERHEAD ≤ memSize) (hmax : memSize < 2 ^ 31 + 8 * OVERHEAD)
    (hrun : Run (Guarded Ready Step) (initial m mem heapPtr memSize) calls s) :
    s.state.heap.FreeListed := by
  obtain ⟨tiles, hinv, hcurrent⟩ := guarded_run_inv hpos hend hmin hmax hrun
  exact hinv.1.freeListed hcurrent

theorem guarded_runs_list_free_rmalloc : ∃ s : MappedSession, s.state.heap.FreeListed := by
  obtain ⟨s, hrun⟩ := rmalloc_run
  exact ⟨s, guarded_runs_list_free (by decide) (by decide) (by decide) (by decide) hrun⟩

/-- The block that was freed last is free and is not on the list. -/
theorem stale_rover_list_misses_block :
    ¬ ∀ calls s, Run Step (initial noFrames (fun _ => 0) 4096 256) calls s →
      s.state.heap.FreeListed := by
  intro hall
  obtain ⟨s, hrun, ⟨hheap, -⟩, ⟨hstart, hcurrent⟩, -, -, hlink⟩ := stale_rover_run
  obtain ⟨chain, hlinks, hhead, -, hblocks, hmem⟩ := hall _ _ hrun
  rw [hstart] at hhead
  rw [hcurrent] at hmem
  cases chain with
  | nil => cases hhead
  | cons x c =>
      obtain rfl : x = 4136 := Option.some_inj.1 hhead
      have hnext : 0 = c.headD 0 := hlink.symm.trans (NullList.cons.1 hlinks).1
      cases c with
      | nil => simp at hmem
      | cons y c =>
          obtain rfl : 0 = y := hnext
          have hlow := ((hblocks 0).1 (by simp)).1.heap_le
          omega

/-- After every run whose calls are ready, `find_fit` returns for every size. -/
theorem guarded_runs_find_fit {m : Mmu} {mem : Nat → Nat} {heapPtr memSize : Nat}
    {calls : List HeapCall} (hpos : 0 < heapPtr) (hend : heapPtr + memSize < 2 ^ 64)
    (hmin : 8 * OVERHEAD ≤ memSize) (hmax : memSize < 2 ^ 31 + 8 * OVERHEAD)
    (hrun : Run (Guarded Ready Step) (initial m mem heapPtr memSize) calls s) :
    ∃ n, ∀ size fuel, n ≤ fuel → ∃ h ptr, s.state.heap.findFit fuel size = some (h, ptr) := by
  obtain ⟨tiles, hinv, hcurrent⟩ := guarded_run_inv hpos hend hmin hmax hrun
  obtain ⟨chain, hlist, -⟩ := hinv.1.2.2
  refine ⟨chain.length, fun size fuel hfuel => ?_⟩
  obtain ⟨h, ptr, hfind, -⟩ := (hlist.onList hinv.1.1).findFit
    (hlist.perm.mem_iff.2 hcurrent) size (Nat.lt_succ_of_le hfuel)
  exact ⟨h, ptr, hfind⟩

theorem guarded_runs_find_fit_rmalloc :
    ∃ (s : MappedSession) (n : Nat), ∀ size fuel, n ≤ fuel →
      ∃ h ptr, s.state.heap.findFit fuel size = some (h, ptr) := by
  obtain ⟨s, hrun⟩ := rmalloc_run
  exact ⟨s, guarded_runs_find_fit (by decide) (by decide) (by decide) (by decide) hrun⟩

/-- The search for 1000 bytes leaves the block where it began and stays at the start of the list. -/
theorem stale_rover_find_fit_hangs :
    ¬ ∀ calls s, Run Step (initial noFrames (fun _ => 0) 4096 256) calls s →
      ∃ n, ∀ size fuel, n ≤ fuel → ∃ h ptr, s.state.heap.findFit fuel size = some (h, ptr) := by
  intro hall
  obtain ⟨s, hrun, ⟨-, hend⟩, ⟨hstart, hcurrent⟩, ⟨hwords, hlink⟩, hwords', hlink'⟩ :=
    stale_rover_run
  obtain ⟨n, hreturns⟩ := hall _ _ hrun
  obtain ⟨h, ptr, hfind⟩ := hreturns 1000 (n + 1) (Nat.le_succ n)
  have hfits : ¬Fits 1000 0 ∧ ¬Fits 1000 22 := by decide
  rw [← hwords, ← hcurrent, ← hwords', ← hstart] at hfits
  have hstuck := findFit_stuck (by rw [hcurrent, hstart]; decide) (by rw [hcurrent]; decide)
    (by rw [hstart]; decide) (by rw [hstart, hend]; decide) (by rwa [hcurrent]) hfits.1
    (by rwa [hstart]) hfits.2 (n + 1)
  rw [hstuck] at hfind
  cases hfind

end MappedSession

end CrosKernel.Memory
