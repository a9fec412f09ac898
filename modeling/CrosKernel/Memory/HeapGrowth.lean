import CrosKernel.Memory.HeapRealloc

/-!
# The passes of realloc

A pass of the loop searches for a block, copies to the one that it found and expands the heap. The
footer of that block may be lost, so the heap is compared with one to which nothing was copied:
`Overwritten` says that the two agree up to what lies behind the headers of the blocks in use.
-/

namespace CrosKernel.Memory

open Lib Set

namespace Heap

variable {h h' : Heap} {tiles l r : List Tile} {t : Tile} {fuel newSize passes a : Nat}

/-! ## The blocks in use -/

/-- The words behind the headers of the blocks in use other than `t`. -/
def behindOthers (tiles : List Tile) (t : Tile) : Set Nat :=
  {a | ∃ u ∈ usedTiles tiles, u ≠ t ∧ u.addr + 24 ≤ a ∧ a < u.addr + 8 * (u.words + 5)}

theorem behindUsed_behindOthers : BehindUsed tiles (behindOthers tiles t) := fun _ ha =>
  ha.imp fun _ hu => ⟨hu.1, hu.2.2⟩

theorem Laid.notMem_behindOthers (hl : Laid h tiles) (ht : t ∈ tiles) (hcover : Covers t a) :
    a ∉ behindOthers tiles t := by
  rintro ⟨u, hu, hne, hlow, hhigh⟩
  obtain ⟨hlow', hhigh'⟩ := hcover
  have hlen : t.len = 8 * (t.words + 5) := rfl
  obtain heq | hapart := hl.apart (mem_usedTiles.1 hu).1 ht
  · exact hne heq
  · omega

/-- The heap `h'` has other words than `h` behind the headers of the blocks in use other than `t`.
-/
def Overwritten (h h' : Heap) (tiles : List Tile) (t : Tile) : Prop :=
  ∃ mem, h' = h.withMem mem ∧ EqOn mem h.mem (behindOthers tiles t)ᶜ

theorem Overwritten.mem_eq (hsame : Overwritten h h' tiles t) (hl : Laid h tiles) (ht : t ∈ tiles)
    (hcover : Covers t a) : h'.mem a = h.mem a := by
  obtain ⟨mem, rfl, hmem⟩ := hsame
  exact hmem (hl.notMem_behindOthers ht hcover)

/-- The blocks are found by their headers as before. -/
theorem Overwritten.isBlock (hsame : Overwritten h h' tiles t) (hl : Laid h tiles)
    (hblock : h.IsBlock a) : h'.IsBlock a := by
  obtain ⟨mem, rfl, hmem⟩ := hsame
  induction hblock with
  | first => exact .first
  | next hblock hne ih =>
      obtain ⟨u, hu, rfl⟩ := hl.isBlock hblock
      have hword := hl.header_eq behindUsed_behindOthers hmem hu (i := 0) (by decide)
      have hnext := ih.next hne
      rw [hword] at hnext
      exact hnext

/-! ## The copy -/

/-- `memcpy` writes to the words of the destination only. -/
theorem memcpyLoop_withMem (dest src left i : Nat) (h : Heap) :
    ∃ mem', memcpyLoop dest src left i h = h.withMem mem' ∧
      ∀ a, a < dest ∨ dest + 8 * ((i + left + 7) / 8) ≤ a → mem' a = h.mem a := by
  induction left generalizing i h with
  | zero => exact ⟨h.mem, rfl, fun _ _ => rfl⟩
  | succ left ih =>
      obtain ⟨mem', heq, hmem⟩ := ih (i + 1) (h.setByte dest i (h.byte src i))
      refine ⟨mem', heq, fun a ha => ?_⟩
      rw [hmem a (by omega)]
      exact (mem_setWord _ _ _ _ _).trans (if_neg (by omega))

theorem memcpy_withMem (dest src : Nat) {count : Nat} (hcount : count < 2 ^ 31) (h : Heap) :
    ∃ mem', h.memcpy dest src count = some (h.withMem mem') ∧
      ∀ a, a < dest ∨ dest + 8 * ((count + 7) / 8) ≤ a → mem' a = h.mem a := by
  obtain ⟨mem', heq, hmem⟩ := memcpyLoop_withMem dest src count 0 h
  refine ⟨mem', ?_, fun a ha => hmem a (by omega)⟩
  rw [memcpy, if_pos hcount, heq]

/-! ## The search -/

theorem splitBlk_rovers (size blk : Nat) (h : Heap) :
    (h.splitBlk size blk).1.searchPrevious =
        redirect blk (blk + 8 * (size / 8) + 8 * OVERHEAD) h.searchPrevious ∧
      (h.splitBlk size blk).1.searchCurrent =
        redirect blk (blk + 8 * (size / 8) + 8 * OVERHEAD) h.searchCurrent := by
  simp only [splitBlk]
  split
  · exact ⟨rfl, rfl⟩
  · exact ⟨rfl, rfl⟩

/-- Where the search leaves `search_previous`: not at a block that it took. -/
theorem Ordered.findFitLoop_previous {size ptr : Nat} (hordered : Ordered h tiles)
    (hcurrent : h.searchCurrent ∈ freeAddrs tiles)
    (hprevious : h.searchPrevious = 0 ∨ h.searchPrevious ∈ freeAddrs tiles)
    (hsize : size + 104 ≤ 2 ^ 64) (hexact : NoneExact tiles size)
    (hfind : Heap.findFitLoop size fuel h = some (h', ptr)) :
    h'.searchPrevious = 0 ∨ h'.searchPrevious = h'.searchCurrent ∨
      h'.searchPrevious ∈ freeAddrs tiles ∧ h'.searchPrevious + 24 ≠ ptr := by
  induction fuel generalizing h with
  | zero => cases hfind
  | succ fuel ih =>
      have hadvance := hordered.advance hcurrent
      rw [findFitLoop_succ, if_neg (hordered.1.not_exact hcurrent hsize hexact)] at hfind
      split at hfind
      next =>
        obtain ⟨hprevious', hcurrent'⟩ := splitBlk_rovers size h.searchCurrent h
        have hptr : (h.splitBlk size h.searchCurrent).2 = h.searchCurrent + 24 := rfl
        generalize h.splitBlk size h.searchCurrent = split at *
        cases hfind
        by_cases heq : h.searchCurrent = h.searchPrevious
        · rw [hprevious', hcurrent', ← heq]
          exact .inr (.inl rfl)
        · rw [redirect, if_neg heq] at hprevious'
          rw [hprevious']
          refine hprevious.imp_right fun hfree => .inr ⟨hfree, fun hsame => heq ?_⟩
          exact (Nat.add_right_cancel (hsame.trans hptr)).symm
      next =>
        split at hfind
        next => exact ih hadvance.ordered hadvance.current (.inr hcurrent) hfind
        next =>
          cases hfind
          refine .inr (.inr ⟨hcurrent, ?_⟩)
          exact Nat.succ_ne_zero _

/-- The blocks are in order, and the rovers are at free ones or not set yet. -/
structure Roving (h : Heap) (tiles : List Tile) : Prop where
  ordered : Ordered h tiles
  current : h.searchCurrent ∈ freeAddrs tiles
  previous : h.searchPrevious = 0 ∨ h.searchPrevious ∈ freeAddrs tiles

/-- A free block fits. -/
def HasFit (h : Heap) (tiles : List Tile) (size : Nat) : Prop :=
  ∃ a ∈ freeAddrs tiles, Fits size (h.word a 0)

theorem Roving.linkSafe {n : Nat} {z : Tile} (hroving : Roving h (l ++ [z] ++ r))
    (hle : n + 5 ≤ z.words) : LinkSafe h (l ++ r) z n := by
  have hl := hroving.ordered.1
  obtain hzero | hfree := hroving.previous
  · have hpos := hl.heap_pos
    exact ⟨fun hne => absurd hzero hne, fun hlow => by omega⟩
  · exact hl.linkSafe hle (mem_freeAddrs.1 hfree)

theorem Roving.findFit_returns (hroving : Roving h tiles) (hfuel : tiles.length ≤ fuel)
    (size : Nat) : ∃ h' block, h.findFit fuel size = some (h', block) := by
  obtain ⟨hl, -, chain, hlist, -⟩ := hroving.ordered
  have hlength : chain.length < fuel + 1 := by
    have hle : (freeAddrs tiles).length ≤ tiles.length := by
      rw [freeAddrs, List.length_map]
      exact List.length_filter_le _ _
    rw [hlist.perm.length_eq]
    omega
  obtain ⟨h', block, hfind, -⟩ :=
    (hlist.onList hl).findFit (hlist.perm.mem_iff.2 hroving.current) size hlength
  exact ⟨h', block, hfind⟩

theorem Roving.found_iff {size block : Nat} (hroving : Roving h tiles)
    (hfind : h.findFit fuel size = some (h', block)) : block ≠ 0 ↔ HasFit h tiles size := by
  obtain ⟨hl, -, chain, hlist, -⟩ := hroving.ordered
  have hnull := (hlist.onList hl).findFit_null_iff (hlist.perm.mem_iff.2 hroving.current) hfind
  rw [Ne, hnull, HasFit]
  simp only [hlist.perm.mem_iff, not_forall, not_not, exists_prop]

/-! ## The parts of a block -/

theorem mem_parts {u z : Tile} {n : Nat} : u ∈ l ++ parts z n ++ r ↔ u ∈ l ++ r ∨
    u = ⟨z.addr, n, true⟩ ∨ u = ⟨z.addr + 8 * (n + 5), z.words - n - 5, false⟩ := by
  simp only [parts, List.mem_append, List.mem_cons, List.not_mem_nil, or_false]
  tauto

theorem Laid.mem_others {u z : Tile} (hl : Laid h (l ++ [z] ++ r)) :
    u ∈ l ++ r ↔ u ∈ l ++ [z] ++ r ∧ u ≠ z := by
  constructor
  · intro hu
    have hside := (List.append_cons l z r ▸ hl).beside hu
    refine ⟨?_, fun heq => ?_⟩
    · simp only [List.mem_append] at hu ⊢
      tauto
    · subst heq
      omega
  · rintro ⟨hu, hne⟩
    simp only [List.mem_append, List.mem_singleton] at hu ⊢
    tauto

/-- The blocks in use after a free one was split. -/
theorem Laid.mem_usedTiles_parts {u z : Tile} {n : Nat} (hl : Laid h (l ++ [z] ++ r))
    (hfree : z.used = false) (hu : u ∈ usedTiles (l ++ [z] ++ r)) :
    u ∈ l ++ r ∧ u ∈ usedTiles (l ++ parts z n ++ r) := by
  obtain ⟨hu, hused⟩ := mem_usedTiles.1 hu
  have hother : u ∈ l ++ r := hl.mem_others.2 ⟨hu, fun heq => by
    rw [heq, hfree] at hused
    cases hused⟩
  exact ⟨hother, mem_usedTiles.2 ⟨mem_parts.2 (.inl hother), hused⟩⟩

/-! ## A pass -/

/-- The blocks lie in front of the page that the end of the heap is in, and none is taken as it is
in the passes that are left. -/
structure Growable (h : Heap) (tiles : List Tile) (t : Tile) (newSize passes : Nat) : Prop where
  roving : Roving h tiles
  used : t ∈ usedTiles tiles
  page : ∀ u ∈ tiles, u.addr + 8 * (u.words + 5) ≤ h.heapEnd / pageSize * pageSize
  exact : ∀ k < passes, NoneExact tiles (newSize + k * (8 * (newSize / 8 + 5)))

/-- The heap after a search of `find_fit` that found `block`. -/
structure Searched (h h' : Heap) (tiles tiles' : List Tile) (t : Tile) (newSize block : Nat) :
    Prop where
  heapEnd : h'.heapEnd = h.heapEnd
  mem_eq : ∀ a, Covers t a → h'.mem a = h.mem a
  length : tiles'.length ≤ tiles.length + 1
  behind : behindOthers tiles t ⊆ behindOthers tiles' t
  fit : HasFit h' tiles' newSize → HasFit h tiles newSize
  found : block ≠ 0 → ∀ a, block ≤ a → a < block + 8 * (newSize / 8 + 2) →
    a ∈ behindOthers tiles' t

theorem Growable.missed (hgrow : Growable h tiles t newSize (passes + 1))
    (hmissed : Missed h h' tiles) :
    Growable h' tiles t newSize passes ∧ Searched h h' tiles tiles t newSize 0 := by
  refine ⟨⟨⟨hmissed.ordered, hmissed.current, .inr hmissed.previous⟩, hgrow.used, ?_,
    fun k hk => hgrow.exact k (by omega)⟩, hmissed.heapEnd, fun a _ => by rw [hmissed.mem],
    by omega, subset_rfl, fun hfit => ?_, fun hne => absurd rfl hne⟩
  · rw [hmissed.heapEnd]
    exact hgrow.page
  · have hmem : ∀ a, h'.word a 0 = h.word a 0 := fun a => congrFun hmissed.mem _
    simpa only [HasFit, hmem] using hfit

/-- A free block is split, and the search goes on from its rest. -/
theorem Growable.taken {z : Tile} (hgrow : Growable h (l ++ [z] ++ r) t newSize (passes + 1))
    (hfree : z.used = false) (hle : newSize / 8 + 5 ≤ z.words)
    (hkeep : Keeps (l ++ r) h h') (hroving : Roving h' (l ++ parts z (newSize / 8) ++ r))
    (hfit : HasFit h (l ++ [z] ++ r) newSize) :
    Growable h' (l ++ parts z (newSize / 8) ++ r) t newSize passes ∧
      Searched h h' (l ++ [z] ++ r) (l ++ parts z (newSize / 8) ++ r) t newSize (z.addr + 24) := by
  have hl := hgrow.roving.ordered.1
  have hz : z ∈ l ++ [z] ++ r := by simp
  have hused := (mem_usedTiles.1 hgrow.used).2
  obtain ⟨hother, hused'⟩ := hl.mem_usedTiles_parts hfree hgrow.used
  refine ⟨⟨hroving, hused', fun u hu => ?_, fun k hk u hu hufree => ?_⟩, hkeep.heapEnd,
    fun a hcover => ?_, ?_, ?_, fun _ => hfit, fun _ a hlow hhigh => ?_⟩
  · have hzpage := hgrow.page z hz
    rw [hkeep.heapEnd]
    obtain hu | rfl | rfl := mem_parts.1 hu
    · exact hgrow.page u (hl.mem_others.1 hu).1
    · refine le_trans ?_ hzpage
      dsimp only
      omega
    · refine le_trans ?_ hzpage
      dsimp only
      omega
  · obtain hu | rfl | rfl := mem_parts.1 hu
    · exact hgrow.exact k (by omega) u (hl.mem_others.1 hu).1 hufree
    · cases hufree
    · -- the rest is a block that was ruled out for a later pass
      have hzexact := hgrow.exact (k + 1) (by omega) z hz hfree
      rw [Nat.succ_mul] at hzexact
      dsimp only
      omega
  · exact hkeep.words t hother a (Tile.owns_iff.2 ⟨hcover.1, hcover.2, .inl hused⟩)
  · simp only [parts, List.length_append, List.length_cons, List.length_nil]
    omega
  · rintro a ⟨u, hu, hbehind⟩
    exact ⟨u, (hl.mem_usedTiles_parts hfree hu).2, hbehind⟩
  · refine ⟨⟨z.addr, newSize / 8, true⟩, mem_usedTiles.2 ⟨mem_parts.2 (.inr (.inl rfl)), rfl⟩,
      fun heq => (hl.mem_others.1 hother).2 (hl.eq_of_addr (hl.mem_others.1 hother).1 hz ?_),
      by omega, ?_⟩
    · rw [← heq]
    · dsimp only
      omega

/-- A search leaves one pass less. -/
theorem Growable.search {block : Nat} (hgrow : Growable h tiles t newSize (passes + 1))
    (hsize : newSize + 104 ≤ 2 ^ 64) (hfind : h.findFit fuel newSize = some (h', block)) :
    ∃ tiles', Growable h' tiles' t newSize passes ∧
      Searched h h' tiles tiles' t newSize block := by
  obtain ⟨hordered, hcurrent, hprevious⟩ := hgrow.roving
  have hexact : NoneExact tiles newSize := by simpa using hgrow.exact 0 (by omega)
  have hfound := hgrow.roving.found_iff hfind
  have hprevious' := (hordered.startAt h.searchCurrent).findFitLoop_previous hcurrent hprevious
    hsize hexact hfind
  have hsafe : ∀ l z r, tiles = l ++ [z] ++ r → z.addr = h.searchCurrent →
      newSize / 8 + 5 ≤ z.words → LinkSafe h (l ++ r) z (newSize / 8) := by
    intro l z r heq _ hle
    subst heq
    exact hgrow.roving.linkSafe hle
  obtain ⟨rfl, hmissed⟩ | ⟨l, z, r, rfl, hfree, hle, rfl, hrest, hkeep, hordered'⟩ :=
    hordered.findFit hcurrent rfl hsize hexact hsafe hfind
  · exact ⟨tiles, hgrow.missed hmissed⟩
  · have hl := hordered.1
    have hcurrent' : h'.searchCurrent ∈ freeAddrs (l ++ parts z (newSize / 8) ++ r) :=
      mem_freeAddrs.2 ⟨_, mem_parts.2 (.inr (.inr rfl)), rfl, hrest.symm⟩
    refine ⟨_, hgrow.taken hfree (by omega) hkeep ⟨hordered', hcurrent', ?_⟩
      (hfound.1 (Nat.succ_ne_zero _))⟩
    obtain hzero | heq | ⟨hmem, hne⟩ := hprevious'
    · exact .inl hzero
    · exact .inr (heq ▸ hcurrent')
    · obtain ⟨u, hu, hufree, huaddr⟩ := mem_freeAddrs.1 hmem
      refine .inr (mem_freeAddrs.2 ⟨u, mem_parts.2 (.inl (hl.mem_others.2 ⟨hu, ?_⟩)), hufree,
        huaddr⟩)
      rintro rfl
      omega

/-- The blocks after the heap was expanded: they are as before, and the end of the heap moves up. -/
theorem Growable.expand {adjSize : Nat} (hgrow : Growable h tiles t newSize passes)
    (hroom : h.heapEnd + 8 * adjSize < 2 ^ 64) (hfuel : tiles.length < fuel) (fresh : Nat → Nat) :
    ∃ h', Heap.rebuildList fuel (MappedHeap.moveEnd fresh h adjSize) h.searchCurrent = some h' ∧
      Laid (MappedHeap.moveEnd fresh h adjSize) tiles ∧ Growable h' tiles t newSize passes ∧
      (HasFit h' tiles newSize → HasFit h tiles newSize) ∧
      h'.heapEnd = h.heapEnd + 8 * adjSize ∧ ∀ a, Covers t a → h'.mem a = h.mem a := by
  obtain ⟨ht, hused⟩ := mem_usedTiles.1 hgrow.used
  have hl := hgrow.roving.ordered.1
  have hmoved : Moved h (MappedHeap.moveEnd fresh h adjSize) tiles :=
    MappedHeap.moveEnd_moved hl (by omega) hgrow.page
  have hend : (MappedHeap.moveEnd fresh h adjSize).heapEnd = h.heapEnd + 8 * adjSize :=
    Nat.mod_eq_of_lt hroom
  have hordered := hmoved.ordered hgrow.roving.ordered (by omega) (by omega)
  obtain ⟨h', hrun⟩ := hordered.1.rebuildList_returns hfuel h.searchCurrent
  obtain ⟨hdone, hprevious, hcurrent⟩ := hordered.rebuildList hgrow.roving.current hrun
  have hkeep := (hordered.1.rebuildList hrun).keeps
  have hend' : h'.heapEnd = h.heapEnd + 8 * adjSize := hkeep.heapEnd.trans hend
  refine ⟨h', hrun, hordered.1, ⟨⟨hdone, hcurrent, ?_⟩, hgrow.used, fun u hu => ?_, hgrow.exact⟩,
    fun hfit => ?_, hend', fun a hcover => ?_⟩
  · exact hprevious.elim (fun hsame => hsame ▸ hgrow.roving.previous) .inr
  · rw [hend']
    exact (hgrow.page u hu).trans (Nat.mul_le_mul_right _ (Nat.div_le_div_right (by omega)))
  · obtain ⟨a, ha, hfits⟩ := hfit
    rw [hl.word_eq hdone.1 ha] at hfits
    exact ⟨a, ha, hfits⟩
  · exact (hkeep.words t ht a (Tile.owns_iff.2 ⟨hcover.1, hcover.2, .inl hused⟩)).trans
      (hmoved.words t ht a hcover.1 hcover.2)

/-- What is copied to the block that was found lies behind the header of a block in use. -/
theorem Searched.copyOld {h₁ : Heap} {tiles' : List Tile} {block : Nat} {mem : Nat → Nat}
    (hsearched : Searched h h₁ tiles tiles' t newSize block) (hl : Laid h₁ tiles')
    (ht : t ∈ tiles') (hshort : t.words ≤ newSize + 6) (hcount : block ≠ 0 → t.words < 2 ^ 31)
    (hmem : EqOn mem h₁.mem (behindOthers tiles' t)ᶜ) :
    ∃ mem', (h₁.withMem mem).copyOld block (t.addr + 24) = some (h₁.withMem mem') ∧
      EqOn mem' h₁.mem (behindOthers tiles' t)ᶜ := by
  by_cases hblock : block ≠ 0
  · have hword : (h₁.withMem mem).word (t.addr + 24 - 8 * 3) 0 = t.words := by
      have hcover : Covers t t.addr := ⟨le_rfl, by unfold Tile.len; omega⟩
      exact (hmem (hl.notMem_behindOthers ht hcover)).trans (hl.tagged t ht).size
    obtain ⟨mem', hrun, hother⟩ :=
      memcpy_withMem block (t.addr + 24) (hcount hblock) (h₁.withMem mem)
    refine ⟨mem', ?_, fun a ha => ?_⟩
    · rw [Heap.copyOld, if_pos hblock, hword, hrun]
      rfl
    · refine (hother a ?_).trans (hmem ha)
      by_contra hin
      exact ha (hsearched.found hblock a (by omega) (by omega))
  · exact ⟨mem, if_neg hblock, hmem⟩

end Heap

namespace MappedHeap

open Heap

variable {h : Heap} {tiles : List Tile} {t : Tile} {s s' : MappedHeap}
  {fuel newSize passes n : Nat}

theorem lt_two_pow_shiftCount {bits : Nat} (hn : n < 2 ^ bits) : n < 2 ^ shiftCount bits n := by
  induction bits generalizing n with
  | zero => exact hn
  | succ bits ih =>
      rw [shiftCount]
      split
      next =>
        have hhalf := ih (n := n / 2) (by omega)
        rw [Nat.pow_succ]
        omega
      next hzero =>
        rw [not_not.1 hzero]
        decide

theorem le_of_nextPowerOf2 {adjSize : Nat} (hn : n < 2 ^ 64)
    (hadj : nextPowerOf2 n = some adjSize) : n ≤ adjSize := by
  have hcount := lt_two_pow_shiftCount hn
  rw [nextPowerOf2] at hadj
  split at hadj
  next => exact (Option.some_inj.1 hadj).le
  next =>
    rw [shiftOne] at hadj
    split_ifs at hadj with hless heq
    · obtain rfl := Option.some_inj.1 hadj
      exact hcount.le
    · obtain rfl := Option.some_inj.1 hadj
      rw [heq] at hcount
      omega

theorem mapFrames_size {m m' : Mmu} {heapEnd adjSize : Nat}
    (hmap : mapFrames fuel m heapEnd newSize = some (adjSize, m')) :
    nextPowerOf2 newSize = some adjSize := by
  obtain ⟨adj, hadj, hmap⟩ := Option.bind_eq_some_iff.1 hmap
  obtain ⟨⟨a, newFrame⟩, -, hmap⟩ := Option.bind_eq_some_iff.1 hmap
  obtain ⟨m₁, -, hmap⟩ := Option.bind_eq_some_iff.1 hmap
  cases hmap
  exact hadj

/-- The heap after a pass whose expansion moved its end by `adjSize` words. -/
structure Passed (h h' : Heap) (s' : MappedHeap) (tiles tiles' : List Tile) (t : Tile)
    (newSize passes adjSize : Nat) : Prop where
  growable : Growable h' tiles' t newSize passes
  overwritten : Overwritten h' s'.heap tiles' t
  fit : HasFit h' tiles' newSize → HasFit h tiles newSize
  heapEnd : h'.heapEnd = h.heapEnd + 8 * adjSize
  length : tiles'.length ≤ tiles.length + 1
  mem_eq : ∀ a, Covers t a → h'.mem a = h.mem a

/-- The first half of a pass, up to the expansion. -/
theorem growPass_eq (hgrow : Growable h tiles t newSize (passes + 1))
    (hsame : Overwritten h s.heap tiles t) (hshort : t.words ≤ newSize + 6)
    (hcopies : HasFit h tiles newSize → t.words < 2 ^ 31) (hsize : newSize + 104 ≤ 2 ^ 64)
    (hfuel : tiles.length ≤ fuel) (fresh : Nat → Nat) :
    ∃ h₁ tiles' block mem, Growable h₁ tiles' t newSize passes ∧
      Searched h h₁ tiles tiles' t newSize block ∧ EqOn mem h₁.mem (behindOthers tiles' t)ᶜ ∧
      growPass fuel fresh (t.addr + 24) newSize s =
        expandHeap fuel fresh ⟨h₁.withMem mem, s.mmu⟩ newSize := by
  have hexact : NoneExact tiles newSize := by simpa using hgrow.exact 0 (by omega)
  obtain ⟨h₁, block, hfind⟩ := hgrow.roving.findFit_returns hfuel newSize
  obtain ⟨tiles', hgrow', hsearched⟩ := hgrow.search hsize hfind
  obtain ⟨mem, hs, hmem⟩ := hsame
  obtain ⟨mem₁, hfind', hmem₁⟩ := hgrow.roving.ordered.findFit_withMem hgrow.roving.current
    hgrow.roving.previous hsize hexact behindUsed_behindOthers hmem hfind
  obtain ⟨mem₂, hcopy, hmem₂⟩ := hsearched.copyOld hgrow'.roving.ordered.1
    (mem_usedTiles.1 hgrow'.used).1 hshort
    (fun hne => hcopies ((hgrow.roving.found_iff hfind).1 hne))
    (hmem₁.mono (compl_subset_compl.2 hsearched.behind))
  refine ⟨h₁, tiles', block, mem₂, hgrow', hsearched, hmem₂, ?_⟩
  rw [growPass, hs, hfind']
  show (Heap.copyOld _ _ _).bind _ = _
  rw [hcopy]
  rfl

/-- Without a size to expand the heap by, no pass returns. -/
theorem growPass_none {fresh : Nat → Nat} {ptr : Nat} (hadj : nextPowerOf2 newSize = none) :
    growPass fuel fresh ptr newSize s = none := by
  refine Option.eq_none_iff_forall_ne_some.2 fun s' hrun => ?_
  obtain ⟨⟨h₁, block⟩, -, hrun⟩ := Option.bind_eq_some_iff.1 hrun
  obtain ⟨h₂, -, hrun⟩ := Option.bind_eq_some_iff.1 hrun
  obtain ⟨adj, hadj', -⟩ := Option.bind_eq_some_iff.1 hrun
  rw [hadj] at hadj'
  cases hadj'

/-- One pass returns when the frames can be mapped. -/
theorem growPass_spec (hgrow : Growable h tiles t newSize (passes + 1))
    (hsame : Overwritten h s.heap tiles t) (hshort : t.words ≤ newSize + 6)
    (hcopies : HasFit h tiles newSize → t.words < 2 ^ 31) (hsize : newSize < 2 ^ 64)
    (hroom : ∀ adjSize, nextPowerOf2 newSize = some adjSize → h.heapEnd + 8 * adjSize < 2 ^ 64)
    (hfuel : tiles.length + 1 < fuel) (fresh : Nat → Nat) :
    mapFrames fuel s.mmu h.heapEnd newSize = none ∧
        growPass fuel fresh (t.addr + 24) newSize s = none ∨
      ∃ adjSize m h' tiles' s', mapFrames fuel s.mmu h.heapEnd newSize = some (adjSize, m) ∧
        growPass fuel fresh (t.addr + 24) newSize s = some s' ∧ s'.mmu = m ∧
        Passed h h' s' tiles tiles' t newSize passes adjSize := by
  cases hadj : nextPowerOf2 newSize with
  | none =>
      refine .inl ⟨?_, growPass_none hadj⟩
      rw [mapFrames, hadj]
      rfl
  | some adjSize =>
      have hroom := hroom adjSize hadj
      have hsmall : newSize + 104 ≤ 2 ^ 64 := by
        have hle := le_of_nextPowerOf2 hsize hadj
        omega
      obtain ⟨h₁, tiles', block, mem, hgrow', hsearched, hmem, hpass⟩ :=
        growPass_eq hgrow hsame hshort hcopies hsmall (show tiles.length ≤ fuel by omega) fresh
      have hend : (h₁.withMem mem).heapEnd = h.heapEnd := hsearched.heapEnd
      rw [hpass, expandHeap_eq, hend]
      cases hmap : mapFrames fuel s.mmu h.heapEnd newSize with
      | none => exact .inl ⟨rfl, rfl⟩
      | some r =>
          obtain ⟨adj, m⟩ := r
          obtain rfl := Option.some_inj.1 (hadj.symm.trans (mapFrames_size hmap))
          have hroom' : h₁.heapEnd + 8 * adjSize < 2 ^ 64 := by
            rw [hsearched.heapEnd]
            exact hroom
          have hfuel' : tiles'.length < fuel := hsearched.length.trans_lt hfuel
          obtain ⟨h₂, hrebuild, hlaid, hgrow₂, hfit, hend₂, hkept⟩ :=
            hgrow'.expand hroom' hfuel' fresh
          have hremap : EqOn (remap fresh mem h₁.heapEnd adjSize)
              (moveEnd fresh h₁ adjSize).mem (behindOthers tiles' t)ᶜ := by
            intro a ha
            show (if _ then _ else _) = if _ then _ else _
            rw [hmem ha]
          obtain ⟨mem₂, hrebuild', hmem₂⟩ :=
            hlaid.rebuildList_withMem behindUsed_behindOthers hremap hrebuild
          refine .inr ⟨adjSize, m, h₂, tiles', ⟨h₂.withMem mem₂, m⟩, rfl,
            Option.map_eq_some_iff.2 ⟨_, hrebuild', rfl⟩, rfl, hgrow₂, ⟨mem₂, rfl, hmem₂⟩,
            fun hhas => hsearched.fit (hfit hhas), ?_, hsearched.length, fun a hcover => ?_⟩
          · rw [hend₂, hsearched.heapEnd]
          · rw [hkept a hcover, hsearched.mem_eq a hcover]

/-- The loop returns when the frames for all its expansions can be mapped, and the block has the
words that it had. -/
theorem growLoop_spec (hgrow : Growable h tiles t newSize passes)
    (hsame : Overwritten h s.heap tiles t) (hshort : t.words ≤ newSize + 6)
    (hcopies : HasFit h tiles newSize → t.words < 2 ^ 31) (hsize : newSize < 2 ^ 64)
    (hroom : ∀ adjSize, nextPowerOf2 newSize = some adjSize →
      h.heapEnd + passes * (8 * adjSize) < 2 ^ 64)
    (hfuel : tiles.length + passes < fuel) (fresh : Nat → Nat → Nat) :
    mapPasses fuel newSize passes s.mmu h.heapEnd = none ∧
        growLoop fuel fresh (t.addr + 24) newSize passes s = none ∨
      ∃ m s' h' tiles', mapPasses fuel newSize passes s.mmu h.heapEnd = some m ∧
        growLoop fuel fresh (t.addr + 24) newSize passes s = some s' ∧
        Growable h' tiles' t newSize 0 ∧ Overwritten h' s'.heap tiles' t ∧
        ∀ a, Covers t a → h'.mem a = h.mem a := by
  induction passes generalizing h s tiles with
  | zero => exact .inr ⟨s.mmu, s, h, tiles, rfl, rfl, hgrow, hsame, fun _ _ => rfl⟩
  | succ passes ih =>
      have hroom' : ∀ adjSize, nextPowerOf2 newSize = some adjSize →
          h.heapEnd + 8 * adjSize < 2 ^ 64 := by
        intro adjSize hadj
        have hroom := hroom adjSize hadj
        rw [Nat.succ_mul] at hroom
        omega
      rw [mapPasses, growLoop]
      obtain ⟨hmap, hpass⟩ | ⟨adjSize, m, h₁, tiles₁, s₁, hmap, hpass, hmmu, hpassed⟩ :=
        growPass_spec hgrow hsame hshort hcopies hsize hroom'
          (show tiles.length + 1 < fuel by omega) (fresh passes)
      · rw [hmap, hpass]
        exact .inl ⟨rfl, rfl⟩
      · rw [hmap, hpass]
        have hlength := hpassed.length
        have hrest : ∀ adj, nextPowerOf2 newSize = some adj →
            h₁.heapEnd + passes * (8 * adj) < 2 ^ 64 := by
          intro adj hadj
          have hroom := hroom adj hadj
          obtain rfl := Option.some_inj.1 (hadj.symm.trans (mapFrames_size hmap))
          rw [Nat.succ_mul] at hroom
          rw [hpassed.heapEnd]
          omega
        have hloop := ih hpassed.growable hpassed.overwritten
          (fun hfit => hcopies (hpassed.fit hfit)) hrest (by omega)
        rw [hmmu, hpassed.heapEnd] at hloop
        obtain hnone | ⟨m', s', h', tiles', hmap', hrun, hgrow', hsame', hkept⟩ := hloop
        · exact .inl hnone
        · exact .inr ⟨m', s', h', tiles', hmap', hrun, hgrow', hsame', fun a hcover => by
            rw [hkept a hcover, hpassed.mem_eq a hcover]⟩

end MappedHeap

end CrosKernel.Memory
