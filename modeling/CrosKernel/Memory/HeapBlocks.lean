import CrosKernel.Lib.NullList
import CrosKernel.Lib.Tiling
import CrosKernel.Memory.Heap
import Mathlib.Data.List.Nodup

/-!
# The blocks of the heap

`Laid h tiles` says that the blocks of `h` are the tiles of the list, and `Listed h tiles chain`
that the free ones are linked in the order of `chain`. One lemma for each function of `heap.cpp`
says how it changes the two lists.
-/

namespace CrosKernel.Memory

open Lib

/-- A block: the address of its header, the number of words of its data, and whether it is in use.
-/
structure Tile where
  addr : Nat
  words : Nat
  used : Bool
  deriving DecidableEq

namespace Tile

variable {mem mem' : Nat → Nat} {t : Tile} {a : Nat}

/-- The bytes of a block with its header and its footer. -/
def len (t : Tile) : Nat := 8 * (t.words + 5)

/-- The value of the flags of a block. -/
def flag (t : Tile) : Nat := if t.used then 1 else 0

/-- The words of the header and the footer agree with the block. -/
structure Tagged (mem : Nat → Nat) (t : Tile) : Prop where
  size : mem t.addr = t.words
  flag : mem (t.addr + 16) = t.flag
  footerSize : mem (t.addr + 8 * (t.words + 3)) = t.words
  footerFlag : mem (t.addr + 8 * (t.words + 4)) = t.flag

/-- The words that only the owner of the block writes: those of a block in use, and the header and
the footer of a free one without the link. -/
def Owns (t : Tile) (a : Nat) : Prop :=
  t.addr ≤ a ∧ a < t.addr + t.len ∧
    (t.used = true ∨ a ≠ t.addr + 8 ∧ (a < t.addr + 24 ∨ t.addr + 8 * (t.words + 3) ≤ a))

theorem owns_iff : t.Owns a ↔ t.addr ≤ a ∧ a < t.addr + 8 * (t.words + 5) ∧
    (t.used = true ∨ a ≠ t.addr + 8 ∧ (a < t.addr + 24 ∨ t.addr + 8 * (t.words + 3) ≤ a)) :=
  Iff.rfl

theorem Tagged.congr (h : t.Tagged mem) (hmem : ∀ a, t.Owns a → mem' a = mem a) :
    t.Tagged mem' := by
  constructor
  · rw [hmem _ (by rw [owns_iff]; omega), h.size]
  · rw [hmem _ (by rw [owns_iff]; omega), h.flag]
  · rw [hmem _ (by rw [owns_iff]; omega), h.footerSize]
  · rw [hmem _ (by rw [owns_iff]; omega), h.footerFlag]

end Tile

/-- The addresses of the free blocks. -/
def freeAddrs (tiles : List Tile) : List Nat := (tiles.filter fun t => !t.used).map Tile.addr

/-- The blocks in use. -/
def usedTiles (tiles : List Tile) : List Tile := tiles.filter (·.used)

section

variable {l r : List Tile} {t : Tile} {a : Nat}

theorem mem_usedTiles : t ∈ usedTiles l ↔ t ∈ l ∧ t.used = true := List.mem_filter

@[simp]
theorem usedTiles_append : usedTiles (l ++ r) = usedTiles l ++ usedTiles r :=
  List.filter_append l r

theorem usedTiles_free (ht : t.used = false) : usedTiles [t] = [] := by
  simp [usedTiles, ht]

@[simp]
theorem usedTiles_cons_free (ht : t.used = false) : usedTiles (t :: l) = usedTiles l :=
  List.filter_cons_of_neg (by simp [ht])

theorem mem_freeAddrs : a ∈ freeAddrs l ↔ ∃ t ∈ l, t.used = false ∧ t.addr = a := by
  simp [freeAddrs, and_assoc]

@[simp]
theorem freeAddrs_append : freeAddrs (l ++ r) = freeAddrs l ++ freeAddrs r := by
  simp [freeAddrs]

theorem freeAddrs_free (ht : t.used = false) : freeAddrs [t] = [t.addr] := by
  simp [freeAddrs, ht]

theorem freeAddrs_used (ht : t.used = true) : freeAddrs [t] = [] := by
  simp [freeAddrs, ht]

end

namespace Heap

variable {h h' : Heap} {tiles l r m m' : List Tile} {chain : List Nat} {s t : Tile} {a p i v : Nat}

theorem mem_setWord (h : Heap) (p i v a : Nat) :
    (h.setWord p i v).mem a = if a = p + 8 * i then v else h.mem a := by
  simp only [setWord, Function.update_apply]

/-- The blocks of the heap are the tiles; the last one is free, and the list starts at it. They end
at the end of the heap or, when it was moved up, in front of it. -/
structure Laid (h : Heap) (tiles : List Tile) : Prop where
  tiling : ∃ e, Tiling Tile.addr Tile.len h.heap tiles e ∧ e ≤ h.heapEnd
  tagged : ∀ t ∈ tiles, t.Tagged h.mem
  last : ∃ init t, tiles = init ++ [t] ∧ t.used = false ∧ t.addr = h.linkedListStart
  heap_pos : 0 < h.heap
  end_lt : h.heapEnd < 2 ^ 64

/-- The free blocks are linked in the order of the list. -/
structure Listed (h : Heap) (tiles : List Tile) (chain : List Nat) : Prop where
  links : NullList (fun p => h.mem (p + 8)) 0 chain
  head : chain.head? = some h.linkedListStart
  perm : chain.Perm (freeAddrs tiles)

/-- The links of the blocks in use are null. -/
def Unlinked (h : Heap) (tiles : List Tile) : Prop :=
  ∀ t ∈ usedTiles tiles, h.mem (t.addr + 8) = 0

/-- The block at `search_current` comes behind the one at `search_previous` when the search goes
round the list, or there is only one free block. -/
def Rovers (h : Heap) (chain : List Nat) : Prop :=
  (h.searchPrevious ∈ chain ∧ (h.mem (h.searchPrevious + 8) = h.searchCurrent ∨
    h.mem (h.searchPrevious + 8) = 0 ∧ h.searchCurrent = h.linkedListStart)) ∨
  chain = [h.linkedListStart]

/-- The heap is in the same place, and the words of the blocks stay as they are. -/
structure Keeps (tiles : List Tile) (h h' : Heap) : Prop where
  heap : h'.heap = h.heap
  heapEnd : h'.heapEnd = h.heapEnd
  words : ∀ t ∈ tiles, ∀ a, t.Owns a → h'.mem a = h.mem a

theorem Keeps.mono {tiles' : List Tile} (hkeep : Keeps tiles h h')
    (hsub : ∀ t ∈ tiles', t ∈ tiles) : Keeps tiles' h h' :=
  ⟨hkeep.heap, hkeep.heapEnd, fun t ht => hkeep.words t (hsub t ht)⟩

theorem Keeps.trans {h'' : Heap} (hkeep : Keeps tiles h h') (hkeep' : Keeps tiles h' h'') :
    Keeps tiles h h'' :=
  ⟨hkeep'.heap.trans hkeep.heap, hkeep'.heapEnd.trans hkeep.heapEnd, fun t ht a howns =>
    (hkeep'.words t ht a howns).trans (hkeep.words t ht a howns)⟩

theorem Keeps.refl (tiles : List Tile) (h : Heap) : Keeps tiles h h :=
  ⟨rfl, rfl, fun _ _ _ _ => rfl⟩

/-! ## Places in the heap -/

theorem Laid.bounds (hl : Laid h tiles) (ht : t ∈ tiles) :
    h.heap ≤ t.addr ∧ t.addr + 8 * (t.words + 5) ≤ h.heapEnd := by
  obtain ⟨e, htiling, hle⟩ := hl.tiling
  exact ⟨(htiling.bounds ht).1, (htiling.bounds ht).2.trans hle⟩

/-- Blocks are the same or lie apart. -/
theorem Laid.apart (hl : Laid h tiles) (hs : s ∈ tiles) (ht : t ∈ tiles) :
    s = t ∨ s.addr + 8 * (s.words + 5) ≤ t.addr ∨ t.addr + 8 * (t.words + 5) ≤ s.addr := by
  obtain ⟨e, htiling, -⟩ := hl.tiling
  exact htiling.apart hs ht

theorem Laid.eq_of_addr (hl : Laid h tiles) (hs : s ∈ tiles) (ht : t ∈ tiles)
    (heq : s.addr = t.addr) : s = t := by
  obtain hst | hlt | hlt := hl.apart hs ht
  · exact hst
  · omega
  · omega

/-- The other blocks lie in front of a block or behind it. -/
theorem Laid.beside (hl : Laid h (l ++ t :: r)) (hs : s ∈ l ++ r) :
    s.addr + 8 * (s.words + 5) ≤ t.addr ∨ t.addr + 8 * (t.words + 5) ≤ s.addr := by
  obtain ⟨e, htiling, -⟩ := hl.tiling
  exact htiling.beside hs

/-- The list starts at the last block. -/
theorem Laid.start_eq_iff (hl : Laid h (l ++ t :: r)) : t.addr = h.linkedListStart ↔ r = [] := by
  obtain ⟨init, z, heq, -, haddr⟩ := hl.last
  rw [← haddr]
  obtain rfl | ⟨r', y, rfl⟩ := List.eq_nil_or_concat' r
  · obtain ⟨-, hz⟩ := List.append_inj' heq rfl
    cases hz
    exact iff_of_true rfl rfl
  · obtain ⟨-, hz⟩ := List.append_inj' ((List.append_assoc l (t :: r') [y]).trans heq) rfl
    cases hz
    refine iff_of_false (fun hsame => ?_) (by simp)
    have hbeside := hl.beside (s := z) (by simp)
    omega

theorem Laid.nodup_freeAddrs (hl : Laid h tiles) : (freeAddrs tiles).Nodup := by
  obtain ⟨e, htiling, -⟩ := hl.tiling
  refine List.pairwise_map.2 ((htiling.pairwise.filter _).imp ?_)
  intro s t hlt heq
  have hlen : s.len = 8 * (s.words + 5) := rfl
  omega

theorem Listed.nodup (hlist : Listed h tiles chain) (hl : Laid h tiles) : chain.Nodup :=
  hlist.perm.nodup_iff.2 hl.nodup_freeAddrs

/-- The nodes of the list are free blocks. -/
theorem Listed.tile (hlist : Listed h tiles chain) (ha : a ∈ chain) :
    ∃ t ∈ tiles, t.used = false ∧ t.addr = a := mem_freeAddrs.1 (hlist.perm.mem_iff.1 ha)

theorem Listed.mem (hlist : Listed h tiles chain) (ht : t ∈ tiles) (hfree : t.used = false) :
    t.addr ∈ chain := hlist.perm.mem_iff.2 (mem_freeAddrs.2 ⟨t, ht, hfree, rfl⟩)

/-- A block in front of another one. -/
theorem Laid.next_addr (hl : Laid h (l ++ s :: t :: r)) : t.addr = s.addr + 8 * (s.words + 5) := by
  obtain ⟨e, htiling, -⟩ := hl.tiling
  obtain ⟨c, -, hc⟩ := tiling_append.1 htiling
  exact hc.2.1.trans (congrArg (· + s.len) hc.1.symm)

/-! ## Changes of the blocks -/

theorem Laid.congr (hl : Laid h tiles) (hstart : h'.linkedListStart = h.linkedListStart)
    (hkeep : Keeps tiles h h') : Laid h' tiles where
  tiling := by rw [hkeep.heap, hkeep.heapEnd]; exact hl.tiling
  tagged t ht := (hl.tagged t ht).congr (hkeep.words t ht)
  last := by rw [hstart]; exact hl.last
  heap_pos := by rw [hkeep.heap]; exact hl.heap_pos
  end_lt := by rw [hkeep.heapEnd]; exact hl.end_lt

/-- Blocks in the middle of the heap are replaced by others in the same place. -/
theorem Laid.edit (hl : Laid h (l ++ m ++ r))
    (hfill : ∀ c d, Tiling Tile.addr Tile.len c m d → Tiling Tile.addr Tile.len c m' d)
    (htagged : ∀ t ∈ m', t.Tagged h'.mem) (hkeep : Keeps (l ++ r) h h')
    (hstart : r ≠ [] → h'.linkedListStart = h.linkedListStart)
    (hlast : r = [] → ∃ init t, m' = init ++ [t] ∧ t.used = false ∧ t.addr = h'.linkedListStart) :
    Laid h' (l ++ m' ++ r) where
  tiling := by
    obtain ⟨e, htiling, hle⟩ := hl.tiling
    rw [hkeep.heap, hkeep.heapEnd]
    exact ⟨e, htiling.replace hfill, hle⟩
  tagged t ht := by
    simp only [List.mem_append] at ht
    obtain (ht | ht) | ht := ht
    · exact (hl.tagged t (by simp [ht])).congr (hkeep.words t (by simp [ht]))
    · exact htagged t ht
    · exact (hl.tagged t (by simp [ht])).congr (hkeep.words t (by simp [ht]))
  last := by
    obtain rfl | ⟨r', y, rfl⟩ := List.eq_nil_or_concat' r
    · obtain ⟨init, t, rfl, hfree, haddr⟩ := hlast rfl
      exact ⟨l ++ init, t, by simp, hfree, haddr⟩
    · obtain ⟨init, z, heq, hfree, haddr⟩ := hl.last
      obtain ⟨-, hz⟩ := List.append_inj' ((List.append_assoc (l ++ m) r' [y]).trans heq) rfl
      cases hz
      exact ⟨l ++ m' ++ r', y, by simp, hfree, haddr.trans (hstart (by simp)).symm⟩
  heap_pos := by rw [hkeep.heap]; exact hl.heap_pos
  end_lt := by rw [hkeep.heapEnd]; exact hl.end_lt

/-- The links stay null as long as the blocks in use keep their words. -/
theorem Unlinked.congr {tiles' : List Tile} (hunlinked : Unlinked h tiles)
    (hused : usedTiles tiles' = usedTiles tiles) (hkeep : Keeps (usedTiles tiles) h h') :
    Unlinked h' tiles' := by
  intro t ht
  rw [hused] at ht
  have howns : t.Owns (t.addr + 8) :=
    Tile.owns_iff.2 ⟨by omega, by omega, .inl (mem_usedTiles.1 ht).2⟩
  rw [hkeep.words t ht _ howns, hunlinked t ht]

/-! ## Splitting a block -/

/-- The words of the memory after a header and a footer were written. -/
theorem writeBlk_mem (h : Heap) (blk size next flag a : Nat) :
    (h.writeBlk blk size next flag).mem a =
      if a = blk + 8 * (size + 4) then flag else if a = blk + 8 * (size + 3) then size
      else if a = blk + 16 then flag else if a = blk + 8 then next else if a = blk then size
      else h.mem a := by
  have hword : ∀ (h : Heap) i, h.word blk i = h.mem (blk + 8 * i) := fun _ _ => rfl
  have hread : (((h.setWord blk 0 size).setWord blk 1 next).setWord blk 2 flag).word blk 0 =
      size := by
    rw [hword, mem_setWord, if_neg (by omega), mem_setWord, if_neg (by omega), mem_setWord,
      if_pos (by omega)]
  have hread' : ∀ h' : Heap, h'.word blk 0 = size →
      (h'.setWord blk (size + 5 - 2) size).word blk 0 = size := by
    intro h' hsize
    rw [hword, mem_setWord, if_neg (by omega)]
    exact hsize
  rw [writeBlk, OVERHEAD, hread, hread' _ hread]
  simp only [mem_setWord, Nat.mul_zero, Nat.add_zero, Nat.reduceMul]
  rfl

/-- The header and the footer that were written are those of a block. -/
theorem writeBlk_tagged (h : Heap) (t : Tile) (next : Nat) :
    t.Tagged (h.writeBlk t.addr t.words next t.flag).mem := by
  constructor
  · rw [writeBlk_mem, if_neg (by omega), if_neg (by omega), if_neg (by omega), if_neg (by omega),
      if_pos rfl]
  · rw [writeBlk_mem, if_neg (by omega), if_neg (by omega), if_pos rfl]
  · rw [writeBlk_mem, if_neg (by omega), if_pos rfl]
  · rw [writeBlk_mem, if_pos rfl]

/-- A header and a footer change no other words. -/
theorem writeBlk_mem_other (h : Heap) {blk size next flag a : Nat}
    (ha : a < blk ∨ blk + 24 ≤ a ∧ a < blk + 8 * (size + 3) ∨ blk + 8 * (size + 5) ≤ a) :
    (h.writeBlk blk size next flag).mem a = h.mem a := by
  rw [writeBlk_mem, if_neg (by omega), if_neg (by omega), if_neg (by omega), if_neg (by omega),
    if_neg (by omega)]

/-- The heap after the header and the footer of the rest of a block were written by `split_blk`. -/
def writeRest (h : Heap) (t : Tile) (n : Nat) : Heap :=
  h.writeBlk (t.addr + 8 * (n + 5)) (t.words - n - 5) (h.mem (t.addr + 8)) 0

/-- The heap after `split_blk` wrote the link of the block at `search_previous`. -/
def linkRest (h : Heap) (t : Tile) (n : Nat) : Heap :=
  if h.searchPrevious ≠ 0 ∧ (h.writeRest t n).mem (h.searchPrevious + 8) ≠ 0 then
    (h.writeRest t n).setWord h.searchPrevious 1 (t.addr + 8 * (n + 5))
  else h.writeRest t n

/-- `split_blk` step by step. -/
theorem splitBlk_eq {size n : Nat} (hn : size / 8 = n) (hw : h.mem t.addr = t.words)
    (hle : n + 5 ≤ t.words) (hlt : t.words < 2 ^ 64) :
    h.splitBlk size t.addr =
      ({ h.linkRest t n with
          linkedListStart := redirect t.addr (t.addr + 8 * (n + 5)) h.linkedListStart
          searchPrevious := redirect t.addr (t.addr + 8 * (n + 5)) h.searchPrevious
          searchCurrent := redirect t.addr (t.addr + 8 * (n + 5)) h.searchCurrent }.writeBlk
        t.addr n 0 1, t.addr + 24) := by
  have hsplit : t.addr + 8 * n + 8 * OVERHEAD = t.addr + 8 * (n + 5) := by
    unfold OVERHEAD
    omega
  have hsize : sub64 (sub64 t.words n) OVERHEAD = t.words - n - 5 := by
    rw [sub64_eq (by omega : n ≤ t.words) hlt, OVERHEAD, sub64_eq (by omega) (by omega)]
  have hword : h.word t.addr 0 = t.words := hw
  have hlink : h.word t.addr 1 = h.mem (t.addr + 8) := rfl
  rw [splitBlk, hn, hsplit, hword, hsize, hlink, linkRest]
  split_ifs with hcond hcond' hcond'
  · rfl
  · exact absurd hcond hcond'
  · exact absurd hcond' hcond
  · rfl

theorem linkRest_places (h : Heap) (t : Tile) (n : Nat) :
    (h.linkRest t n).heap = h.heap ∧ (h.linkRest t n).heapEnd = h.heapEnd := by
  unfold linkRest
  split
  · exact ⟨rfl, rfl⟩
  · exact ⟨rfl, rfl⟩

theorem linkRest_mem (h : Heap) (t : Tile) (n a : Nat) :
    (h.linkRest t n).mem a =
      if (h.searchPrevious ≠ 0 ∧ (h.writeRest t n).mem (h.searchPrevious + 8) ≠ 0) ∧
          a = h.searchPrevious + 8 then t.addr + 8 * (n + 5)
      else (h.writeRest t n).mem a := by
  unfold linkRest
  by_cases hcond : h.searchPrevious ≠ 0 ∧ (h.writeRest t n).mem (h.searchPrevious + 8) ≠ 0
  · rw [if_pos hcond, mem_setWord, Nat.mul_one]
    simp only [hcond, ne_eq, not_false_eq_true, and_self, true_and]
  · rw [if_neg hcond, if_neg fun hboth => hcond hboth.1]

/-- The write leaves a word that is 0 or that is not the link. -/
theorem linkRest_mem_keep {n : Nat}
    (ha : (h.writeRest t n).mem a = 0 ∨ a ≠ h.searchPrevious + 8) :
    (h.linkRest t n).mem a = (h.writeRest t n).mem a := by
  rw [linkRest_mem, if_neg]
  rintro ⟨⟨-, hne⟩, rfl⟩
  exact ha.elim hne fun hne => hne rfl

/-- Outside the block that is split only the link is written. -/
theorem linkRest_mem_outside {n : Nat} (hle : n + 5 ≤ t.words)
    (ha : a < t.addr ∨ t.addr + 8 * (t.words + 5) ≤ a) :
    (h.linkRest t n).mem a =
      if (h.searchPrevious ≠ 0 ∧ h.mem a ≠ 0) ∧ a = h.searchPrevious + 8 then
        t.addr + 8 * (n + 5)
      else h.mem a := by
  have hrest : (h.writeRest t n).mem a = h.mem a := h.writeBlk_mem_other (by omega)
  rw [linkRest_mem, hrest]
  by_cases heq : a = h.searchPrevious + 8
  · rw [← heq, hrest]
  · rw [if_neg fun hboth => heq hboth.2, if_neg fun hboth => heq hboth.2]

/-- The two parts of a block that is split, the used one with `n` words. -/
def parts (t : Tile) (n : Nat) : List Tile :=
  [⟨t.addr, n, true⟩, ⟨t.addr + 8 * (n + 5), t.words - n - 5, false⟩]

/-- The write of `split_blk` through `search_previous` hits the link of a free block, or a word of
the block that is split where it does no harm. -/
structure LinkSafe (h : Heap) (others : List Tile) (t : Tile) (n : Nat) : Prop where
  outside : h.searchPrevious ≠ 0 → h.mem (h.searchPrevious + 8) ≠ 0 →
    h.searchPrevious + 8 < t.addr ∨ t.addr + 8 * (t.words + 5) ≤ h.searchPrevious + 8 →
    ∃ u ∈ others, u.used = false ∧ u.addr = h.searchPrevious
  inside : t.addr + 8 * (n + 5) ≤ h.searchPrevious + 8 →
    h.searchPrevious + 8 < t.addr + 8 * (t.words + 5) →
    h.mem (t.addr + 8) = 0 ∧ h.searchPrevious + 8 ≠ t.addr + 8 * (n + 5) ∧
      h.searchPrevious + 8 ≠ t.addr + 8 * (t.words + 3)

/-- No block owns the link of a free one. -/
theorem Laid.not_owns_link (hl : Laid h tiles) (hs : s ∈ tiles) (ht : t ∈ tiles)
    (hfree : t.used = false) : ¬s.Owns (t.addr + 8) := by
  rw [Tile.owns_iff]
  rintro ⟨hle, hlt, howns⟩
  obtain rfl | hapart | hapart := hl.apart hs ht
  · obtain hused | hother := howns
    · rw [hused] at hfree
      cases hfree
    · exact hother.1 rfl
  · omega
  · omega

/-- `h'` is the heap after a block between `l` and `r` was split. -/
structure IsSplit (h h' : Heap) (l r : List Tile) (t : Tile) (n : Nat) : Prop where
  laid : Laid h' (l ++ parts t n ++ r)
  keeps : Keeps (l ++ r) h h'
  start : h'.linkedListStart = redirect t.addr (t.addr + 8 * (n + 5)) h.linkedListStart
  previous : h'.searchPrevious = redirect t.addr (t.addr + 8 * (n + 5)) h.searchPrevious
  current : h'.searchCurrent = redirect t.addr (t.addr + 8 * (n + 5)) h.searchCurrent
  link : h'.mem (t.addr + 8 * (n + 5) + 8) = h.mem (t.addr + 8)
  unlinked : h'.mem (t.addr + 8) = 0
  outside : ∀ a, a < t.addr ∨ t.addr + 8 * (t.words + 5) ≤ a → h'.mem a =
    if (h.searchPrevious ≠ 0 ∧ h.mem a ≠ 0) ∧ a = h.searchPrevious + 8 then
      t.addr + 8 * (n + 5)
    else h.mem a

/-- What `split_blk` does to a block with room for the rest. -/
theorem Laid.splitBlk {size n : Nat} (hl : Laid h (l ++ [t] ++ r)) (hn : size / 8 = n)
    (hle : n + 5 ≤ t.words) (hsafe : LinkSafe h (l ++ r) t n) :
    ∃ h', h.splitBlk size t.addr = (h', t.addr + 24) ∧ IsSplit h h' l r t n := by
  have hmem : t ∈ l ++ [t] ++ r := by simp
  have htags := hl.tagged t hmem
  have hbounds := hl.bounds hmem
  have hend := hl.end_lt
  have heq := splitBlk_eq hn htags.size hle (by omega)
  generalize hh' : Heap.writeBlk _ t.addr n 0 1 = h' at heq
  refine ⟨h', heq, ?_⟩
  -- the words behind the used part, and those in front of it
  have hmem' : ∀ a, a < t.addr ∨ t.addr + 8 * (n + 5) ≤ a →
      h'.mem a = (h.linkRest t n).mem a := by
    intro a ha
    rw [← hh']
    exact writeBlk_mem_other _ (by omega)
  have hrest : Tile.Tagged (h.writeRest t n).mem
      ⟨t.addr + 8 * (n + 5), t.words - n - 5, false⟩ :=
    writeBlk_tagged h ⟨t.addr + 8 * (n + 5), t.words - n - 5, false⟩ _
  have hlinked : ∀ a, t.addr + 8 * (n + 5) ≤ a → a < t.addr + 8 * (t.words + 5) →
      (h.writeRest t n).mem a = 0 ∨ a ≠ h.searchPrevious + 8 →
      h'.mem a = (h.writeRest t n).mem a := fun a hlow hhigh ha =>
    (hmem' a (.inr hlow)).trans (linkRest_mem_keep ha)
  have hsplit : Tile.Tagged h'.mem ⟨t.addr + 8 * (n + 5), t.words - n - 5, false⟩ := by
    obtain ⟨hsize, hflag, hfooterSize, hfooterFlag⟩ := hrest
    constructor <;> dsimp only at *
    · rw [hlinked _ le_rfl (by omega) (.inr fun heq => ?_), hsize]
      exact (hsafe.inside (by omega) (by omega)).2.1 heq.symm
    · rw [hlinked _ (by omega) (by omega) (.inl hflag), hflag]
    · rw [hlinked _ (by omega) (by omega) (.inr fun heq => ?_), hfooterSize]
      exact (hsafe.inside (by omega) (by omega)).2.2 (by omega)
    · rw [hlinked _ (by omega) (by omega) (.inl hfooterFlag), hfooterFlag]
  have hplaces := h.linkRest_places t n
  have hkeep : Keeps (l ++ r) h h' := by
    refine ⟨by rw [← hplaces.1, ← hh']; rfl, by rw [← hplaces.2, ← hh']; rfl, ?_⟩
    intro u hu a howns
    have hside := (List.append_cons l t r ▸ hl).beside hu
    have hout : a < t.addr ∨ t.addr + 8 * (t.words + 5) ≤ a := by
      have hrange := Tile.owns_iff.1 howns
      omega
    rw [hmem' a (by omega), linkRest_mem_outside hle hout, if_neg]
    rintro ⟨⟨hne, hlink⟩, rfl⟩
    obtain ⟨v, hv, hvfree, hvaddr⟩ := hsafe.outside hne hlink hout
    have hin : ∀ w ∈ l ++ r, w ∈ l ++ [t] ++ r := by
      intro w hw
      simp only [List.mem_append] at hw ⊢
      tauto
    exact hl.not_owns_link (hin u hu) (hin v hv) hvfree (hvaddr ▸ howns)
  have hstart := (List.append_cons l t r ▸ hl).start_eq_iff
  have hstart' : h'.linkedListStart =
      redirect t.addr (t.addr + 8 * (n + 5)) h.linkedListStart := by rw [← hh']; rfl
  refine ⟨hl.edit ?_ ?_ hkeep ?_ ?_, hkeep, hstart', by rw [← hh']; rfl,
    by rw [← hh']; rfl, ?_, ?_, fun a ha => ?_⟩
  · intro c d hfill
    obtain ⟨rfl, hd⟩ := hfill
    refine ⟨rfl, rfl, Eq.trans ?_ hd⟩
    show t.addr + 8 * (n + 5) + 8 * (t.words - n - 5 + 5) = t.addr + 8 * (t.words + 5)
    omega
  · intro u hu
    simp only [parts, List.mem_cons, List.not_mem_nil, or_false] at hu
    obtain rfl | rfl := hu
    · rw [← hh']
      exact writeBlk_tagged _ ⟨t.addr, n, true⟩ 0
    · exact hsplit
  · intro hr
    have hne : t.addr ≠ h.linkedListStart := fun heq => hr (hstart.1 heq)
    rw [hstart', redirect, if_neg hne]
  · intro hr
    rw [hstart', redirect, if_pos (hstart.2 hr)]
    exact ⟨[⟨t.addr, n, true⟩], _, rfl, rfl, rfl⟩
  · have hlink : (h.writeRest t n).mem (t.addr + 8 * (n + 5) + 8) = h.mem (t.addr + 8) := by
      rw [writeRest, writeBlk_mem, if_neg (by omega), if_neg (by omega), if_neg (by omega),
        if_pos rfl]
    rw [hlinked _ (by omega) (by omega), hlink]
    by_cases heq : t.addr + 8 * (n + 5) + 8 = h.searchPrevious + 8
    · exact .inl (hlink.trans (hsafe.inside (by omega) (by omega)).1)
    · exact .inr heq
  · rw [← hh', writeBlk_mem, if_neg (by omega), if_neg (by omega), if_neg (by omega), if_pos rfl]
  · rw [hmem' a (by omega), linkRest_mem_outside hle ha]

section

variable {n : Nat} {c₁ c₂ : List Nat} (hlist : Listed h (l ++ [t] ++ r) (c₁ ++ t.addr :: c₂))

include hlist

/-- The other nodes of the list lie outside the block. -/
theorem Listed.node_outside (hl : Laid h (l ++ [t] ++ r)) {y : Nat} (hy : y ∈ c₁ ++ c₂) :
    0 < y ∧ y ≠ t.addr ∧ (y + 8 < t.addr ∨ t.addr + 8 * (t.words + 5) ≤ y + 8) := by
  have hnodup := List.nodup_cons.1 (List.nodup_middle.1 (hlist.nodup hl))
  have hne : y ≠ t.addr := fun heq => hnodup.1 (heq ▸ hy)
  have hmem : y ∈ c₁ ++ t.addr :: c₂ := by
    simp only [List.mem_append, List.mem_cons] at hy ⊢
    tauto
  obtain ⟨u, hu, -, rfl⟩ := hlist.tile hmem
  have hpos := hl.heap_pos
  have hbounds := hl.bounds hu
  obtain rfl | hapart | hapart := hl.apart hu (by simp : t ∈ l ++ [t] ++ r)
  · exact absurd rfl hne
  · exact ⟨by omega, hne, by omega⟩
  · exact ⟨by omega, hne, by omega⟩

/-- The links of the other nodes after a split. -/
theorem IsSplit.link_eq (hl : Laid h (l ++ [t] ++ r)) (hsplit : IsSplit h h' l r t n) {y : Nat}
    (hy : y ∈ c₁ ++ c₂) :
    h'.mem (y + 8) =
      if y = h.searchPrevious ∧ h.mem (y + 8) ≠ 0 then t.addr + 8 * (n + 5)
      else h.mem (y + 8) := by
  obtain ⟨hpos, hne, hout⟩ := hlist.node_outside hl hy
  rw [hsplit.outside _ hout]
  refine if_congr ⟨fun hif => ⟨by omega, hif.1.2⟩, fun hif => ?_⟩ rfl rfl
  exact ⟨⟨by omega, hif.2⟩, by omega⟩

/-- The rest takes the place of the block among the free ones. -/
theorem Listed.perm_parts (hfree : t.used = false) :
    (c₁ ++ (t.addr + 8 * (n + 5)) :: c₂).Perm (freeAddrs (l ++ parts t n ++ r)) := by
  have hold : (t.addr :: (c₁ ++ c₂)).Perm (t.addr :: (freeAddrs l ++ freeAddrs r)) := by
    refine List.perm_middle.symm.trans (hlist.perm.trans ?_)
    rw [freeAddrs_append, freeAddrs_append, freeAddrs_free hfree, List.append_assoc]
    exact List.perm_middle
  have hnew : freeAddrs (l ++ parts t n ++ r) =
      freeAddrs l ++ (t.addr + 8 * (n + 5)) :: freeAddrs r := by
    rw [freeAddrs_append, freeAddrs_append, List.append_assoc]
    rfl
  rw [hnew]
  exact List.perm_middle.trans ((hold.cons_inv.cons _).trans List.perm_middle.symm)

/-- The block is the first free one: the search came to it from the end of the list, or it is the
only one. -/
theorem IsSplit.listed_first (hl : Laid h (l ++ [t] ++ r)) (hsplit : IsSplit h h' l r t n)
    (hfree : t.used = false) (hfirst : c₁ = []) (hrovers : Rovers h (c₁ ++ t.addr :: c₂))
    (hcurrent : h.searchCurrent = t.addr) :
    Listed h' (l ++ parts t n ++ r) (c₁ ++ (t.addr + 8 * (n + 5)) :: c₂) ∧
      Rovers h' (c₁ ++ (t.addr + 8 * (n + 5)) :: c₂) := by
  subst hfirst
  have hstart : t.addr = h.linkedListStart := Option.some_inj.1 hlist.head
  have hnodup := List.nodup_cons.1 (hlist.nodup hl)
  -- no node points to the first one
  have hprevious : h.searchPrevious ∈ t.addr :: c₂ →
      h.mem (h.searchPrevious + 8) = h.searchCurrent ∨
        h.mem (h.searchPrevious + 8) = 0 ∧ h.searchCurrent = h.linkedListStart →
      h.mem (h.searchPrevious + 8) = 0 := by
    intro hmem hnext
    obtain hnext | hnext := hnext
    · obtain hnull | htail := hlist.links.next_mem_tail hmem
      · exact hnull
      · exact absurd (hcurrent ▸ hnext ▸ htail) hnodup.1
    · exact hnext.1
  have hothers : ∀ y ∈ c₂, h'.mem (y + 8) = h.mem (y + 8) := by
    intro y hy
    rw [hsplit.link_eq hlist hl hy, if_neg]
    rintro ⟨rfl, hne⟩
    obtain ⟨hmem, hnext⟩ | halone := hrovers
    · exact hne (hprevious hmem hnext)
    · rw [(List.cons_eq_cons.1 halone).2] at hy
      cases hy
  have hstart' : h'.linkedListStart = t.addr + 8 * (n + 5) := by
    rw [hsplit.start, redirect, if_pos hstart]
  refine ⟨⟨hlist.links.replace_head hsplit.link hothers, ?_, hlist.perm_parts hfree⟩, ?_⟩
  · rw [hstart']
    rfl
  · obtain ⟨hmem, hnext⟩ | halone := hrovers
    · have hnull := hprevious hmem hnext
      have hcurrent' : h'.searchCurrent = h'.linkedListStart := by
        rw [hsplit.current, hsplit.start, hcurrent, hstart]
      refine .inl ?_
      obtain heq | hmem := List.mem_cons.1 hmem
      · rw [hsplit.previous, heq, redirect, if_pos rfl]
        refine ⟨List.mem_cons_self, .inr ⟨hsplit.link.trans ?_, hcurrent'⟩⟩
        rw [← heq, hnull]
      · have hne : t.addr ≠ h.searchPrevious := fun heq => hnodup.1 (heq ▸ hmem)
        rw [hsplit.previous, redirect, if_neg hne]
        exact ⟨List.mem_cons_of_mem _ hmem, .inr ⟨(hothers _ hmem).trans hnull, hcurrent'⟩⟩
    · refine .inr ?_
      rw [hstart', (List.cons_eq_cons.1 halone).2]
      rfl

/-- The block comes behind another free one, which is the one at `search_previous`. -/
theorem IsSplit.listed_behind {c : List Nat} {x : Nat} (hl : Laid h (l ++ [t] ++ r))
    (hsplit : IsSplit h h' l r t n) (hfree : t.used = false) (hbehind : c₁ = c ++ [x])
    (hrovers : Rovers h (c₁ ++ t.addr :: c₂)) (hcurrent : h.searchCurrent = t.addr) :
    Listed h' (l ++ parts t n ++ r) (c₁ ++ (t.addr + 8 * (n + 5)) :: c₂) ∧
      Rovers h' (c₁ ++ (t.addr + 8 * (n + 5)) :: c₂) := by
  have hnodup := hlist.nodup hl
  have hnot := (List.nodup_cons.1 (List.nodup_middle.1 hnodup)).1
  have hpos : 0 < t.addr := hl.heap_pos.trans_le (hl.bounds (by simp)).1
  have hx : x ∈ c₁ := by simp [hbehind]
  have hx' : x ∈ c₁ ++ t.addr :: c₂ := List.mem_append_left _ hx
  have hlinks := hlist.links
  rw [hbehind, List.append_assoc, List.singleton_append] at hlinks
  have hnext : h.mem (x + 8) = t.addr := hlinks.next_eq
  -- the list starts in front of the block
  have hhead : (c₁ ++ (t.addr + 8 * (n + 5)) :: c₂).head? = some h.linkedListStart := by
    rw [List.head?_append_of_ne_nil _ (List.ne_nil_of_mem hx)]
    exact (List.head?_append_of_ne_nil _ (List.ne_nil_of_mem hx)).symm.trans hlist.head
  have hstart : t.addr ≠ h.linkedListStart := by
    rintro heq
    have hmem : h.linkedListStart ∈ c₁ := by
      refine List.mem_of_mem_head? ?_
      rw [← List.head?_append_of_ne_nil _ (List.ne_nil_of_mem hx), hlist.head]
      rfl
    exact hnot (List.mem_append_left _ (heq ▸ hmem))
  have hprevious : h.searchPrevious = x := by
    obtain ⟨hmem, hcase | hcase⟩ | halone := hrovers
    · refine hlist.links.next_inj hnodup hmem hx' ?_ (by omega)
      exact hcase.trans (hcurrent.trans hnext.symm)
    · exact absurd (hcurrent.symm.trans hcase.2) hstart
    · have hmem : t.addr ∈ c₁ ++ t.addr :: c₂ := by simp
      exact absurd (List.mem_singleton.1 (halone ▸ hmem)) hstart
  have hlink : h'.mem (x + 8) = t.addr + 8 * (n + 5) := by
    rw [hsplit.link_eq hlist hl (List.mem_append_left _ hx), if_pos ⟨hprevious.symm, by omega⟩]
  have hothers : ∀ y ∈ c ++ c₂, h'.mem (y + 8) = h.mem (y + 8) := by
    intro y hy
    have hsame : y ∈ c₁ ++ c₂ := by
      simp only [hbehind, List.mem_append] at hy ⊢
      tauto
    rw [hsplit.link_eq hlist hl hsame, if_neg]
    rintro ⟨rfl, -⟩
    rw [hbehind, List.append_assoc, List.singleton_append] at hnodup
    have hx := (List.nodup_cons.1 (List.nodup_middle.1 hnodup)).1
    rw [hprevious] at hy
    refine hx ?_
    simp only [List.mem_append, List.mem_cons] at hy ⊢
    tauto
  refine ⟨⟨?_, ?_, hlist.perm_parts hfree⟩, .inl ?_⟩
  · rw [hbehind, List.append_assoc, List.singleton_append]
    exact hlinks.replace hsplit.link hlink hothers
  · rw [hsplit.start, redirect, if_neg hstart]
    exact hhead
  · have hne : t.addr ≠ h.searchPrevious := fun heq =>
      hnot (List.mem_append_left _ (heq.trans hprevious ▸ hx))
    rw [hsplit.previous, redirect, if_neg hne, hprevious, hsplit.current, redirect,
      if_pos hcurrent.symm]
    exact ⟨List.mem_append_left _ hx, .inl hlink⟩

theorem IsSplit.listed (hl : Laid h (l ++ [t] ++ r)) (hsplit : IsSplit h h' l r t n)
    (hfree : t.used = false) (hrovers : Rovers h (c₁ ++ t.addr :: c₂))
    (hcurrent : h.searchCurrent = t.addr) :
    Listed h' (l ++ parts t n ++ r) (c₁ ++ (t.addr + 8 * (n + 5)) :: c₂) ∧
      Rovers h' (c₁ ++ (t.addr + 8 * (n + 5)) :: c₂) := by
  obtain hfirst | ⟨c, x, hbehind⟩ := List.eq_nil_or_concat' c₁
  · exact hsplit.listed_first hlist hl hfree hfirst hrovers hcurrent
  · exact hsplit.listed_behind hlist hl hfree hbehind hrovers hcurrent

end

/-! ## Finding a block -/

/-- The free blocks are linked, and the search goes round the list. -/
def Linked (h : Heap) (tiles : List Tile) : Prop :=
  ∃ chain, Listed h tiles chain ∧ Rovers h chain

/-- A heap whose free blocks are linked and whose search goes round the list. -/
def Ordered (h : Heap) (tiles : List Tile) : Prop :=
  Laid h tiles ∧ Unlinked h tiles ∧ Linked h tiles

theorem IsSplit.unlinked_parts {n : Nat} (hsplit : IsSplit h h' l r t n)
    (hunlinked : Unlinked h (l ++ [t] ++ r)) : Unlinked h' (l ++ parts t n ++ r) := by
  have hothers : Unlinked h (l ++ r) := by
    intro s hs
    refine hunlinked s ?_
    simp only [usedTiles_append, List.mem_append] at hs ⊢
    tauto
  have hkept := hothers.congr rfl (hsplit.keeps.mono fun s hs => (mem_usedTiles.1 hs).1)
  intro s hs
  have hparts : usedTiles (parts t n) = [⟨t.addr, n, true⟩] := rfl
  rw [usedTiles_append, usedTiles_append, hparts] at hs
  simp only [List.mem_append, List.mem_singleton] at hs
  obtain (hs | rfl) | hs := hs
  · exact hkept s (by simp [hs])
  · exact hsplit.unlinked
  · exact hkept s (by simp [hs])

/-- The write through `search_previous` is safe at the header of a free block. -/
theorem Laid.linkSafe {n : Nat} (hl : Laid h (l ++ [t] ++ r)) (hle : n + 5 ≤ t.words)
    (hprevious : ∃ u ∈ l ++ [t] ++ r, u.used = false ∧ u.addr = h.searchPrevious) :
    LinkSafe h (l ++ r) t n := by
  obtain ⟨u, hu, hfree, haddr⟩ := hprevious
  obtain rfl | hapart := hl.apart hu (by simp : t ∈ l ++ [t] ++ r)
  · exact ⟨fun _ _ hout => by omega, fun hlow _ => by omega⟩
  · refine ⟨fun _ _ _ => ⟨u, ?_, hfree, haddr⟩, fun hlow hhigh => by omega⟩
    simp only [List.mem_append, List.mem_singleton] at hu ⊢
    obtain (hu | rfl) | hu := hu
    · exact .inl hu
    · omega
    · exact .inr hu

/-- The heap after a block with `n` words was taken at `ptr`; the search is at the rest. -/
def Taken (h h' : Heap) (tiles : List Tile) (n ptr : Nat) : Prop :=
  ∃ l t r, tiles = l ++ [t] ++ r ∧ t.used = false ∧ n + 12 < t.words ∧ ptr = t.addr + 24 ∧
    h'.searchCurrent = t.addr + 8 * (n + 5) ∧ Keeps (l ++ r) h h' ∧
    Ordered h' (l ++ parts t n ++ r)

/-- The heap after a search that moved the rovers and took no block. -/
structure Missed (h h' : Heap) (tiles : List Tile) : Prop where
  mem : h'.mem = h.mem
  heap : h'.heap = h.heap
  heapEnd : h'.heapEnd = h.heapEnd
  start : h'.linkedListStart = h.linkedListStart
  ordered : Ordered h' tiles
  previous : h'.searchPrevious ∈ freeAddrs tiles
  current : h'.searchCurrent ∈ freeAddrs tiles

theorem Missed.keeps (hmissed : Missed h h' tiles) (tiles' : List Tile) : Keeps tiles' h h' :=
  ⟨hmissed.heap, hmissed.heapEnd, fun _ _ a _ => congrFun hmissed.mem a⟩

theorem Missed.trans {h'' : Heap} (hmissed : Missed h h' tiles) (hmissed' : Missed h' h'' tiles) :
    Missed h h'' tiles :=
  ⟨hmissed'.mem.trans hmissed.mem, hmissed'.heap.trans hmissed.heap,
    hmissed'.heapEnd.trans hmissed.heapEnd, hmissed'.start.trans hmissed.start, hmissed'.ordered,
      hmissed'.previous, hmissed'.current⟩

theorem Taken.congr {h₁ : Heap} {n ptr : Nat} (htaken : Taken h₁ h' tiles n ptr)
    (hsame : ∀ tiles, Keeps tiles h h₁) : Taken h h' tiles n ptr := by
  obtain ⟨l, t, r, heq, hfree, hle, hptr, hcurrent, hkeep, hordered⟩ := htaken
  exact ⟨l, t, r, heq, hfree, hle, hptr, hcurrent, (hsame _).trans hkeep, hordered⟩

/-- The block behind the one at `search_current`, where the list starts again at its end. -/
def nextSearch (h : Heap) : Nat :=
  if h.word h.searchCurrent 1 ≠ 0 then h.word h.searchCurrent 1 else h.linkedListStart

/-- The rovers after one step along the list. -/
def advance (h : Heap) : Heap :=
  { h with searchPrevious := h.searchCurrent, searchCurrent := h.nextSearch }

/-- One pass of the loop of `find_fit`. -/
theorem findFitLoop_succ (size fuel : Nat) (h : Heap) :
    findFitLoop size (fuel + 1) h =
      if h.word h.searchCurrent 0 * 8 % 2 ^ 64 = (size + OVERHEAD) % 2 ^ 64 then some h.takeBlk
      else if align ((size + (OVERHEAD + 1) * 8 * 2) % 2 ^ 64) <
          h.word h.searchCurrent 0 * 8 % 2 ^ 64 then
        some (h.splitBlk size h.searchCurrent)
      else if h.searchCurrent ≠ 0 ∧ h.searchStart ≠ h.nextSearch ∧ h.nextSearch < h.heapEnd then
        findFitLoop size fuel h.advance
      else some (h.advance, 0) := rfl

/-- A step along the list ends at a free block. -/
theorem Ordered.advance (hordered : Ordered h tiles)
    (hcurrent : h.searchCurrent ∈ freeAddrs tiles) :
    Missed h h.advance tiles := by
  obtain ⟨hl, hunlinked, chain, hlist, hrovers⟩ := hordered
  have hchain := hlist.perm.mem_iff.2 hcurrent
  have hlink : h.word h.searchCurrent 1 = h.mem (h.searchCurrent + 8) := rfl
  have hnext : (h.mem (h.searchCurrent + 8) = h.nextSearch ∨
      h.mem (h.searchCurrent + 8) = 0 ∧ h.nextSearch = h.linkedListStart) ∧
        h.nextSearch ∈ chain := by
    rw [nextSearch, hlink]
    split_ifs with hne
    · exact ⟨.inl rfl, (hlist.links.next_mem hchain).resolve_left hne⟩
    · exact ⟨.inr ⟨not_not.1 hne, rfl⟩, List.mem_of_mem_head? hlist.head⟩
  have hkeep : Keeps tiles h h.advance := ⟨rfl, rfl, fun _ _ _ _ => rfl⟩
  exact ⟨rfl, rfl, rfl, rfl, ⟨hl.congr rfl hkeep, hunlinked, chain,
    ⟨hlist.links, hlist.head, hlist.perm⟩, .inl ⟨hchain, hnext.1⟩⟩, hcurrent,
    hlist.perm.mem_iff.1 hnext.2⟩

/-- Where a search begins says nothing about the blocks. -/
theorem Ordered.startAt (hordered : Ordered h tiles) (a : Nat) :
    Ordered { h with searchStart := a } tiles := by
  obtain ⟨hl, hunlinked, chain, hlist, hrovers⟩ := hordered
  exact ⟨hl.congr rfl ⟨rfl, rfl, fun _ _ _ _ => rfl⟩, hunlinked, chain,
    ⟨hlist.links, hlist.head, hlist.perm⟩, hrovers⟩

theorem Missed.of_startAt (hmissed : Missed { h with searchStart := a } h' tiles) :
    Missed h h' tiles :=
  ⟨hmissed.mem, hmissed.heap, hmissed.heapEnd, hmissed.start, hmissed.ordered, hmissed.previous,
    hmissed.current⟩

/-- No free block has the size at which `find_fit` takes a block as it is. -/
def NoneExact (tiles : List Tile) (size : Nat) : Prop :=
  ∀ t ∈ tiles, t.used = false → t.words * 8 ≠ size + OVERHEAD

/-- A whole number of words and the overhead, which is added as bytes, is none. -/
theorem noneExact_words (tiles : List Tile) (n : Nat) : NoneExact tiles (8 * n) := by
  intro t _ _
  unfold OVERHEAD
  omega

/-- What `find_fit` does to a heap with ordered blocks when it takes no block as it is. -/
theorem Ordered.findFitLoop {size n fuel ptr : Nat} (hordered : Ordered h tiles)
    (hcurrent : h.searchCurrent ∈ freeAddrs tiles) (hn : size / 8 = n) (hsize : size + 104 ≤ 2 ^ 64)
    (hexact : NoneExact tiles size)
    (hsafe : ∀ l t r, tiles = l ++ [t] ++ r → t.addr = h.searchCurrent → n + 5 ≤ t.words →
      LinkSafe h (l ++ r) t n)
    (hfind : findFitLoop size fuel h = some (h', ptr)) :
    ptr = 0 ∧ Missed h h' tiles ∨ Taken h h' tiles n ptr := by
  induction fuel generalizing h with
  | zero => cases hfind
  | succ fuel ih =>
      have hadvance := hordered.advance hcurrent
      obtain ⟨hl, hunlinked, chain, hlist, hrovers⟩ := hordered
      obtain ⟨t, ht, hfree, haddr⟩ := mem_freeAddrs.1 hcurrent
      have htags := hl.tagged t ht
      have hbounds := hl.bounds ht
      have hend := hl.end_lt
      have hword : h.word h.searchCurrent 0 = t.words := by rw [← haddr]; exact htags.size
      have hwords : t.words * 8 % 2 ^ 64 = t.words * 8 := Nat.mod_eq_of_lt (by omega)
      have hne := hexact t ht hfree
      have hover : (size + OVERHEAD) % 2 ^ 64 = size + OVERHEAD := by
        unfold OVERHEAD
        omega
      have halign : 8 * n + 96 ≤ align ((size + (OVERHEAD + 1) * 8 * 2) % 2 ^ 64) := by
        unfold align OVERHEAD
        omega
      rw [findFitLoop_succ, hword, hwords, hover, if_neg hne] at hfind
      split at hfind
      next hfits =>
        -- the block is split
        obtain ⟨l, r, rfl⟩ := List.append_of_mem ht
        rw [List.append_cons] at hl hunlinked hlist
        have hle : n + 5 ≤ t.words := by omega
        obtain ⟨h₁, hsplit, hdone⟩ := hl.splitBlk hn hle
          (hsafe l t r (List.append_cons l t r) haddr hle)
        rw [← haddr, hsplit] at hfind
        cases hfind
        obtain ⟨c₁, c₂, rfl⟩ := List.append_of_mem (hlist.mem (by simp) hfree)
        have hlisted := hdone.listed hlist hl hfree hrovers haddr.symm
        have hrest : h'.searchCurrent = t.addr + 8 * (n + 5) := by
          rw [hdone.current, redirect, if_pos haddr]
        exact .inr ⟨l, t, r, List.append_cons l t r, hfree, by omega, rfl, hrest, hdone.keeps,
          hdone.laid, hdone.unlinked_parts hunlinked, _, hlisted⟩
      next =>
        -- the search goes on
        split at hfind
        next =>
          have hsafe' : ∀ l s r, tiles = l ++ [s] ++ r → s.addr = h.advance.searchCurrent →
              n + 5 ≤ s.words → LinkSafe h.advance (l ++ r) s n := by
            intro l s r heq _ hle
            subst heq
            exact hadvance.ordered.1.linkSafe hle ⟨t, ht, hfree, haddr⟩
          obtain ⟨hzero, hmissed⟩ | htaken :=
            ih hadvance.ordered hadvance.current hsafe' hfind
          · exact .inl ⟨hzero, hadvance.trans hmissed⟩
          · exact .inr (htaken.congr hadvance.keeps)
        next =>
          cases hfind
          exact .inl ⟨rfl, hadvance⟩

end Heap

end CrosKernel.Memory
