import CrosKernel.Memory.PageRuns
import Mathlib.Data.Set.Finite.Lattice

/-!
# The counter of free pages

`insert` adds the pages of a block to `freeBlockCount` and `reserve` takes them off, and the
constructor counts each page that it inserts once more. So the counter exceeds the number of pages
on the lists by the number of pages of the map, whatever a client reserves and frees: `Counted`.
-/

namespace CrosKernel.Memory

open Lib Util

namespace PageAllocator

variable {a a' : PageAllocator} {pages : Set Nat} {lists : Nat → List Nat} {map : MemoryMap}
  {mapBase : BlockPtr → Block} {blockSize i k : Nat} {p : BlockPtr} {b : Block}

/-! ## What the operations do to the counter -/

/-- Two allocators that differ at most in their blocks. -/
def OnlyBlocks (a a' : PageAllocator) : Prop := ∃ blocks, a' = { a with blocks := blocks }

theorem OnlyBlocks.refl (a : PageAllocator) : OnlyBlocks a a := ⟨a.blocks, rfl⟩

theorem OnlyBlocks.trans {a'' : PageAllocator} (h : OnlyBlocks a a') (h' : OnlyBlocks a' a'') :
    OnlyBlocks a a'' := by
  obtain ⟨blocks, rfl⟩ := h
  obtain ⟨blocks', rfl⟩ := h'
  exact ⟨blocks', rfl⟩

theorem onlyBlocks_store (h : a.store p b = some a') : OnlyBlocks a a' := by
  unfold store at h
  split at h
  · cases h
    exact ⟨_, rfl⟩
  · cases h

theorem onlyBlocks_unlink (h : a.unlink i = some a') : OnlyBlocks a a' := by
  simp only [unlink, Option.bind_eq_bind, Option.bind_eq_some_iff] at h
  obtain ⟨_, -, _, -, a₁, h₁, _, -, _, -, a₂, h₂, _, -, h₃⟩ := h
  exact (onlyBlocks_store h₁).trans ((onlyBlocks_store h₂).trans (onlyBlocks_store h₃))

theorem onlyBlocks_mergeLoop {remaining i' k' : Nat}
    (h : a.mergeLoop i k remaining = some (a', i', k')) : OnlyBlocks a a' := by
  induction remaining generalizing a i k with
  | zero =>
      cases h
      exact .refl _
  | succ remaining ih =>
      simp only [mergeLoop, Option.bind_eq_bind, Option.bind_eq_some_iff] at h
      obtain ⟨_, -, h⟩ := h
      split at h
      · cases h
        exact .refl _
      · obtain ⟨a₁, h₁, h⟩ := Option.bind_eq_some_iff.1 h
        exact (onlyBlocks_unlink h₁).trans (ih h)

theorem onlyBlocks_link (h : a.link i k = some a') : OnlyBlocks a a' := by
  simp only [link, Option.bind_eq_bind, Option.bind_eq_some_iff] at h
  obtain ⟨_, -, a₁, h₁, _, -, a₂, h₂, _, -, h₃⟩ := h
  exact (onlyBlocks_store h₁).trans ((onlyBlocks_store h₂).trans (onlyBlocks_store h₃))

/-- `insert` counts the pages of the block. -/
theorem insert_count (h : a.insert i k = some a') :
    ∃ blocks, a' = { a with
      blocks := blocks, freeBlockCount := (a.freeBlockCount + 2 ^ k) % 2 ^ 64 } := by
  simp only [insert, Option.bind_eq_bind, Option.bind_eq_some_iff, Prod.exists] at h
  obtain ⟨a₁, i', k', hmerge, hlink⟩ := h
  obtain ⟨blocks, rfl⟩ := (onlyBlocks_mergeLoop hmerge).trans (onlyBlocks_link hlink)
  exact ⟨blocks, rfl⟩

theorem onlyBlocks_pop {j : Nat} (h : a.pop j = some (a', p)) : OnlyBlocks a a' := by
  simp only [pop, Option.bind_eq_bind, Option.bind_eq_some_iff, Option.pure_def,
    Option.some.injEq, Prod.mk.injEq] at h
  obtain ⟨_, -, _, -, a₁, h₁, _, -, a₂, h₂, _, -, a₃, h₃, rfl, -⟩ := h
  exact (onlyBlocks_store h₁).trans ((onlyBlocks_store h₂).trans (onlyBlocks_store h₃))

theorem onlyBlocks_splitLoop {remaining : Nat} (h : a.splitLoop i k remaining = some a') :
    OnlyBlocks a a' := by
  induction remaining generalizing a with
  | zero =>
      cases h
      exact .refl _
  | succ remaining ih =>
      simp only [splitLoop, Option.bind_eq_bind, Option.bind_eq_some_iff] at h
      obtain ⟨a₁, h₁, _, -, a₂, h₂, _, -, a₃, h₃, h⟩ := h
      exact (onlyBlocks_store h₁).trans
        ((onlyBlocks_store h₂).trans ((onlyBlocks_store h₃).trans (ih h)))

/-- `reserve` takes the pages of a block of its order off the counter, if it finds a block. -/
theorem reserve_count {size location : Nat} (h : a.reserve size = some (a', location)) :
    a' = a ∨ a'.freeBlockCount = sub64 a.freeBlockCount (2 ^ a.orderOf size) := by
  unfold reserve at h
  split at h
  · cases h
  · obtain ⟨found, -, h⟩ := Option.bind_eq_some_iff.1 h
    cases found with
    | none =>
        cases h
        exact .inl rfl
    | some j =>
        obtain ⟨⟨a₁, block⟩, hpop, h⟩ := Option.bind_eq_some_iff.1 h
        cases block with
        | null => cases h
        | availList => cases h
        | blockMap index =>
            obtain ⟨a₂, hsplit, h⟩ := Option.bind_eq_some_iff.1 h
            obtain ⟨blocks, rfl⟩ := (onlyBlocks_pop hpop).trans (onlyBlocks_splitLoop hsplit)
            cases h
            exact .inr rfl

/-! ## The pages of the lists -/

/-- The numbers of pages of the blocks on the lists add up to `n`. -/
def Listed (a : PageAllocator) (n : Nat) : Prop :=
  ∃ lists : Nat → List Nat, (∀ k ≤ a.maxKVal, AvailList a.blocks k (lists k)) ∧
    n = ∑ k ∈ Finset.range (a.maxKVal + 1), 2 ^ k * (lists k).length

/-- A list of an order is determined by the blocks. -/
theorem AvailList.unique {blocks : BlockPtr → Block} {l l' : List Nat}
    (h : AvailList blocks k l) (h' : AvailList blocks k l') : l = l' :=
  List.map_injective_iff.2 (fun _ _ heq => BlockPtr.blockMap.inj heq) (Ring.unique h h')

theorem Holds.finite (h : a.Holds pages lists) : pages.Finite :=
  (Set.finite_lt_nat a.numBlocks).subset fun _ hp => h.lt_numBlocks hp

/-- The lists have as many pages as are free. -/
theorem Holds.listed_iff (h : a.Holds pages lists) (n : Nat) :
    a.Listed n ↔ n = pages.ncard := by
  have hsum : pages.ncard = ∑ k ∈ Finset.range (a.maxKVal + 1), 2 ^ k * (lists k).length := by
    let blocks : Finset (Nat × Nat) := (Finset.range (a.maxKVal + 1)).biUnion fun k =>
      (lists k).toFinset.image fun i => (i, k)
    have hblocks : ↑blocks = freeBlocks lists := by
      ext ⟨i, k⟩
      simp only [blocks, Finset.coe_biUnion, Set.mem_iUnion, Finset.mem_coe, Finset.mem_image,
        Finset.mem_range, List.mem_toFinset, Prod.mk.injEq, mem_freeBlocks, exists_prop]
      constructor
      · rintro ⟨k, -, i, hi, rfl, rfl⟩
        exact hi
      · exact fun hi => ⟨k, Nat.lt_succ_of_le (h.avail.le k i hi), i, hi, rfl, rfl⟩
    rw [h.buddies.ncard_eq hblocks, Finset.sum_biUnion]
    · refine Finset.sum_congr rfl fun k _ => ?_
      rw [Finset.sum_image fun i _ j _ heq => congrArg Prod.fst heq]
      refine (Finset.sum_const_nat (m := 2 ^ k) fun _ _ => rfl).trans ?_
      rw [List.toFinset_card_of_nodup (h.nodup k), Nat.mul_comm]
    · intro j _ k _ hne
      rw [Function.onFun, Finset.disjoint_left]
      simp only [Finset.mem_image, not_exists, not_and]
      rintro b ⟨i, -, rfl⟩ i' - heq
      exact hne (congrArg Prod.snd heq).symm
  constructor
  · rintro ⟨lists', hlists', rfl⟩
    rw [hsum]
    refine Finset.sum_congr rfl fun k hk => ?_
    have hle : k ≤ a.maxKVal := Nat.le_of_lt_succ (Finset.mem_range.1 hk)
    rw [(hlists' k hle).unique (h.avail.ring k hle)]
  · rintro rfl
    exact ⟨lists, h.avail.ring, hsum⟩

theorem Holds.ncard_le (h : a.Holds pages lists) {s : Set Nat} (hs : ∀ p ∈ s, p < a.numBlocks) :
    s.ncard ≤ 2 ^ 31 := by
  have hsub : s ⊆ ↑(Finset.range a.numBlocks) := fun p hp => by simpa using hs p hp
  have hcard := Set.ncard_le_ncard hsub (Finset.finite_toSet _)
  rw [Set.ncard_coe_finset, Finset.card_range] at hcard
  refine hcard.trans ?_
  rcases h.size with hsize | hsize
  · rw [hsize]
    exact Nat.pow_le_pow_right (by omega) (Nat.le_of_lt_succ h.max_lt)
  · omega

/-! ## The counter after construction -/

theorem pagesFrom_eq_Ico (hpos : 0 < blockSize) (first limit : Nat) :
    pagesFrom first limit blockSize = ↑(Finset.Ico first (limit / blockSize)) := by
  ext p
  rw [Finset.mem_coe, Finset.mem_Ico, ← Nat.succ_le_iff (m := p), Nat.le_div_iff_mul_le hpos]
  rfl

/-- The loop over the pages of a region counts each of them twice. -/
theorem insertPages_count {fuel first limit : Nat} (hpos : 0 < a.blockSize)
    (hwrap : first * a.blockSize + a.blockSize < 2 ^ 64) (hlimit : limit + a.blockSize < 2 ^ 64)
    (hcount : a.freeBlockCount < 2 ^ 64)
    (h : insertPages limit fuel a (first * a.blockSize) = some a') :
    a'.blockSize = a.blockSize ∧
      a'.freeBlockCount = (a.freeBlockCount + 2 * (limit / a.blockSize - first)) % 2 ^ 64 := by
  induction fuel generalizing a first with
  | zero => cases h
  | succ fuel ih =>
      have hnext : (first * a.blockSize + a.blockSize) % 2 ^ 64 = (first + 1) * a.blockSize := by
        rw [Nat.mod_eq_of_lt hwrap, Nat.succ_mul]
      have hle_iff := Nat.le_div_iff_mul_le hpos (x := first + 1) (y := limit)
      rw [insertPages, hnext] at h
      by_cases hle : (first + 1) * a.blockSize ≤ limit
      · rw [if_pos hle] at h
        obtain ⟨a₁, hinsert, h⟩ := Option.bind_eq_some_iff.1 h
        obtain ⟨blocks, rfl⟩ := insert_count hinsert
        dsimp only at h
        rw [hnext] at h
        obtain ⟨hsize, hcount'⟩ := ih
          (a := { a with
            blocks := blocks
            freeBlockCount := ((a.freeBlockCount + 2 ^ 0) % 2 ^ 64 + 1) % 2 ^ 64 })
          hpos (by dsimp only; omega) hlimit (Nat.mod_lt _ (by decide)) h
        refine ⟨hsize, hcount'.trans ?_⟩
        have hdiv := hle_iff.2 hle
        dsimp only
        omega
      · rw [if_neg hle] at h
        cases h
        have hdiv := mt hle_iff.1 hle
        refine ⟨rfl, ?_⟩
        rw [Nat.sub_eq_zero_of_le (by omega), Nat.mul_zero, Nat.add_zero, Nat.mod_eq_of_lt hcount]

theorem isPage_eq_Ico (hpos : 0 < blockSize) (r : MemoryRegion) :
    {p | r.IsPage blockSize p} =
      ↑(Finset.Ico (firstIndex r.location blockSize) (r.limit / blockSize)) := by
  rw [← pagesFrom_eq_Ico hpos]
  exact Set.ext fun p => isPage_iff hpos p

/-- A map has finitely many pages. -/
theorem isPage_finite (hpos : 0 < blockSize) (map : MemoryMap) :
    {p | map.IsPage blockSize p}.Finite := by
  have hsub : {p | map.IsPage blockSize p} ⊆ ⋃ r ∈ map, {p | r.IsPage blockSize p} := by
    rintro p ⟨r, hr, -, hp⟩
    exact Set.mem_biUnion hr hp
  refine (Set.Finite.biUnion map.finite_toSet fun r _ => ?_).subset hsub
  rw [isPage_eq_Ico hpos]
  exact Finset.finite_toSet _

/-- The loop over the regions counts each of their pages twice. -/
theorem insertRegions_count (hpos : 0 < a.blockSize) (hmap : map.Disjoint a.blockSize)
    (hcount : a.freeBlockCount < 2 ^ 64) (h : insertRegions map a = some a') :
    a'.freeBlockCount =
      (a.freeBlockCount + 2 * {p | map.IsPage a.blockSize p}.ncard) % 2 ^ 64 := by
  induction map generalizing a with
  | nil =>
      cases h
      have hempty : {p | MemoryMap.IsPage [] a'.blockSize p} = ∅ := by
        ext p
        simp [MemoryMap.IsPage]
      rw [hempty, Set.ncard_empty, Nat.mul_zero, Nat.add_zero, Nat.mod_eq_of_lt hcount]
  | cons r map ih =>
      have hrest : MemoryMap.Disjoint map a.blockSize :=
        ⟨(List.pairwise_cons.1 hmap.sorted).2, (List.pairwise_cons.1 hmap.disjoint).2,
          fun s hs => hmap.noWrap s (List.mem_cons_of_mem r hs)⟩
      by_cases htype : r.type = .AVAILABLE
      · rw [insertRegions, if_neg (by simpa using htype)] at h
        obtain ⟨a₁, hpages, h⟩ := Option.bind_eq_some_iff.1 h
        have hnoWrap := hmap.noWrap r List.mem_cons_self htype
        have hle : r.location ≤ r.limit := Nat.le_add_right ..
        have hfinish : r.finish = r.limit := Nat.mod_eq_of_lt (by show r.limit < 2 ^ 64; omega)
        have hfirst : firstIndex r.location a.blockSize * a.blockSize ≤
            r.location + a.blockSize - 1 := Nat.div_mul_le_self ..
        rw [hfinish, firstPage_eq hpos (by omega)] at hpages
        obtain ⟨hsize, hcount₁⟩ :=
          insertPages_count hpos (by omega) (by omega) hcount hpages
        rw [← hsize] at hpos hrest
        have hrec := ih hpos hrest (hcount₁ ▸ Nat.mod_lt _ (by decide)) h
        rw [hsize] at hpos hrec
        have hset : {p | MemoryMap.IsPage (r :: map) a.blockSize p} =
            {p | r.IsPage a.blockSize p} ∪ {p | MemoryMap.IsPage map a.blockSize p} := by
          ext p
          simp only [MemoryMap.IsPage, List.mem_cons, exists_eq_or_imp, htype, true_and,
            Set.mem_union, Set.mem_ofPred_eq]
        have hdisj : Disjoint {p | r.IsPage a.blockSize p}
            {p | MemoryMap.IsPage map a.blockSize p} := by
          refine Set.disjoint_left.2 fun p hp hrestPage => ?_
          obtain ⟨s, hs, -, hspage⟩ := hrestPage
          exact not_isPage_both hpos ((List.pairwise_cons.1 hmap.disjoint).1 s hs) hp hspage
        have hcard : {p | r.IsPage a.blockSize p}.ncard =
            r.limit / a.blockSize - firstIndex r.location a.blockSize := by
          rw [isPage_eq_Ico hpos, Set.ncard_coe_finset, Nat.card_Ico]
        rw [hrec, hcount₁, hset, Set.ncard_union_eq hdisj
          (isPage_eq_Ico hpos r ▸ Finset.finite_toSet _) (isPage_finite hpos map), hcard]
        omega
      · rw [insertRegions, if_pos htype] at h
        have hset : {p | MemoryMap.IsPage (r :: map) a.blockSize p} =
            {p | MemoryMap.IsPage map a.blockSize p} := by
          ext p
          simp only [MemoryMap.IsPage, List.mem_cons, exists_eq_or_imp, htype, false_and,
            false_or, Set.mem_ofPred_eq]
        rw [hset]
        exact ih hpos hrest hcount h

theorem onlyBlocks_initLists {remaining : Nat} (h : a.initLists k remaining = some a') :
    OnlyBlocks a a' := by
  induction remaining generalizing a k with
  | zero =>
      cases h
      exact .refl _
  | succ remaining ih =>
      simp only [initLists, Option.bind_eq_bind, Option.bind_eq_some_iff] at h
      obtain ⟨_, -, a₁, h₁, h⟩ := h
      exact (onlyBlocks_store h₁).trans (ih h)

theorem onlyBlocks_initBlocks {remaining : Nat} (h : a.initBlocks i remaining = some a') :
    OnlyBlocks a a' := by
  induction remaining generalizing a i with
  | zero =>
      cases h
      exact .refl _
  | succ remaining ih =>
      obtain ⟨a₁, h₁, h⟩ := Option.bind_eq_some_iff.1 h
      exact (onlyBlocks_store h₁).trans (ih h)

/-- The constructor counts each page of the map twice. -/
theorem construct_count (hpos : 0 < blockSize) (hmap : map.Disjoint blockSize)
    (h : construct map mapBase blockSize = some a) :
    a.freeBlockCount = 2 * {p | map.IsPage blockSize p}.ncard % 2 ^ 64 := by
  obtain ⟨size, hsize, -⟩ := Option.bind_eq_some_iff.1 h
  rw [construct_eq hsize] at h
  simp only [Option.bind_eq_bind, Option.bind_eq_some_iff] at h
  obtain ⟨a₂, ⟨a₁, hlists, hblocks⟩, h⟩ := h
  obtain ⟨blocks, rfl⟩ := (onlyBlocks_initLists hlists).trans (onlyBlocks_initBlocks hblocks)
  have hcount := insertRegions_count (a := { blank mapBase size blockSize with blocks := blocks })
    hpos hmap (Nat.two_pow_pos 64) h
  rw [hcount]
  exact congrArg (· % 2 ^ 64) (Nat.zero_add _)

end PageAllocator

/-! ## The counter along a run -/

namespace PageClient

variable {map : MemoryMap} {blockSize : Nat} {c c' : PageClient}
  {mapBase : BlockPtr → Block} {a : PageAllocator}

/-- The counter exceeds the number of free pages by the number of pages of the map. -/
def Counted (map : MemoryMap) (blockSize : Nat) (c : PageClient) : Prop :=
  c.allocator.freeBlockCount =
    c.allocator.freePages.ncard + {p | map.IsPage blockSize p}.ncard

theorem counted_construct (hpos : 0 < blockSize) (hmap : map.Disjoint blockSize)
    (h : PageAllocator.construct map mapBase blockSize = some a) :
    Counted map blockSize ⟨a, []⟩ := by
  obtain ⟨lists, hholds, -⟩ := PageAllocator.construct_holds hpos hmap h
  have hcount := PageAllocator.construct_count hpos hmap h
  have hle := hholds.ncard_le fun p hp => hholds.lt_numBlocks hp
  show a.freeBlockCount = a.freePages.ncard + _
  rw [hholds.freePages_eq, hcount]
  omega

/-- A block that the client takes leaves the counter with its pages. -/
theorem Counted.reserve (h : Counted map blockSize c) (haccounts : Accounts map blockSize c)
    (hpos : 0 < blockSize) {size : Nat} (hstep : c.perform (.reserve size) = some c') :
    Counted map blockSize c' := by
  obtain ⟨lists, hholds⟩ := haccounts.holds
  have hsize : c.allocator.blockSize ≠ 0 := haccounts.blockSize_eq ▸ hpos.ne'
  obtain ⟨⟨a, location⟩, hreserve, hstep⟩ := Option.bind_eq_some_iff.1 hstep
  have hc' : c'.allocator = a := by
    dsimp only at hstep
    split at hstep <;> cases hstep <;> rfl
  unfold Counted at h ⊢
  rw [hc']
  rcases PageAllocator.reserve_count hreserve with rfl | hcount
  · exact h
  by_cases hblocks : ∃ m, c.allocator.orderOf size ≤ m ∧ lists m ≠ []
  · obtain ⟨index, blocks, count, lists', hreserve', halign, hsub, hholds', -⟩ :=
      PageAllocator.reserve_some hholds hsize hblocks
    obtain ⟨rfl, -⟩ := Prod.mk.inj (Option.some.inj (hreserve.symm.trans hreserve'))
    have hfree := Set.ncard_sdiff_add_ncard_of_subset hsub hholds.finite
    have hmapLe := hholds.ncard_le (s := {p | map.IsPage blockSize p}) haccounts.inMap
    have hfreeLe := hholds.ncard_le fun p hp => hholds.lt_numBlocks hp
    rw [ncard_block halign] at hfree
    rw [hcount, hholds'.freePages_eq, h, sub64_eq (by omega) (by omega)]
    omega
  · simp only [not_exists, not_and, not_not] at hblocks
    rw [PageAllocator.reserve_none hholds hsize hblocks] at hreserve
    cases hreserve
    exact h

/-- A client frees one of its blocks. -/
theorem Accounts.insert_of_free (h : Accounts map blockSize c) (hpos : 0 < blockSize)
    (hmap : map.Disjoint blockSize) {location : Nat} (hmem : location ∈ c.reserved.map Prod.fst)
    (hstep : c.perform (.free location) = some c') :
    ∃ b ∈ c.reservedBlocks, c.allocator.insert b.1 b.2 = some c'.allocator := by
  obtain ⟨r, hr, rfl⟩ := List.mem_map.1 hmem
  have hblock : blockAt c.allocator r.1 ∈ c.reservedBlocks := List.mem_map_of_mem hr
  have hpage : map.IsPage blockSize (r.1 / c.allocator.blockSize) :=
    (h.cover _).2 (.inr ⟨_, hblock, self_mem_block (blockAt c.allocator r.1)⟩)
  have haddress := page_address hpos hmap hpage
  rw [h.blockSize_eq, h.address r hr] at haddress
  have hindex : sub64 r.1 c.allocator.offset / c.allocator.blockSize =
      r.1 / c.allocator.blockSize := by
    rw [h.offset_eq, sub64_eq (Nat.zero_le _) (by unfold NOMEM at haddress; omega), Nat.sub_zero]
  have hload := PageAllocator.load_eq (a := c.allocator)
    (p := .blockMap (r.1 / c.allocator.blockSize)) (h.inMap _ hpage)
  have hsize : c.allocator.blockSize ≠ 0 := h.blockSize_eq ▸ hpos.ne'
  refine ⟨_, hblock, ?_⟩
  obtain ⟨⟨a, size⟩, hfree, hstep⟩ := Option.bind_eq_some_iff.1 hstep
  simp only [PageAllocator.free, hsize, if_false, hindex, hload, Option.bind_eq_bind,
    Option.bind_some, Option.pure_def, Option.bind_eq_some_iff] at hfree
  obtain ⟨a', hinsert, heq⟩ := hfree
  cases heq
  cases hstep
  exact hinsert

/-- A block that the client gives back enters the counter with its pages. -/
theorem Counted.free (h : Counted map blockSize c) (haccounts : Accounts map blockSize c)
    (hpos : 0 < blockSize) (hmap : map.Disjoint blockSize) {location : Nat}
    (hmem : location ∈ c.reserved.map Prod.fst)
    (hstep : c.perform (.free location) = some c') : Counted map blockSize c' := by
  obtain ⟨lists, hholds⟩ := haccounts.holds
  obtain ⟨b, hb, hinsert⟩ := haccounts.insert_of_free hpos hmap hmem hstep
  obtain ⟨halign, hle⟩ := haccounts.aligned b hb
  have hpage := (haccounts.cover b.1).2 (.inr ⟨b, hb, self_mem_block b⟩)
  obtain ⟨blocks, count, lists', hinsert', hholds', -⟩ :=
    PageAllocator.insert_spec hholds halign hle (haccounts.inMap _ hpage) (haccounts.separate b hb)
  obtain ⟨blocks', heq⟩ := PageAllocator.insert_count hinsert
  have hcount := congrArg PageAllocator.freeBlockCount heq
  have hunion := Set.ncard_union_eq (haccounts.separate b hb).symm hholds.finite
    (block_finite halign)
  have hpages : c'.allocator.freePages = c.allocator.freePages ∪ block b := by
    rw [hinsert] at hinsert'
    rw [Option.some.inj hinsert']
    exact hholds'.freePages_eq
  have hmapLe := hholds.ncard_le (s := {p | map.IsPage blockSize p}) haccounts.inMap
  have hfreeLe := hholds'.ncard_le fun p hp => hholds'.lt_numBlocks hp
  have hblock : (block b).ncard = 2 ^ b.2 := ncard_block halign
  rw [hblock] at hunion
  unfold Counted at h ⊢
  rw [hcount, hpages, h]
  change (c.allocator.freePages ∪ block b).ncard ≤ 2 ^ 31 at hfreeLe
  dsimp only
  omega

/-- The counter keeps its distance along every run. -/
theorem Counted.run (h : Counted map blockSize c) (haccounts : Accounts map blockSize c)
    (hpos : 0 < blockSize) (hmap : map.Disjoint blockSize) {requests : List PageRequest}
    (hrun : Run Step c requests c') : Counted map blockSize c' := by
  have hinv : Counted map blockSize c' ∧ Accounts map blockSize c' := by
    refine @Run.invariant _ _ _ _ _ _ (fun c => Counted map blockSize c ∧ Accounts map blockSize c)
      hrun ?_ ?_
    · exact ⟨h, haccounts⟩
    · intro c request c' hc hstep
      obtain ⟨s, hperform, -, haccounts'⟩ := hc.2.perform hpos hmap hstep.1
      obtain rfl := Option.some.inj (hperform.symm.trans hstep.2)
      cases request with
      | reserve size => exact ⟨hc.1.reserve hc.2 hpos hstep.2, haccounts'⟩
      | free location => exact ⟨hc.1.free hc.2 hpos hmap hstep.1 hstep.2, haccounts'⟩
  exact hinv.1

/-- The counter is the number of pages on the lists if and only if the map has no page. -/
theorem Counted.listed_iff (h : Counted map blockSize c) (haccounts : Accounts map blockSize c)
    (hpos : 0 < blockSize) :
    c.allocator.Listed c.allocator.freeBlockCount ↔ ¬ ∃ p, map.IsPage blockSize p := by
  obtain ⟨lists, hholds⟩ := haccounts.holds
  rw [hholds.listed_iff, h, Nat.add_eq_left,
    Set.ncard_eq_zero (PageAllocator.isPage_finite hpos map),
    Set.eq_empty_iff_forall_notMem, not_exists]
  rfl

/-- In every state that a client reaches after construction, `freeBlockCount` is the number of pages
on the lists if and only if the map has no whole page of available memory. -/
theorem freeBlockCount_iff (hpos : 0 < blockSize) (hmap : map.Disjoint blockSize)
    (ha : PageAllocator.construct map mapBase blockSize = some a) {requests : List PageRequest}
    (hrun : Run Step ⟨a, []⟩ requests c) :
    c.allocator.Listed c.allocator.freeBlockCount ↔ ¬ ∃ p, map.IsPage blockSize p := by
  have hinit := accounts_construct hpos hmap ha
  obtain ⟨-, haccounts⟩ := hinit.run hpos hmap hrun
  exact ((counted_construct hpos hmap ha).run hinit hpos hmap hrun).listed_iff haccounts hpos

/-- A map with one page. -/
private def onePage : MemoryMap := [⟨.AVAILABLE, 0, 4096⟩]

private theorem onePage_disjoint : onePage.Disjoint 4096 :=
  ⟨List.pairwise_singleton .., List.pairwise_singleton .., by decide⟩

private theorem onePage_construct :
    ∃ a, PageAllocator.construct onePage (fun _ => ⟨.null, .null, 0, .RESERVED⟩) 4096 = some a :=
  PageAllocator.construct_total _ (by decide) onePage_disjoint
    (⟨rfl, by decide⟩ : MemoryMap.EndsWith onePage ⟨.AVAILABLE, 0, 4096⟩) (by decide) (by decide)

theorem freeBlockCount_iff_one :
    ∃ a, PageAllocator.construct onePage (fun _ => ⟨.null, .null, 0, .RESERVED⟩) 4096 = some a ∧
      (a.Listed a.freeBlockCount ↔ ¬ ∃ p, onePage.IsPage 4096 p) := by
  obtain ⟨a, ha⟩ := onePage_construct
  exact ⟨a, ha, freeBlockCount_iff (by decide) onePage_disjoint ha (.nil _)⟩

/-- After construction from a map with one page the counter is two. -/
theorem not_listed_one :
    ¬ ∀ (map : MemoryMap) (mapBase : BlockPtr → Block) (blockSize : Nat) (a : PageAllocator)
        (requests : List PageRequest) (c : PageClient), 0 < blockSize → map.Disjoint blockSize →
      PageAllocator.construct map mapBase blockSize = some a → Run Step ⟨a, []⟩ requests c →
      c.allocator.Listed c.allocator.freeBlockCount := by
  intro h
  obtain ⟨a, ha⟩ := onePage_construct
  have haccounts := accounts_construct (by decide) onePage_disjoint ha
  have hcounted := counted_construct (by decide) onePage_disjoint ha
  refine (hcounted.listed_iff haccounts (by decide)).1
    (h _ _ _ a [] ⟨a, []⟩ (by decide) onePage_disjoint ha (.nil _)) ?_
  exact ⟨0, _, List.mem_singleton_self _, rfl, by decide, by decide⟩

end PageClient

end CrosKernel.Memory
