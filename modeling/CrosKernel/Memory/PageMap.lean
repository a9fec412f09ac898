import CrosKernel.Memory.PageBlocks

/-!
# Constructing the page allocator

The constructor makes the pages inside the available regions of a memory map free.
`construct_eq_some_iff` says that it succeeds exactly when the orders fit `availList` and the pages
fit `blockMap`; `construct_holds` that it leaves a buddy system over these pages.
-/

namespace CrosKernel.Memory

open Lib Util

/-- The first address behind a region. -/
def MemoryRegion.limit (r : MemoryRegion) : Nat := r.location + r.size

/-- Some address lies in both regions. -/
def MemoryRegion.Meets (r s : MemoryRegion) : Prop :=
  ∃ x, (r.location ≤ x ∧ x < r.limit) ∧ s.location ≤ x ∧ x < s.limit

/-- The regions are sorted by location and disjoint, and an address that the allocator reaches from
an available region by less than two blocks does not wrap around. -/
structure MemoryMap.Disjoint (map : MemoryMap) (blockSize : Nat) : Prop where
  sorted : List.Pairwise (fun r s : MemoryRegion => r.location ≤ s.location) map
  disjoint : List.Pairwise (fun r s : MemoryRegion => ¬ r.Meets s) map
  noWrap : ∀ r ∈ map, r.type = .AVAILABLE → r.limit + 2 * blockSize ≤ 2 ^ 64

/-- The page is a whole page of the region. -/
def MemoryRegion.IsPage (r : MemoryRegion) (blockSize page : Nat) : Prop :=
  r.location ≤ page * blockSize ∧ (page + 1) * blockSize ≤ r.limit

/-- The page is a whole page of an available region. -/
def MemoryMap.IsPage (map : MemoryMap) (blockSize page : Nat) : Prop :=
  ∃ r ∈ map, r.type = .AVAILABLE ∧ r.IsPage blockSize page

/-- The last available region of the map is `last`, and no available region reaches higher. -/
structure MemoryMap.EndsWith (map : MemoryMap) (last : MemoryRegion) : Prop where
  found : PageAllocator.lastAvailable map map.length = some last
  highest : ∀ r ∈ map, r.type = .AVAILABLE → r.limit ≤ last.limit

namespace PageAllocator

variable {a a' : PageAllocator} {pages : Set Nat} {lists : Nat → List Nat} {map : MemoryMap}
  {mapBase : BlockPtr → Block} {blockSize k : Nat} {r : MemoryRegion}

/-- The members of the allocator that no operation changes. -/
structure SameShape (a a' : PageAllocator) : Prop where
  blockMapSize : a'.blockMapSize = a.blockMapSize
  maxKVal : a'.maxKVal = a.maxKVal
  blockSize : a'.blockSize = a.blockSize
  offset : a'.offset = a.offset

theorem SameShape.refl (a : PageAllocator) : SameShape a a := ⟨rfl, rfl, rfl, rfl⟩

theorem SameShape.trans {a'' : PageAllocator} (h : SameShape a a') (h' : SameShape a' a'') :
    SameShape a a'' :=
  ⟨h'.blockMapSize.trans h.blockMapSize, h'.maxKVal.trans h.maxKVal,
    h'.blockSize.trans h.blockSize, h'.offset.trans h.offset⟩

theorem SameShape.numBlocks (h : SameShape a a') : a'.numBlocks = a.numBlocks :=
  congrArg (· / sizeofBlock) h.blockMapSize

/-! ## Clearing the arrays -/

/-- The blocks after the heads of the lists from `k` on were made to point to themselves. -/
theorem initLists_eq {remaining : Nat} (hmax : k + remaining ≤ availListSize) :
    ∃ blocks', a.initLists k remaining = some { a with blocks := blocks' } ∧
      (∀ j, k ≤ j → j < k + remaining → forward blocks' (.availList j) = .availList j ∧
        backward blocks' (.availList j) = .availList j) ∧
      ∀ j, j < k → blocks' (.availList j) = a.blocks (.availList j) := by
  induction remaining generalizing a k with
  | zero => exact ⟨a.blocks, rfl, fun j hk hj => by omega, fun j _ => rfl⟩
  | succ remaining ih =>
      have hhead : InBounds a.numBlocks (.availList k) := by
        show k < availListSize
        omega
      obtain ⟨blocks', hloop, hdone, hsame⟩ := ih (k := k + 1) (by omega)
        (a := { a with
          blocks := Function.update a.blocks (.availList k)
            { a.blocks (.availList k) with linkf := .availList k, linkb := .availList k } })
      refine ⟨blocks', ?_, fun j hk hj => ?_, fun j hj => ?_⟩
      · simp only [initLists, load_eq hhead, store_eq hhead, Option.bind_eq_bind,
          Option.bind_some]
        exact hloop
      · by_cases hjk : j = k
        · subst hjk
          simp [forward, backward, hsame j (by omega)]
        · exact hdone j (by omega) (by omega)
      · rw [hsame j (by omega)]
        exact Function.update_of_ne (by simpa using hj.ne) ..

/-- The loop leaves `availList` when there are too many orders. -/
theorem initLists_none {remaining : Nat} (hk : k ≤ availListSize)
    (hmax : availListSize < k + remaining) : a.initLists k remaining = none := by
  induction remaining generalizing a k with
  | zero => omega
  | succ remaining ih =>
      by_cases hlt : k < availListSize
      · have hhead : InBounds a.numBlocks (.availList k) := hlt
        simp only [initLists, load_eq hhead, store_eq hhead, Option.bind_eq_bind,
          Option.bind_some]
        exact ih hlt (by omega)
      · have hhead : ¬ InBounds a.numBlocks (.availList k) := hlt
        simp [initLists, load, hhead]

/-- The blocks after all blocks of `blockMap` from `index` on were reserved. -/
theorem initBlocks_eq {index remaining : Nat} (hlt : index + remaining = a.numBlocks) :
    ∃ blocks', a.initBlocks index remaining = some { a with blocks := blocks' } ∧
      (∀ i, index ≤ i → i < a.numBlocks → (blocks' (.blockMap i)).tag = .RESERVED) ∧
      (∀ i, i < index → blocks' (.blockMap i) = a.blocks (.blockMap i)) ∧
      ∀ j, blocks' (.availList j) = a.blocks (.availList j) := by
  induction remaining generalizing a index with
  | zero => exact ⟨a.blocks, rfl, fun i hi hi' => by omega, fun i _ => rfl, fun j => rfl⟩
  | succ remaining ih =>
      have hblock : InBounds a.numBlocks (.blockMap index) := by
        show index < a.numBlocks
        omega
      obtain ⟨blocks', hloop, hdone, hsame, hheads⟩ := ih
        (a := { a with
          blocks := Function.update a.blocks (.blockMap index) ⟨.null, .null, 0, .RESERVED⟩ })
        (by show index + 1 + remaining = a.numBlocks; omega)
      refine ⟨blocks', ?_, fun i hi hlt' => ?_, fun i hi => ?_, fun j => ?_⟩
      · simp only [initBlocks, store_eq hblock, Option.bind_eq_bind, Option.bind_some]
        exact hloop
      · by_cases hii : i = index
        · rw [hii, hsame index (Nat.lt_succ_self index)]
          simp
        · exact hdone i (by omega) hlt'
      · rw [hsame i (by omega)]
        exact Function.update_of_ne (by simpa using hi.ne) ..
      · simp [hheads j]

/-- After both loops no page is free. -/
theorem init_holds (hmax : a.maxKVal < availListSize)
    (hsize : a.numBlocks = 2 ^ a.maxKVal ∨ a.numBlocks = 0) :
    ∃ blocks', (a.initLists 0 (a.maxKVal + 1) >>= fun a => a.initBlocks 0 a.numBlocks) =
        some { a with blocks := blocks' } ∧
      Holds { a with blocks := blocks' } ∅ fun _ => [] := by
  obtain ⟨blocks₁, hlists, hheads, -⟩ := initLists_eq (a := a) (k := 0)
    (by omega : 0 + (a.maxKVal + 1) ≤ availListSize)
  obtain ⟨blocks₂, hblocks, htags, -, hsame⟩ := initBlocks_eq
    (a := { a with blocks := blocks₁ }) (Nat.zero_add _)
  refine ⟨blocks₂, by rw [hlists]; exact hblocks, ⟨?_, fun k i hi => ?_, fun k i hi => ?_,
    fun k i hi => ?_, fun i hi => ?_⟩, ?_, hmax, hsize⟩
  · intro k hk
    have hk' : k ≤ a.maxKVal := hk
    refine Ring.nil_iff.2 ?_
    simp only [forward, backward] at hheads ⊢
    simp only [hsame]
    exact hheads k (Nat.zero_le k) (by omega)
  · cases hi
  · cases hi
  · cases hi
  · simp [htags i (Nat.zero_le i) hi]
  · have hempty : freeBlocks (fun _ => []) = ∅ := by
      ext b
      simp [freeBlocks]
    rw [hempty]
    exact Buddies.empty _

/-! ## The pages of a region -/

theorem link_none {index : Nat} (hge : a.numBlocks ≤ index) : a.link index 0 = none := by
  have hblock : ¬ InBounds a.numBlocks (.blockMap index) := Nat.not_lt.2 hge
  have hhead : InBounds a.numBlocks (.availList 0) := Nat.succ_pos 31
  simp only [link, load, store, hhead, hblock, if_true, if_false, Option.bind_eq_bind,
    Option.bind_some, Option.bind_none]

theorem mergeLoop_none {index : Nat} (remaining : Nat) (hge : a.numBlocks ≤ buddy index 0) :
    a.mergeLoop index 0 (remaining + 1) = none := by
  have hblock : ¬ InBounds a.numBlocks (.blockMap (index ^^^ 2 ^ 0)) := Nat.not_lt.2 hge
  simp only [mergeLoop, load, hblock, if_false, Option.bind_eq_bind, Option.bind_none]

/-- `insert` leaves `blockMap` when the page has no block in it. -/
theorem insert_none (hsize : a.numBlocks = 2 ^ a.maxKVal ∨ a.numBlocks = 0) {index : Nat}
    (hge : a.numBlocks ≤ index) : a.insert index 0 = none := by
  obtain ⟨remaining, hremaining⟩ : ∃ n, a.maxKVal - 0 = n := ⟨_, rfl⟩
  rw [insert, hremaining]
  cases remaining with
  | zero =>
      rw [mergeLoop, Option.bind_eq_bind, Option.bind_some]
      exact link_none hge
  | succ remaining =>
      have hbuddy : a.numBlocks ≤ buddy index 0 := by
        by_contra hlt
        rw [Nat.not_le] at hlt
        have hsize' := hsize.resolve_right (by omega)
        rw [hsize'] at hlt hge
        have hpos : 0 < a.maxKVal := by omega
        have hback := buddy_lt hpos hlt
        rw [buddy_buddy] at hback
        omega
      have hloop := mergeLoop_none remaining (a := { a with
        freeBlockCount := (a.freeBlockCount + 2 ^ 0) % 2 ^ 64 }) hbuddy
      rw [hloop]
      rfl

/-- The pages of a region from the page `first` on. -/
def pagesFrom (first limit blockSize : Nat) : Set Nat :=
  {p | first ≤ p ∧ (p + 1) * blockSize ≤ limit}

theorem pagesFrom_of_le {first limit : Nat} (hle : (first + 1) * blockSize ≤ limit) :
    pagesFrom first limit blockSize =
      block (first, 0) ∪ pagesFrom (first + 1) limit blockSize := by
  ext p
  rw [block_zero, Set.mem_union, Set.mem_singleton_iff]
  constructor
  · rintro ⟨hp, hlimit⟩
    rcases Nat.eq_or_lt_of_le hp with heq | hlt
    · exact .inl heq.symm
    · exact .inr ⟨hlt, hlimit⟩
  · rintro (rfl | ⟨hp, hlimit⟩)
    · exact ⟨le_rfl, hle⟩
    · exact ⟨by omega, hlimit⟩

/-- The pages behind the first one are apart from it. -/
theorem pagesFrom_disjoint {pages : Set Nat} {first limit : Nat}
    (hdisj : Disjoint (pagesFrom (first + 1) limit blockSize) pages) :
    Disjoint (pagesFrom (first + 1) limit blockSize) (pages ∪ block (first, 0)) := by
  refine Set.disjoint_union_right.2 ⟨hdisj, Set.disjoint_left.2 fun p hp hpb => ?_⟩
  rw [block_zero, Set.mem_singleton_iff] at hpb
  have hle : first + 1 ≤ p := hp.1
  omega

theorem pagesFrom_of_gt {first limit : Nat} (hgt : limit < (first + 1) * blockSize) :
    pagesFrom first limit blockSize = ∅ := by
  refine Set.eq_empty_of_forall_notMem ?_
  rintro p ⟨hp, hlimit⟩
  have hmul : (first + 1) * blockSize ≤ (p + 1) * blockSize := Nat.mul_le_mul_right _ (by omega)
  omega

/-- The loop over the pages of a region makes them free. -/
theorem insertPages_spec {fuel first limit : Nat} (h : a.Holds pages lists)
    (hpos : 0 < a.blockSize) (hwrap : first * a.blockSize + a.blockSize < 2 ^ 64)
    (hlimit : limit + a.blockSize < 2 ^ 64) (hfuel : 0 < fuel)
    (hsteps : limit / a.blockSize < first + fuel)
    (hlt : ∀ p ∈ pagesFrom first limit a.blockSize, p < a.numBlocks)
    (hdisj : Disjoint (pagesFrom first limit a.blockSize) pages) :
    ∃ a' lists', insertPages limit fuel a (first * a.blockSize) = some a' ∧ SameShape a a' ∧
      Holds a' (pages ∪ pagesFrom first limit a.blockSize) lists' := by
  induction fuel generalizing a pages lists first with
  | zero => omega
  | succ fuel ih =>
      have hnext : (first * a.blockSize + a.blockSize) % 2 ^ 64 = (first + 1) * a.blockSize := by
        rw [Nat.mod_eq_of_lt hwrap, Nat.succ_mul]
      rw [insertPages, hnext]
      by_cases hle : (first + 1) * a.blockSize ≤ limit
      · rw [if_pos hle]
        rw [pagesFrom_of_le hle] at hlt hdisj ⊢
        rw [Set.disjoint_union_left] at hdisj
        obtain ⟨blocks', count', lists', hinsert, hholds, -⟩ := insert_spec h (one_dvd first)
          (Nat.zero_le _) (hlt first (.inl (self_mem_block (first, 0)))) hdisj.1
        have hindex : first * a.blockSize / a.blockSize = first := Nat.mul_div_cancel first hpos
        have hdiv : first + 1 ≤ limit / a.blockSize := (Nat.le_div_iff_mul_le hpos).2 hle
        have hnot := pagesFrom_disjoint hdisj.2
        obtain ⟨a'', lists'', hloop, hshape, hholds'⟩ := ih
          (hholds.with_count ((count' + 1) % 2 ^ 64)) hpos
          (by show (first + 1) * a.blockSize + a.blockSize < 2 ^ 64; omega) hlimit (by omega)
          (by show limit / a.blockSize < first + 1 + fuel; omega) (fun p hp => hlt p (.inr hp)) hnot
        refine ⟨a'', lists'', ?_, ⟨hshape.blockMapSize, hshape.maxKVal, hshape.blockSize,
          hshape.offset⟩, Set.union_assoc .. ▸ hholds'⟩
        rw [hindex, hinsert]
        show insertPages limit fuel _ ((first * a.blockSize + a.blockSize) % 2 ^ 64) = _
        rw [hnext]
        exact hloop
      · rw [if_neg hle, pagesFrom_of_gt (by omega), Set.union_empty]
        exact ⟨a, lists, rfl, .refl a, h⟩

/-- The loop fails at a page without a block. -/
theorem insertPages_none {fuel first limit : Nat} (h : a.Holds pages lists)
    (hpos : 0 < a.blockSize) (hwrap : first * a.blockSize + a.blockSize < 2 ^ 64)
    (hlimit : limit + a.blockSize < 2 ^ 64)
    (hge : ∃ p ∈ pagesFrom first limit a.blockSize, a.numBlocks ≤ p)
    (hdisj : Disjoint (pagesFrom first limit a.blockSize) pages) :
    insertPages limit fuel a (first * a.blockSize) = none := by
  induction fuel generalizing a pages lists first with
  | zero => rfl
  | succ fuel ih =>
      have hnext : (first * a.blockSize + a.blockSize) % 2 ^ 64 = (first + 1) * a.blockSize := by
        rw [Nat.mod_eq_of_lt hwrap, Nat.succ_mul]
      have hindex : first * a.blockSize / a.blockSize = first := Nat.mul_div_cancel first hpos
      rw [insertPages, hnext]
      by_cases hle : (first + 1) * a.blockSize ≤ limit
      · rw [if_pos hle, hindex]
        rcases Nat.lt_or_ge first a.numBlocks with hlt | hge'
        · rw [pagesFrom_of_le hle] at hge hdisj
          rw [Set.disjoint_union_left] at hdisj
          obtain ⟨blocks', count', lists', hinsert, hholds, -⟩ := insert_spec h (one_dvd first)
            (Nat.zero_le _) hlt hdisj.1
          have hnot := pagesFrom_disjoint hdisj.2
          have hrest : ∃ p ∈ pagesFrom (first + 1) limit a.blockSize, a.numBlocks ≤ p := by
            obtain ⟨p, hp | hp, hgep⟩ := hge
            · rw [block_zero, Set.mem_singleton_iff] at hp
              omega
            · exact ⟨p, hp, hgep⟩
          rw [hinsert]
          show insertPages limit fuel _ ((first * a.blockSize + a.blockSize) % 2 ^ 64) = _
          rw [hnext]
          exact ih (hholds.with_count ((count' + 1) % 2 ^ 64)) hpos
            (by show (first + 1) * a.blockSize + a.blockSize < 2 ^ 64; omega) hlimit hrest hnot
        · rw [insert_none h.size hge']
          rfl
      · rw [pagesFrom_of_gt (by omega)] at hge
        obtain ⟨p, hp, -⟩ := hge
        cases hp

/-! ## The regions of a map -/

/-- The page at which the constructor starts in a region. -/
def firstIndex (location blockSize : Nat) : Nat := (location + blockSize - 1) / blockSize

theorem firstPage_eq {location : Nat} (hpos : 0 < blockSize)
    (hwrap : location + blockSize ≤ 2 ^ 64) :
    firstPage location blockSize = firstIndex location blockSize * blockSize := by
  have hmod : (location + blockSize + (2 ^ 64 - 1)) % 2 ^ 64 = location + blockSize - 1 := by omega
  have hdiv := Nat.div_add_mod (location + blockSize - 1) blockSize
  rw [firstPage, firstIndex, hmod, Nat.mul_comm]
  omega

theorem isPage_iff (hpos : 0 < blockSize) (p : Nat) : r.IsPage blockSize p ↔
    p ∈ pagesFrom (firstIndex r.location blockSize) r.limit blockSize := by
  have hfirst : firstIndex r.location blockSize ≤ p ↔ r.location ≤ p * blockSize := by
    rw [← Nat.lt_succ_iff, firstIndex, Nat.div_lt_iff_lt_mul hpos, Nat.succ_mul]
    omega
  exact and_congr_left' hfirst.symm

/-- Disjoint regions have no page in common. -/
theorem not_isPage_both {s : MemoryRegion} (hpos : 0 < blockSize) (h : ¬ r.Meets s) {p : Nat}
    (hr : r.IsPage blockSize p) : ¬ s.IsPage blockSize p := by
  intro hs
  have hsucc : (p + 1) * blockSize = p * blockSize + blockSize := Nat.succ_mul p blockSize
  exact h ⟨p * blockSize, ⟨hr.1, by have hlimit := hr.2; omega⟩, hs.1,
    by have hlimit := hs.2; omega⟩

/-- The loop over the pages of a region, started where the constructor starts it. -/
theorem insertRegion_spec (h : a.Holds pages lists) (hpos : 0 < a.blockSize)
    (hwrap : r.limit + 2 * a.blockSize ≤ 2 ^ 64) (hdisj : ∀ p ∈ pages, ¬ r.IsPage a.blockSize p) :
    ((∀ p, r.IsPage a.blockSize p → p < a.numBlocks) →
      ∃ a' lists', insertPages r.finish (r.finish / a.blockSize + 1) a
          (firstPage r.location a.blockSize) = some a' ∧ SameShape a a' ∧
        Holds a' (pages ∪ {p | r.IsPage a.blockSize p}) lists') ∧
    ((∃ p, r.IsPage a.blockSize p ∧ a.numBlocks ≤ p) →
      insertPages r.finish (r.finish / a.blockSize + 1) a
        (firstPage r.location a.blockSize) = none) := by
  have hle : r.location ≤ r.limit := Nat.le_add_right ..
  have hfinish : r.finish = r.limit := Nat.mod_eq_of_lt (by show r.limit < 2 ^ 64; omega)
  have hset : {p | r.IsPage a.blockSize p} =
      pagesFrom (firstIndex r.location a.blockSize) r.limit a.blockSize :=
    Set.ext fun p => isPage_iff hpos p
  have hfirst : firstIndex r.location a.blockSize * a.blockSize ≤
      r.location + a.blockSize - 1 := Nat.div_mul_le_self ..
  have hnot : Disjoint (pagesFrom (firstIndex r.location a.blockSize) r.limit a.blockSize) pages :=
    Set.disjoint_left.2 fun p hp hpages => hdisj p hpages ((isPage_iff hpos p).2 hp)
  rw [hfinish, firstPage_eq hpos (by omega), hset]
  constructor
  · intro hlt
    exact insertPages_spec h hpos (by omega) (by omega) (Nat.succ_pos _) (by omega)
      (fun p hp => hlt p ((isPage_iff hpos p).2 hp)) hnot
  · rintro ⟨p, hp, hge⟩
    exact insertPages_none h hpos (by omega) (by omega) ⟨p, (isPage_iff hpos p).1 hp, hge⟩ hnot

/-- The loop over the regions makes their pages free when all of them have blocks, and fails
otherwise. -/
theorem insertRegions_spec (h : a.Holds pages lists) (hpos : 0 < a.blockSize)
    (hmap : map.Disjoint a.blockSize) (hdisj : ∀ p ∈ pages, ¬ map.IsPage a.blockSize p) :
    ((∀ p, map.IsPage a.blockSize p → p < a.numBlocks) →
      ∃ a' lists', insertRegions map a = some a' ∧ SameShape a a' ∧
        Holds a' (pages ∪ {p | map.IsPage a.blockSize p}) lists') ∧
    ((∃ p, map.IsPage a.blockSize p ∧ a.numBlocks ≤ p) → insertRegions map a = none) := by
  induction map generalizing a pages lists with
  | nil =>
      have hempty : {p | MemoryMap.IsPage [] a.blockSize p} = ∅ := by
        ext p
        simp [MemoryMap.IsPage]
      refine ⟨fun _ => ⟨a, lists, rfl, .refl a, ?_⟩, ?_⟩
      · rwa [hempty, Set.union_empty]
      · rintro ⟨p, ⟨r, hr, -⟩, -⟩
        cases hr
  | cons r map ih =>
      have hrest : MemoryMap.Disjoint map a.blockSize :=
        ⟨(List.pairwise_cons.1 hmap.sorted).2, (List.pairwise_cons.1 hmap.disjoint).2,
          fun s hs => hmap.noWrap s (List.mem_cons_of_mem r hs)⟩
      by_cases htype : r.type = .AVAILABLE
      · have hiff : ∀ p, MemoryMap.IsPage (r :: map) a.blockSize p ↔
            r.IsPage a.blockSize p ∨ MemoryMap.IsPage map a.blockSize p := by
          intro p
          simp only [MemoryMap.IsPage, List.mem_cons, exists_eq_or_imp, htype, true_and]
        have hset : {p | MemoryMap.IsPage (r :: map) a.blockSize p} =
            {p | r.IsPage a.blockSize p} ∪ {p | MemoryMap.IsPage map a.blockSize p} := Set.ext hiff
        obtain ⟨hsome, hnone⟩ := insertRegion_spec h hpos (hmap.noWrap r List.mem_cons_self htype)
          fun p hp hr => hdisj p hp ((hiff p).2 (.inl hr))
        rw [insertRegions, if_neg (by simpa using htype)]
        by_cases hlt : ∀ p, r.IsPage a.blockSize p → p < a.numBlocks
        · obtain ⟨a₁, lists₁, hinsert, hshape, hholds⟩ := hsome hlt
          have hnot : ∀ p ∈ pages ∪ {p | r.IsPage a.blockSize p},
              ¬ MemoryMap.IsPage map a.blockSize p := by
            rintro p (hp | hp) hrestPage
            · exact hdisj p hp ((hiff p).2 (.inr hrestPage))
            · obtain ⟨s, hs, -, hspage⟩ := hrestPage
              exact not_isPage_both hpos ((List.pairwise_cons.1 hmap.disjoint).1 s hs) hp hspage
          rw [← hshape.blockSize] at hpos hrest
          obtain ⟨hsome', hnone'⟩ := ih hholds hpos hrest (by rwa [hshape.blockSize])
          rw [hshape.blockSize, hshape.numBlocks] at hsome' hnone'
          constructor
          · intro hall
            obtain ⟨a₂, lists₂, hloop, hshape', hholds'⟩ :=
              hsome' fun p hp => hall p ((hiff p).2 (.inr hp))
            refine ⟨a₂, lists₂, ?_, hshape.trans hshape', ?_⟩
            · rw [hinsert]
              exact hloop
            · rw [hset, ← Set.union_assoc]
              exact hholds'
          · rintro ⟨p, hp, hge⟩
            rw [hinsert]
            refine hnone' ⟨p, ((hiff p).1 hp).resolve_left fun hr => ?_, hge⟩
            have hltp := hlt p hr
            omega
        · constructor
          · intro hall
            exact absurd (fun p hr => hall p ((hiff p).2 (.inl hr))) hlt
          · intro _
            simp only [not_forall, Nat.not_lt] at hlt
            obtain ⟨p, hr, hge⟩ := hlt
            rw [hnone ⟨p, hr, hge⟩]
            rfl
      · have hiff : ∀ p, MemoryMap.IsPage (r :: map) a.blockSize p ↔
            MemoryMap.IsPage map a.blockSize p := by
          intro p
          simp only [MemoryMap.IsPage, List.mem_cons, exists_eq_or_imp, htype, false_and, false_or]
        rw [insertRegions, if_pos htype]
        simp only [hiff] at hdisj ⊢
        exact ih h hpos hrest hdisj

/-! ## The constructor -/

/-- The allocator before the constructor runs its loops. -/
def blank (mapBase : BlockPtr → Block) (size blockSize : Nat) : PageAllocator where
  blocks := mapBase
  blockMapSize := size
  maxKVal := llog2 (size / sizeofBlock)
  blockSize := blockSize
  offset := 0
  freeBlockCount := 0

/-- The sizes that the constructor computes fit each other. -/
theorem mapSize_fits {size : Nat} (h : mapSize map blockSize = some size) :
    size / sizeofBlock = 2 ^ llog2 (size / sizeofBlock) ∨ size / sizeofBlock = 0 := by
  obtain ⟨region, -, h⟩ := Option.bind_eq_some_iff.1 h
  dsimp only at h
  split at h
  · cases h
  · split at h
    next hshift =>
      obtain rfl := Option.some.inj h
      generalize llog2 (sizeofBlock * region.finish % 2 ^ 64 / blockSize) = shift at hshift
      rcases Nat.lt_or_ge shift 5 with hlt | hge
      · exact .inr (Nat.div_eq_of_lt (Nat.pow_lt_pow_right (by omega) hlt : 2 ^ shift < 2 ^ 5))
      · have hdiv : 2 ^ shift / sizeofBlock = 2 ^ (shift - 5) := Nat.pow_div hge (by omega)
        rw [hdiv, llog2_two_pow (by omega)]
        exact .inl rfl
    next => cases h

theorem construct_eq {size : Nat} (h : mapSize map blockSize = some size) :
    construct map mapBase blockSize =
      (((blank mapBase size blockSize).initLists 0 ((blank mapBase size blockSize).maxKVal + 1) >>=
        fun a => a.initBlocks 0 a.numBlocks) >>= fun a => insertRegions map a) := by
  simp only [construct, h, Option.bind_eq_bind, Option.bind_some, Option.bind_assoc]
  rfl

/-- When the orders fit `availList` the constructor runs the loop over the regions from an allocator
without free pages. -/
theorem construct_blank (mapBase : BlockPtr → Block) {size : Nat}
    (h : mapSize map blockSize = some size)
    (hmax : llog2 (size / sizeofBlock) < availListSize) :
    ∃ blocks, construct map mapBase blockSize =
        insertRegions map { blank mapBase size blockSize with blocks := blocks } ∧
      Holds { blank mapBase size blockSize with blocks := blocks } ∅ fun _ => [] := by
  obtain ⟨blocks, hinit, hholds⟩ := init_holds (a := blank mapBase size blockSize) hmax
    (mapSize_fits h)
  exact ⟨blocks, by rw [construct_eq h, hinit]; rfl, hholds⟩

/-- The constructor leaves its arrays when there are too many orders. -/
theorem construct_none {size : Nat} (h : mapSize map blockSize = some size)
    (hmax : availListSize ≤ llog2 (size / sizeofBlock)) :
    construct map mapBase blockSize = none := by
  rw [construct_eq h, initLists_none (Nat.zero_le _)
    (by show availListSize < 0 + (llog2 (size / sizeofBlock) + 1); omega)]
  rfl

/-- A constructed allocator is a buddy system over the pages of the map. -/
theorem construct_holds (hpos : 0 < blockSize) (hmap : map.Disjoint blockSize)
    (h : construct map mapBase blockSize = some a) :
    ∃ lists, a.Holds {p | map.IsPage blockSize p} lists ∧ a.blockSize = blockSize ∧
      a.offset = 0 := by
  obtain ⟨size, hsize, -⟩ := Option.bind_eq_some_iff.1 h
  by_cases hmax : llog2 (size / sizeofBlock) < availListSize
  · obtain ⟨blocks, hconstruct, hholds⟩ := construct_blank mapBase hsize hmax
    obtain ⟨hsome, hnone⟩ := insertRegions_spec hholds hpos hmap
      (fun p hp => by cases hp)
    rw [hconstruct] at h
    by_cases hlt : ∀ p, map.IsPage blockSize p →
        p < ({ blank mapBase size blockSize with blocks := blocks } : PageAllocator).numBlocks
    · obtain ⟨a', lists', hloop, hshape, hholds'⟩ := hsome hlt
      obtain rfl := Option.some.inj (hloop.symm.trans h)
      rw [Set.empty_union] at hholds'
      exact ⟨lists', hholds', hshape.blockSize, hshape.offset⟩
    · simp only [not_forall, Nat.not_lt] at hlt
      obtain ⟨p, hp, hge⟩ := hlt
      exact absurd (h.symm.trans (hnone ⟨p, hp, hge⟩)) (by simp)
  · exact absurd (h.symm.trans (construct_none hsize (by omega))) (by simp)

/-- The constructor succeeds when no product wraps around and the orders fit `availList`. -/
theorem construct_total (mapBase : BlockPtr → Block) {last : MemoryRegion} (hpos : 0 < blockSize)
    (hmap : map.Disjoint blockSize) (hlast : map.EndsWith last)
    (hwrap : sizeofBlock * last.limit < 2 ^ 64)
    (hfit : sizeofBlock * last.limit / blockSize ≤ sizeofBlock * 2 ^ (availListSize - 1)) :
    ∃ a, construct map mapBase blockSize = some a := by
  have hlimit : last.limit < 2 ^ 64 := by
    unfold sizeofBlock at hwrap
    omega
  have hfinish : last.finish = last.limit := Nat.mod_eq_of_lt hlimit
  generalize hcount : sizeofBlock * last.limit / blockSize = count at hfit
  have hfit' : count ≤ 2 ^ 36 := hfit
  have hlog : llog2 count = Nat.clog 2 count := llog2_eq_clog (by omega)
  have hshift : llog2 count ≤ 36 := by
    rw [hlog]
    exact Nat.clog_le_of_le_pow hfit'
  have hcover : count ≤ 2 ^ llog2 count := by
    rw [hlog]
    exact Nat.le_pow_clog (by omega) count
  have hsize : mapSize map blockSize = some (2 ^ llog2 count) := by
    have hlt : llog2 count < 64 := by omega
    simp only [mapSize, hlast.found, Option.bind_eq_bind, Option.bind_some, hpos.ne', if_false,
      hfinish, Nat.mod_eq_of_lt hwrap, hcount, hlt, if_true]
  have hmax : llog2 (2 ^ llog2 count / sizeofBlock) < availListSize := by
    have hle : 2 ^ llog2 count / sizeofBlock ≤ 2 ^ 31 := by
      have hpow : 2 ^ llog2 count ≤ 2 ^ 36 := Nat.pow_le_pow_right (by omega) hshift
      unfold sizeofBlock
      omega
    rw [llog2_eq_clog (by omega)]
    exact Nat.lt_succ_of_le (Nat.clog_le_of_le_pow hle)
  obtain ⟨blocks, hconstruct, hholds⟩ := construct_blank mapBase hsize hmax
  obtain ⟨hsome, -⟩ := insertRegions_spec hholds hpos hmap (fun p hp => by cases hp)
  obtain ⟨a, -, hloop, -⟩ := hsome fun p hp => by
    obtain ⟨r, hr, htype, -, hend⟩ := hp
    have hle := hend.trans (hlast.highest r hr htype)
    have hpages : sizeofBlock * (p + 1) ≤ count := by
      rw [← hcount, Nat.le_div_iff_mul_le hpos, Nat.mul_assoc]
      exact Nat.mul_le_mul_left _ hle
    show p < 2 ^ llog2 count / sizeofBlock
    unfold sizeofBlock at hpages ⊢
    omega
  exact ⟨a, hconstruct.trans hloop⟩

end PageAllocator

end CrosKernel.Memory
