import CrosKernel.Memory.PageLists
import Mathlib.Data.Set.Disjoint

/-!
# The page allocator is a buddy system

`Holds` says that the blocks on the lists are a buddy system over the free pages. `insert_spec` adds
a block to it and `reserve_spec` takes one out; both leave the order of a block outside the pages
they handle as it was.
-/

namespace CrosKernel.Memory

open Lib

namespace PageAllocator

/-- The blocks on the lists are a buddy system over the free pages. -/
structure Holds (a : PageAllocator) (pages : Set Nat) (lists : Nat → List Nat) : Prop where
  avail : Lists a.maxKVal a.numBlocks a.blocks lists
  buddies : Buddies a.maxKVal pages (freeBlocks lists)
  max_lt : a.maxKVal < availListSize
  size : a.numBlocks = 2 ^ a.maxKVal ∨ a.numBlocks = 0

variable {a : PageAllocator} {pages : Set Nat} {lists : Nat → List Nat} {index k i : Nat}

/-- The order that `blockMap` records for a block. -/
def kvalOf (blocks : BlockPtr → Block) (index : Nat) : Nat := (blocks (.blockMap index)).kval

theorem Holds.numBlocks_eq (h : a.Holds pages lists) (hi : i < a.numBlocks) :
    a.numBlocks = 2 ^ a.maxKVal := by
  rcases h.size with hsize | hsize <;> omega

/-- The counter of free pages plays no part. -/
theorem Holds.with_count (h : a.Holds pages lists) (count : Nat) :
    Holds { a with freeBlockCount := count } pages lists :=
  ⟨h.avail, h.buddies, h.max_lt, h.size⟩

/-- The free pages have blocks in `blockMap`. -/
theorem Holds.lt_numBlocks (h : a.Holds pages lists) {p : Nat} (hp : p ∈ pages) :
    p < a.numBlocks := by
  obtain ⟨⟨j, l⟩, hb, hpb⟩ := (h.buddies.cover p).1 hp
  have hj := h.avail.lt l j hb
  have hsize := h.numBlocks_eq hj
  rw [hsize] at hj ⊢
  exact lt_of_mem_block (h.buddies.order_le _ hb) hj hpb

/-- A page that is not free has no block on the lists. -/
theorem Holds.not_mem_lists (h : a.Holds pages lists) {p : Nat} (hp : p ∉ pages) (k : Nat) :
    p ∉ lists k := fun hmem =>
      hp (h.buddies.block_subset (b := (p, k)) hmem (self_mem_block (p, k)))

theorem Holds.nodup (h : a.Holds pages lists) (k : Nat) : (lists k).Nodup := by
  by_cases hk : k ≤ a.maxKVal
  · exact (List.nodup_cons.1 (h.avail.ring k hk).nodup).2.of_map _
  · have hempty : lists k = [] := List.eq_nil_iff_forall_not_mem.2 fun i hi =>
      hk (h.avail.le k i hi)
    rw [hempty]
    exact List.nodup_nil

/-! ## The families of changed lists -/

theorem freeBlocks_remove {l r : List Nat} (hl : lists k = l ++ i :: r)
    (hnodup : (lists k).Nodup) :
    freeBlocks (Function.update lists k (l ++ r)) = freeBlocks lists \ {(i, k)} := by
  rw [hl] at hnodup
  have hnot : i ∉ l ++ r := (List.nodup_middle.1 hnodup).notMem
  ext ⟨j, m⟩
  rw [Set.mem_sdiff, Set.mem_singleton_iff, mem_freeBlocks, mem_freeBlocks, Prod.mk.injEq]
  by_cases hm : m = k
  · subst hm
    rw [Function.update_self, hl]
    constructor
    · intro hj
      refine ⟨?_, fun heq => hnot (heq.1 ▸ hj)⟩
      simp only [List.mem_append, List.mem_cons] at hj ⊢
      tauto
    · rintro ⟨hj, hne⟩
      simp only [List.mem_append, List.mem_cons, and_true] at hj hne ⊢
      tauto
  · simp [hm]

theorem freeBlocks_cons (lists : Nat → List Nat) (k i : Nat) :
    freeBlocks (Function.update lists k (i :: lists k)) =
      Insert.insert (i, k) (freeBlocks lists) := by
  ext ⟨j, m⟩
  rw [Set.mem_insert_iff, mem_freeBlocks, mem_freeBlocks, Prod.mk.injEq]
  by_cases hm : m = k
  · subst hm
    simp
  · simp [hm]

/-! ## Taking a block out of a list -/

/-- A block on a list leaves with its pages. -/
theorem Holds.unlinked (h : a.Holds pages lists) {l r : List Nat} (hl : lists k = l ++ i :: r) :
    Holds { a with blocks := unlinked a.blocks (.blockMap i) } (pages \ block (i, k))
      (Function.update lists k (l ++ r)) := by
  have hi : (i, k) ∈ freeBlocks lists := by simp [hl]
  refine ⟨h.avail.unlinked (h.avail.le k i hi) hl, ?_, h.max_lt, h.size⟩
  rw [freeBlocks_remove hl (h.nodup k)]
  exact h.buddies.remove hi

/-- A block outside the free pages joins a list when its buddy is not there. -/
theorem Holds.linked (h : a.Holds pages lists) (halign : 2 ^ k ∣ i) (hk : k ≤ a.maxKVal)
    (hlt : i < a.numBlocks) (hdisj : Disjoint (block (i, k)) pages)
    (hbuddy : k < a.maxKVal → buddy i k ∉ lists k) :
    Holds { a with blocks := linked a.blocks k i } (pages ∪ block (i, k))
      (Function.update lists k (i :: lists k)) := by
  have hnot : i ∉ pages := Set.disjoint_left.1 hdisj (self_mem_block (i, k))
  refine ⟨h.avail.linked hk hlt (h.not_mem_lists hnot), ?_, h.max_lt, h.size⟩
  rw [freeBlocks_cons]
  exact h.buddies.add halign hk hdisj hbuddy

/-! ## Inserting -/

/-- The buddy test of `insert` finds the buddies on the list of the order. -/
theorem Holds.buddy_free_iff (h : a.Holds pages lists) (hi : i < a.numBlocks) :
    (a.blocks (.blockMap i)).tag = .FREE ∧ (a.blocks (.blockMap i)).kval = k ↔ i ∈ lists k := by
  constructor
  · rintro ⟨htag, hkval⟩
    obtain ⟨j, hj⟩ := (h.avail.free i hi).1 htag
    rwa [← hkval, h.avail.kval j i hj]
  · intro hmem
    exact ⟨(h.avail.free i hi).2 ⟨k, hmem⟩, h.avail.kval k i hmem⟩

/-- The loop of `insert` gathers the free buddies of a block, and stops at a block whose buddy is
not free. -/
theorem mergeLoop_spec {remaining : Nat} (h : a.Holds pages lists) (hk : k + remaining = a.maxKVal)
    (halign : 2 ^ k ∣ index) (hlt : index < a.numBlocks)
    (hdisj : Disjoint (block (index, k)) pages) :
    ∃ blocks' index' k' pages' lists',
      a.mergeLoop index k remaining = some ({ a with blocks := blocks' }, index', k') ∧
      Holds { a with blocks := blocks' } pages' lists' ∧
      2 ^ k' ∣ index' ∧ k' ≤ a.maxKVal ∧ index' < a.numBlocks ∧
      Disjoint (block (index', k')) pages' ∧
      pages' ∪ block (index', k') = pages ∪ block (index, k) ∧
      (k' < a.maxKVal → buddy index' k' ∉ lists' k') ∧ kvalOf blocks' = kvalOf a.blocks := by
  induction remaining generalizing a pages lists index k with
  | zero =>
      exact ⟨a.blocks, index, k, pages, lists, rfl, h, halign, by omega, hlt, hdisj, rfl,
        fun hk' => by omega, rfl⟩
  | succ remaining ih =>
      have hbuddy : buddy index k < a.numBlocks := by
        have hsize := h.numBlocks_eq hlt
        rw [hsize] at hlt ⊢
        exact buddy_lt (by omega) hlt
      have hload : a.load (.blockMap (index ^^^ 2 ^ k)) =
          some (a.blocks (.blockMap (buddy index k))) := load_eq hbuddy
      by_cases hmem : buddy index k ∈ lists k
      · obtain ⟨l, r, hl⟩ := List.append_of_mem hmem
        obtain ⟨htag, hkval⟩ := (h.buddy_free_iff hbuddy).2 hmem
        have hunlink := unlink_eq h.avail h.max_lt hmem
        have hmin : (if buddy index k < index then buddy index k else index) =
            min index (buddy index k) := by
          rw [min_def]
          split <;> split <;> omega
        -- the block of the next order is the union of the two
        have hunion : block (min index (buddy index k), k + 1) =
            block (index, k) ∪ block (buddy index k, k) := by
          rw [block_min_buddy, block_union_buddy]
        have hsub : block (buddy index k, k) ⊆ pages := h.buddies.block_subset (b := (_, k)) hmem
        obtain ⟨blocks', index', k', pages', lists', hloop, hholds, halign', hk', hlt', hdisj',
          hpages, hstop, hkvals⟩ :=
            ih (h.unlinked hl) (by show k + 1 + remaining = a.maxKVal; omega)
            (dvd_min_buddy halign) (lt_of_le_of_lt (min_le_left _ _) hlt) (by
              rw [hunion, Set.disjoint_union_left]
              exact ⟨hdisj.mono_right Set.sdiff_subset, Set.disjoint_sdiff_right⟩)
        refine ⟨blocks', index', k', pages', lists', ?_, hholds, halign', hk', hlt', hdisj', ?_,
          hstop, hkvals⟩
        · rw [mergeLoop]
          simp only [hload, Option.bind_eq_bind, Option.bind_some]
          rw [if_neg (by simp [htag, hkval]), show index ^^^ 2 ^ k = buddy index k from rfl,
            hunlink, Option.bind_some, hmin, hloop]
        · rw [hpages, hunion, Set.union_comm (block (index, k)), ← Set.union_assoc,
            Set.sdiff_union_of_subset hsub]
      · have hstop : (a.blocks (.blockMap (buddy index k))).tag ≠ .FREE ∨
            (a.blocks (.blockMap (buddy index k))).kval ≠ k := by
          by_contra hboth
          rw [not_or, not_not, not_not] at hboth
          exact hmem ((h.buddy_free_iff hbuddy).1 hboth)
        refine ⟨a.blocks, index, k, pages, lists, ?_, h, halign, by omega, hlt, hdisj, rfl,
          fun _ => hmem, rfl⟩
        rw [mergeLoop]
        simp only [hload, Option.bind_eq_bind, Option.bind_some]
        rw [if_pos hstop]

/-- `insert` adds a block to the free pages. -/
theorem insert_spec (h : a.Holds pages lists) (halign : 2 ^ k ∣ index) (hk : k ≤ a.maxKVal)
    (hlt : index < a.numBlocks) (hdisj : Disjoint (block (index, k)) pages) :
    ∃ blocks' count' lists',
      a.insert index k = some { a with blocks := blocks', freeBlockCount := count' } ∧
      Holds { a with blocks := blocks', freeBlockCount := count' } (pages ∪ block (index, k))
        lists' ∧
      ∀ i ∉ pages ∪ block (index, k), kvalOf blocks' i = kvalOf a.blocks i := by
  have hcount := h.with_count ((a.freeBlockCount + 2 ^ k) % 2 ^ 64)
  obtain ⟨blocks', index', k', pages', lists', hloop, hholds, halign', hk', hlt', hdisj', hpages,
    hstop, hkvals⟩ := mergeLoop_spec hcount (Nat.add_sub_cancel' hk) halign hlt hdisj
  have hnot : index' ∉ pages' := Set.disjoint_left.1 hdisj' (self_mem_block (index', k'))
  have hlink := link_eq hholds.avail hholds.max_lt hk' hlt' (hholds.not_mem_lists hnot)
  refine ⟨linked blocks' k' index', (a.freeBlockCount + 2 ^ k) % 2 ^ 64, _, ?_,
    hpages ▸ hholds.linked halign' hk' hlt' hdisj' hstop, fun i hi => ?_⟩
  · rw [insert]
    simp only [hloop, Option.bind_eq_bind, Option.bind_some, hlink]
  · have hne : i ≠ index' := by
      rintro rfl
      exact hi (hpages ▸ Or.inr (self_mem_block (i, k')))
    have hlinked : kvalOf (PageAllocator.linked blocks' k' index') i = kvalOf blocks' i := by
      simp [kvalOf, PageAllocator.linked, hne]
    rw [hlinked, hkvals]

/-! ## Reserving -/

/-- The loop of `reserve` finds no list. -/
theorem findLoop_none {j remaining : Nat} (h : a.Holds pages lists)
    (hj : j + remaining = a.maxKVal + 1) (hempty : ∀ m, j ≤ m → lists m = []) :
    a.findLoop j remaining = some none := by
  induction remaining generalizing j with
  | zero => rfl
  | succ remaining ih =>
      have hjmax : j ≤ a.maxKVal := by omega
      have hhead := h.avail.inBounds h.max_lt hjmax List.mem_cons_self
      have hself := (h.avail.ring j hjmax).next_head_eq_iff.2 (by rw [hempty j le_rfl]; rfl)
      simp only [forward] at hself
      simp only [findLoop, load_eq hhead, hself, Option.bind_eq_bind, Option.bind_some, ne_eq,
        not_true_eq_false, if_false]
      exact ih (j := j + 1) (by omega) fun m hm => hempty m (by omega)

/-- The loop of `reserve` finds the first list with blocks. -/
theorem findLoop_some {j remaining : Nat} (h : a.Holds pages lists)
    (hj : j + remaining = a.maxKVal + 1) (hblocks : ∃ m, j ≤ m ∧ lists m ≠ []) :
    ∃ m, a.findLoop j remaining = some (some m) ∧ j ≤ m ∧ lists m ≠ [] ∧
      ∀ n, j ≤ n → n < m → lists n = [] := by
  induction remaining generalizing j with
  | zero =>
      obtain ⟨m, hm, hne⟩ := hblocks
      obtain ⟨i, hi⟩ := List.exists_mem_of_ne_nil _ hne
      have hle := h.avail.le m i hi
      omega
  | succ remaining ih =>
      have hjmax : j ≤ a.maxKVal := by omega
      have hhead := h.avail.inBounds h.max_lt hjmax List.mem_cons_self
      have hself := (h.avail.ring j hjmax).next_head_eq_iff
      simp only [forward, List.map_eq_nil_iff] at hself
      simp only [findLoop, load_eq hhead, Option.bind_eq_bind, Option.bind_some, ne_eq, hself]
      by_cases hempty : lists j = []
      · obtain ⟨m, hm, hne⟩ := hblocks
        have hjm : j ≠ m := by
          rintro rfl
          exact hne hempty
        obtain ⟨m', hfound, hm', hne', hfirst⟩ := ih (j := j + 1) (by omega)
          ⟨m, by omega, hne⟩
        refine ⟨m', by simpa [hempty] using hfound, by omega, hne', fun n hn hlt => ?_⟩
        by_cases hnj : n = j
        · rw [hnj, hempty]
        · exact hfirst n (by omega) hlt
      · exact ⟨j, by simp [hempty], le_rfl, hempty, fun n hn hlt => by omega⟩

/-- The loop of `reserve` splits a block that is on no list down to the order `k`, and puts the
upper halves on the empty lists from `k` on. -/
theorem splitLoop_spec {remaining : Nat} (h : a.Holds pages lists)
    (hk : k + remaining ≤ a.maxKVal) (halign : 2 ^ (k + remaining) ∣ index)
    (hlt : index < a.numBlocks) (hdisj : Disjoint (block (index, k + remaining)) pages)
    (hempty : ∀ m, k ≤ m → m < k + remaining → lists m = [])
    (hkval : kvalOf a.blocks index = k + remaining) :
    ∃ blocks' lists', a.splitLoop index k remaining = some { a with blocks := blocks' } ∧
      Holds { a with blocks := blocks' }
        (pages ∪ (block (index, k + remaining) \ block (index, k))) lists' ∧
      kvalOf blocks' index = k ∧
      ∀ i ∉ block (index, k + remaining), kvalOf blocks' i = kvalOf a.blocks i := by
  induction remaining generalizing a pages lists with
  | zero =>
      refine ⟨a.blocks, lists, rfl, ?_, hkval, fun i _ => rfl⟩
      rw [Nat.add_zero, sdiff_self, Set.bot_eq_empty, Set.union_empty]
      exact h
  | succ remaining ih =>
      have hbuddyEq : buddy index (k + remaining) = index + 2 ^ (k + remaining) :=
        buddy_eq_add halign
      have hhalf : 2 ^ (k + remaining) ∣ index :=
        (pow_dvd_pow 2 (Nat.le_succ (k + remaining))).trans halign
      have hunion := block_union_buddy index (k + remaining)
      have hsize := h.numBlocks_eq hlt
      have hbuddyLt : buddy index (k + remaining) < a.numBlocks := by
        rw [hsize] at hlt ⊢
        exact buddy_lt (by omega) hlt
      rw [show k + (remaining + 1) = k + remaining + 1 from rfl, ← hunion,
        Set.disjoint_union_left] at hdisj
      obtain ⟨hlower, hupper⟩ := hdisj
      have hindex : ∀ m, index ∉ lists m :=
        h.not_mem_lists (Set.disjoint_left.1 hlower (self_mem_block (index, k + remaining)))
      have hnew : ∀ m, index + 2 ^ (k + remaining) ∉ lists m :=
        hbuddyEq ▸ h.not_mem_lists (Set.disjoint_left.1 hupper (self_mem_block (_, k + remaining)))
      have hlist : lists (k + remaining) = [] := hempty _ (by omega) (by omega)
      -- one pass adds the upper half, whose buddy is the block that is split
      have hstep : Holds { a with blocks := halved a.blocks index (k + remaining) }
          (pages ∪ block (buddy index (k + remaining), k + remaining))
          (Function.update lists (k + remaining) [index + 2 ^ (k + remaining)]) := by
        refine ⟨h.avail.halved (by omega) (hbuddyEq ▸ hbuddyLt) hlist hindex hnew, ?_, h.max_lt,
          h.size⟩
        have hfamily := freeBlocks_cons lists (k + remaining) (index + 2 ^ (k + remaining))
        rw [hlist] at hfamily
        rw [hfamily, ← hbuddyEq]
        refine h.buddies.add (dvd_buddy hhalf) (by show k + remaining ≤ a.maxKVal; omega) hupper
          fun _ => ?_
        rw [buddy_buddy, mem_freeBlocks]
        exact hindex _
      have hdisj' : Disjoint (block (index, k + remaining))
          (pages ∪ block (buddy index (k + remaining), k + remaining)) :=
        Set.disjoint_union_right.2 ⟨hlower, disjoint_buddy⟩
      obtain ⟨blocks', lists', hloop, hholds, hkval', hkvals⟩ := ih hstep
        (by show k + remaining ≤ a.maxKVal; omega) hhalf hlt hdisj'
        (fun m hm hlt => by
          rw [Function.update_of_ne (by omega)]
          exact hempty m hm (by omega))
        (by simp [kvalOf, halved])
      refine ⟨blocks', lists', ?_, ?_, hkval', fun i hi => ?_⟩
      · rw [splitLoop_succ (lt_of_le_of_lt (by omega) h.max_lt) (hbuddyEq ▸ hbuddyLt), hloop]
      · have hsub : block (index, k) ⊆ block (index, k + remaining) :=
          block_subset (by omega) (self_mem_block (index, k)) (self_mem_block (_, k + remaining))
        have hpages : pages ∪ block (buddy index (k + remaining), k + remaining) ∪
            (block (index, k + remaining) \ block (index, k)) =
            pages ∪ (block (index, k + (remaining + 1)) \ block (index, k)) := by
          rw [show k + (remaining + 1) = k + remaining + 1 from rfl, ← hunion,
            Set.union_sdiff_distrib,
            (disjoint_buddy.mono_left hsub).symm.sdiff_eq_left, Set.union_assoc,
            Set.union_comm (block (buddy index (k + remaining), k + remaining))]
        exact hpages ▸ hholds
      · rw [show k + (remaining + 1) = k + remaining + 1 from rfl, ← hunion, Set.mem_union,
          not_or] at hi
        rw [hkvals i hi.1]
        have hne : i ≠ index := by
          rintro rfl
          exact hi.1 (self_mem_block (i, k + remaining))
        have hne' : i ≠ index + 2 ^ (k + remaining) := by
          rintro rfl
          exact hi.2 (hbuddyEq ▸ self_mem_block (_, k + remaining))
        simp [kvalOf, halved, hne, hne']

/-- `reserve` fails when no list of its order or a larger one has blocks. The allocator stays as it
is. -/
theorem reserve_none (h : a.Holds pages lists) (hsize : a.blockSize ≠ 0) {size : Nat}
    (hempty : ∀ m, a.orderOf size ≤ m → lists m = []) : a.reserve size = some (a, NOMEM) := by
  have hfind : a.findLoop (a.orderOf size) (a.maxKVal + 1 - a.orderOf size) = some none := by
    rcases Nat.lt_or_ge a.maxKVal (a.orderOf size) with hlt | hge
    · rw [Nat.sub_eq_zero_of_le hlt]
      rfl
    · exact findLoop_none h (by omega) hempty
  simp [reserve, hsize, hfind]

theorem reserve_eq {size j : Nat} (hsize : a.blockSize ≠ 0) (hk : a.orderOf size = k)
    (hfind : a.findLoop k (a.maxKVal + 1 - k) = some (some j)) :
    a.reserve size = a.takeBlock k j := by
  simp [reserve, hsize, hk, hfind]

theorem takeBlock_eq {a' a'' : PageAllocator} {j : Nat}
    (hpop : a.pop j = some (a', .blockMap index))
    (hsplit : a'.splitLoop index k (j - k) = some a'') :
    a.takeBlock k j = some ({ a'' with freeBlockCount := sub64 a''.freeBlockCount (2 ^ k) },
      (a''.offset + index * a''.blockSize) % 2 ^ 64) := by
  simp [takeBlock, hpop, hsplit]

/-- `reserve` takes the pages of a block of its order out of the free pages. -/
theorem reserve_some (h : a.Holds pages lists) (hsize : a.blockSize ≠ 0) {size : Nat}
    (hblocks : ∃ m, a.orderOf size ≤ m ∧ lists m ≠ []) :
    ∃ index blocks' count' lists',
      a.reserve size = some ({ a with blocks := blocks', freeBlockCount := count' },
        (a.offset + index * a.blockSize) % 2 ^ 64) ∧
      2 ^ a.orderOf size ∣ index ∧ block (index, a.orderOf size) ⊆ pages ∧
      Holds { a with blocks := blocks', freeBlockCount := count' }
        (pages \ block (index, a.orderOf size)) lists' ∧
      kvalOf blocks' index = a.orderOf size ∧
      ∀ i ∉ pages, kvalOf blocks' i = kvalOf a.blocks i := by
  generalize hk : a.orderOf size = k at hblocks
  have hle : k ≤ a.maxKVal := by
    obtain ⟨m, hm, hne⟩ := hblocks
    obtain ⟨i, hi⟩ := List.exists_mem_of_ne_nil _ hne
    have hle := h.avail.le m i hi
    omega
  obtain ⟨j, hfind, hkj, hne, hfirst⟩ := findLoop_some h
    (by omega : k + (a.maxKVal + 1 - k) = a.maxKVal + 1) hblocks
  obtain ⟨l, index, hl⟩ : ∃ l index, lists j = l ++ [index] :=
    ⟨_, _, (List.dropLast_append_getLast hne).symm⟩
  have hmem : (index, j) ∈ freeBlocks lists := by simp [hl]
  have hpop := pop_eq h.avail h.max_lt hl
  have hjmax : j ≤ a.maxKVal := h.buddies.order_le _ hmem
  have halign : 2 ^ j ∣ index := h.buddies.aligned _ hmem
  obtain ⟨d, rfl⟩ : ∃ d, j = k + d := ⟨j - k, by omega⟩
  have hpages : block (index, k + d) ⊆ pages := h.buddies.block_subset hmem
  have hsub : block (index, k) ⊆ block (index, k + d) :=
    block_subset (by omega) (self_mem_block (index, k)) (self_mem_block (index, k + d))
  have hholds := h.unlinked hl
  obtain ⟨blocks', lists', hsplit, hholds', hkval, hkvals⟩ := splitLoop_spec hholds hjmax halign
    (h.avail.lt _ _ hmem) Set.disjoint_sdiff_right
    (fun m hm hlt => by
      rw [Function.update_of_ne (by omega)]
      exact hfirst m hm hlt)
    (by simpa [kvalOf, unlinked] using h.avail.kval _ _ hmem)
  refine ⟨index, blocks', sub64 a.freeBlockCount (2 ^ k), lists', ?_,
    (pow_dvd_pow 2 (by omega)).trans halign, hsub.trans hpages, ?_, hkval, fun i hi => ?_⟩
  · have hsplit' : splitLoop { a with blocks := unlinked a.blocks (.blockMap index) } index k
        (k + d - k) = some { a with blocks := blocks' } := by
      rw [Nat.add_sub_cancel_left]
      exact hsplit
    rw [reserve_eq hsize hk hfind, takeBlock_eq hpop hsplit']
  · have hset : pages \ block (index, k + d) ∪ (block (index, k + d) \ block (index, k)) =
        pages \ block (index, k) := by
      rw [Set.sdiff_union_sdiff_cancel hpages hsub]
    exact (hset ▸ hholds').with_count _
  · rw [hkvals i fun hmem => hi (hpages hmem)]
    simp [kvalOf, unlinked]

end PageAllocator

end CrosKernel.Memory
