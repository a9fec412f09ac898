import CrosKernel.Lib.Run
import CrosKernel.Memory.PageMap

/-!
# Runs of the page allocator

A client reserves pages and frees what it has reserved. `Accounts` is the invariant of its runs: the
free blocks are a buddy system over the free pages, and the reserved blocks and these pages divide
the pages of the memory map among them.
-/

namespace CrosKernel.Memory

open Lib Util

namespace PageAllocator

/-- The blocks on the lists that run through the arrays, with their orders. -/
def OnList (a : PageAllocator) (b : Nat × Nat) : Prop :=
  b.2 ≤ a.maxKVal ∧ ∃ l, AvailList a.blocks b.2 l ∧ b.1 ∈ l

/-- The pages of the blocks on the lists. -/
def freePages (a : PageAllocator) : Set Nat := {p | ∃ b, a.OnList b ∧ p ∈ block b}

variable {a : PageAllocator} {pages : Set Nat} {lists : Nat → List Nat}

/-- The lists hold the blocks of the buddy system. -/
theorem Holds.onList_iff (h : a.Holds pages lists) (b : Nat × Nat) :
    a.OnList b ↔ b ∈ freeBlocks lists := by
  constructor
  · rintro ⟨hle, l, hl, hmem⟩
    have hinj : Function.Injective BlockPtr.blockMap := fun _ _ heq => BlockPtr.blockMap.inj heq
    obtain rfl : l = lists b.2 :=
      List.map_injective_iff.2 hinj (hl.unique (h.avail.ring b.2 hle))
    exact hmem
  · intro hmem
    exact ⟨h.avail.le b.2 b.1 hmem, lists b.2, h.avail.ring b.2 (h.avail.le b.2 b.1 hmem), hmem⟩

/-- The pages of the buddy system are those of the lists. -/
theorem Holds.freePages_eq (h : a.Holds pages lists) : a.freePages = pages := by
  ext p
  simp only [freePages, Set.mem_ofPred_eq, h.onList_iff]
  exact (h.buddies.cover p).symm

/-- The order that `reserve` looks for is that of the smallest block with room for the pages. -/
theorem orderOf_eq {size : Nat} (hpos : 0 < a.blockSize) (hsize : 1 ≤ size) (hlt : size < 2 ^ 64) :
    a.orderOf size = Nat.clog 2 ((size + a.blockSize - 1) / a.blockSize) := by
  have hsub : sub64 size 1 = size - 1 := sub64_eq hsize hlt
  have hle : (size - 1) / a.blockSize ≤ size - 1 := Nat.div_le_self ..
  have hceil : (size + a.blockSize - 1) / a.blockSize = (size - 1) / a.blockSize + 1 := by
    have hadd : size + a.blockSize - 1 = size - 1 + a.blockSize := by omega
    rw [hadd, Nat.add_div_right _ hpos]
  rw [orderOf, hsub, Nat.mod_eq_of_lt (by omega), llog2_eq_clog (by omega), hceil]

/-- A block of that order has room for the requested bytes. -/
theorem size_le {size : Nat} (hpos : 0 < a.blockSize) (hsize : 1 ≤ size) (hlt : size < 2 ^ 64) :
    size ≤ 2 ^ a.orderOf size * a.blockSize := by
  rw [orderOf_eq hpos hsize hlt]
  have hclog := Nat.le_pow_clog (b := 2) (by omega) ((size + a.blockSize - 1) / a.blockSize)
  have hmod := Nat.div_add_mod (size + a.blockSize - 1) a.blockSize
  have hmodlt := Nat.mod_lt (size + a.blockSize - 1) hpos
  calc size ≤ (size + a.blockSize - 1) / a.blockSize * a.blockSize := by
        rw [Nat.mul_comm]
        omega
    _ ≤ _ := Nat.mul_le_mul_right _ hclog

end PageAllocator

/-! ## Clients -/

/-- The allocator and the blocks that a client has reserved and not freed since, with the addresses
and the sizes of the requests. -/
structure PageClient where
  allocator : PageAllocator
  reserved : List (Nat × Nat)

/-- A request of a client. -/
inductive PageRequest where
  | reserve (size : Nat)
  | free (location : Nat)

namespace PageClient

/-- Perform a request and record its result. -/
def perform (c : PageClient) : PageRequest → Option PageClient
  | .reserve size => do
      let (a, location) ← c.allocator.reserve size
      if location = NOMEM then some { c with allocator := a }
      else some ⟨a, (location, size) :: c.reserved⟩
  | .free location => do
      let (a, _) ← c.allocator.free location
      some ⟨a, c.reserved.eraseP (·.1 = location)⟩

/-- A client asks for at least a byte, and frees an address that it has reserved. -/
def Valid (c : PageClient) : PageRequest → Prop
  | .reserve size => 1 ≤ size ∧ size < 2 ^ 64
  | .free location => location ∈ c.reserved.map Prod.fst

/-- A valid request and its result. -/
def Step (c : PageClient) (request : PageRequest) (c' : PageClient) : Prop :=
  c.Valid request ∧ c.perform request = some c'

/-- The block at an address, with the order that `blockMap` records for it. -/
def blockAt (a : PageAllocator) (location : Nat) : Nat × Nat :=
  (location / a.blockSize, PageAllocator.kvalOf a.blocks (location / a.blockSize))

/-- The blocks that the client has reserved. -/
def reservedBlocks (c : PageClient) : List (Nat × Nat) :=
  c.reserved.map fun r => blockAt c.allocator r.1

/-- The invariant of the runs of a client. -/
structure Accounts (map : MemoryMap) (blockSize : Nat) (c : PageClient) : Prop where
  holds : ∃ lists, c.allocator.Holds c.allocator.freePages lists
  blockSize_eq : c.allocator.blockSize = blockSize
  offset_eq : c.allocator.offset = 0
  inMap : ∀ p, map.IsPage blockSize p → p < c.allocator.numBlocks
  address : ∀ r ∈ c.reserved, r.1 / blockSize * blockSize = r.1
  aligned : ∀ b ∈ c.reservedBlocks, 2 ^ b.2 ∣ b.1 ∧ b.2 ≤ c.allocator.maxKVal
  large : ∀ r ∈ c.reserved, r.2 ≤ 2 ^ (blockAt c.allocator r.1).2 * blockSize
  disjoint : c.reservedBlocks.Pairwise fun b b' => Disjoint (block b) (block b')
  separate : ∀ b ∈ c.reservedBlocks, Disjoint (block b) c.allocator.freePages
  cover : ∀ p, map.IsPage blockSize p ↔
    p ∈ c.allocator.freePages ∨ ∃ b ∈ c.reservedBlocks, p ∈ block b

variable {map : MemoryMap} {blockSize : Nat} {c c' : PageClient}
  {mapBase : BlockPtr → Block} {a a' : PageAllocator}

/-- A client that has just got the allocator has reserved nothing. -/
theorem accounts_construct (hpos : 0 < blockSize) (hmap : map.Disjoint blockSize)
    (h : PageAllocator.construct map mapBase blockSize = some a) :
    Accounts map blockSize ⟨a, []⟩ := by
  obtain ⟨lists, hholds, hsize, hoffset⟩ := PageAllocator.construct_holds hpos hmap h
  have hpages := hholds.freePages_eq
  constructor
  · exact ⟨lists, hpages.symm ▸ hholds⟩
  · exact hsize
  · exact hoffset
  · exact fun p hp => hholds.lt_numBlocks hp
  · exact fun r hr => by cases hr
  · exact fun b hb => by cases hb
  · exact fun r hr => by cases hr
  · exact .nil
  · exact fun b hb => by cases hb
  · intro p
    simp [hpages, reservedBlocks]

/-- The address of a page of the map does not wrap around, and is not `NOMEM`. -/
theorem page_address (hpos : 0 < blockSize) (hmap : map.Disjoint blockSize) {p : Nat}
    (hp : map.IsPage blockSize p) : p * blockSize < NOMEM := by
  obtain ⟨r, hr, htype, -, hlimit⟩ := hp
  have hwrap := hmap.noWrap r hr htype
  rw [Nat.succ_mul] at hlimit
  unfold NOMEM
  omega

/-- A block whose recorded order stays is the same block. -/
theorem blockAt_congr (hshape : PageAllocator.SameShape a a') {location : Nat}
    (hkval : PageAllocator.kvalOf a'.blocks (location / a.blockSize) =
      PageAllocator.kvalOf a.blocks (location / a.blockSize)) :
    blockAt a' location = blockAt a location := by
  simp only [blockAt, hshape.blockSize, hkval]

/-- The index of a reserved block is not free. -/
theorem Accounts.index_not_free (h : Accounts map blockSize c) {r : Nat × Nat}
    (hr : r ∈ c.reserved) : r.1 / c.allocator.blockSize ∉ c.allocator.freePages :=
  Set.disjoint_left.1 (h.separate _ (List.mem_map_of_mem hr)) (self_mem_block (blockAt _ r.1))

/-- A block leaves the free pages for the client. -/
theorem Accounts.add (h : Accounts map blockSize c) (hpos : 0 < blockSize)
    (hshape : PageAllocator.SameShape c.allocator a) {index k size : Nat}
    {lists : Nat → List Nat} (hholds : a.Holds (c.allocator.freePages \ block (index, k)) lists)
    (hsub : block (index, k) ⊆ c.allocator.freePages) (halign : 2 ^ k ∣ index)
    (hle : k ≤ c.allocator.maxKVal) (hkval : PageAllocator.kvalOf a.blocks index = k)
    (hkvals : ∀ i ∉ c.allocator.freePages,
      PageAllocator.kvalOf a.blocks i = PageAllocator.kvalOf c.allocator.blocks i)
    (hlarge : size ≤ 2 ^ k * blockSize) :
    Accounts map blockSize ⟨a, (index * blockSize, size) :: c.reserved⟩ := by
  have hpages := hholds.freePages_eq
  have hdiv : index * blockSize / blockSize = index := Nat.mul_div_cancel index hpos
  have hbs : a.blockSize = blockSize := hshape.blockSize.trans h.blockSize_eq
  have hnew : blockAt a (index * blockSize) = (index, k) := by rw [blockAt, hbs, hdiv, hkval]
  have hold : c.reserved.map (fun r => blockAt a r.1) = c.reservedBlocks :=
    List.map_congr_left fun r hr => blockAt_congr hshape (hkvals _ (h.index_not_free hr))
  have hlist : reservedBlocks ⟨a, (index * blockSize, size) :: c.reserved⟩ =
      (index, k) :: c.reservedBlocks := by
    rw [reservedBlocks, List.map_cons, hnew, hold]
  have hdisj : ∀ b ∈ c.reservedBlocks, Disjoint (block (index, k)) (block b) := fun b hb =>
    ((h.separate b hb).mono_right hsub).symm
  constructor
  · exact ⟨lists, hpages.symm ▸ hholds⟩
  · exact hbs
  · exact hshape.offset.trans h.offset_eq
  · exact fun p hp => hshape.numBlocks.symm ▸ h.inMap p hp
  · rintro r (_ | ⟨_, hr⟩)
    · show index * blockSize / blockSize * blockSize = index * blockSize
      rw [hdiv]
    · exact h.address r hr
  · rw [hlist]
    show ∀ b ∈ (index, k) :: c.reservedBlocks, 2 ^ b.2 ∣ b.1 ∧ b.2 ≤ a.maxKVal
    rw [hshape.maxKVal]
    exact List.forall_mem_cons.2 ⟨⟨halign, hle⟩, h.aligned⟩
  · rintro r (_ | ⟨_, hr⟩)
    · show size ≤ 2 ^ (blockAt a (index * blockSize)).2 * blockSize
      rw [hnew]
      exact hlarge
    · have heq : blockAt a r.1 = blockAt c.allocator r.1 := List.map_inj_left.1 hold r hr
      show r.2 ≤ 2 ^ (blockAt a r.1).2 * blockSize
      rw [heq]
      exact h.large r hr
  · rw [hlist]
    exact List.pairwise_cons.2 ⟨hdisj, h.disjoint⟩
  · rw [hlist]
    show ∀ b ∈ (index, k) :: c.reservedBlocks, Disjoint (block b) a.freePages
    rw [hpages]
    exact List.forall_mem_cons.2 ⟨Set.disjoint_sdiff_right,
      fun b hb => (h.separate b hb).mono_right Set.sdiff_subset⟩
  · intro p
    rw [h.cover, hlist]
    show _ ↔ p ∈ a.freePages ∨ _
    rw [hpages]
    simp only [List.mem_cons, exists_eq_or_imp, Set.mem_sdiff]
    constructor
    · rintro (hp | hp)
      · by_cases hpb : p ∈ block (index, k)
        · exact .inr (.inl hpb)
        · exact .inl ⟨hp, hpb⟩
      · exact .inr (.inr hp)
    · rintro (hp | hp | hp)
      · exact .inl hp.1
      · exact .inl (hsub hp)
      · exact .inr hp

/-- A block of the client becomes free. -/
theorem Accounts.remove (h : Accounts map blockSize c)
    (hshape : PageAllocator.SameShape c.allocator a) {before after : List (Nat × Nat)}
    {r : Nat × Nat} (hreserved : c.reserved = before ++ r :: after) {lists : Nat → List Nat}
    (hholds : a.Holds (c.allocator.freePages ∪ block (blockAt c.allocator r.1)) lists)
    (hkvals : ∀ i ∉ c.allocator.freePages ∪ block (blockAt c.allocator r.1),
      PageAllocator.kvalOf a.blocks i = PageAllocator.kvalOf c.allocator.blocks i) :
    Accounts map blockSize ⟨a, before ++ after⟩ := by
  have hpages := hholds.freePages_eq
  have hblocks : c.reservedBlocks = before.map (fun r => blockAt c.allocator r.1) ++
      blockAt c.allocator r.1 :: after.map (fun r => blockAt c.allocator r.1) := by
    rw [reservedBlocks, hreserved, List.map_append, List.map_cons]
  have hsub : ∀ s ∈ before ++ after, s ∈ c.reserved := by
    intro s hs
    rw [hreserved]
    simp only [List.mem_append, List.mem_cons] at hs ⊢
    tauto
  have hdisj := h.disjoint
  rw [hblocks, List.pairwise_middle fun {b b'} (hb : Disjoint (block b) (block b')) => hb.symm]
    at hdisj
  obtain ⟨hfreed, hrest⟩ := List.pairwise_cons.1 hdisj
  have hold : (before ++ after).map (fun r => blockAt a r.1) =
      (before ++ after).map fun r => blockAt c.allocator r.1 := by
    refine List.map_congr_left fun s hs => blockAt_congr hshape (hkvals _ ?_)
    rintro (hfree | hmem)
    · exact h.index_not_free (hsub s hs) hfree
    · have hs' := List.mem_map_of_mem (f := fun r => blockAt c.allocator r.1) hs
      rw [List.map_append] at hs'
      exact Set.disjoint_left.1 (hfreed _ hs') hmem (self_mem_block (blockAt c.allocator s.1))
  have hlist : reservedBlocks ⟨a, before ++ after⟩ =
      before.map (fun r => blockAt c.allocator r.1) ++
        after.map fun r => blockAt c.allocator r.1 := by
    rw [reservedBlocks, hold, List.map_append]
  have hmem : ∀ b ∈ reservedBlocks ⟨a, before ++ after⟩, b ∈ c.reservedBlocks := by
    intro b hb
    rw [hlist] at hb
    rw [hblocks]
    simp only [List.mem_append, List.mem_cons] at hb ⊢
    tauto
  constructor
  · exact ⟨lists, hpages.symm ▸ hholds⟩
  · exact hshape.blockSize.trans h.blockSize_eq
  · exact hshape.offset.trans h.offset_eq
  · exact fun p hp => hshape.numBlocks.symm ▸ h.inMap p hp
  · exact fun s hs => h.address s (hsub s hs)
  · exact fun b hb => hshape.maxKVal.symm ▸ h.aligned b (hmem b hb)
  · intro s hs
    have heq : blockAt a s.1 = blockAt c.allocator s.1 := List.map_inj_left.1 hold s hs
    show s.2 ≤ 2 ^ (blockAt a s.1).2 * blockSize
    rw [heq]
    exact h.large s (hsub s hs)
  · rw [hlist]
    exact hrest
  · intro b hb
    show Disjoint (block b) a.freePages
    rw [hpages]
    rw [hlist] at hb
    exact Set.disjoint_union_right.2 ⟨h.separate b (hmem b (hlist ▸ hb)), (hfreed b hb).symm⟩
  · intro p
    rw [h.cover, hblocks, hlist]
    show _ ↔ p ∈ a.freePages ∨ _
    rw [hpages, Set.mem_union]
    simp only [List.mem_append, List.mem_cons, or_and_right, exists_or, exists_eq_left]
    constructor
    · rintro (hp | hp | hp | hp)
      exacts [.inl (.inl hp), .inr (.inl hp), .inl (.inr hp), .inr (.inr hp)]
    · rintro ((hp | hp) | hp | hp)
      exacts [.inl hp, .inr (.inr (.inl hp)), .inr (.inl hp), .inr (.inr (.inr hp))]

/-! ## Requests -/

/-- `reserve` with enough free pages gives the client a block. -/
theorem Accounts.reserve_some (h : Accounts map blockSize c) (hpos : 0 < blockSize)
    (hmap : map.Disjoint blockSize) {size : Nat} (hsize : 1 ≤ size ∧ size < 2 ^ 64)
    {lists : Nat → List Nat} (hholds : c.allocator.Holds c.allocator.freePages lists)
    (hblocks : ∃ m, c.allocator.orderOf size ≤ m ∧ lists m ≠ []) :
    ∃ a location, c.allocator.reserve size = some (a, location) ∧ location ≠ NOMEM ∧
      PageAllocator.SameShape c.allocator a ∧
      Accounts map blockSize ⟨a, (location, size) :: c.reserved⟩ := by
  have hposA : 0 < c.allocator.blockSize := h.blockSize_eq ▸ hpos
  obtain ⟨index, blocks', count', lists', hreserve, halign, hsub, hholds', hkval, hkvals⟩ :=
    PageAllocator.reserve_some hholds hposA.ne' hblocks
  have hindex := hsub (self_mem_block (index, _))
  have haddress := page_address hpos hmap ((h.cover index).2 (.inl hindex))
  have hlocation : (c.allocator.offset + index * c.allocator.blockSize) % 2 ^ 64 =
      index * blockSize := by
    rw [h.offset_eq, h.blockSize_eq, Nat.zero_add]
    exact Nat.mod_eq_of_lt (by unfold NOMEM at haddress; omega)
  rw [hlocation] at hreserve
  have hle : c.allocator.orderOf size ≤ c.allocator.maxKVal := by
    obtain ⟨m, hm, hne⟩ := hblocks
    obtain ⟨i, hi⟩ := List.exists_mem_of_ne_nil _ hne
    exact hm.trans (hholds.avail.le m i hi)
  have hlarge := PageAllocator.size_le hposA hsize.1 hsize.2
  rw [h.blockSize_eq] at hlarge
  have hshape : PageAllocator.SameShape c.allocator
      { c.allocator with blocks := blocks', freeBlockCount := count' } := ⟨rfl, rfl, rfl, rfl⟩
  exact ⟨_, _, hreserve, haddress.ne, hshape,
    h.add hpos hshape hholds' hsub halign hle hkval hkvals hlarge⟩

/-- `free` takes back a block of the client. -/
theorem Accounts.free (h : Accounts map blockSize c) (hpos : 0 < blockSize)
    (hmap : map.Disjoint blockSize) {location : Nat} (hmem : location ∈ c.reserved.map Prod.fst) :
    ∃ c', c.perform (.free location) = some c' ∧
      PageAllocator.SameShape c.allocator c'.allocator ∧ Accounts map blockSize c' := by
  obtain ⟨s, hs, rfl⟩ := List.mem_map.1 hmem
  obtain ⟨r, before, after, -, hr, hreserved, herase⟩ :=
    List.exists_of_eraseP hs (p := (·.1 = s.1)) (by simp)
  have hrs : r.1 = s.1 := by simpa using hr
  have hrmem : r ∈ c.reserved := by simp [hreserved]
  obtain ⟨lists, hholds⟩ := h.holds
  have hposA : 0 < c.allocator.blockSize := h.blockSize_eq ▸ hpos
  have hblock : blockAt c.allocator r.1 ∈ c.reservedBlocks := List.mem_map_of_mem hrmem
  have hpage : map.IsPage blockSize (r.1 / c.allocator.blockSize) :=
    (h.cover _).2 (.inr ⟨_, hblock, self_mem_block (blockAt c.allocator r.1)⟩)
  have haddress := page_address hpos hmap hpage
  rw [h.blockSize_eq, h.address r hrmem] at haddress
  have hlt := h.inMap _ hpage
  obtain ⟨halign, hle⟩ := h.aligned _ hblock
  obtain ⟨blocks', count', lists', hinsert, hholds', hkvals⟩ :=
    PageAllocator.insert_spec hholds halign hle hlt (h.separate _ hblock)
  have hindex : sub64 s.1 c.allocator.offset / c.allocator.blockSize =
      r.1 / c.allocator.blockSize := by
    rw [h.offset_eq, ← hrs, sub64_eq (Nat.zero_le _) (by unfold NOMEM at haddress; omega),
      Nat.sub_zero]
  have hload : c.allocator.load (.blockMap (r.1 / c.allocator.blockSize)) =
      some (c.allocator.blocks (.blockMap (r.1 / c.allocator.blockSize))) :=
    PageAllocator.load_eq hlt
  have hshape : PageAllocator.SameShape c.allocator
      { c.allocator with blocks := blocks', freeBlockCount := count' } := ⟨rfl, rfl, rfl, rfl⟩
  refine ⟨_, ?_, hshape, h.remove hshape hreserved hholds' hkvals⟩
  simp only [blockAt, PageAllocator.kvalOf] at hinsert
  simp only [perform, PageAllocator.free, hposA.ne', if_false, hindex, hload, hinsert, herase,
    Option.bind_eq_bind, Option.bind_some, Option.pure_def]

/-- Every valid request is performed, and keeps the invariant. -/
theorem Accounts.perform (h : Accounts map blockSize c) (hpos : 0 < blockSize)
    (hmap : map.Disjoint blockSize) {request : PageRequest} (hvalid : c.Valid request) :
    ∃ c', c.perform request = some c' ∧ PageAllocator.SameShape c.allocator c'.allocator ∧
      Accounts map blockSize c' := by
  cases request with
  | free location => exact h.free hpos hmap hvalid
  | reserve size =>
      obtain ⟨lists, hholds⟩ := h.holds
      by_cases hblocks : ∃ m, c.allocator.orderOf size ≤ m ∧ lists m ≠ []
      · obtain ⟨a, location, hreserve, hne, hshape, haccounts⟩ :=
          h.reserve_some hpos hmap hvalid hholds hblocks
        exact ⟨_, by simp [PageClient.perform, hreserve, hne], hshape, haccounts⟩
      · have hempty : ∀ m, c.allocator.orderOf size ≤ m → lists m = [] := by
          intro m hm
          by_contra hne
          exact hblocks ⟨m, hm, hne⟩
        have hreserve := PageAllocator.reserve_none hholds (h.blockSize_eq ▸ hpos.ne') hempty
        exact ⟨c, by simp [PageClient.perform, hreserve], .refl _, h⟩

/-- The invariant holds after every run. -/
theorem Accounts.run (h : Accounts map blockSize c) (hpos : 0 < blockSize)
    (hmap : map.Disjoint blockSize) {requests : List PageRequest} (hrun : Run Step c requests c') :
    PageAllocator.SameShape c.allocator c'.allocator ∧ Accounts map blockSize c' := by
  induction hrun with
  | nil => exact ⟨.refl _, h⟩
  | cons hstep _ ih =>
      obtain ⟨s, hperform, hshape, haccounts⟩ := h.perform hpos hmap hstep.1
      obtain rfl := Option.some.inj (hperform.symm.trans hstep.2)
      obtain ⟨hshape', haccounts'⟩ := ih haccounts
      exact ⟨hshape.trans hshape', haccounts'⟩

/-! ## What holds at every step -/

/-- The reserved blocks and the blocks on the lists are disjoint and aligned, the reserved ones have
room for the requested bytes, and together they cover exactly the whole pages of the available
regions. -/
structure Accounted (map : MemoryMap) (c : PageClient) : Prop where
  lists : ∀ k ≤ c.allocator.maxKVal, ∃ l, PageAllocator.AvailList c.allocator.blocks k l
  reserved_disjoint : c.reservedBlocks.Pairwise fun b b' => Disjoint (block b) (block b')
  free_disjoint : ∀ b b', c.allocator.OnList b → c.allocator.OnList b' → b ≠ b' →
    Disjoint (block b) (block b')
  disjoint : ∀ b ∈ c.reservedBlocks, ∀ b', c.allocator.OnList b' → Disjoint (block b) (block b')
  aligned : ∀ b, b ∈ c.reservedBlocks ∨ c.allocator.OnList b → 2 ^ b.2 ∣ b.1
  address : ∀ r ∈ c.reserved, c.allocator.blockSize ∣ r.1
  large : ∀ r ∈ c.reserved, r.2 ≤ 2 ^ (blockAt c.allocator r.1).2 * c.allocator.blockSize
  cover : ∀ p, ((∃ b ∈ c.reservedBlocks, p ∈ block b) ∨ ∃ b, c.allocator.OnList b ∧ p ∈ block b) ↔
    map.IsPage c.allocator.blockSize p

theorem Accounts.accounted (h : Accounts map blockSize c) : Accounted map c := by
  obtain ⟨lists, hholds⟩ := h.holds
  have hblocks := hholds.onList_iff
  constructor
  · exact fun k hk => ⟨lists k, hholds.avail.ring k hk⟩
  · exact h.disjoint
  · intro b b' hb hb' hne
    exact hholds.buddies.disjoint b ((hblocks b).1 hb) b' ((hblocks b').1 hb') hne
  · intro b hb b' hb'
    exact (h.separate b hb).mono_right (hholds.buddies.block_subset ((hblocks b').1 hb'))
  · rintro b (hb | hb)
    · exact (h.aligned b hb).1
    · exact hholds.buddies.aligned b ((hblocks b).1 hb)
  · intro r hr
    rw [h.blockSize_eq, ← h.address r hr]
    exact Nat.dvd_mul_left ..
  · rw [h.blockSize_eq]
    exact h.large
  · intro p
    rw [h.blockSize_eq, h.cover, or_comm]
    rfl

/-- For every map whose orders fit `availList`, the constructor succeeds, every valid request is
performed, and every page is accounted for at every step. -/
theorem pages_accounted (mapBase : BlockPtr → Block) {last : MemoryRegion} (hpos : 0 < blockSize)
    (hmap : map.Disjoint blockSize) (hlast : map.EndsWith last)
    (hwrap : sizeofBlock * last.limit < 2 ^ 64)
    (hfit : sizeofBlock * last.limit / blockSize ≤ sizeofBlock * 2 ^ (availListSize - 1)) :
    ∃ a, PageAllocator.construct map mapBase blockSize = some a ∧
      ∀ requests c, Run Step ⟨a, []⟩ requests c → c.allocator.blockSize = blockSize ∧
        Accounted map c ∧ ∀ request, c.Valid request → ∃ c', c.perform request = some c' := by
  obtain ⟨a, ha⟩ := PageAllocator.construct_total mapBase hpos hmap hlast hwrap hfit
  refine ⟨a, ha, fun requests c hrun => ?_⟩
  obtain ⟨-, haccounts⟩ := (accounts_construct hpos hmap ha).run hpos hmap hrun
  refine ⟨haccounts.blockSize_eq, haccounts.accounted, fun request hvalid => ?_⟩
  obtain ⟨c', hperform, -, -⟩ := haccounts.perform hpos hmap hvalid
  exact ⟨c', hperform⟩

/-- A map with four pages. -/
private def fourPages : MemoryMap := [⟨.AVAILABLE, 0, 16384⟩]

private theorem fourPages_disjoint : fourPages.Disjoint 4096 :=
  ⟨List.pairwise_singleton .., List.pairwise_singleton .., by decide⟩

private theorem fourPages_endsWith : fourPages.EndsWith ⟨.AVAILABLE, 0, 16384⟩ :=
  ⟨rfl, by decide⟩

/-- A block that nothing was written to. -/
private def blankBlock : Block := ⟨.null, .null, 0, .RESERVED⟩

theorem pages_accounted_four :
    ∃ a, PageAllocator.construct fourPages (fun _ => blankBlock) 4096 = some a ∧
      ∀ requests c, Run Step ⟨a, []⟩ requests c → c.allocator.blockSize = 4096 ∧
        Accounted fourPages c ∧ ∀ request, c.Valid request → ∃ c', c.perform request = some c' :=
  pages_accounted _ (by decide) fourPages_disjoint fourPages_endsWith (by decide) (by decide)

/-- A map with `2 ^ 32` pages has one order too many for `availList`. -/
theorem pages_accounted_too_many_orders :
    ¬ ∀ (map : MemoryMap) (mapBase : BlockPtr → Block) (blockSize : Nat) (last : MemoryRegion),
      0 < blockSize → map.Disjoint blockSize → map.EndsWith last →
      ∃ a, PageAllocator.construct map mapBase blockSize = some a ∧ Accounted map ⟨a, []⟩ := by
  intro h
  obtain ⟨a, ha, -⟩ :=
    h [⟨.AVAILABLE, 0, 2 ^ 44⟩] (fun _ => blankBlock) 4096 ⟨.AVAILABLE, 0, 2 ^ 44⟩
    (by decide) ⟨List.pairwise_singleton .., List.pairwise_singleton .., by decide⟩ ⟨rfl, by decide⟩
  have hsize : PageAllocator.mapSize [⟨.AVAILABLE, 0, 2 ^ 44⟩] 4096 = some (2 ^ 37) := by decide
  rw [PageAllocator.construct_none hsize (by decide)] at ha
  cases ha

/-- The allocator of the small map, with a request of a client. -/
private theorem fourPages_run :
    ∃ a c, PageAllocator.construct fourPages (fun _ => blankBlock) 4096 = some a ∧
      Run Step ⟨a, []⟩ [.reserve 4096] c := by
  obtain ⟨a, ha⟩ := PageAllocator.construct_total (fun _ => blankBlock) (by decide)
    fourPages_disjoint fourPages_endsWith (by decide) (by decide)
  have hvalid : Valid ⟨a, []⟩ (.reserve 4096) := ⟨by decide, by decide⟩
  obtain ⟨c, hperform, -, -⟩ :=
    (accounts_construct (by decide) fourPages_disjoint ha).perform (by decide) fourPages_disjoint
      hvalid
  exact ⟨a, c, ha, .single ⟨hvalid, hperform⟩⟩

/-- No two buddies below the largest order are both free, the free blocks are the aligned runs of
free pages that cannot be doubled, and a client that has freed everything leaves the lists with the
blocks that they had after construction. -/
theorem free_blocks_coalesced (hpos : 0 < blockSize) (hmap : map.Disjoint blockSize)
    (ha : PageAllocator.construct map mapBase blockSize = some a) {requests : List PageRequest}
    (hrun : Run Step ⟨a, []⟩ requests c) :
    (∀ i k, k < c.allocator.maxKVal → c.allocator.OnList (i, k) →
      ¬ c.allocator.OnList (i ^^^ 2 ^ k, k)) ∧
    (∀ i k, c.allocator.OnList (i, k) ↔ 2 ^ k ∣ i ∧ k ≤ a.maxKVal ∧
      block (i, k) ⊆ c.allocator.freePages ∧
      (k < a.maxKVal → ¬ block (i, k + 1) ⊆ c.allocator.freePages)) ∧
    (c.reserved = [] → ∀ b, c.allocator.OnList b ↔ a.OnList b) := by
  have hinit := accounts_construct hpos hmap ha
  obtain ⟨hshape, haccounts⟩ := hinit.run hpos hmap hrun
  obtain ⟨lists, hholds⟩ := haccounts.holds
  obtain ⟨lists₀, hholds₀⟩ := hinit.holds
  have hbuddies := hholds.buddies
  have htop : c.allocator.maxKVal = a.maxKVal := hshape.maxKVal
  refine ⟨fun i k hk hi hbuddy => ?_, fun i k => ?_, fun hnil b => ?_⟩
  · exact hbuddies.coalesced i k ((hholds.onList_iff _).1 hi) hk ((hholds.onList_iff _).1 hbuddy)
  · rw [hholds.onList_iff, hbuddies.mem_iff, htop]
  · -- without reserved blocks all pages of the map are free again
    have hpages : c.allocator.freePages = a.freePages := by
      ext p
      have hnow := haccounts.cover p
      have hthen := hinit.cover p
      simp only [reservedBlocks, hnil, List.map_nil, List.not_mem_nil, false_and, exists_false,
        or_false] at hnow hthen
      exact hnow.symm.trans hthen
    rw [hholds.onList_iff, hholds₀.onList_iff]
    rw [htop, hpages] at hbuddies
    rw [hbuddies.unique hholds₀.buddies]

theorem free_blocks_coalesced_four :
    ∃ a c, Run Step ⟨a, []⟩ [.reserve 4096] c ∧
      (∀ i k, k < c.allocator.maxKVal → c.allocator.OnList (i, k) →
        ¬ c.allocator.OnList (i ^^^ 2 ^ k, k)) ∧
      (∀ i k, c.allocator.OnList (i, k) ↔ 2 ^ k ∣ i ∧ k ≤ a.maxKVal ∧
        block (i, k) ⊆ c.allocator.freePages ∧
        (k < a.maxKVal → ¬ block (i, k + 1) ⊆ c.allocator.freePages)) ∧
      (c.reserved = [] → ∀ b, c.allocator.OnList b ↔ a.OnList b) := by
  obtain ⟨a, c, ha, hrun⟩ := fourPages_run
  exact ⟨a, c, hrun, free_blocks_coalesced (by decide) fourPages_disjoint ha hrun⟩

/-- `reserve` returns `NOMEM` exactly when no aligned run of free pages has room for the request,
and then changes nothing. -/
theorem reserve_nomem_iff (hpos : 0 < blockSize) (hmap : map.Disjoint blockSize)
    (ha : PageAllocator.construct map mapBase blockSize = some a) {requests : List PageRequest}
    (hrun : Run Step ⟨a, []⟩ requests c) {size : Nat} (hsize : 1 ≤ size) (hlt : size < 2 ^ 64) :
    ∃ a' location, c.allocator.reserve size = some (a', location) ∧
      (location = NOMEM → a' = c.allocator) ∧
      (location = NOMEM ↔ ¬ ∃ i, 2 ^ Nat.clog 2 ((size + blockSize - 1) / blockSize) ∣ i ∧
        ∀ p, i ≤ p → p < i + 2 ^ Nat.clog 2 ((size + blockSize - 1) / blockSize) →
          p ∈ c.allocator.freePages) := by
  obtain ⟨-, haccounts⟩ := (accounts_construct hpos hmap ha).run hpos hmap hrun
  obtain ⟨lists, hholds⟩ := haccounts.holds
  have hposA : 0 < c.allocator.blockSize := haccounts.blockSize_eq ▸ hpos
  have horder := PageAllocator.orderOf_eq hposA hsize hlt
  rw [haccounts.blockSize_eq] at horder
  rw [← horder]
  have hbound : ∀ p ∈ c.allocator.freePages, p < 2 ^ c.allocator.maxKVal := fun p hp => by
    have hltp := hholds.lt_numBlocks hp
    exact hholds.numBlocks_eq hltp ▸ hltp
  have hruns := hholds.buddies.exists_order_le_iff (k := c.allocator.orderOf size) hbound
  have hblocks : (∃ b ∈ PageAllocator.freeBlocks lists, c.allocator.orderOf size ≤ b.2) ↔
      ∃ m, c.allocator.orderOf size ≤ m ∧ lists m ≠ [] := by
    constructor
    · rintro ⟨⟨i, m⟩, hi, hle⟩
      exact ⟨m, hle, List.ne_nil_of_mem hi⟩
    · rintro ⟨m, hle, hne⟩
      obtain ⟨i, hi⟩ := List.exists_mem_of_ne_nil _ hne
      exact ⟨(i, m), hi, hle⟩
  have hinterval : (∃ i, 2 ^ c.allocator.orderOf size ∣ i ∧
      block (i, c.allocator.orderOf size) ⊆ c.allocator.freePages) ↔
      ∃ i, 2 ^ c.allocator.orderOf size ∣ i ∧
        ∀ p, i ≤ p → p < i + 2 ^ c.allocator.orderOf size → p ∈ c.allocator.freePages := by
    refine exists_congr fun i => and_congr_right fun halign => ?_
    constructor
    · exact fun hsub p hle hltp => hsub ((mem_block_iff halign).2 ⟨hle, hltp⟩)
    · exact fun hall p hp => hall p ((mem_block_iff halign).1 hp).1 ((mem_block_iff halign).1 hp).2
  rw [← hinterval, ← hruns, hblocks]
  by_cases hfound : ∃ m, c.allocator.orderOf size ≤ m ∧ lists m ≠ []
  · obtain ⟨a', location, hreserve, hne, -, -⟩ :=
      haccounts.reserve_some hpos hmap ⟨hsize, hlt⟩ hholds hfound
    exact ⟨a', location, hreserve, fun heq => absurd heq hne,
      iff_of_false hne (not_not.2 hfound)⟩
  · have hempty : ∀ m, c.allocator.orderOf size ≤ m → lists m = [] := by
      intro m hm
      by_contra hne
      exact hfound ⟨m, hm, hne⟩
    exact ⟨c.allocator, NOMEM, PageAllocator.reserve_none hholds hposA.ne' hempty, fun _ => rfl,
      iff_of_true rfl hfound⟩

theorem reserve_nomem_iff_four :
    ∃ a c a' location, Run Step ⟨a, []⟩ [.reserve 4096] c ∧
      c.allocator.reserve 5000 = some (a', location) ∧ (location = NOMEM → a' = c.allocator) ∧
      (location = NOMEM ↔ ¬ ∃ i, 2 ^ Nat.clog 2 ((5000 + 4096 - 1) / 4096) ∣ i ∧
        ∀ p, i ≤ p → p < i + 2 ^ Nat.clog 2 ((5000 + 4096 - 1) / 4096) →
          p ∈ c.allocator.freePages) := by
  obtain ⟨a, c, ha, hrun⟩ := fourPages_run
  obtain ⟨a', location, h⟩ := reserve_nomem_iff (by decide) fourPages_disjoint ha hrun
    (by decide : 1 ≤ 5000) (by decide)
  exact ⟨a, c, a', location, hrun, h⟩

end PageClient

end CrosKernel.Memory
