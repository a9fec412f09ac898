import CrosKernel.Lib.Run
import CrosKernel.Memory.PageFrames

/-!
# The page frames of mapped regions

A process maps and unmaps regions. `mmap` reserves a block of page frames for a region, and the
stores to its page entries may reserve page frames for tables, but `munmap` frees nothing. So the
pages that left the allocator are those of all regions ever mapped, and `held_eq_regions_iff` says
that they are those of the regions that are mapped now only while nothing was unmapped.
-/

namespace CrosKernel.Memory

open Lib

namespace Mmu

/-! ## What the fault handler reserves -/

/-- A property of the allocator and the table frames that the reservation of a table keeps. -/
def TableStable (P : PageAllocator → List Nat → Prop) : Prop :=
  ∀ {a a' : PageAllocator} {frames : List Nat} {frame : Nat}, P a frames →
    a.reserve pageSize = some (a', frame) → frame ≠ NOMEM → P a' (frame :: frames)

/-- The property holds after an instruction that it holds before. -/
def Stable (P : PageAllocator → List Nat → Prop)
    (store : Mmu → Nat → PageTableEntry → Option Mmu) : Prop :=
  ∀ {m m' : Mmu} {va : Nat} {e : PageTableEntry}, P m.pageAllocator m.tableFrames →
    store m va e = some m' → P m'.pageAllocator m'.tableFrames

variable {P : PageAllocator → List Nat → Prop} {m m' : Mmu} {va fuel : Nat} {e : PageTableEntry}
  {store : Mmu → Nat → PageTableEntry → Option Mmu}

/-- A write changes the memory only. -/
theorem write_frame (hwrite : m.write va e = .ok m') :
    m'.pageAllocator = m.pageAllocator ∧ m'.tableFrames = m.tableFrames := by
  rw [write] at hwrite
  split at hwrite
  · split at hwrite
    · cases hwrite
      exact ⟨rfl, rfl⟩
    · cases hwrite
  · cases hwrite

theorem Stable.write (h : P m.pageAllocator m.tableFrames) (hwrite : m.write va e = .ok m') :
    P m'.pageAllocator m'.tableFrames := by
  obtain ⟨hallocator, hframes⟩ := write_frame hwrite
  rwa [hallocator, hframes]

theorem Stable.makeDescriptor (hstore : Stable P store) (h : P m.pageAllocator m.tableFrames)
    (hmake : makeDescriptor store m va e = some m') : P m'.pageAllocator m'.tableFrames := by
  obtain ⟨m₁, hclear, hwrite⟩ := Option.bind_eq_some_iff.1 hmake
  cases hresult : m₁.write va e with
  | error abort =>
      rw [hresult] at hwrite
      cases hwrite
  | ok m₂ =>
      rw [hresult] at hwrite
      cases hwrite
      exact Stable.write (hstore h hclear) hresult

theorem Stable.fillLoop (hP : TableStable P) (hstore : Stable P store) (half : Half)
    (targetLevel farOffset : Nat) {remaining i : Nat} (h : P m.pageAllocator m.tableFrames)
    (hfill : fillLoop store half targetLevel farOffset remaining i m = some m') :
    P m'.pageAllocator m'.tableFrames := by
  induction remaining generalizing i m with
  | zero =>
      cases hfill
      exact h
  | succ remaining ih =>
      obtain ⟨⟨a, tableFrame⟩, hreserve, hrest⟩ := Option.bind_eq_some_iff.1 hfill
      dsimp only at hrest
      split at hrest
      next => cases hrest
      next hne =>
        obtain ⟨m₁, hmake, hrest⟩ := Option.bind_eq_some_iff.1 hrest
        exact ih (hstore.makeDescriptor (hP h hreserve hne) hmake) hrest

theorem Stable.handlePageFault (hP : TableStable P) (hstore : Stable P store) {level far : Nat}
    (h : P m.pageAllocator m.tableFrames) (hhandle : handlePageFault store m level far = some m') :
    P m'.pageAllocator m'.tableFrames := by
  have hfill : ∀ targetLevel, fillTranslationTable store m level targetLevel far = some m' →
      P m'.pageAllocator m'.tableFrames := by
    intro targetLevel hfill
    rw [fillTranslationTable] at hfill
    split at hfill
    · cases hfill
    · exact Stable.fillLoop hP hstore _ _ _ h hfill
  rw [Mmu.handlePageFault] at hhandle
  split_ifs at hhandle <;> exact hfill _ hhandle

/-- The store instruction reserves page frames for tables only. -/
theorem stable_store (hP : TableStable P) (fuel : Nat) : Stable P (Mmu.store fuel) := by
  induction fuel with
  | zero =>
      intro m m' va e h hstore
      cases hstore
  | succ fuel ih =>
      intro m m' va e h hstore
      rw [Mmu.store] at hstore
      split at hstore
      next hwrite =>
        cases hstore
        exact Stable.write h hwrite
      next => cases hstore
      next level hwrite =>
        obtain ⟨m₁, hhandle, hagain⟩ := Option.bind_eq_some_iff.1 hstore
        exact ih (Stable.handlePageFault hP ih h hhandle) hagain

theorem mapRegion_stable (hP : TableStable P) {addr size frame flags : Nat}
    (h : P m.pageAllocator m.tableFrames)
    (hmap : mapRegion fuel m addr size frame flags = some m') :
    P m'.pageAllocator m'.tableFrames := by
  rw [mapRegion] at hmap
  generalize offsets size = ps at hmap
  induction ps generalizing m with
  | nil =>
      cases hmap
      exact h
  | cons p rest ih =>
      obtain ⟨m₁, hset, hrest⟩ := Option.bind_eq_some_iff.1 hmap
      refine ih ?_ hrest
      rw [setPageEntry, if_neg (by decide)] at hset
      obtain ⟨entry, -, hmake⟩ := Option.bind_eq_some_iff.1 hset
      have hstore : Stable P (Mmu.store fuel) := stable_store hP fuel
      exact hstore.makeDescriptor h hmake

theorem unmapRegion_stable (hP : TableStable P) {addr size : Nat}
    (h : P m.pageAllocator m.tableFrames) (hunmap : unmapRegion fuel m addr size = some m') :
    P m'.pageAllocator m'.tableFrames := by
  rw [unmapRegion] at hunmap
  generalize offsets size = ps at hunmap
  induction ps generalizing m with
  | nil =>
      cases hunmap
      exact h
  | cons p rest ih =>
      obtain ⟨m₁, hclear, hrest⟩ := Option.bind_eq_some_iff.1 hunmap
      refine ih ?_ hrest
      obtain ⟨entry, -, hstore⟩ := Option.bind_eq_some_iff.1 hclear
      exact stable_store hP fuel h hstore

end Mmu

/-! ## Sessions -/

/-- A region that `mmap` mapped to the block at `frame`. -/
structure Region where
  ptr : Nat
  size : Nat
  frame : Nat
  deriving DecidableEq

/-- The machine and the regions that the process has mapped and not unmapped since. -/
structure MapSession where
  mmu : Mmu
  regions : List Region

/-- The two system calls, with their arguments. -/
inductive MapCall where
  | mmap (ptr size flags : Nat)
  | munmap (ptr size : Nat)
  deriving DecidableEq

namespace MapSession

/-- A call that comes back. `munmap` gets a region that is mapped. -/
inductive Step : MapSession → MapCall → MapSession → Prop where
  | mmap {s : MapSession} {fuel ptr size flags frame : Nat} {mmu : Mmu} : size < 2 ^ 64 →
      s.mmu.syscallMmap fuel ptr size flags = some (mmu, some frame) →
      Step s (.mmap ptr size flags) ⟨mmu, ⟨ptr, size, frame⟩ :: s.regions⟩
  | mmapFailed {s : MapSession} {fuel ptr size flags : Nat} {mmu : Mmu} : size < 2 ^ 64 →
      s.mmu.syscallMmap fuel ptr size flags = some (mmu, none) →
      Step s (.mmap ptr size flags) ⟨mmu, s.regions⟩
  | munmap {s : MapSession} {fuel : Nat} {r : Region} {mmu : Mmu} : r ∈ s.regions →
      s.mmu.syscallMunmap fuel r.ptr r.size = some mmu →
      Step s (.munmap r.ptr r.size) ⟨mmu, s.regions.erase r⟩

/-- The order that the allocator records for the block at an address. -/
def blockAt (a : PageAllocator) (frame : Nat) : Nat × Nat :=
  (frame / pageSize, PageAllocator.kvalOf a.blocks (frame / pageSize))

/-- The pages of the page frames that became tables. -/
def tablePages (frames : List Nat) : Set Nat := {p | p * pageSize ∈ frames}

/-- The pages that the calls hold reserved, without those of tables. -/
def heldPages (s₀ s : MapSession) : Set Nat :=
  (s₀.mmu.pageAllocator.freePages \ s.mmu.pageAllocator.freePages) \ tablePages s.mmu.tableFrames

/-- The pages of the blocks of the regions. -/
def regionPages (s : MapSession) : Set Nat :=
  {p | ∃ r ∈ s.regions, p ∈ block (blockAt s.mmu.pageAllocator r.frame)}

/-- A process that has mapped nothing, on a machine whose tables are all older. -/
structure Fresh (s : MapSession) : Prop where
  managed : s.mmu.pageAllocator.Managed
  tableFrames : s.mmu.tableFrames = []
  regions : s.regions = []

/-! ## The blocks that left the allocator -/

/-- The pages `pages` are those that are free now, those of the tables and those of the blocks. -/
structure Ledger (pages : Set Nat) (blocks : List (Nat × Nat)) (a : PageAllocator)
    (frames : List Nat) : Prop where
  managed : a.Managed
  kval_eq : ∀ b ∈ blocks, PageAllocator.kvalOf a.blocks b.1 = b.2
  cover : ∀ p, p ∈ pages ↔ p ∈ a.freePages ∨ p ∈ tablePages frames ∨ ∃ b ∈ blocks, p ∈ block b
  tables_taken : ∀ p ∈ tablePages frames, p ∉ a.freePages
  blocks_taken : ∀ b ∈ blocks, ∀ p ∈ block b, p ∉ a.freePages ∧ p ∉ tablePages frames
  disjoint : blocks.Pairwise fun b b' => Disjoint (block b) (block b')

variable {pages : Set Nat} {blocks : List (Nat × Nat)} {a a' : PageAllocator} {frames : List Nat}
  {index k size : Nat}

theorem tablePages_cons (index : Nat) (frames : List Nat) :
    tablePages (index * pageSize :: frames) = insert index (tablePages frames) := by
  ext p
  have hpos : 0 < pageSize := by decide
  simp [tablePages, Nat.mul_left_inj hpos.ne']

/-- A table takes one page. -/
theorem Ledger.table (h : Ledger pages blocks a frames)
    (hreserved : PageAllocator.Reserved a a' index 0) :
    Ledger pages blocks a' (index * pageSize :: frames) := by
  have hfree : index ∈ a.freePages := hreserved.subset (self_mem_block (index, 0))
  have hpages : a'.freePages = a.freePages \ {index} := by
    rw [hreserved.freePages_eq, block_zero]
  have hblock : ∀ b ∈ blocks, index ∉ block b := fun b hb hmem =>
    (h.blocks_taken b hb index hmem).1 hfree
  constructor
  · exact hreserved.managed
  · intro b hb
    rw [hreserved.kvals_eq b.1 (h.blocks_taken b hb _ (self_mem_block b)).1, h.kval_eq b hb]
  · intro p
    rw [h.cover, hpages, tablePages_cons]
    by_cases heq : p = index
    · subst heq
      simp [hfree]
    · simp [heq]
  · intro p hp
    rw [tablePages_cons] at hp
    rw [hpages]
    rintro ⟨hfree', hne⟩
    obtain heq | hmem := hp
    · exact hne heq
    · exact h.tables_taken p hmem hfree'
  · intro b hb p hp
    obtain ⟨hnot, htable⟩ := h.blocks_taken b hb p hp
    rw [hpages, tablePages_cons]
    refine ⟨fun hmem => hnot hmem.1, ?_⟩
    rintro (rfl | hmem)
    · exact hblock b hb hp
    · exact htable hmem
  · exact h.disjoint

/-- A region takes a block. -/
theorem Ledger.region (h : Ledger pages blocks a frames)
    (hreserved : PageAllocator.Reserved a a' index k) :
    Ledger pages ((index, k) :: blocks) a' frames := by
  have hpages := hreserved.freePages_eq
  constructor
  · exact hreserved.managed
  · intro b hb
    obtain rfl | hb := List.mem_cons.1 hb
    · exact hreserved.kval_eq
    · rw [hreserved.kvals_eq b.1 (h.blocks_taken b hb _ (self_mem_block b)).1, h.kval_eq b hb]
  · intro p
    rw [h.cover, hpages]
    by_cases hmem : p ∈ block (index, k)
    · exact iff_of_true (.inl (hreserved.subset hmem))
        (.inr (.inr ⟨_, List.mem_cons_self, hmem⟩))
    · simp only [Set.mem_sdiff, hmem, not_false_eq_true, and_true, List.mem_cons, exists_eq_or_imp,
        false_or]
  · intro p hp
    rw [hpages]
    exact fun hmem => h.tables_taken p hp hmem.1
  · intro b hb p hp
    rw [hpages]
    obtain rfl | hb := List.mem_cons.1 hb
    · exact ⟨fun hmem => hmem.2 hp, fun htable => h.tables_taken p htable (hreserved.subset hp)⟩
    · obtain ⟨hnot, htable⟩ := h.blocks_taken b hb p hp
      exact ⟨fun hmem => hnot hmem.1, htable⟩
  · refine List.pairwise_cons.2 ⟨fun b hb => Set.disjoint_left.2 fun p hp hp' => ?_, h.disjoint⟩
    exact (h.blocks_taken b hb p hp').1 (hreserved.subset hp)

theorem Ledger.tableStable (pages : Set Nat) (blocks : List (Nat × Nat)) :
    Mmu.TableStable (Ledger pages blocks) := by
  intro a a' frames frame h hreserve hne
  obtain ⟨index, rfl, hreserved⟩ := h.managed.reserve_page hreserve hne
  exact h.table hreserved

theorem Ledger.perm {blocks' : List (Nat × Nat)} (h : Ledger pages blocks a frames)
    (hperm : blocks.Perm blocks') : Ledger pages blocks' a frames where
  managed := h.managed
  kval_eq b hb := h.kval_eq b (hperm.mem_iff.2 hb)
  cover p := by
    rw [h.cover p]
    simp only [hperm.mem_iff]
  tables_taken := h.tables_taken
  blocks_taken b hb := h.blocks_taken b (hperm.mem_iff.2 hb)
  disjoint := (hperm.pairwise_iff fun hdisjoint => hdisjoint.symm).1 h.disjoint

/-! ## Runs -/

/-- The blocks of the regions. -/
def regionBlocks (a : PageAllocator) (regions : List Region) : List (Nat × Nat) :=
  regions.map fun r => blockAt a r.frame

/-- The invariant of the runs: the blocks are those of the regions and those in `leaked`. -/
def Accounts (pages : Set Nat) (leaked : List (Nat × Nat)) (s : MapSession) : Prop :=
  Ledger pages (regionBlocks s.mmu.pageAllocator s.regions ++ leaked) s.mmu.pageAllocator
    s.mmu.tableFrames

variable {s s' s₀ : MapSession} {leaked : List (Nat × Nat)} {regions : List Region} {c : MapCall}

/-- Blocks that stay reserved keep their orders. -/
theorem regionBlocks_congr
    (h : ∀ b ∈ regionBlocks a regions, PageAllocator.kvalOf a'.blocks b.1 = b.2) :
    regionBlocks a' regions = regionBlocks a regions := by
  refine List.map_congr_left fun r hr => ?_
  have hkval := h (blockAt a r.frame) (List.mem_map_of_mem hr)
  exact Prod.ext rfl hkval

theorem Ledger.accounts {mmu : Mmu}
    (h : Ledger pages (regionBlocks a regions ++ leaked) mmu.pageAllocator mmu.tableFrames) :
    Accounts pages leaked ⟨mmu, regions⟩ := by
  have hsame : regionBlocks mmu.pageAllocator regions = regionBlocks a regions :=
    regionBlocks_congr fun b hb => h.kval_eq b (List.mem_append_left _ hb)
  rw [Accounts, hsame]
  exact h

/-- `mmap` accounts for the block that it reserves. -/
theorem Accounts.mmap (h : Accounts pages leaked s) {fuel ptr flags frame : Nat} {mmu : Mmu}
    (hsize : size < 2 ^ 64)
    (hcall : s.mmu.syscallMmap fuel ptr size flags = some (mmu, some frame)) :
    Accounts pages leaked ⟨mmu, ⟨ptr, size, frame⟩ :: s.regions⟩ := by
  rw [Mmu.syscallMmap] at hcall
  obtain hnone | ⟨a, index, hreserve, hne, hreserved, -⟩ := h.managed.reserve hsize
  · rw [hnone] at hcall
    cases hcall
  · rw [hreserve] at hcall
    simp only [Option.bind_eq_bind, Option.bind_some, if_neg hne] at hcall
    obtain ⟨mmu', hmap, hpure⟩ := Option.bind_eq_some_iff.1 hcall
    cases hpure
    have hregion := h.region hreserved
    have hledger := Mmu.mapRegion_stable (Ledger.tableStable pages _) hregion hmap
    have hindex : index * pageSize / pageSize = index := Nat.mul_div_cancel _ (by decide)
    have hkval := hreserved.kval_eq
    -- the block of the new region, by the orders right after the reservation
    have hblocks : regionBlocks a (⟨ptr, size, index * pageSize⟩ :: s.regions) =
        (index, s.mmu.pageAllocator.orderOf size) ::
          regionBlocks s.mmu.pageAllocator s.regions := by
      have hold : regionBlocks a s.regions = regionBlocks s.mmu.pageAllocator s.regions :=
        regionBlocks_congr fun b hb =>
          hregion.kval_eq b (List.mem_cons_of_mem _ (List.mem_append_left _ hb))
      rw [← hold, regionBlocks, List.map_cons, blockAt, hindex, hkval]
      rfl
    refine Ledger.accounts (a := a) ?_
    rw [hblocks]
    exact hledger

theorem Accounts.mmapFailed (h : Accounts pages leaked s) {fuel ptr flags : Nat} {mmu : Mmu}
    (hsize : size < 2 ^ 64) (hcall : s.mmu.syscallMmap fuel ptr size flags = some (mmu, none)) :
    Accounts pages leaked ⟨mmu, s.regions⟩ := by
  rw [Mmu.syscallMmap] at hcall
  obtain hnone | ⟨a, index, hreserve, hne, -, -⟩ := h.managed.reserve hsize
  · rw [hnone] at hcall
    cases hcall
    exact h
  · rw [hreserve] at hcall
    simp only [Option.bind_eq_bind, Option.bind_some, if_neg hne] at hcall
    obtain ⟨mmu', -, hpure⟩ := Option.bind_eq_some_iff.1 hcall
    cases hpure

/-- `munmap` leaves the block of the region reserved. -/
theorem Accounts.munmap (h : Accounts pages leaked s) {fuel : Nat} {r : Region} {mmu : Mmu}
    (hr : r ∈ s.regions) (hcall : s.mmu.syscallMunmap fuel r.ptr r.size = some mmu) :
    Accounts pages (blockAt s.mmu.pageAllocator r.frame :: leaked) ⟨mmu, s.regions.erase r⟩ := by
  have hledger := Mmu.unmapRegion_stable (Ledger.tableStable pages _) h hcall
  have hperm : (regionBlocks s.mmu.pageAllocator s.regions ++ leaked).Perm
      (regionBlocks s.mmu.pageAllocator (s.regions.erase r) ++
        blockAt s.mmu.pageAllocator r.frame :: leaked) := by
    have hcons := (List.perm_cons_erase hr).map fun r => blockAt s.mmu.pageAllocator r.frame
    exact (hcons.append_right leaked).trans List.perm_middle.symm
  exact (hledger.perm hperm).accounts

/-- Every `munmap` leaks a block, and `mmap` leaks none. -/
theorem Accounts.step (h : Accounts pages leaked s) (hstep : Step s c s') :
    ∃ leaked', Accounts pages leaked' s' ∧
      (leaked' = [] ↔ leaked = [] ∧ ∀ ptr size, c ≠ .munmap ptr size) := by
  cases hstep with
  | mmap hsize hcall => exact ⟨leaked, h.mmap hsize hcall, by simp⟩
  | mmapFailed hsize hcall => exact ⟨leaked, h.mmapFailed hsize hcall, by simp⟩
  | munmap hr hcall => exact ⟨_, h.munmap hr hcall, by simp⟩

theorem Accounts.run {calls : List MapCall} (h : Accounts pages leaked s)
    (hrun : Run Step s calls s') :
    ∃ leaked', Accounts pages leaked' s' ∧
      (leaked' = [] ↔ leaked = [] ∧ ∀ ptr size, .munmap ptr size ∉ calls) := by
  induction hrun generalizing leaked with
  | nil s => exact ⟨leaked, h, by simp⟩
  | cons hstep _ ih =>
      obtain ⟨leaked₁, h₁, hnil₁⟩ := h.step hstep
      obtain ⟨leaked₂, h₂, hnil₂⟩ := ih h₁
      refine ⟨leaked₂, h₂, ?_⟩
      rw [hnil₂, hnil₁]
      simp only [List.mem_cons, not_or, and_assoc, forall_and, eq_comm, ne_eq]

theorem Fresh.accounts (h : Fresh s) : Accounts s.mmu.pageAllocator.freePages [] s := by
  rw [Accounts, h.regions, h.tableFrames]
  exact {
    managed := h.managed
    kval_eq := fun b hb => by cases hb
    cover := fun p => by simp [regionBlocks, tablePages]
    tables_taken := fun p hp => by cases hp
    blocks_taken := fun b hb => by cases hb
    disjoint := .nil }

/-- The pages held are those of the regions when no block was leaked. -/
theorem Accounts.held_eq_iff (h : Accounts s₀.mmu.pageAllocator.freePages leaked s) :
    heldPages s₀ s = regionPages s ↔ leaked = [] := by
  have hregion : ∀ p, p ∈ regionPages s ↔
      ∃ b ∈ regionBlocks s.mmu.pageAllocator s.regions, p ∈ block b := by
    intro p
    simp [regionPages, regionBlocks]
  have hheld : ∀ p, p ∈ heldPages s₀ s ↔
      ∃ b ∈ regionBlocks s.mmu.pageAllocator s.regions ++ leaked, p ∈ block b := by
    intro p
    constructor
    · rintro ⟨⟨hpages, hfree⟩, htable⟩
      exact (((h.cover p).1 hpages).resolve_left hfree).resolve_left htable
    · rintro ⟨b, hb, hp⟩
      obtain ⟨hfree, htable⟩ := h.blocks_taken b hb p hp
      exact ⟨⟨(h.cover p).2 (.inr (.inr ⟨b, hb, hp⟩)), hfree⟩, htable⟩
  constructor
  · intro heq
    cases leaked with
    | nil => rfl
    | cons b rest =>
        -- the first page of the leaked block is in no block of a region
        have hmem : b.1 ∈ heldPages s₀ s :=
          (hheld _).2 ⟨b, List.mem_append_right _ List.mem_cons_self, self_mem_block b⟩
        rw [heq] at hmem
        obtain ⟨b', hb', hmem'⟩ := (hregion _).1 hmem
        have hdisjoint := (List.pairwise_append.1 h.disjoint).2.2 b' hb' b List.mem_cons_self
        exact absurd (self_mem_block b) (Set.disjoint_left.1 hdisjoint hmem')
  · rintro rfl
    ext p
    rw [hheld, hregion, List.append_nil]

/-- The calls hold exactly the blocks of the mapped regions reserved while none of them was
`munmap`. -/
theorem held_eq_regions_iff {calls : List MapCall} (h : Fresh s₀) (hrun : Run Step s₀ calls s) :
    heldPages s₀ s = regionPages s ↔ ∀ ptr size, .munmap ptr size ∉ calls := by
  obtain ⟨leaked, haccounts, hnil⟩ := h.accounts.run hrun
  rw [haccounts.held_eq_iff, hnil]
  exact and_iff_right rfl

/-- A page is mapped and unmapped. -/
private theorem mmap_munmap_runs :
    ∃ s₀ s₁ s₂, Fresh s₀ ∧ Run Step s₀ [.mmap 0x2000 0x1000 3] s₁ ∧
      Run Step s₀ [.mmap 0x2000 0x1000 3, .munmap 0x2000 0x1000] s₂ := by
  have hrun : (PageAllocator.construct upperPages (fun _ => unwritten) pageSize).any (fun a =>
      ((fewTablesMachine a).syscallMmap 4 0x2000 0x1000 3).any fun r =>
        r.2.isSome && (r.1.syscallMunmap 4 0x2000 0x1000).isSome) = true := by
    decide +kernel
  obtain ⟨a, ha, hrun⟩ := (Option.any_eq_true ..).1 hrun
  obtain ⟨⟨mmu₁, reserved⟩, hmmap, hrun⟩ := (Option.any_eq_true ..).1 hrun
  obtain ⟨hreserved, hmunmap⟩ := Bool.and_eq_true_iff.1 hrun
  obtain ⟨frame, rfl⟩ := Option.isSome_iff_exists.1 hreserved
  obtain ⟨mmu₂, hmunmap⟩ := Option.isSome_iff_exists.1 hmunmap
  have hfresh : Fresh ⟨fewTablesMachine a, []⟩ :=
    ⟨(PageAllocator.managed_construct upperPages_disjoint ha).1, rfl, rfl⟩
  have hstep₁ : Step ⟨fewTablesMachine a, []⟩ (.mmap 0x2000 0x1000 3)
      ⟨mmu₁, [⟨0x2000, 0x1000, frame⟩]⟩ := .mmap (by decide) hmmap
  have hstep₂ := @Step.munmap ⟨mmu₁, [⟨0x2000, 0x1000, frame⟩]⟩ 4 ⟨0x2000, 0x1000, frame⟩ mmu₂
    (List.mem_singleton.2 rfl) hmunmap
  exact ⟨_, _, _, hfresh, .single hstep₁, .cons hstep₁ (.single hstep₂)⟩

theorem held_eq_regions_iff_one_page :
    ∃ s₀ s₁ s₂, Run Step s₀ [.mmap 0x2000 0x1000 3] s₁ ∧ heldPages s₀ s₁ = regionPages s₁ ∧
      Run Step s₀ [.mmap 0x2000 0x1000 3, .munmap 0x2000 0x1000] s₂ ∧
      heldPages s₀ s₂ ≠ regionPages s₂ := by
  obtain ⟨s₀, s₁, s₂, hfresh, hrun₁, hrun₂⟩ := mmap_munmap_runs
  refine ⟨s₀, s₁, s₂, hrun₁, (held_eq_regions_iff hfresh hrun₁).2 (by simp), hrun₂, fun heq => ?_⟩
  exact (held_eq_regions_iff hfresh hrun₂).1 heq 0x2000 0x1000 (by simp)

/-- The block of a region that was unmapped stays reserved. -/
theorem munmap_keeps_block_reserved :
    ¬ ∀ (s₀ s : MapSession) (calls : List MapCall), Fresh s₀ → Run Step s₀ calls s →
      heldPages s₀ s = regionPages s := by
  intro h
  obtain ⟨s₀, s₁, s₂, hfresh, -, hrun₂⟩ := mmap_munmap_runs
  obtain ⟨leaked, haccounts, hnil⟩ := hfresh.accounts.run hrun₂
  have hempty := hnil.1 (haccounts.held_eq_iff.1 (h s₀ s₂ _ hfresh hrun₂))
  exact hempty.2 0x2000 0x1000 (by simp)

end MapSession

end CrosKernel.Memory
