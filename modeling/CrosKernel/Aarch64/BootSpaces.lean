import CrosKernel.Aarch64.Bootstrap
import CrosKernel.Memory.BootMemory
import CrosKernel.Memory.EntryRoundTrip
import CrosKernel.Memory.Spaces

/-!
# The machine after boot

What `aarch64_boot` does with the memory before it creates a process. `boot_isolated`: the tables of
the bootstrap and the page allocator are such that address spaces stay apart from then on, and the
whole physical memory of the kernel and of the initial file system is kept.
-/

namespace CrosKernel.Aarch64

open Lib Memory Mmu PageTableEntry UserNode

/-- `aarch64_boot` up to `initRamFS`. -/
def bootSpaces (fuel : Nat) (words mem : Nat → Nat) (mapBase : BlockPtr → Block)
    (kernelSize imageEnd f₀ f₁ f₂ : Nat) : Option (Spaces × Heap) := do
  let map ← bootMap kernelSize imageEnd
  let (a, heap) ← initMemory mapBase mem map kernelSize imageEnd
  let m ← (booted words kernelSize f₀ f₁ f₂ a).setPageEntry fuel 2 (highMem + 0x100000000) 0 PAGE_RW
  pure (⟨m, 1, []⟩, heap)

/-- The entries of the kernel half that lead to no table: the blocks of the bootstrap and of
`aarch64_boot`, and the page that `initializeTopTable` uses. -/
def bootBlocks (kernelSize : Nat) : Set UserNode :=
  {c | c = .mid 4 ∨ c = .page 510 511 511 ∨ ∃ j, c = .last 0 j ∧ IsBlock kernelSize j}

/-- The tables of the bootstrap. -/
def bootPlace (f₁ f₂ : Nat) : SpaceNode → Option PageTableEntry
  | (.kernel, .top) => some (.tableDescriptor (f₁ * pageSize))
  | (.kernel, .mid 0) => some (.tableDescriptor (f₂ * pageSize))
  | _ => none

variable {words mem : Nat → Nat} {mapBase : BlockPtr → Block} {a : PageAllocator}
  {f₀ f₁ f₂ kernelSize imageEnd fuel : Nat} {n : SpaceNode} {e : PageTableEntry}

theorem scratchOpen_bootBlocks (kernelSize : Nat) : ScratchOpen (bootBlocks kernelSize) where
  mid := by simp [bootBlocks]
  last := by simp [bootBlocks]
  page := .inr (.inl rfl)

theorem bootPlace_cases (h : bootPlace f₁ f₂ n = some e) :
    n = (.kernel, .top) ∧ e = .tableDescriptor (f₁ * pageSize) ∨
      n = (.kernel, .mid 0) ∧ e = .tableDescriptor (f₂ * pageSize) := by
  unfold bootPlace at h
  split at h
  next => exact .inl ⟨rfl, (Option.some.inj h).symm⟩
  next => exact .inr ⟨rfl, (Option.some.inj h).symm⟩
  next => cases h

theorem outputAddress_table {f : Nat} (hf : f < 2 ^ 31) :
    (tableDescriptor (f * pageSize)).outputAddress = f := PageAllocator.outputOf_page hf

/-- The trees after `mmu_init` are the two tables of the bootstrap. -/
theorem booted_tables (h : BootTables words f₀ f₁ f₂) (hsize : kernelSize ≤ 512 * blockSize)
    (ha : a.Managed) (hnot : f₀ ∉ a.freePages ∧ f₁ ∉ a.freePages ∧ f₂ ∉ a.freePages)
    (hclear : ∀ f ∈ a.freePages, ∀ x < 512, words (f * pageSize + 8 * x) = 0) :
    Tables {f | f ∉ a.freePages ∧ f ≠ f₁ ∧ f ≠ f₂} (bootBlocks kernelSize)
      (booted words kernelSize f₀ f₁ f₂ a) (bootPlace f₁ f₂) := by
  have hframe₁ := outputAddress_table h.lt.1
  have hframe₂ := outputAddress_table h.lt.2
  have hentry₁ : ∀ x < 512, (booted words kernelSize f₀ f₁ f₂ a).memory f₁ x = _ := fun x hx =>
    booted_memory_first h hsize hx
  have hentry₂ : ∀ x < 512, (booted words kernelSize f₀ f₁ f₂ a).memory f₂ x = _ := fun x hx =>
    booted_memory_second h hsize hx
  constructor
  · refine ⟨fun hn hn' heq => ?_, fun hedge hc => ?_, fun {n x c e} hedge hn => ?_⟩
    · obtain ⟨rfl, rfl⟩ | ⟨rfl, rfl⟩ := bootPlace_cases hn <;>
        obtain ⟨rfl, rfl⟩ | ⟨rfl, rfl⟩ := bootPlace_cases hn'
      · rfl
      · exact absurd (hframe₁.symm.trans (heq.trans hframe₂)) h.second
      · exact absurd (hframe₁.symm.trans (heq.symm.trans hframe₂)) h.second
      · rfl
    · obtain ⟨rfl, -⟩ | ⟨rfl, -⟩ := bootPlace_cases hc
      · exact absurd rfl hedge.ne_top
      · cases hedge with
        | kernel hentry =>
            cases hentry
            exact ⟨_, rfl⟩
    · obtain ⟨rfl, rfl⟩ | ⟨rfl, rfl⟩ := bootPlace_cases hn
      · cases hedge with
        | kernel hentry hblocks =>
            cases hentry with
            | mid hx =>
                have hself : ¬ x = 511 := by omega
                rw [hframe₁, hentry₁ x (by omega), if_neg hself]
                by_cases hzero : x = 0
                · subst hzero
                  exact ⟨rfl, isTable_tableDescriptor _, writable_tableDescriptor _, rfl⟩
                · have hnone : bootPlace f₁ f₂ (.kernel, .mid x) = none := by
                    unfold bootPlace
                    split <;> simp_all
                  rw [if_neg hzero, hnone]
                  rfl
      · cases hedge with
        | kernel hentry hblocks =>
            cases hentry with
            | last hi hx =>
                have hblock : ¬ IsBlock kernelSize x := fun hblock =>
                  hblocks (.inr (.inr ⟨x, rfl, hblock⟩))
                rw [hframe₂, hentry₂ x hx, if_neg hblock]
                rfl
  · intro o c e hn
    obtain ⟨hn, -⟩ | ⟨hn, -⟩ := bootPlace_cases hn
    · exact .inl (congrArg Prod.snd hn)
    · cases hn
      exact .inr ⟨.top, 0, .kernel (.mid (by decide)) (by simp [bootBlocks])⟩
  · intro o e hn
    obtain ⟨-, rfl⟩ | ⟨hn, -⟩ := bootPlace_cases hn
    · rw [hframe₁]
      exact ⟨(hentry₁ 511 (by decide)).trans (if_pos rfl), isTable_tableDescriptor _,
        writable_tableDescriptor _, rfl⟩
    · cases hn
  · exact ⟨_, rfl, hframe₁.trans (booted_top h .kernel).symm⟩
  · intro t e hn
    obtain ⟨hn, -⟩ | ⟨hn, -⟩ := bootPlace_cases hn <;> cases hn
  · intro n x c e hentry hblocks hn
    obtain ⟨hnode, rfl⟩ | ⟨hnode, rfl⟩ := bootPlace_cases hn
    · cases hnode
      cases hentry with
      | mid hx =>
          have hfour : x = 4 := by simpa [bootBlocks] using hblocks
          subst hfour
          rw [hframe₁, hentry₁ 4 (by decide)]
          exact ⟨rfl, fun _ => rfl⟩
    · cases hnode
      cases hentry with
      | last hi hx =>
          have hblock : IsBlock kernelSize x := by simpa [bootBlocks] using hblocks
          rw [hframe₂, hentry₂ x hx, if_pos hblock]
          exact ⟨rfl, fun _ => rfl⟩
  · intro n e hn
    obtain ⟨-, rfl⟩ | ⟨-, rfl⟩ := bootPlace_cases hn
    · rw [hframe₁]
      exact ⟨fun hmem => hmem.2.1 rfl, hnot.2.1⟩
    · rw [hframe₂]
      exact ⟨fun hmem => hmem.2.2 rfl, hnot.2.2⟩
  · exact ha
  · exact fun f hf hmem => hmem.1 hf
  · intro f hf x hx
    have hne : f ≠ f₀ ∧ f ≠ f₁ ∧ f ≠ f₂ := by
      refine ⟨?_, ?_, ?_⟩ <;> rintro rfl
      exacts [hnot.1 hf, hnot.2.1 hf, hnot.2.2 hf]
    rw [booted_memory h hsize hne.1 hx, if_neg hne.2.1, if_neg hne.2.2, entriesOf, hclear f hf x hx,
      ofWord_zero]

/-! ## The block for the files -/

/-- The block with all of the physical memory, behind the first four gigabytes of the kernel half. -/
theorem setPageEntry_files {m : Mmu} (h : m.SelfMapped .kernel) :
    m.setPageEntry (fuel + 1) 2 (highMem + 0x100000000) 0 PAGE_RW =
      some (m.set (m.top .kernel) 4 (.blockDescriptor 0 PAGE_RW)) := by
  have hentry : entryAddress 2 (highMem + 0x100000000) =
      some (Half.kernel.base + windowOffset 511 511 4) := by decide
  rw [setPageEntry, if_neg (by decide), hentry, Option.bind_eq_bind, Option.bind_some,
    if_neg (by decide)]
  exact makeDescriptor_ok (write_top h (by decide)) (write_top (h.set (by omega)) (by decide))

theorem walk_files {m : Mmu} (hentry : m.memory (m.top .kernel) 4 = .blockDescriptor 0 PAGE_RW)
    {x : Nat} (hx : x < 2 ^ 30) :
    m.walk (highMem + 0x100000000 + x) = .ok (.blockDescriptor 0 PAGE_RW, x) := by
  have haddr : highMem + 0x100000000 + x = Half.kernel.base + (0x100000000 + x) :=
    Nat.add_assoc ..
  have hindex : (0x100000000 + x) / 2 ^ 30 = 4 := by omega
  have hoffset : (blockDescriptor 0 PAGE_RW).physicalAddress / 2 ^ 30 * 2 ^ 30 +
      (0x100000000 + x) % 2 ^ 30 = x := by
    have hzero : (blockDescriptor 0 PAGE_RW).physicalAddress = 0 := by decide
    rw [hzero]
    omega
  rw [haddr, walk_base .kernel (by omega), walkFrom, hindex, hentry, hoffset]
  rfl

/-- The machine with the block for the files. -/
def bootMmu (words : Nat → Nat) (kernelSize f₀ f₁ f₂ : Nat) (a : PageAllocator) : Mmu :=
  (booted words kernelSize f₀ f₁ f₂ a).set f₁ 4 (.blockDescriptor 0 PAGE_RW)

theorem bootMmu_top (h : BootTables words f₀ f₁ f₂) (half : Half) :
    (bootMmu words kernelSize f₀ f₁ f₂ a).top half = f₁ :=
  (show (bootMmu words kernelSize f₀ f₁ f₂ a).top half =
    (booted words kernelSize f₀ f₁ f₂ a).top half by cases half <;> rfl).trans (booted_top h half)

/-- The files are behind the first four gigabytes, at their offsets in the physical memory. -/
theorem bootMmu_files (h : BootTables words f₀ f₁ f₂) {x : Nat} (hx : x < 2 ^ 30) :
    (bootMmu words kernelSize f₀ f₁ f₂ a).walk (highMem + 0x100000000 + x) =
      .ok (.blockDescriptor 0 PAGE_RW, x) := by
  refine walk_files ?_ hx
  rw [bootMmu_top h, bootMmu, set_memory, if_pos ⟨rfl, rfl⟩]

/-- The memory of the kernel is where it was. -/
theorem bootMmu_image (h : BootTables words f₀ f₁ f₂) (hsize : kernelSize ≤ 512 * blockSize)
    {x : Nat} (hx : x < kernelSize) :
    (bootMmu words kernelSize f₀ f₁ f₂ a).walk (highMem + x) =
      .ok (.blockDescriptor (x / blockSize * blockSize) 5, x) := by
  have hmapped : Mapped kernelSize x := by
    unfold blockSize at hsize
    refine ⟨by omega, .inl ?_⟩
    unfold blockSize
    omega
  have hfirst : (bootMmu words kernelSize f₀ f₁ f₂ a).memory f₁ 0 =
      .tableDescriptor (f₂ * pageSize) := by
    rw [bootMmu, set_memory, if_neg fun hand => absurd hand.2 (by decide),
      booted_memory_first h hsize (by decide), if_neg (by decide), if_pos rfl]
  have hblocks : ∀ y < 512, (bootMmu words kernelSize f₀ f₁ f₂ a).memory f₂ y =
      if IsBlock kernelSize y then .blockDescriptor (y * blockSize) 5 else .cleared := by
    intro y hy
    rw [bootMmu, set_memory, if_neg fun hand => h.second.symm hand.1,
      booted_memory_second h hsize hy]
  have hwalk := walk_blocks (bootMmu_top h .kernel) h.lt.2 hfirst hblocks hmapped.1
  rwa [if_pos hmapped] at hwalk

/-- The block stands beside the tables of the bootstrap. -/
theorem bootMmu_tables {K : Set Nat} (h : BootTables words f₀ f₁ f₂)
    (hT : Tables K (bootBlocks kernelSize) (booted words kernelSize f₀ f₁ f₂ a) (bootPlace f₁ f₂)) :
    Tables K (bootBlocks kernelSize) (bootMmu words kernelSize f₀ f₁ f₂ a) (bootPlace f₁ f₂) := by
  have hblocked : Blocked (.mid 4) (.blockDescriptor 0 PAGE_RW) := ⟨rfl, fun _ => rfl⟩
  have hT' := hT.set_blocked (n := .top) (.mid (by decide)) (.inl rfl) rfl hblocked
  rwa [outputAddress_table h.lt.1] at hT'

/-! ## The machine -/

theorem bootSpaces_eq {heap : Heap} (h : BootTables words f₀ f₁ f₂)
    (hl : BootLayout kernelSize imageEnd) (hsize : kernelSize ≤ 512 * blockSize)
    (hinit : initMemory mapBase mem (ramFSMap kernelSize) kernelSize imageEnd = some (a, heap)) :
    bootSpaces (fuel + 1) words mem mapBase kernelSize imageEnd f₀ f₁ f₂ =
      some (⟨bootMmu words kernelSize f₀ f₁ f₂ a, 1, []⟩, heap) := by
  have hset := @setPageEntry_files fuel _ (booted_selfMapped (a := a) h hsize .kernel)
  rw [booted_top h] at hset
  rw [bootSpaces, bootMap_eq hl, Option.bind_eq_bind, Option.bind_some, hinit, Option.bind_eq_bind,
    Option.bind_some]
  dsimp only
  rw [hset, Option.bind_eq_bind, Option.bind_some]
  rfl

/-- After boot the address spaces are isolated, for all page frames to be kept that are neither free
nor tables. The memory of the kernel, with its heap in it, is mapped and kept, and so are the files of
the initial file system. -/
theorem boot_isolated (h : BootTables words f₀ f₁ f₂) (hl : BootLayout kernelSize imageEnd)
    (hf : ∀ f ∈ [f₀, f₁, f₂], f * pageSize < kernelSize)
    (hclear : ∀ f, SparePage kernelSize f → ∀ x < 512, words (f * pageSize + 8 * x) = 0) :
    ∃ s heap K, bootSpaces (fuel + 1) words mem mapBase kernelSize imageEnd f₀ f₁ f₂ =
        some (s, heap) ∧
      s.Isolated K (bootBlocks kernelSize) ∧ ScratchOpen (bootBlocks kernelSize) ∧
      MappedHeap.WellFormed heap [bootTile kernelSize imageEnd] ∧
      heap.heapEnd = highMem + kernelSize ∧
      (∀ x < kernelSize, s.mmu.walk (highMem + x) =
        .ok (.blockDescriptor (x / blockSize * blockSize) 5, x)) ∧
      (∀ x < 2 ^ 26, s.mmu.walk (highMem + 0x108000000 + x) =
        .ok (.blockDescriptor 0 PAGE_RW, 0x8000000 + x)) ∧
      ∀ f, f * pageSize < kernelSize ∨ 0x8000000 ≤ f * pageSize ∧ f * pageSize < 0xC000000 →
        f ≠ f₁ → f ≠ f₂ → f ∈ K := by
  have hbelow := hl.below
  have hsize : kernelSize ≤ 512 * blockSize := by
    unfold blockSize
    omega
  obtain ⟨a, heap, hinit, hmanaged, hpages, hwell, hend⟩ := initMemory_spec hl mapBase mem
  have hspare : ∀ f, ¬ f * pageSize < kernelSize ∧
      ¬ (0x8000000 ≤ f * pageSize ∧ f * pageSize < 0xC000000) ∨ f ∉ a.freePages := by
    intro f
    rw [hpages, SparePage]
    unfold pageSize
    omega
  have hnot : ∀ f ∈ [f₀, f₁, f₂], f ∉ a.freePages := fun f hmem =>
    (hspare f).resolve_left fun hand => hand.1 (hf f hmem)
  have hT := booted_tables h hsize hmanaged
    ⟨hnot _ (by simp), hnot _ (by simp), hnot _ (by simp)⟩ fun f hfree => hclear f ((hpages f).1 hfree)
  refine ⟨_, heap, _, bootSpaces_eq h hl hsize hinit,
    ⟨bootPlace f₁ f₂, bootMmu_tables h hT, fun a ha => by cases ha⟩,
    scratchOpen_bootBlocks kernelSize, hwell, hend, fun x hx => bootMmu_image h hsize hx,
    fun x hx => ?_, fun f hkept hne₁ hne₂ => ⟨?_, hne₁, hne₂⟩⟩
  · have hfile : 0x8000000 + x < 2 ^ 30 := by omega
    have hwalk : (bootMmu words kernelSize f₀ f₁ f₂ a).walk _ = _ := bootMmu_files h hfile
    rwa [← Nat.add_assoc] at hwalk
  · exact (hspare f).resolve_left fun hand => hkept.elim hand.1 hand.2

/-- Memory that is zero, and tables behind the first instructions. -/
theorem boot_isolated_zero :
    ∃ s heap K, bootSpaces 1 (fun _ => 0) (fun _ => 0) (fun _ => unwritten) 0x2000000 0x100000
        0x81 0x82 0x83 = some (s, heap) ∧
      s.Isolated K (bootBlocks 0x2000000) ∧ ScratchOpen (bootBlocks 0x2000000) ∧
      MappedHeap.WellFormed heap [bootTile 0x2000000 0x100000] ∧
      heap.heapEnd = highMem + 0x2000000 ∧
      (∀ x < 0x2000000, s.mmu.walk (highMem + x) =
        .ok (.blockDescriptor (x / blockSize * blockSize) 5, x)) ∧
      (∀ x < 2 ^ 26, s.mmu.walk (highMem + 0x108000000 + x) =
        .ok (.blockDescriptor 0 PAGE_RW, 0x8000000 + x)) ∧
      ∀ f, f * pageSize < 0x2000000 ∨ 0x8000000 ≤ f * pageSize ∧ f * pageSize < 0xC000000 →
        f ≠ 0x82 → f ≠ 0x83 → f ∈ K :=
  boot_isolated ⟨by decide, by decide, by decide, fun _ _ => rfl, fun _ _ => rfl⟩
    ⟨by decide, by decide, by decide, by decide, by decide⟩ (by decide) fun _ _ _ _ => rfl

end CrosKernel.Aarch64
