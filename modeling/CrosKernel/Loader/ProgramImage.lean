import CrosKernel.Loader.Elf

/-!
# The page frames of a program image

`buildProgramImage` reserves a block of page frames for every segment that it loads, and computes
from the first address and the size which pages to map to them. The block is for the size alone, and
the computation adds or takes away the part of the first page: `maps_reserved_iff` says for which
segments the mapped frames are those of the block.
-/

namespace CrosKernel.Loader

open Lib Memory PageAllocator Util

/-- The number of pages with room for some bytes. -/
def pagesOf (size : Nat) : Nat := (size + pageSize - 1) / pageSize

namespace Segment

/-- The pages of the block that was reserved for the segment. -/
def blockPages (s : Segment) : Set Nat := block (MapSession.blockAt s.allocator s.frame)

/-- The pages of the frames that `map_region` is called to map. -/
def mappedPages (s : Segment) : List Nat :=
  (Mmu.offsets s.mapSize).map fun p => (s.frame + p) % 2 ^ 64 / pageSize

/-- The computation of the length of the mapping subtracts more than there is. -/
def Underflows (s : Segment) : Prop := s.firstFrame ≠ 0 ∧ s.sectionSize < pageSize - s.diff

/-- The segment is mapped to frames of its block. -/
structure MapsOwn (s : Segment) : Prop where
  within : ∀ p ∈ s.mappedPages, p ∈ s.blockPages
  no_underflow : ¬ s.Underflows

/-- When the first page is not mapped yet, the pages that the segment lies in are no more than a
block for its size has. When it is mapped, the segment reaches the end of that page. -/
def Fits (s : Segment) : Prop :=
  (s.firstFrame = 0 →
      pagesOf (s.sectionSize + s.diff) ≤ 2 ^ Nat.clog 2 (pagesOf s.sectionSize)) ∧
    (s.firstFrame ≠ 0 → pageSize - s.diff ≤ s.sectionSize)

instance (s : Segment) : Decidable s.Fits := inferInstanceAs (Decidable (_ ∧ _))

/-- The block of the segment is what `reserve` took out of an allocator for its size. -/
structure Planned (s : Segment) (a : PageAllocator) (index : Nat) : Prop where
  managed : a.Managed
  sectionSize_lt : s.sectionSize < 2 ^ 64
  frame_eq : s.frame = index * pageSize
  reserved : Reserved a s.allocator index (a.orderOf s.sectionSize)
  room : s.sectionSize ≤ 2 ^ a.orderOf s.sectionSize * pageSize

variable {s : Segment} {a : PageAllocator} {index : Nat}

/-- The block lies below the end of the physical memory. -/
theorem Planned.index_lt (h : s.Planned a index) :
    index + 2 ^ a.orderOf s.sectionSize ≤ 2 ^ 31 := by
  have hpos : 0 < 2 ^ a.orderOf s.sectionSize := Nat.two_pow_pos _
  have hlast : index + 2 ^ a.orderOf s.sectionSize - 1 ∈ block (index, a.orderOf s.sectionSize) :=
    (mem_block_iff h.reserved.aligned).2 (by omega)
  have hlt := h.managed.lt_of_free (h.reserved.subset hlast)
  omega

/-- Nothing is reserved for an empty segment: its size is taken for that of the largest block. -/
theorem Planned.one_le (h : s.Planned a index) : 1 ≤ s.sectionSize := by
  by_contra hzero
  have horder : a.orderOf s.sectionSize = 52 := by
    rw [Nat.lt_one_iff.1 (Nat.lt_of_not_le hzero), PageAllocator.orderOf, h.managed.blockSize_eq]
    decide
  have hindex := h.index_lt
  rw [horder] at hindex
  omega

theorem Planned.orderOf_eq (h : s.Planned a index) :
    a.orderOf s.sectionSize = Nat.clog 2 (pagesOf s.sectionSize) := by
  have hsize := h.managed.blockSize_eq
  rw [PageAllocator.orderOf_eq (by rw [hsize]; decide) h.one_le h.sectionSize_lt, hsize]
  rfl

theorem Planned.mem_blockPages (h : s.Planned a index) (p : Nat) :
    p ∈ s.blockPages ↔ index ≤ p ∧ p < index + 2 ^ a.orderOf s.sectionSize := by
  have hindex : s.frame / pageSize = index := by
    rw [h.frame_eq]
    exact Nat.mul_div_cancel index (by decide)
  rw [blockPages, MapSession.blockAt, hindex, h.reserved.kval_eq,
    mem_block_iff h.reserved.aligned]

/-- A mapping of few enough pages goes to the pages from the beginning of the block on. -/
theorem Planned.mem_mappedPages (h : s.Planned a index) (hsize : s.mapSize ≤ 2 ^ 44) (p : Nat) :
    p ∈ s.mappedPages ↔ index ≤ p ∧ p < index + pagesOf s.mapSize := by
  have hindex : index ≤ 2 ^ 31 := (Nat.le_add_right _ _).trans h.index_lt
  have hpages : pagesOf s.mapSize ≤ 2 ^ 33 := by
    unfold pagesOf pageSize
    omega
  have hpage : ∀ i, i < pagesOf s.mapSize →
      (s.frame + i * pageSize) % 2 ^ 64 / pageSize = index + i := by
    intro i hi
    rw [h.frame_eq, ← Nat.add_mul, Nat.mod_eq_of_lt (by unfold pageSize; omega)]
    exact Nat.mul_div_cancel _ (by decide)
  simp only [mappedPages, Mmu.offsets, List.map_map, List.mem_map, List.mem_range,
    Function.comp_apply]
  constructor
  · rintro ⟨i, hi, rfl⟩
    rw [hpage i hi]
    exact ⟨Nat.le_add_right _ _, Nat.add_lt_add_left hi _⟩
  · rintro ⟨hle, hlt⟩
    refine ⟨p - index, show p - index < pagesOf s.mapSize by omega, ?_⟩
    rw [hpage _ (by omega)]
    omega

theorem Planned.within_iff (h : s.Planned a index) (hsize : s.mapSize ≤ 2 ^ 44) :
    (∀ p ∈ s.mappedPages, p ∈ s.blockPages) ↔
      pagesOf s.mapSize ≤ 2 ^ a.orderOf s.sectionSize := by
  simp only [h.mem_mappedPages hsize, h.mem_blockPages]
  constructor
  · intro hall
    by_contra hmore
    have hbehind := hall (index + 2 ^ a.orderOf s.sectionSize)
      ⟨Nat.le_add_right _ _, Nat.add_lt_add_left (Nat.lt_of_not_le hmore) _⟩
    exact Nat.lt_irrefl _ hbehind.2
  · rintro hle p ⟨hp, hlt⟩
    omega

theorem Planned.sectionSize_le (h : s.Planned a index) : s.sectionSize ≤ 2 ^ 43 := by
  have hindex := h.index_lt
  refine h.room.trans ?_
  unfold pageSize
  omega

theorem diff_lt (s : Segment) : s.diff < 4096 := Nat.mod_lt _ (by decide)

/-- The length of the mapping when the first page is not mapped yet. -/
theorem Planned.mapSize_eq_add (h : s.Planned a index) (hfirst : s.firstFrame = 0) :
    s.mapSize = s.sectionSize + s.diff := by
  have hsize := h.sectionSize_le
  have hdiff := s.diff_lt
  rw [mapSize, if_pos hfirst]
  exact Nat.mod_eq_of_lt (by omega)

/-- The length of the mapping when the first page is mapped and the segment reaches its end. -/
theorem Planned.mapSize_eq_sub (h : s.Planned a index) (hfirst : s.firstFrame ≠ 0)
    (hreach : pageSize - s.diff ≤ s.sectionSize) :
    s.mapSize = s.sectionSize - (pageSize - s.diff) := by
  rw [mapSize, if_neg hfirst]
  exact sub64_eq hreach h.sectionSize_lt

/-- A segment is mapped to frames of its block just if it fits. -/
theorem Planned.mapsOwn_iff (h : s.Planned a index) : s.MapsOwn ↔ s.Fits := by
  have hroom := h.room
  have hsize := h.sectionSize_le
  have hdiff := s.diff_lt
  by_cases hfirst : s.firstFrame = 0
  · have hmap := h.mapSize_eq_add hfirst
    have hwithin := h.within_iff (by omega)
    rw [hmap, h.orderOf_eq] at hwithin
    constructor
    · intro hown
      exact ⟨fun _ => hwithin.1 hown.within, fun hne => absurd hfirst hne⟩
    · intro hfits
      exact ⟨hwithin.2 (hfits.1 hfirst), fun hunder => hunder.1 hfirst⟩
  · by_cases hreach : pageSize - s.diff ≤ s.sectionSize
    · have hmap := h.mapSize_eq_sub hfirst hreach
      have hpages : pagesOf s.mapSize ≤ 2 ^ a.orderOf s.sectionSize := by
        rw [hmap, pagesOf]
        unfold pageSize at *
        omega
      refine iff_of_true ⟨(h.within_iff (by omega)).2 hpages, fun hunder => ?_⟩
        ⟨fun hzero => absurd hzero hfirst, fun _ => hreach⟩
      exact absurd hunder.2 (Nat.not_lt.2 hreach)
    · refine iff_of_false (fun hown => ?_) fun hfits => hreach (hfits.2 hfirst)
      exact hown.no_underflow ⟨hfirst, Nat.lt_of_not_le hreach⟩

/-- The first page behind the block. -/
def behind (s : Segment) : Nat :=
  (MapSession.blockAt s.allocator s.frame).1 + 2 ^ (MapSession.blockAt s.allocator s.frame).2

/-- Where a segment that does not fit is mapped: to its block and the page behind it. -/
theorem Planned.mem_mappedPages_of_not_fits (h : s.Planned a index) (hfits : ¬ s.Fits)
    (hfirst : s.firstFrame = 0) (p : Nat) :
    p ∈ s.mappedPages ↔ p ∈ s.blockPages ∨ p = s.behind := by
  have hroom := h.room
  have hsize := h.sectionSize_le
  have hdiff := s.diff_lt
  have hindex : s.frame / pageSize = index := by
    rw [h.frame_eq]
    exact Nat.mul_div_cancel index (by decide)
  have hbehind : s.behind = index + 2 ^ a.orderOf s.sectionSize := by
    rw [behind, MapSession.blockAt, hindex, h.reserved.kval_eq]
  have hmore : ¬ pagesOf (s.sectionSize + s.diff) ≤ 2 ^ a.orderOf s.sectionSize := by
    rw [h.orderOf_eq]
    exact fun hle => hfits ⟨fun _ => hle, fun hne => absurd hfirst hne⟩
  have hpages : pagesOf (s.sectionSize + s.diff) = 2 ^ a.orderOf s.sectionSize + 1 := by
    unfold pagesOf pageSize at *
    omega
  have hpos : 0 < 2 ^ a.orderOf s.sectionSize := Nat.two_pow_pos _
  rw [h.mem_mappedPages (by rw [h.mapSize_eq_add hfirst]; omega), h.mem_blockPages, hbehind,
    h.mapSize_eq_add hfirst, hpages]
  omega

/-- The frames for a segment lie in blocks of the image just if it fits, or if the page behind its
block happens to be one of another block. -/
theorem Planned.reserved_iff {segments : List Segment} (h : s.Planned a index)
    (hs : s ∈ segments) :
    ((∀ p ∈ s.mappedPages, ∃ s' ∈ segments, p ∈ s'.blockPages) ∧ ¬ s.Underflows) ↔
      s.Fits ∨ s.firstFrame = 0 ∧ ∃ s' ∈ segments, s.behind ∈ s'.blockPages := by
  by_cases hfits : s.Fits
  · have hown := h.mapsOwn_iff.2 hfits
    exact iff_of_true ⟨fun p hp => ⟨s, hs, hown.within p hp⟩, hown.no_underflow⟩ (.inl hfits)
  by_cases hfirst : s.firstFrame = 0
  · have hmapped := h.mem_mappedPages_of_not_fits hfits hfirst
    constructor
    · rintro ⟨hall, -⟩
      exact .inr ⟨hfirst, hall s.behind ((hmapped _).2 (.inr rfl))⟩
    · rintro (hfits' | ⟨-, hother⟩)
      · exact absurd hfits' hfits
      · refine ⟨fun p hp => ?_, fun hunder => hunder.1 hfirst⟩
        rcases (hmapped p).1 hp with hblock | rfl
        exacts [⟨s, hs, hblock⟩, hother]
  · refine iff_of_false (fun hmaps => hmaps.2 ⟨hfirst, ?_⟩) ?_
    · by_contra hreach
      exact hfits ⟨fun hzero => absurd hzero hfirst, fun _ => Nat.le_of_not_lt hreach⟩
    · rintro (hfits' | ⟨hzero, -⟩)
      exacts [hfits hfits', hfirst hzero]

end Segment

/-- Every page frame that is mapped lies in a block that was reserved for the image, and no length
of a mapping underflows. -/
def Image.MapsReserved (image : Image) : Prop :=
  ∀ s ∈ image.segments,
    (∀ p ∈ s.mappedPages, ∃ s' ∈ image.segments, p ∈ s'.blockPages) ∧ ¬ s.Underflows

/-! ## The allocator during the copy -/

variable {v : ByteView} {fuel : Nat} {m m' : Mmu} {P : PageAllocator → List Nat → Prop}

/-- A store of a byte reserves page frames for tables only. -/
theorem storeByte_stable (hP : Mmu.TableStable P) {va : Nat} {byte : UInt8}
    (h : P m.pageAllocator m.tableFrames) (hstore : storeByte v fuel m va byte = some m') :
    P m'.pageAllocator m'.tableFrames := by
  induction fuel generalizing m with
  | zero => cases hstore
  | succ fuel ih =>
      rw [storeByte] at hstore
      split at hstore
      next leaf pa hwalk =>
        split at hstore
        · cases hstore
          exact h
        · cases hstore
      next => cases hstore
      next level hwalk =>
        obtain ⟨m₁, hhandle, hagain⟩ := Option.bind_eq_some_iff.1 hstore
        have hstable : Mmu.Stable P (Mmu.store fuel) := Mmu.stable_store hP fuel
        exact ih (hstable.handlePageFault hP h hhandle) hagain

theorem memset_stable (hP : Mmu.TableStable P) {s size : Nat} {byte : UInt8}
    (h : P m.pageAllocator m.tableFrames) (hset : memset v fuel m s size byte = some m') :
    P m'.pageAllocator m'.tableFrames := by
  rw [memset] at hset
  split at hset
  next =>
    generalize size % 2 ^ 32 = remaining at hset
    induction remaining generalizing m s with
    | zero =>
        cases hset
        exact h
    | succ remaining ih =>
        obtain ⟨m₁, hstore, hrest⟩ := Option.bind_eq_some_iff.1 hset
        exact ih (storeByte_stable hP h hstore) hrest
  next =>
    cases hset
    exact h

theorem memcpy_stable (hP : Mmu.TableStable P) {dest src count : Nat}
    (h : P m.pageAllocator m.tableFrames) (hcopy : memcpy v fuel m dest src count = some m') :
    P m'.pageAllocator m'.tableFrames := by
  rw [memcpy] at hcopy
  split at hcopy
  next =>
    induction count generalizing m dest src with
    | zero =>
        cases hcopy
        exact h
    | succ count ih =>
        obtain ⟨byte, -, hrest⟩ := Option.bind_eq_some_iff.1 hcopy
        obtain ⟨m₁, hstore, hrest⟩ := Option.bind_eq_some_iff.1 hrest
        exact ih (storeByte_stable hP h hstore) (by omega) hrest
  next => cases hcopy

theorem mapSegment_stable (hP : Mmu.TableStable P) {s : Segment}
    (h : P m.pageAllocator m.tableFrames) (hmap : mapSegment v fuel m s = some m') :
    P m'.pageAllocator m'.tableFrames := by
  obtain ⟨m₁, hregion, hmap⟩ := Option.bind_eq_some_iff.1 hmap
  obtain ⟨m₂, hset, hcopy⟩ := Option.bind_eq_some_iff.1 hmap
  have h₁ := Mmu.mapRegion_stable hP h hregion
  exact memcpy_stable hP (memset_stable hP h₁ hset) hcopy

theorem mapSegment_managed {s : Segment} (h : m.pageAllocator.Managed)
    (hmap : mapSegment v fuel m s = some m') : m'.pageAllocator.Managed := by
  refine mapSegment_stable (P := fun a _ => a.Managed) ?_ h hmap
  intro a a' frames frame h hreserve hne
  exact (h.reserve_outputOf hreserve hne).1

/-! ## The loop -/

theorem loadWord_lt {va size w : Nat} (h : loadWord v m va size = some w) : w < 256 ^ size := by
  induction size generalizing va w with
  | zero =>
      cases h
      decide
  | succ size ih =>
      obtain ⟨byte, -, h⟩ := Option.bind_eq_some_iff.1 h
      obtain ⟨rest, hrest, heq⟩ := Option.bind_eq_some_iff.1 h
      cases heq
      have hlt := ih hrest
      have hbyte := byte.toNat_lt
      rw [Nat.pow_succ]
      omega

/-- The segment that is mapped in a pass got its block in this pass. -/
theorem beginSection_mapping {elf : ELF} {p : Nat} {s : Segment} (h : m.pageAllocator.Managed)
    (hbegin : beginSection v m elf p = some (.mapping m' s)) :
    m'.pageAllocator.Managed ∧ ∃ a index, s.Planned a index := by
  obtain ⟨type, -, hbegin⟩ := Option.bind_eq_some_iff.1 hbegin
  split at hbegin
  next => cases hbegin
  next =>
    obtain ⟨sectionSize, hmemsize, hbegin⟩ := Option.bind_eq_some_iff.1 hbegin
    obtain ⟨⟨a, frame⟩, hreserve, hbegin⟩ := Option.bind_eq_some_iff.1 hbegin
    dsimp only at hbegin
    split at hbegin
    next => cases hbegin
    next hne =>
      obtain ⟨fileSize, -, hbegin⟩ := Option.bind_eq_some_iff.1 hbegin
      obtain ⟨dest, -, hbegin⟩ := Option.bind_eq_some_iff.1 hbegin
      obtain ⟨offset, -, hbegin⟩ := Option.bind_eq_some_iff.1 hbegin
      obtain ⟨firstFrame, -, heq⟩ := Option.bind_eq_some_iff.1 hbegin
      cases heq
      have hlt : sectionSize < 2 ^ 64 := loadWord_lt hmemsize
      rcases h.reserve hlt with hnone | ⟨a', index, hsome, -, hreserved, hroom⟩
      · rw [hnone] at hreserve
        cases hreserve
        exact absurd rfl hne
      · rw [hsome] at hreserve
        cases hreserve
        exact ⟨hreserved.managed, _, index, h, hlt, rfl, hreserved, hroom⟩

theorem Image.exists_of_mem_next {loop : Mmu → ELF → Image} {elf : ELF} {s : Segment}
    (hs : s ∈ (Image.next v loop m elf).segments) : ∃ elf', s ∈ (loop m elf').segments := by
  unfold Image.next at hs
  split at hs
  · cases hs
  next elf' _ => exact ⟨elf', hs⟩
  · cases hs

/-- Sections have indices of 16 bits, so more passes than that change nothing. -/
theorem buildLoop_passes {remaining : Nat} {elf : ELF} (hlt : elf.sectionIndex < 2 ^ 16)
    (hpasses : 2 ^ 16 ≤ elf.sectionIndex + remaining) :
    buildLoop v fuel (remaining + 1) m elf = buildLoop v fuel remaining m elf := by
  induction remaining generalizing m elf with
  | zero => omega
  | succ remaining ih =>
      have hnext : ∀ m : Mmu, Image.next v (buildLoop v fuel (remaining + 1)) m elf =
          Image.next v (buildLoop v fuel remaining) m elf := by
        intro m
        unfold Image.next ELF.nextSection
        cases hcount : elf.phcount v m with
        | none => rfl
        | some phcount =>
            have hphcount : phcount < 2 ^ 16 := loadWord_lt hcount
            by_cases hlast : elf.sectionIndex + 1 ≥ phcount
            · simp [hlast]
            · have hrest := @ih m { elf with sectionIndex := elf.sectionIndex + 1 }
                (show elf.sectionIndex + 1 < 2 ^ 16 by omega)
                (show 2 ^ 16 ≤ elf.sectionIndex + 1 + remaining by omega)
              simpa [hlast] using hrest
      rw [buildLoop, buildLoop]
      simp only [hnext]

/-- Every segment that is mapped got its block from the allocator. -/
theorem buildLoop_planned {remaining : Nat} {elf : ELF} {s : Segment}
    (h : m.pageAllocator.Managed) (hs : s ∈ (buildLoop v fuel remaining m elf).segments) :
    ∃ a index, s.Planned a index := by
  induction remaining generalizing m elf with
  | zero => cases hs
  | succ remaining ih =>
      rw [buildLoop] at hs
      split at hs
      next => cases hs
      next =>
        obtain ⟨elf', hs⟩ := Image.exists_of_mem_next hs
        exact ih h hs
      next => cases hs
      next m₁ s₁ hbegin =>
        obtain ⟨p, -, hbegin⟩ := Option.bind_eq_some_iff.1 hbegin
        obtain ⟨hmanaged, hplanned⟩ := beginSection_mapping h hbegin
        split at hs
        next =>
          rw [List.mem_singleton.1 hs]
          exact hplanned
        next m₂ hmap =>
          rcases List.mem_cons.1 hs with rfl | hs
          · exact hplanned
          · obtain ⟨elf', hs⟩ := Image.exists_of_mem_next hs
            exact ih (mapSegment_managed hmanaged hmap) hs

theorem buildProgramImage_planned {elf : ELF} {s : Segment} (h : m.pageAllocator.Managed)
    (hs : s ∈ (buildProgramImage v fuel m elf).segments) : ∃ a index, s.Planned a index := by
  unfold buildProgramImage at hs
  split at hs
  · cases hs
  · cases hs
  · exact buildLoop_planned h hs

/-- Every segment of an image is mapped to frames of its own block, with no underflow, just if every
segment fits. The frames of one that does not fit lie in blocks of the image only if the page behind
its block happens to be one of another segment. -/
theorem maps_reserved_iff (v : ByteView) (fuel : Nat) (elf : ELF) (h : m.pageAllocator.Managed) :
    let image := buildProgramImage v fuel m elf
    ((∀ s ∈ image.segments, s.MapsOwn) ↔ ∀ s ∈ image.segments, s.Fits) ∧
      (image.MapsReserved ↔ ∀ s ∈ image.segments, s.Fits ∨
        s.firstFrame = 0 ∧ ∃ s' ∈ image.segments, s.behind ∈ s'.blockPages) := by
  constructor
  · refine forall₂_congr fun s hs => ?_
    obtain ⟨a, index, hplanned⟩ := buildProgramImage_planned h hs
    exact hplanned.mapsOwn_iff
  · refine forall₂_congr fun s hs => ?_
    obtain ⟨a, index, hplanned⟩ := buildProgramImage_planned h hs
    exact hplanned.reserved_iff hs

/-- A file with one segment of two bytes, from the page at 0x1000 on, at this offset. -/
private def twoBytes (offset : UInt8) : Nat → UInt8
  | 0 => 0x7f
  | 1 => 0x45
  | 2 => 0x4c
  | 3 => 0x46
  | 32 => 64
  | 56 => 1
  | 64 => 1
  | 80 => offset
  | 81 => 0x1f
  | 96 => 2
  | 104 => 2
  | _ => 0

/-- The file lies in the frame at 0x5000, and is not overwritten. -/
private def fileView (offset : UInt8) : ByteView where
  peek _ pa := twoBytes offset (pa - 0x5000)
  poke memory _ _ := memory

/-- The two bytes before the end of the page. -/
theorem maps_reserved_iff_two_bytes :
    ∃ m : Mmu, (buildProgramImage (fileView 0xfe) 4 m (.new highMem)).segments ≠ [] ∧
      ∀ s ∈ (buildProgramImage (fileView 0xfe) 4 m (.new highMem)).segments, s.MapsOwn := by
  have hrun : (construct upperPages (fun _ => unwritten) pageSize).any (fun a =>
      let image := buildProgramImage (fileView 0xfe) 4 (fewTablesMachine a) (.new highMem)
      !image.segments.isEmpty && decide (∀ s ∈ image.segments, s.Fits)) = true := by
    decide +kernel
  obtain ⟨a, ha, hrun⟩ := (Option.any_eq_true ..).1 hrun
  obtain ⟨hne, hfits⟩ := Bool.and_eq_true_iff.1 hrun
  have hmanaged := (managed_construct upperPages_disjoint ha).1
  refine ⟨fewTablesMachine a, by simpa using hne, ?_⟩
  exact (maps_reserved_iff (m := fewTablesMachine a) (fileView 0xfe) 4 (.new highMem) hmanaged).1.2
    (of_decide_eq_true hfits)

/-- Two bytes on both sides of the end of a page: a block of one page is reserved, and the page
behind it is mapped as well. -/
theorem segment_maps_page_behind :
    ¬ ∀ (v : ByteView) (fuel : Nat) (m : Mmu) (elf : ELF), m.pageAllocator.Managed →
      elf.isValid v m = some true →
      (∀ s ∈ (buildProgramImage v fuel m elf).segments, s.fileSize ≤ s.sectionSize) →
      (buildProgramImage v fuel m elf).MapsReserved := by
  intro hall
  have hrun : (construct upperPages (fun _ => unwritten) pageSize).any (fun a =>
      let m := fewTablesMachine a
      let image := buildProgramImage (fileView 0xff) 4 m (.new highMem)
      decide ((ELF.new highMem).isValid (fileView 0xff) m = some true) &&
        (decide (∀ s ∈ image.segments, s.fileSize ≤ s.sectionSize) &&
          decide (∃ s ∈ image.segments, 17 ∈ s.mappedPages ∧ ∀ s' ∈ image.segments,
            MapSession.blockAt s'.allocator s'.frame = (16, 0)))) = true := by
    decide +kernel
  obtain ⟨a, ha, hrun⟩ := (Option.any_eq_true ..).1 hrun
  obtain ⟨hvalid, hrun⟩ := Bool.and_eq_true_iff.1 hrun
  obtain ⟨hsizes, hmapped⟩ := Bool.and_eq_true_iff.1 hrun
  obtain ⟨s, hs, hpage, hblocks⟩ := of_decide_eq_true hmapped
  have hmanaged := (managed_construct upperPages_disjoint ha).1
  have hreserved := hall (fileView 0xff) 4 (fewTablesMachine a) (.new highMem) hmanaged
    (of_decide_eq_true hvalid) (of_decide_eq_true hsizes)
  obtain ⟨s', hs', hmem⟩ := (hreserved s hs).1 17 hpage
  rw [Segment.blockPages, hblocks s' hs', block_zero] at hmem
  exact absurd hmem (by decide)

end CrosKernel.Loader
