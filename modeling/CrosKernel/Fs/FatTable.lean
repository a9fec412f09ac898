import CrosKernel.Fs.Fat32
import Mathlib.Data.List.Chain

/-!
# The file allocation table as a successor map

The words of the allocation table of a volume, the effect of the sector reads and writes of the
allocation functions on them, and chains of clusters. `findFreeCluster_spec` characterizes
`find_free_cluster` and `writeFatEntry_eq` the update of one word through its sector.
-/

namespace CrosKernel.Fs

open Lib

/-! ## Chains in a successor map -/

/-- `FatChain fat clusters chain`: following `fat` from the head of `chain` visits the clusters of
`chain` in order and ends at the end marker. All of them are clusters of the data region. -/
structure FatChain (fat : Nat → Nat) (clusters : Nat) (chain : List Nat) : Prop where
  linked : chain.IsChain fun c next => fat c = next
  last_eq : ∀ c ∈ chain.getLast?, fat c = FAT32.endMarker
  two_le : ∀ c ∈ chain, 2 ≤ c
  lt_clusters : ∀ c ∈ chain, c < clusters

namespace FatChain

variable {fat fat' : Nat → Nat} {clusters : Nat} {chain : List Nat}

theorem nil : FatChain fat clusters [] where
  linked := .nil
  last_eq := by simp
  two_le := by simp
  lt_clusters := by simp

/-- The word of a cluster of a chain is the end marker or the number of another cluster. -/
theorem word_eq {c : Nat} (h : FatChain fat clusters chain) (hmem : c ∈ chain) :
    fat c = FAT32.endMarker ∨ fat c ∈ chain := by
  obtain ⟨before, after, rfl⟩ := List.append_of_mem hmem
  cases after with
  | nil => exact Or.inl (h.last_eq c (by simp))
  | cons next rest =>
      have hlinked := (List.isChain_append.mp h.linked).2.1
      rw [List.isChain_cons_cons] at hlinked
      right
      simp [hlinked.1]

/-- A chain whose last word is redirected to an unused cluster, which is marked as the end, is a
chain again. -/
theorem append {last c : Nat} (h : FatChain fat clusters chain)
    (hlast : chain.getLast? = some last) (hmarker : clusters ≤ FAT32.endMarker)
    (htwo : 2 ≤ c) (hlt : c < clusters) (hfree : c ∉ chain)
    (hlink : fat' last = c) (hend : fat' c = FAT32.endMarker)
    (hframe : ∀ other, other ≠ last → other ≠ c → fat' other = fat other) :
    FatChain fat' clusters (chain ++ [c]) where
  linked := by
    rw [List.isChain_append]
    refine ⟨?_, .singleton c, by simpa [hlast] using hlink⟩
    refine h.linked.imp_of_mem_imp ?_
    intro x next hx hnext hword
    have hxlast : x ≠ last := by
      rintro rfl
      have hmark := h.last_eq x (by simp [hlast])
      have hbound := h.lt_clusters next hnext
      omega
    have hxc : x ≠ c := fun heq => hfree (heq ▸ hx)
    rw [hframe x hxlast hxc, hword]
  last_eq := by simpa using hend
  two_le := by
    intro x hx
    rcases List.mem_append.mp hx with hx | hx
    · exact h.two_le x hx
    · simp only [List.mem_singleton] at hx
      omega
  lt_clusters := by
    intro x hx
    rcases List.mem_append.mp hx with hx | hx
    · exact h.lt_clusters x hx
    · simp only [List.mem_singleton] at hx
      omega

/-- One cluster marked as the end is a chain. -/
theorem singleton {c : Nat} (htwo : 2 ≤ c) (hlt : c < clusters)
    (hend : fat c = FAT32.endMarker) : FatChain fat clusters [c] where
  linked := .singleton c
  last_eq := by simpa using hend
  two_le := by simpa using htwo
  lt_clusters := by simpa using hlt

end FatChain

namespace FAT32

/-! ## Words of the allocation table -/

/-- The number of entries of the allocation table. -/
def fatEntries (fs : FAT32) : Nat :=
  fs.sectorsPerFat * fs.bytesPerSector / fs.bytesPerFatEntry

/-- The word of an entry of the allocation table on disk. -/
def fatWord (fs : FAT32) (entryOffset : Nat) : Nat :=
  wordAt fs.di.disk (fs.fatEntryByteOffset entryOffset) 4

/-- What `FAT32::FAT32` and `FAT32::init` establish on a FAT32 volume: sectors of 512 bytes, FAT
words of four bytes, and a table whose entries number at most `2 ^ 28`. -/
structure Valid (fs : FAT32) : Prop where
  bytesPerSector_eq : fs.bytesPerSector = 512
  disk_bytesPerSector_eq : fs.di.bytesPerSector = 512
  bytesPerFatEntry_eq : fs.bytesPerFatEntry = 4
  sectorsPerCluster_pos : 0 < fs.sectorsPerCluster
  fatEntries_le : fs.fatEntries ≤ 2 ^ 28

/-- The entry `entryOffset` of the table is free. -/
def IsFree (fs : FAT32) (entryOffset : Nat) : Prop :=
  fs.checkFatEntryType (fs.fatWord entryOffset) = .FREE

instance (fs : FAT32) (entryOffset : Nat) : Decidable (fs.IsFree entryOffset) :=
  inferInstanceAs (Decidable (_ = _))

/-- The disk after storing `value` in one entry of the table. -/
def setFatWord (fs : FAT32) (entryOffset value : Nat) : FAT32 :=
  { fs with
    di := { fs.di with disk := setWord fs.di.disk (fs.fatEntryByteOffset entryOffset) value 4 } }

variable {fs : FAT32}

/-- The sectors of the disk consist of whole words of the table. -/
structure WordSectors (fs : FAT32) : Prop where
  disk_bytesPerSector_eq : fs.di.bytesPerSector = fs.bytesPerSector
  bytesPerSector_pos : 0 < fs.bytesPerSector
  dvd_bytesPerSector : 4 ∣ fs.bytesPerSector
  bytesPerFatEntry_eq : fs.bytesPerFatEntry = 4

namespace WordSectors

/-- No entry of the table crosses a sector boundary. -/
theorem inSector (h : fs.WordSectors) (entryOffset : Nat) :
    fs.di.InSector (fs.fatEntryByteOffset entryOffset) 4 := by
  obtain ⟨words, hwords⟩ := h.dvd_bytesPerSector
  have hpos := h.bytesPerSector_pos
  have hmod := Nat.mod_lt (4 * entryOffset) hpos
  have hfour : 4 * entryOffset % fs.bytesPerSector = 4 * (entryOffset % words) := by
    rw [hwords, Nat.mul_mod_mul_left]
  unfold DiskInterface.InSector fatEntryByteOffset
  rw [h.disk_bytesPerSector_eq, h.bytesPerFatEntry_eq, Nat.mul_add_mod_self_right, Nat.mul_comm]
  omega

/-- The sector buffer of an entry holds its word. -/
theorem read_fatWord (h : fs.WordSectors) (entryOffset : Nat) :
    (fs.di.read (fs.fatEntrySectorOffset entryOffset)).bytesToInt
        (fs.fatEntrySectorByteOffset entryOffset) = some (fs.fatWord entryOffset) := by
  unfold fatEntrySectorOffset fatEntrySectorByteOffset
  rw [← h.disk_bytesPerSector_eq]
  exact DiskInterface.read_bytesToNat (h.inSector entryOffset)

end WordSectors

/-- The part of `Valid` that reading FAT words needs. -/
structure HasSectors (fs : FAT32) : Prop where
  bytesPerSector_eq : fs.bytesPerSector = 512
  disk_bytesPerSector_eq : fs.di.bytesPerSector = 512
  bytesPerFatEntry_eq : fs.bytesPerFatEntry = 4

namespace HasSectors

theorem wordSectors (h : fs.HasSectors) : fs.WordSectors where
  disk_bytesPerSector_eq := h.disk_bytesPerSector_eq.trans h.bytesPerSector_eq.symm
  bytesPerSector_pos := by rw [h.bytesPerSector_eq]; decide
  dvd_bytesPerSector := by rw [h.bytesPerSector_eq]; decide
  bytesPerFatEntry_eq := h.bytesPerFatEntry_eq

theorem read_fatWord (h : fs.HasSectors) (entryOffset : Nat) :
    (fs.di.read (fs.fatEntrySectorOffset entryOffset)).bytesToInt
        (fs.fatEntrySectorByteOffset entryOffset) = some (fs.fatWord entryOffset) :=
  h.wordSectors.read_fatWord entryOffset

end HasSectors

namespace Valid

theorem hasSectors (h : fs.Valid) : fs.HasSectors :=
  ⟨h.bytesPerSector_eq, h.disk_bytesPerSector_eq, h.bytesPerFatEntry_eq⟩

theorem inSector (h : fs.Valid) (entryOffset : Nat) :
    fs.di.InSector (fs.fatEntryByteOffset entryOffset) 4 :=
  h.hasSectors.wordSectors.inSector entryOffset

theorem setFatWord (h : fs.Valid) (entryOffset value : Nat) :
    (fs.setFatWord entryOffset value).Valid where
  bytesPerSector_eq := h.bytesPerSector_eq
  disk_bytesPerSector_eq := h.disk_bytesPerSector_eq
  bytesPerFatEntry_eq := h.bytesPerFatEntry_eq
  sectorsPerCluster_pos := h.sectorsPerCluster_pos
  fatEntries_le := h.fatEntries_le

theorem setEntry (h : fs.Valid) (this : EntryPtr) (e : Entry) : (fs.setEntry this e).Valid where
  bytesPerSector_eq := h.bytesPerSector_eq
  disk_bytesPerSector_eq := h.disk_bytesPerSector_eq
  bytesPerFatEntry_eq := h.bytesPerFatEntry_eq
  sectorsPerCluster_pos := h.sectorsPerCluster_pos
  fatEntries_le := h.fatEntries_le

/-- The clusters that `find_free_cluster` looks at have an entry in the table. -/
theorem clustersPerFat_le (h : fs.Valid) :
    fs.sectorsPerFat / fs.sectorsPerCluster ≤ fs.fatEntries := by
  have hdiv := Nat.div_le_self fs.sectorsPerFat fs.sectorsPerCluster
  unfold fatEntries
  rw [h.bytesPerSector_eq, h.bytesPerFatEntry_eq]
  omega

theorem read_fatWord (h : fs.Valid) (entryOffset : Nat) :
    (fs.di.read (fs.fatEntrySectorOffset entryOffset)).bytesToInt
        (fs.fatEntrySectorByteOffset entryOffset) = some (fs.fatWord entryOffset) :=
  h.hasSectors.read_fatWord entryOffset

/-- Changing an entry in the buffer of its sector and writing the buffer back changes that entry
on disk and nothing else. -/
theorem writeFatEntry_eq (h : fs.Valid) (entryOffset value : Nat) :
    ∃ buffer, Buffer.intToBytes value (fs.di.read (fs.fatEntrySectorOffset entryOffset))
        (fs.fatEntrySectorByteOffset entryOffset) = some buffer ∧
      fs.writeSector (fs.fatEntrySectorOffset entryOffset) buffer =
        fs.setFatWord entryOffset value := by
  obtain ⟨buffer, hbuffer, hwrite⟩ :=
    DiskInterface.write_natToBytes value (h.inSector entryOffset)
  refine ⟨buffer, ?_, ?_⟩
  · unfold fatEntrySectorOffset fatEntrySectorByteOffset
    rw [h.bytesPerSector_eq, ← h.disk_bytesPerSector_eq]
    exact hbuffer
  · unfold fatEntrySectorOffset writeSector FAT32.setFatWord
    rw [h.bytesPerSector_eq, ← h.disk_bytesPerSector_eq, hwrite]

/-- Storing a word in the table changes the map of its words at one place. -/
theorem fatWord_setFatWord (h : fs.Valid) {entryOffset value : Nat} (hvalue : value < 2 ^ 32) :
    (fs.setFatWord entryOffset value).fatWord =
      Function.update fs.fatWord entryOffset value := by
  funext other
  have hoffset : ∀ c, fs.fatEntryByteOffset c = fs.reservedSectors * 512 + c * 4 := by
    intro c
    rw [fatEntryByteOffset, h.bytesPerSector_eq, h.bytesPerFatEntry_eq]
  by_cases hother : other = entryOffset
  · subst hother
    rw [Function.update_self]
    exact (wordAt_setWord_same _ _ _ _).trans (Nat.mod_eq_of_lt hvalue)
  · rw [Function.update_of_ne hother]
    refine wordAt_setWord_other ?_
    show fs.fatEntryByteOffset other + 4 ≤ _ ∨ _ ≤ fs.fatEntryByteOffset other
    rw [hoffset, hoffset]
    omega

end Valid

@[simp] theorem setFatWord_entries (entryOffset value : Nat) :
    (fs.setFatWord entryOffset value).entries = fs.entries := rfl

@[simp] theorem setEntry_fatWord (this : EntryPtr) (e : Entry) :
    (fs.setEntry this e).fatWord = fs.fatWord := rfl

@[simp] theorem setEntry_entries_self (this : EntryPtr) (e : Entry) :
    (fs.setEntry this e).entries this = some e :=
  Function.update_self ..

/-! ## The kinds of words -/

/-- A word that names a cluster is not `FREE`. -/
theorem checkFatEntryType_cluster (fs : FAT32) {c : Nat} (htwo : 2 ≤ c) (hlt : c < 2 ^ 28) :
    fs.checkFatEntryType c ≠ .FREE := by
  have hand : c &&& 0xFFFFFFF = c := by
    rw [show 0xFFFFFFF = 2 ^ 28 - 1 from rfl, Nat.and_two_pow_sub_one_eq_mod,
      Nat.mod_eq_of_lt hlt]
  simp only [checkFatEntryType, hand]
  split
  · simp
  · split
    · omega
    · split
      · simp
      · split <;> simp

/-- The end marker is not `FREE`. -/
theorem checkFatEntryType_endMarker (fs : FAT32) : fs.checkFatEntryType endMarker ≠ .FREE := by
  simp [checkFatEntryType, endMarker]

/-- The clusters of `chain` form a chain of the table on disk. -/
def OnDisk (fs : FAT32) (chain : List Nat) : Prop :=
  FatChain fs.fatWord fs.fatEntries chain

/-- A cluster of a chain is not free. -/
theorem OnDisk.not_isFree {chain : List Nat} {c : Nat} (h : fs.OnDisk chain) (hvalid : fs.Valid)
    (hmem : c ∈ chain) : ¬ fs.IsFree c := by
  have hentries := hvalid.fatEntries_le
  rcases h.word_eq hmem with hend | hnext
  · rw [IsFree, hend]
    exact fs.checkFatEntryType_endMarker
  · have hlt := h.lt_clusters _ hnext
    exact fs.checkFatEntryType_cluster (h.two_le _ hnext) (by omega)

/-! ## The search for a free cluster -/

/-- The search that starts at `current` with `remaining` entries left reports the first free one
of them, or 0. -/
theorem findFreeLoop_spec (hsectors : fs.WordSectors) (remaining current : Nat) :
    ∃ r, fs.findFreeLoop remaining (fs.di.read (fs.fatEntrySectorOffset current)) current = some r ∧
      ((r = 0 ∧ ∀ c, current ≤ c → c < current + remaining → ¬ fs.IsFree c) ∨
        (current ≤ r ∧ r < current + remaining ∧ fs.IsFree r ∧
          ∀ c, current ≤ c → c < r → ¬ fs.IsFree c)) := by
  induction remaining generalizing current with
  | zero => exact ⟨0, rfl, Or.inl ⟨rfl, fun c hle hlt => by omega⟩⟩
  | succ remaining ih =>
      simp only [findFreeLoop, hsectors.read_fatWord, Option.bind_eq_bind, Option.bind_some]
      by_cases hfree : fs.IsFree current
      · refine ⟨current, if_pos hfree, Or.inr ⟨le_rfl, by omega, hfree, fun c hle hlt => by omega⟩⟩
      · have hbuffer : (if fs.fatEntrySectorOffset (current + 1) ≠ fs.fatEntrySectorOffset current
            then fs.di.read (fs.fatEntrySectorOffset (current + 1))
            else fs.di.read (fs.fatEntrySectorOffset current)) =
            fs.di.read (fs.fatEntrySectorOffset (current + 1)) := by
          split
          next => rfl
          next hsame => rw [not_not.mp hsame]
        obtain ⟨r, hr, hspec⟩ := ih (current + 1)
        refine ⟨r, (if_neg hfree).trans (by rw [hbuffer, hr]), ?_⟩
        have hskip : ∀ c, current ≤ c → (current + 1 ≤ c → ¬ fs.IsFree c) → ¬ fs.IsFree c := by
          intro c hle h
          rcases Nat.eq_or_lt_of_le hle with rfl | hlt
          · exact hfree
          · exact h hlt
        rcases hspec with ⟨hzero, hnone⟩ | ⟨hle, hlt, hisFree, hbefore⟩
        · exact Or.inl ⟨hzero, fun c hc hlt =>
            hskip c hc fun hle => hnone c hle (by omega)⟩
        · exact Or.inr ⟨by omega, by omega, hisFree, fun c hc hlt =>
            hskip c hc fun hle => hbefore c hle hlt⟩

/-- `r` is the first free cluster among those that `find_free_cluster` looks at. -/
structure FirstFree (fs : FAT32) (r : Nat) : Prop where
  two_le : 2 ≤ r
  lt_clustersPerFat : r < fs.sectorsPerFat / fs.sectorsPerCluster
  free : fs.IsFree r
  before : ∀ c, 2 ≤ c → c < r → ¬ fs.IsFree c

theorem FirstFree.ne_zero {r : Nat} (h : fs.FirstFree r) : r ≠ 0 :=
  Nat.ne_of_gt (Nat.zero_lt_of_lt h.two_le)

theorem FirstFree.lt_fatEntries {r : Nat} (h : fs.FirstFree r) (hvalid : fs.Valid) :
    r < fs.fatEntries :=
  h.lt_clustersPerFat.trans_le hvalid.clustersPerFat_le

/-- `find_free_cluster` reports 0 when no cluster is free, and the first free one otherwise. -/
theorem findFreeCluster_cases (hsectors : fs.WordSectors) :
    (fs.findFreeCluster = some 0 ∧
        ∀ c, 2 ≤ c → c < fs.sectorsPerFat / fs.sectorsPerCluster → ¬ fs.IsFree c) ∨
      ∃ r, fs.findFreeCluster = some r ∧ fs.FirstFree r := by
  obtain ⟨r, hr, hspec⟩ :=
    findFreeLoop_spec hsectors (fs.sectorsPerFat / fs.sectorsPerCluster - 2) 2
  rcases hspec with ⟨rfl, hnone⟩ | ⟨hle, hlt, hfree, hbefore⟩
  · exact Or.inl ⟨hr, fun c htwo hlt => hnone c htwo (by omega)⟩
  · exact Or.inr ⟨r, hr, hle, by omega, hfree, hbefore⟩

theorem findFreeCluster_spec (hvalid : fs.Valid) :
    (fs.findFreeCluster = some 0 ∧
        ∀ c, 2 ≤ c → c < fs.sectorsPerFat / fs.sectorsPerCluster → ¬ fs.IsFree c) ∨
      ∃ r, fs.findFreeCluster = some r ∧ fs.FirstFree r :=
  findFreeCluster_cases hvalid.hasSectors.wordSectors

/-- The first free cluster is the one `find_free_cluster` reports. -/
theorem FirstFree.findFreeCluster_eq {r : Nat} (h : fs.FirstFree r) (hvalid : fs.Valid) :
    fs.findFreeCluster = some r := by
  rcases findFreeCluster_spec hvalid with ⟨-, hnone⟩ | ⟨r', hfound, h'⟩
  · exact absurd h.free (hnone r h.two_le h.lt_clustersPerFat)
  · have hle : r' ≤ r := Nat.le_of_not_lt fun hlt => h'.before r h.two_le hlt h.free
    have hge : r ≤ r' := Nat.le_of_not_lt fun hlt => h.before r' h'.two_le hlt h'.free
    rw [hfound, Nat.le_antisymm hle hge]

end FAT32

end CrosKernel.Fs
