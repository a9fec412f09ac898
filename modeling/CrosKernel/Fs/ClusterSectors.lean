import CrosKernel.Fs.BootSector

/-!
# The first sector of a cluster

The offsets of `FAT32::init`, `fat_entry_to_cluster_offset`, `read_data`, `write_data` and
`find_sub_dir_entries` in the `int` arithmetic of the code. The start of the data region is kept as
a number of clusters, so that its remainder is lost, and the byte offsets of `find_sub_dir_entries`
overflow behind 2 GiB: `firstSector_iff` says for which clusters the sectors are right.
-/

namespace CrosKernel.Fs

/-- The `int` with the low 32 bits of a number. -/
def toInt (x : Int) : Int := toSigned (toUnsigned x)

theorem toInt_of_lt {x : Int} (hpos : 0 ≤ x) (hlt : x < 2 ^ 31) : toInt x = x := by
  unfold toInt toSigned toUnsigned
  split <;> omega

theorem toInt_lt (x : Int) : toInt x < 2 ^ 31 := by
  unfold toInt toSigned
  split <;> omega

theorem toInt_natCast {n : Nat} (hlt : n < 2 ^ 31) : toInt n = n :=
  toInt_of_lt (Int.natCast_nonneg n) (by exact_mod_cast hlt)

/-- Overflow of a factor does not change a product. -/
theorem toInt_mul_toInt (x y : Int) : toInt (x * toInt y) = toInt (x * y) := by
  have hmod : toInt y % 2 ^ 32 = y % 2 ^ 32 := by
    unfold toInt toSigned toUnsigned
    split <;> omega
  show toSigned (x * toInt y % 2 ^ 32).toNat = toSigned (x * y % 2 ^ 32).toNat
  rw [Int.mul_emod, hmod, ← Int.mul_emod]

namespace BootSector

variable {b : BootSector} {n s : Nat}

/-! ## Offsets in `int` arithmetic -/

/-- `data_region_start_cluster_offset`. -/
def dataRegionStartClusterOffset (b : BootSector) : Int :=
  (toInt (b.reservedSectors + toInt (b.fatCount * toInt b.sectorsPerFat))).tdiv b.sectorsPerCluster

/-- `bytes_per_cluster`. -/
def bytesPerCluster (b : BootSector) : Int := toInt (b.bytesPerSector * b.sectorsPerCluster)

/-- `fat_entry_to_cluster_offset`. -/
def fatEntryToClusterOffset (b : BootSector) (fatEntry : Nat) : Int :=
  toInt (fatEntry - 2 + b.dataRegionStartClusterOffset)

/-- The `target_sector_offset` of `read_data` and `write_data`, for the cluster that the sector at
`sectorOffset` of the file is in. -/
def targetSectorOffset (b : BootSector) (cluster sectorOffset : Nat) : Int :=
  toInt (toInt (b.fatEntryToClusterOffset cluster * b.sectorsPerCluster) +
    (sectorOffset : Int).tmod b.sectorsPerCluster)

/-- The first `search_byte_offset` of `find_sub_dir_entries` in a cluster. -/
def searchByteOffset (b : BootSector) (cluster : Nat) : Int :=
  toInt (b.fatEntryToClusterOffset cluster * b.bytesPerCluster)

/-- The sector in which `parse_attribute` and `parse_short_file_name` look for a byte offset. -/
def sectorOffsetOf (b : BootSector) (byteOffset : Int) : Int := byteOffset.tdiv b.bytesPerSector

/-- The first sector of a cluster of the data region. -/
def firstSector (b : BootSector) (cluster : Nat) : Nat :=
  b.reservedSectors + b.fatCount * b.sectorsPerFat + (cluster - 2) * b.sectorsPerCluster

/-! ## Right sectors -/

/-- Without overflow the region starts at the cluster of its first sector, rounded down. -/
theorem dataRegionStartClusterOffset_eq (hlt : b.dataSector < 2 ^ 31) :
    b.dataRegionStartClusterOffset = (b.dataSector / b.sectorsPerCluster : Nat) := by
  unfold dataSector at hlt ⊢
  rw [dataRegionStartClusterOffset, toInt_mul_toInt, ← Nat.cast_mul, toInt_natCast (by omega),
    ← Nat.cast_add, toInt_natCast hlt]
  rfl

/-- The bounds that a first sector below `2 ^ 22` gives for the offsets. -/
theorem fatEntryToClusterOffset_eq (hspc : 0 < b.sectorsPerCluster) (hn : 2 ≤ n)
    (hlt : b.firstSector n < 2 ^ 22) :
    b.fatEntryToClusterOffset n = (n - 2 + b.dataSector / b.sectorsPerCluster : Nat) := by
  have hdata : b.firstSector n = b.dataSector + (n - 2) * b.sectorsPerCluster := rfl
  have hcluster : n - 2 ≤ (n - 2) * b.sectorsPerCluster := Nat.le_mul_of_pos_right _ hspc
  have hstart : b.dataSector / b.sectorsPerCluster ≤ b.dataSector := Nat.div_le_self _ _
  have hcast : (n : Int) - 2 = (n - 2 : Nat) := by omega
  rw [fatEntryToClusterOffset, dataRegionStartClusterOffset_eq (by omega), hcast, ← Nat.cast_add,
    toInt_natCast (by omega)]

/-- `read_data` loses the remainder of the start of the data region. -/
theorem targetSectorOffset_eq (hspc : 0 < b.sectorsPerCluster) (hn : 2 ≤ n)
    (hlt : b.firstSector n < 2 ^ 22) (hs : b.sectorsPerCluster ∣ s) :
    b.targetSectorOffset n s =
      (b.firstSector n - b.dataSector % b.sectorsPerCluster : Nat) := by
  have hdata : b.firstSector n = b.dataSector + (n - 2) * b.sectorsPerCluster := rfl
  have hsplit := Nat.div_add_mod b.dataSector b.sectorsPerCluster
  have hmul : (n - 2 + b.dataSector / b.sectorsPerCluster) * b.sectorsPerCluster =
      b.firstSector n - b.dataSector % b.sectorsPerCluster := by
    rw [Nat.add_mul, Nat.mul_comm (b.dataSector / b.sectorsPerCluster)]
    omega
  have hzero : (s : Int).tmod b.sectorsPerCluster = 0 :=
    Int.tmod_eq_zero_of_dvd (Int.natCast_dvd_natCast.2 hs)
  rw [targetSectorOffset, hzero, fatEntryToClusterOffset_eq hspc hn hlt, ← Nat.cast_mul, hmul,
    toInt_natCast (by omega), add_zero, toInt_natCast (by omega)]

/-- `find_sub_dir_entries` finds the same sector while the byte offset fits. -/
theorem sectorOffsetOf_eq (hsector : b.bytesPerSector = 512) (hspc : 0 < b.sectorsPerCluster)
    (hn : 2 ≤ n) (hlt : b.firstSector n < 2 ^ 22) (hdvd : b.sectorsPerCluster ∣ b.dataSector) :
    b.sectorOffsetOf (b.searchByteOffset n) = b.firstSector n := by
  have hdata : b.firstSector n = b.dataSector + (n - 2) * b.sectorsPerCluster := rfl
  have hmul : (n - 2 + b.dataSector / b.sectorsPerCluster) * (b.bytesPerSector *
      b.sectorsPerCluster) = 512 * b.firstSector n := by
    have hback := Nat.div_mul_cancel hdvd
    rw [hsector, hdata, Nat.mul_left_comm, Nat.add_mul, hback, Nat.add_comm]
  have hbyte : b.searchByteOffset n = (512 * b.firstSector n : Nat) := by
    rw [searchByteOffset, bytesPerCluster, toInt_mul_toInt, fatEntryToClusterOffset_eq hspc hn hlt,
      ← Nat.cast_mul, ← Nat.cast_mul, hmul, toInt_natCast (by omega)]
  rw [sectorOffsetOf, hbyte, hsector]
  exact congrArg Nat.cast (Nat.mul_div_cancel_left _ (by decide))

/-- The sector that `find_sub_dir_entries` computes lies below 2 GiB. -/
theorem sectorOffsetOf_lt (hsector : b.bytesPerSector = 512)
    (h : b.sectorOffsetOf (b.searchByteOffset n) = b.firstSector n) :
    b.firstSector n * 512 < 2 ^ 31 := by
  have hlt : b.searchByteOffset n < 2 ^ 31 := toInt_lt _
  rw [sectorOffsetOf, hsector] at h
  rcases Int.le_total 0 (b.searchByteOffset n) with hpos | hneg
  · rw [Int.tdiv_eq_ediv_of_nonneg hpos] at h
    omega
  · have hle := Int.tdiv_nonneg (Int.neg_nonneg_of_nonpos hneg) (Int.natCast_nonneg 512)
    rw [Int.neg_tdiv] at hle
    omega

/-- `read_data`, `write_data` and `find_sub_dir_entries` use the first sector of a cluster if and
only if the data region starts at a whole number of clusters and the sector lies below 2 GiB. -/
theorem firstSector_iff (hsector : b.bytesPerSector = 512) (hspc : 0 < b.sectorsPerCluster)
    (hn : 2 ≤ n) :
    ((∀ s, b.sectorsPerCluster ∣ s → b.targetSectorOffset n s = b.firstSector n) ∧
        b.sectorOffsetOf (b.searchByteOffset n) = b.firstSector n) ↔
      b.sectorsPerCluster ∣ b.reservedSectors + b.fatCount * b.sectorsPerFat ∧
        b.firstSector n * 512 < 2 ^ 31 := by
  have hdata : b.firstSector n = b.dataSector + (n - 2) * b.sectorsPerCluster := rfl
  constructor
  · rintro ⟨hread, hsearch⟩
    have hlt := sectorOffsetOf_lt hsector hsearch
    refine ⟨Nat.dvd_of_mod_eq_zero ?_, hlt⟩
    show b.dataSector % b.sectorsPerCluster = 0
    have hzero := hread 0 (Nat.dvd_zero _)
    rw [targetSectorOffset_eq hspc hn (by omega) (Nat.dvd_zero _), Nat.cast_inj] at hzero
    have hle := Nat.mod_le b.dataSector b.sectorsPerCluster
    omega
  · rintro ⟨hdvd, hlt⟩
    refine ⟨fun s hs => ?_, sectorOffsetOf_eq hsector hspc hn (by omega) hdvd⟩
    have hmod : b.dataSector % b.sectorsPerCluster = 0 := Nat.mod_eq_zero_of_dvd hdvd
    rw [targetSectorOffset_eq hspc hn (by omega) hs, hmod, Nat.sub_zero]

/-- A volume with one table of eight sectors and clusters of two sectors: the data region starts at
the sector 9. -/
def oddBootSector : BootSector where
  bytesPerSector := 512
  sectorsPerCluster := 2
  reservedSectors := 1
  fatCount := 1
  totalSectors := 1000
  sectorsPerFat := 8

theorem firstSector_iff_odd :
    ((∀ s, oddBootSector.sectorsPerCluster ∣ s →
          oddBootSector.targetSectorOffset 2 s = oddBootSector.firstSector 2) ∧
        oddBootSector.sectorOffsetOf (oddBootSector.searchByteOffset 2) =
          oddBootSector.firstSector 2) ↔
      oddBootSector.sectorsPerCluster ∣
          oddBootSector.reservedSectors + oddBootSector.fatCount * oddBootSector.sectorsPerFat ∧
        oddBootSector.firstSector 2 * 512 < 2 ^ 31 :=
  firstSector_iff rfl (by decide) (by decide)

/-- The first cluster of this volume is looked for in the sector 8, the last one of the table. -/
theorem firstSector_misses :
    ¬ ∀ (b : BootSector) (n : Nat), b.bytesPerSector = 512 → 0 < b.sectorsPerCluster → 2 ≤ n →
      (∀ s, b.sectorsPerCluster ∣ s → b.targetSectorOffset n s = b.firstSector n) ∧
        b.sectorOffsetOf (b.searchByteOffset n) = b.firstSector n := by
  intro hall
  have hread := (hall oddBootSector 2 rfl (by decide) (by decide)).1 0 (by decide)
  have height : oddBootSector.targetSectorOffset 2 0 = 8 := by decide
  rw [height] at hread
  exact absurd hread (by decide)

end BootSector

/-! ## The sectors of the volume -/

namespace FAT32

variable {b : BootSector} {di : DiskInterface} {rootDir this : EntryPtr}
  {entries : EntryPtr → Option Entry} {e : Entry} {n s : Nat}

/-- Without overflow the cluster offset is a natural number. -/
theorem volume_fatEntryToClusterOffset (hspc : 0 < b.sectorsPerCluster) (hn : 2 ≤ n)
    (hlt : b.firstSector n < 2 ^ 22) :
    b.fatEntryToClusterOffset n = (b.volume di rootDir entries).fatEntryToClusterOffset n ∧
      (b.volume di rootDir entries).fatEntryToClusterOffset n * b.sectorsPerCluster ≤
        b.firstSector n := by
  have hdata : b.firstSector n = b.dataSector + (n - 2) * b.sectorsPerCluster := rfl
  have hcluster : n - 2 ≤ (n - 2) * b.sectorsPerCluster := Nat.le_mul_of_pos_right _ hspc
  have hstart : b.dataSector / b.sectorsPerCluster ≤ b.dataSector := Nat.div_le_self _ _
  have hoffset : (b.volume di rootDir entries).fatEntryToClusterOffset n =
      n - 2 + b.dataSector / b.sectorsPerCluster := by
    show (n + (2 ^ 32 - 2) + b.dataSector / b.sectorsPerCluster) % 2 ^ 32 = _
    generalize b.dataSector / b.sectorsPerCluster = start at hstart
    omega
  have hback := Nat.div_mul_le_self b.dataSector b.sectorsPerCluster
  rw [BootSector.fatEntryToClusterOffset_eq hspc hn hlt, hoffset, Nat.add_mul]
  exact ⟨rfl, by omega⟩

/-- Below 2 GiB `read_data` reads the sector with the `int` offset. -/
theorem readData_targetSector (hspc : 0 < b.sectorsPerCluster) (hn : 2 ≤ n)
    (hlt : b.firstSector n + b.sectorsPerCluster < 2 ^ 22) (hentry : entries this = some e)
    (hfile : e.type = .FILE) (hcluster : e.fatAllocations[s / b.sectorsPerCluster]? = some n) :
    ∃ sector : Nat, b.targetSectorOffset n s = sector ∧
      (b.volume di rootDir entries).readData this s = some (some (di.read sector)) := by
  have hoffset : _ = ((b.volume di rootDir entries).fatEntryToClusterOffset n : Int) ∧ _ :=
    volume_fatEntryToClusterOffset hspc hn (by omega)
  have hrest := Nat.mod_lt s hspc
  refine ⟨_, ?_, readData_file hentry hfile hcluster⟩
  show toInt (toInt (b.fatEntryToClusterOffset n * b.sectorsPerCluster) +
    ((s % b.sectorsPerCluster : Nat) : Int)) = _
  rw [hoffset.1, ← Nat.cast_mul, toInt_natCast (by omega), ← Nat.cast_add, toInt_natCast (by omega)]
  rfl

/-- Below 2 GiB the slots that `find_sub_dir_entries` visits in a cluster start at the `int` offset.
-/
theorem slotOffsets_searchByteOffset (hspc : 0 < b.sectorsPerCluster) (hn : 2 ≤ n)
    (hlt : b.bytesPerSector * b.firstSector n < 2 ^ 31) (hsector : b.bytesPerSector = 512) {a : Nat}
    (ha : a ∈ (b.volume di rootDir entries).slotOffsets n) :
    ∃ i : Nat, (a : Int) = b.searchByteOffset n + 32 * i := by
  have hoffset : _ = ((b.volume di rootDir entries).fatEntryToClusterOffset n : Int) ∧ _ :=
    volume_fatEntryToClusterOffset hspc hn (by rw [hsector] at hlt; omega)
  obtain ⟨i, -, rfl⟩ := List.mem_map.1 ha
  refine ⟨i, ?_⟩
  have hbyte : (b.volume di rootDir entries).fatEntryToClusterOffset n *
      (b.bytesPerSector * b.sectorsPerCluster) < 2 ^ 31 := by
    rw [Nat.mul_left_comm]
    exact Nat.lt_of_le_of_lt (Nat.mul_le_mul_left _ hoffset.2) hlt
  rw [BootSector.searchByteOffset, BootSector.bytesPerCluster, toInt_mul_toInt, hoffset.1,
    ← Nat.cast_mul, ← Nat.cast_mul, toInt_natCast hbyte]
  show (((b.volume di rootDir entries).fatEntryToClusterOffset n *
    (b.bytesPerSector * b.sectorsPerCluster) + i * 32 : Nat) : Int) = _
  push_cast
  ring

end FAT32

end CrosKernel.Fs
