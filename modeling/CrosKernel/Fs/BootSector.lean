import CrosKernel.Fs.DirEntry

/-!
# The boot sector

`FAT32::FAT32` and `FAT32::init` of `src/fs/fat32/fat32.cpp`: the numbers in the boot sector, the
members of `FAT32` computed from them, and the construction of the root entry. On a volume that
starts its data region at a whole number of clusters `readData_chain` says which disk sectors
`read_data` reads for a file whose chain is well formed.
-/

namespace CrosKernel.Fs

open Lib

/-- The numbers that `FAT32::init` reads from the boot sector. -/
structure BootSector where
  bytesPerSector : Nat
  sectorsPerCluster : Nat
  reservedSectors : Nat
  fatCount : Nat
  totalSectors : Nat
  sectorsPerFat : Nat
  deriving DecidableEq

namespace BootSector

/-- The reads at the beginning of `FAT32::init`. -/
def parse (rootSector : Buffer) : Option BootSector := do
  let bytesPerSector ← rootSector.bytesToShort 11
  let sectorsPerCluster ← rootSector.get 13
  let reservedSectors ← rootSector.bytesToShort 14
  let fatCount ← rootSector.get 16
  let totalSectors ← rootSector.bytesToInt 32
  let totalSectors ← (if totalSectors = 0 then rootSector.bytesToShort 19 else some totalSectors)
  let sectorsPerFat ← rootSector.bytesToInt 36
  pure { bytesPerSector := bytesPerSector, sectorsPerCluster := sectorsPerCluster.toNat
         reservedSectors := reservedSectors, fatCount := fatCount.toNat
         totalSectors := totalSectors, sectorsPerFat := sectorsPerFat }

/-- The members that `FAT32::init` computes, on the disk `di`. -/
def volume (b : BootSector) (di : DiskInterface) (rootDir : EntryPtr)
    (entries : EntryPtr → Option Entry) : FAT32 where
  di := di
  rootDir := rootDir
  entries := entries
  dataRegionStartClusterOffset :=
    (b.reservedSectors + b.fatCount * b.sectorsPerFat) / b.sectorsPerCluster
  bytesPerFatEntry := 4
  bytesPerDirEntry := 32
  bytesPerCluster := b.bytesPerSector * b.sectorsPerCluster
  bytesPerSector := b.bytesPerSector
  sectorsPerCluster := b.sectorsPerCluster
  sectorsPerFat := b.sectorsPerFat
  reservedSectors := b.reservedSectors
  reservedFatEntries := 2
  totalSectors := b.totalSectors

/-- The byte offset at which `FAT32::init` constructs the root entry. -/
def rootOffset (b : BootSector) : Nat :=
  (b.reservedSectors + b.fatCount * b.sectorsPerFat) / b.sectorsPerCluster *
    (b.bytesPerSector * b.sectorsPerCluster)

/-- The first sector of the data region. -/
def dataSector (b : BootSector) : Nat := b.reservedSectors + b.fatCount * b.sectorsPerFat

/-- A volume below 2 GiB with sectors of 512 bytes, whose data region starts at a whole number of
clusters and not before the third one. -/
structure Aligned (b : BootSector) : Prop where
  bytesPerSector_eq : b.bytesPerSector = 512
  sectorsPerCluster_pos : 0 < b.sectorsPerCluster
  size_lt : b.totalSectors * 512 < 2 ^ 31
  dataSector_eq : b.dataSector = b.dataSector / b.sectorsPerCluster * b.sectorsPerCluster
  two_le : 2 ≤ b.dataSector / b.sectorsPerCluster

/-- A cluster of the data region. -/
def IsCluster (b : BootSector) (c : Nat) : Prop :=
  2 ≤ c ∧ c < 2 + (b.totalSectors - b.dataSector) / b.sectorsPerCluster

variable {b : BootSector} {c : Nat}

/-- The clusters of the data region are below the number of clusters that `check_fat_entry_type`
computes, because that number counts the two clusters before the data region, too. -/
theorem IsCluster.lt_totalClusters (hb : b.Aligned) (hc : b.IsCluster c) :
    c < b.totalSectors / b.sectorsPerCluster ∧ b.dataSector ≤ b.totalSectors := by
  obtain ⟨htwo, hlt⟩ := hc
  have hregion : 0 < (b.totalSectors - b.dataSector) / b.sectorsPerCluster := by omega
  have hle : b.dataSector ≤ b.totalSectors := by
    by_contra hgt
    rw [show b.totalSectors - b.dataSector = 0 by omega, Nat.zero_div] at hregion
    exact Nat.lt_irrefl 0 hregion
  have hsplit : b.totalSectors =
      b.totalSectors - b.dataSector +
        b.sectorsPerCluster * (b.dataSector / b.sectorsPerCluster) := by
    rw [Nat.mul_comm, ← hb.dataSector_eq]
    omega
  have hstart := hb.two_le
  rw [hsplit, Nat.add_mul_div_left _ _ hb.sectorsPerCluster_pos, ← hsplit]
  exact ⟨by omega, hle⟩

theorem totalClusters_lt (hb : b.Aligned) : b.totalSectors / b.sectorsPerCluster < 2 ^ 22 := by
  have hsize := hb.size_lt
  exact Nat.lt_of_le_of_lt (Nat.div_le_self _ _) (by omega)

theorem IsCluster.isClusterNumber (hb : b.Aligned) (hc : b.IsCluster c) :
    FAT32.IsClusterNumber c := by
  have hlt := (hc.lt_totalClusters hb).1
  have hfew := totalClusters_lt hb
  exact ⟨hc.1, by omega⟩

end BootSector

namespace FAT32

/-- `FAT32::FAT32(ramfs)`, with the disk of `ramfs`. Dividing by zero stops the machine. -/
def init (fuel : Nat) (di : DiskInterface) : Option (FAT32 × EntryTree) := do
  let b ← BootSector.parse (di.read 0)
  if b.bytesPerSector = 0 ∨ b.sectorsPerCluster = 0 then none
  else
    let fs := b.volume di 0 fun _ => none
    newEntry fuel fs b.rootOffset

/-- `chain` is a well-formed chain of clusters of the data region. Each word holds the next cluster
and the last one an end marker, all with their upper four bits clear. -/
structure IsClusterChain (fs : FAT32) (b : BootSector) (chain : List Nat) : Prop where
  linked : chain.IsChain fun c next => fs.fatWord c = next
  last : ∀ c ∈ chain.getLast?, 0xFFFFFF8 ≤ fs.fatWord c ∧ fs.fatWord c < 2 ^ 28
  nodup : chain.Nodup
  cluster : ∀ c ∈ chain, b.IsCluster c

variable {b : BootSector} {di : DiskInterface} {rootDir : EntryPtr}
  {entries : EntryPtr → Option Entry} {c : Nat} {chain : List Nat} {fs : FAT32}

/-- Clusters that are all counted are collected, with the end marker behind them. -/
theorem collected_counted (h : ∀ d ∈ chain, fs.Counted d) :
    ∃ marker, fs.collected (c :: chain) = c :: chain ++ [marker] := by
  induction chain generalizing c with
  | nil => exact ⟨fs.fatWord c, rfl⟩
  | cons d rest ih =>
      obtain ⟨marker, hrest⟩ := ih (c := d) fun x hx => h x (List.mem_cons_of_mem d hx)
      refine ⟨marker, ?_⟩
      simp only [collected, h d (by simp), if_true, hrest]
      rfl

theorem volume_fewClusters (hb : b.Aligned) : (b.volume di rootDir entries).FewClusters := by
  have hfew := BootSector.totalClusters_lt hb
  show b.totalSectors / b.sectorsPerCluster ≤ 0xFFFFFF7
  omega

theorem volume_hasSectors (hb : b.Aligned) (hdi : di.bytesPerSector = 512) :
    (b.volume di rootDir entries).HasSectors :=
  ⟨hb.bytesPerSector_eq, hdi, rfl⟩

/-- For a chain of the data region `find_cluster_allocations` appends the chain, and for more than
one cluster a marker. -/
theorem findClusterAllocations_chain {this : EntryPtr} {e : Entry} (hb : b.Aligned)
    (hdi : di.bytesPerSector = 512) (hentry : entries this = some e)
    (h : (b.volume di rootDir entries).IsClusterChain b (c :: chain)) {fuel : Nat}
    (hfuel : chain.length + 1 < fuel) :
    ∃ markers, (b.volume di rootDir entries).findClusterAllocations fuel this c =
      some ((b.volume di rootDir entries).setEntry this
        { e with fatAllocations := e.fatAllocations ++ (c :: chain ++ markers) }) := by
  obtain ⟨n, rfl⟩ : ∃ n, fuel = n + 1 := ⟨fuel - 1, by omega⟩
  have hsectors : (b.volume di rootDir entries).HasSectors := volume_hasSectors hb hdi
  have hfew : (b.volume di rootDir entries).FewClusters := volume_fewClusters hb
  have hcounted : ∀ d ∈ c :: chain, (b.volume di rootDir entries).Counted d :=
    fun d hd => ((h.cluster d hd).lt_totalClusters hb).1
  have hend : ∀ d ∈ (c :: chain).getLast?,
      IsEndMarker ((b.volume di rootDir entries).fatWord d) := by
    intro d hd
    obtain ⟨hge, hlt⟩ := h.last d hd
    rwa [IsEndMarker, Nat.mod_eq_of_lt hlt]
  have hlinked : (b.volume di rootDir entries).IsLinked (c :: chain) :=
    ⟨h.linked, hend, fun d hd => (h.cluster d hd).isClusterNumber hb⟩
  have hnumber := hlinked.number c (by simp)
  have hread := read_clusterFat hsectors hnumber
  have hne : c ≠ 0 := Nat.ne_of_gt (Nat.lt_of_lt_of_le Nat.zero_lt_two hnumber.1)
  have hthis : (b.volume di rootDir entries).entries this = some e := hentry
  cases chain with
  | nil =>
      -- the end marker behind the only cluster ends the loop before its first round
      have htype := checkFatEntryType_endMarker_ne (hend c (by simp)) hfew
      refine ⟨[], ?_⟩
      simp [findClusterAllocations, hne, hread, findClusterLoop, htype, hthis]
  | cons d rest =>
      have hword : (b.volume di rootDir entries).fatWord c = d :=
        (List.isChain_cons_cons.1 h.linked).1
      have htype : (b.volume di rootDir entries).checkFatEntryType d = .ALLOCATED :=
        (checkFatEntryType_number (hlinked.number d (by simp))).2 (hcounted d (by simp))
      obtain ⟨marker, hcollected⟩ := collected_counted (c := c) fun x hx =>
        hcounted x (List.mem_cons_of_mem c hx)
      have hloop := findClusterLoop_spec hsectors hfew hlinked hfuel
      rw [hcollected] at hloop
      refine ⟨[marker], ?_⟩
      simp [findClusterAllocations, hne, hread, hword, htype, hloop, hthis]

/-- The sector arithmetic of `read_data` for a cluster of the data region. -/
theorem fatEntryToClusterOffset_mul (hb : b.Aligned) (hc : b.IsCluster c) :
    (b.volume di rootDir entries).fatEntryToClusterOffset c * b.sectorsPerCluster =
      b.dataSector + (c - 2) * b.sectorsPerCluster := by
  obtain ⟨hlt, hle⟩ := hc.lt_totalClusters hb
  have hfew := BootSector.totalClusters_lt hb
  have hstart : b.dataSector / b.sectorsPerCluster ≤ b.totalSectors / b.sectorsPerCluster :=
    Nat.div_le_div_right hle
  have htwo := hc.1
  have hoffset : (b.volume di rootDir entries).fatEntryToClusterOffset c =
      b.dataSector / b.sectorsPerCluster + (c - 2) := by
    show (c + (2 ^ 32 - 2) + b.dataSector / b.sectorsPerCluster) % 2 ^ 32 = _
    generalize b.dataSector / b.sectorsPerCluster = start at hstart
    omega
  rw [hoffset, Nat.add_mul, ← hb.dataSector_eq]

/-- `read_data` of a file reads the sector that the collected clusters give. -/
theorem readData_file {fs : FAT32} {this : EntryPtr} {e : Entry} {s cluster : Nat}
    (hentry : fs.entries this = some e) (hfile : e.type = .FILE)
    (hcluster : e.fatAllocations[s / fs.sectorsPerCluster]? = some cluster) :
    fs.readData this s = some (some (fs.di.read
      (fs.fatEntryToClusterOffset cluster * fs.sectorsPerCluster + s % fs.sectorsPerCluster))) := by
  simp [readData, hentry, hfile, hcluster]

/-- On an aligned volume, after `find_cluster_allocations` for the first cluster of a well-formed
chain, `read_data` reads the sectors of the clusters of the chain in their order. -/
theorem readData_chain {this : EntryPtr} {e : Entry} (hb : b.Aligned)
    (hdi : di.bytesPerSector = 512) (hentry : entries this = some e) (hfile : e.type = .FILE)
    (hnew : e.fatAllocations = [])
    (h : (b.volume di rootDir entries).IsClusterChain b (c :: chain)) {fuel : Nat}
    (hfuel : chain.length + 1 < fuel) :
    ∃ fs', (b.volume di rootDir entries).findClusterAllocations fuel this c = some fs' ∧
      ∀ s (hs : s / b.sectorsPerCluster < (c :: chain).length), ∃ buffer,
        fs'.readData this s = some (some buffer) ∧ buffer.size = 512 ∧
          ∀ i, i < 512 → buffer.data i = di.disk (512 *
            (b.reservedSectors + b.fatCount * b.sectorsPerFat +
              ((c :: chain)[s / b.sectorsPerCluster] - 2) * b.sectorsPerCluster +
              s % b.sectorsPerCluster) + i) := by
  obtain ⟨markers, hfind⟩ := findClusterAllocations_chain hb hdi hentry h hfuel
  refine ⟨_, hfind, fun s hs => ?_⟩
  have hcluster := h.cluster _ (List.getElem_mem hs)
  have hget : (c :: chain ++ markers)[s / b.sectorsPerCluster]? =
      some (c :: chain)[s / b.sectorsPerCluster] := by
    rw [List.getElem?_append_left hs, List.getElem?_eq_getElem hs]
  have hread : ∀ sector, (di.read sector).data = fun i => di.disk (512 * sector + i) := by
    intro sector
    funext i
    show di.disk (i + di.bytesPerSector * sector) = _
    rw [hdi, Nat.add_comm]
  refine ⟨di.read (b.dataSector +
    ((c :: chain)[s / b.sectorsPerCluster] - 2) * b.sectorsPerCluster + s % b.sectorsPerCluster),
    ?_, hdi, fun i _ => ?_⟩
  · rw [← fatEntryToClusterOffset_mul hb hcluster]
    refine readData_file (setEntry_entries_self ..) hfile ?_
    show (e.fatAllocations ++ (c :: chain ++ markers))[s / b.sectorsPerCluster]? = _
    rw [hnew, List.nil_append, hget]
  · rw [hread]
    rfl

/-- A volume of eight sectors, with clusters of one sector and a table of one sector. -/
def tinyBootSector : BootSector where
  bytesPerSector := 512
  sectorsPerCluster := 1
  reservedSectors := 1
  fatCount := 1
  totalSectors := 8
  sectorsPerFat := 1

/-- Its disk, with the chain of the clusters 3 and 5. -/
private def tinyDisk : DiskInterface where
  bytesPerSector := 512
  disk := setWord (setWord (fun _ => 0) 524 5 4) 532 0xFFFFFFF 4

private def tinyVolume : FAT32 := tinyBootSector.volume tinyDisk 0 fun _ => some emptyFile

private theorem tiny_isClusterChain :
    tinyVolume.IsClusterChain tinyBootSector [3, 5] where
  linked := by
    have hword : tinyVolume.fatWord 3 = 5 := by
      decide +kernel
    simpa using hword
  last := by
    have hword : tinyVolume.fatWord 5 = 0xFFFFFFF := by
      decide +kernel
    simp [hword]
  nodup := by decide
  cluster := by
    intro c hc
    simp only [List.mem_cons, List.not_mem_nil, or_false] at hc
    show 2 ≤ c ∧ c < 2 + (8 - 2) / 1
    omega

theorem readData_chain_tiny :
    ∃ fs', tinyVolume.findClusterAllocations 3 0 3 = some fs' ∧
      ∀ s (hs : s / 1 < [3, 5].length), ∃ buffer,
        fs'.readData 0 s = some (some buffer) ∧ buffer.size = 512 ∧
          ∀ i, i < 512 → buffer.data i =
            tinyDisk.disk (512 * (1 + 1 * 1 + ([3, 5][s / 1] - 2) * 1 + s % 1) + i) := by
  have haligned : tinyBootSector.Aligned := ⟨rfl, by decide, by decide, by decide, by decide⟩
  exact readData_chain haligned rfl rfl rfl rfl tiny_isClusterChain (by decide)

end FAT32

end CrosKernel.Fs
