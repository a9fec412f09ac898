import CrosKernel.Fs.DiskInterface

/-!
# The FAT32 volume

The state of `class FAT32` and the member functions of `FAT32::Entry` that read and allocate
clusters, after `src/fs/fat32/entry_helpers.cpp`, `entry.cpp`, `fat32.cpp` and `fs_helpers.cpp`.
Entries are objects on the heap named by their address. Functions return `none` where the code
would follow a null pointer or leave an array; `success` and `failure` are booleans, and the
`int` offsets and cluster numbers are natural numbers.
-/

namespace CrosKernel.Fs

/-- `FAT32::EntryAttribute`. -/
inductive EntryAttribute where
  | FILE | EMPTY | DIRECTORY | LONG_NAME | ROOT
  deriving DecidableEq, Repr

/-- `FAT32::FatEntryType`. -/
inductive FatEntryType where
  | END | FREE | RESERVED | ALLOCATED | DEFECTIVE
  deriving DecidableEq, Repr

/-- The address of an `Entry` object. -/
abbrev EntryPtr := Nat

/-- A `class string`: the characters before the terminator. -/
abbrev Str := List UInt8

/-- The members of `FAT32::Entry` that path lookup, reading and allocation use. -/
structure Entry where
  name : Str
  type : EntryAttribute
  fileSizeBytes : Int
  byteOffset : Nat
  parentDir : Option EntryPtr
  subDirs : List EntryPtr
  fatAllocations : List Nat

/-- The members of `FAT32`, with the heap of its entries. -/
structure FAT32 where
  di : DiskInterface
  rootDir : EntryPtr
  entries : EntryPtr → Option Entry
  dataRegionStartClusterOffset : Nat
  bytesPerFatEntry : Nat
  bytesPerDirEntry : Nat
  bytesPerCluster : Nat
  bytesPerSector : Nat
  sectorsPerCluster : Nat
  sectorsPerFat : Nat
  reservedSectors : Nat
  reservedFatEntries : Nat
  totalSectors : Nat

/-- The `unsigned int` that represents an `int`. -/
def toUnsigned (n : Int) : Nat := (n % 2 ^ 32).toNat

/-- The `int` that represents an `unsigned int`. -/
def toSigned (n : Nat) : Int := if n % 2 ^ 32 < 2 ^ 31 then n % 2 ^ 32 else n % 2 ^ 32 - 2 ^ 32

namespace FAT32

/-- `di->write` on the disk of a volume. -/
def writeSector (fs : FAT32) (sectorOffset : Nat) (buffer : Buffer) : FAT32 :=
  { fs with di := fs.di.write sectorOffset buffer }

/-- Assign to the members of the entry at `this`. -/
def setEntry (fs : FAT32) (this : EntryPtr) (e : Entry) : FAT32 :=
  { fs with entries := Function.update fs.entries this (some e) }

/-! ## The file allocation table -/

/-- `Entry::check_fat_entry_type`. -/
def checkFatEntryType (fs : FAT32) (val : Nat) : FatEntryType :=
  let snippedVal := val &&& 0xFFFFFFF
  if val = 0xFFFFFFFF then .END
  else if snippedVal = 0x0000000 then .FREE
  else if snippedVal = 0xFFFFFFE then .DEFECTIVE
  else
    let totalNumClusters := fs.totalSectors / fs.sectorsPerCluster
    if val < totalNumClusters then .ALLOCATED else .RESERVED

/-- `Entry::fat_entry_to_cluster_offset`, in `unsigned int` arithmetic. -/
def fatEntryToClusterOffset (fs : FAT32) (fatEntry : Nat) : Nat :=
  (fatEntry + (2 ^ 32 - fs.reservedFatEntries) + fs.dataRegionStartClusterOffset) % 2 ^ 32

/-- The byte offset of an entry of the allocation table, as computed at each place that visits
one. -/
def fatEntryByteOffset (fs : FAT32) (entryOffset : Nat) : Nat :=
  fs.reservedSectors * fs.bytesPerSector + entryOffset * fs.bytesPerFatEntry

/-- The sector of an entry of the allocation table. -/
def fatEntrySectorOffset (fs : FAT32) (entryOffset : Nat) : Nat :=
  fs.fatEntryByteOffset entryOffset / fs.bytesPerSector

/-- The position of an entry of the allocation table inside its sector. -/
def fatEntrySectorByteOffset (fs : FAT32) (entryOffset : Nat) : Nat :=
  fs.fatEntryByteOffset entryOffset % fs.bytesPerSector

/-- The loop of `find_free_cluster`: `remaining` entries are left from `current`, and `buffer` is
a copy of the sector of `current`. The result 0 is `failure`. -/
def findFreeLoop (fs : FAT32) : Nat → Buffer → Nat → Option Nat
  | 0, _, _ => some 0
  | remaining + 1, buffer, current => do
      let entryVal ← buffer.bytesToInt (fs.fatEntrySectorByteOffset current)
      if fs.checkFatEntryType entryVal = .FREE then some current
      else
        let next := current + 1
        let buffer :=
          if fs.fatEntrySectorOffset next ≠ fs.fatEntrySectorOffset current then
            fs.di.read (fs.fatEntrySectorOffset next)
          else buffer
        findFreeLoop fs remaining buffer next

/-- `Entry::find_free_cluster`. -/
def findFreeCluster (fs : FAT32) : Option Nat :=
  let clustersPerFat := fs.sectorsPerFat / fs.sectorsPerCluster
  findFreeLoop fs (clustersPerFat - 2) (fs.di.read (fs.fatEntrySectorOffset 2)) 2

/-! ## Directory clusters -/

/-- The loop of `clear_entry`: zero `count` bytes from `offset`. -/
def clearLoop (buffer : Buffer) (offset : Nat) : Nat → Option Buffer
  | 0 => some buffer
  | count + 1 => do
      let buffer ← buffer.set offset 0
      clearLoop buffer (offset + 1) count

/-- `Entry::clear_entry`. -/
def clearEntry (fs : FAT32) (byteOffset : Nat) : Option FAT32 := do
  let sectorOffset := byteOffset / fs.bytesPerSector
  let buffer ← clearLoop (fs.di.read sectorOffset) (byteOffset % fs.bytesPerSector)
    fs.bytesPerDirEntry
  pure (fs.writeSector sectorOffset buffer)

/-- One of the two dot entries that `init_dir_cluster` writes, for the directory `e`. -/
def writeDotEntry (buffer : Buffer) (sectorByteOffset : Nat) (e : Entry) : Option Buffer := do
  let firstCluster ← e.fatAllocations.head?
  let buffer ← buffer.set sectorByteOffset 0x2E
  let buffer ← buffer.set (11 + sectorByteOffset) 0x10
  let buffer ← Buffer.shortToBytes (firstCluster / 2 ^ 16) buffer (20 + sectorByteOffset)
  let buffer ← Buffer.shortToBytes firstCluster buffer (26 + sectorByteOffset)
  Buffer.intToBytes (toUnsigned e.fileSizeBytes) buffer (28 + sectorByteOffset)

/-- `Entry::init_dir_cluster`. The dot entries are written at the byte offset of the entry
itself. -/
def initDirCluster (fs : FAT32) (this : EntryPtr) (clusterOffset : Nat) : Option FAT32 := do
  let e ← fs.entries this
  let clusterByteOffset := clusterOffset * fs.bytesPerCluster
  let sectorOffset := e.byteOffset / fs.bytesPerSector
  let sectorByteOffset := e.byteOffset % fs.bytesPerSector
  let fs ← fs.clearEntry clusterByteOffset
  let fs ← fs.clearEntry (clusterByteOffset + fs.bytesPerDirEntry)
  let buffer ← writeDotEntry (fs.di.read sectorOffset) sectorByteOffset e
  let parent ← e.parentDir >>= fs.entries
  let buffer ← writeDotEntry buffer (sectorByteOffset + fs.bytesPerDirEntry) parent
  pure (fs.writeSector sectorOffset buffer)

/-! ## Allocation -/

/-- The cluster setup that allocation performs for directories only. -/
def setupCluster (fs : FAT32) (this : EntryPtr) (entryOffset : Nat) : Option FAT32 := do
  let e ← fs.entries this
  if e.type = .DIRECTORY then fs.initDirCluster this (fs.fatEntryToClusterOffset entryOffset)
  else some fs

/-- `fat_allocations.push_back`. -/
def pushAllocation (fs : FAT32) (this : EntryPtr) (entryOffset : Nat) : Option FAT32 := do
  let e ← fs.entries this
  pure (fs.setEntry this { e with fatAllocations := e.fatAllocations ++ [entryOffset] })

/-- The value that marks the last cluster of a chain. -/
def endMarker : Nat := 0xFFFFFFFF

/-- `Entry::initial_cluster`. -/
def initialCluster (fs : FAT32) (this : EntryPtr) : Option (FAT32 × Bool) := do
  let current ← fs.findFreeCluster
  if current = 0 then some (fs, false)
  else
    let buffer ← Buffer.intToBytes endMarker (fs.di.read (fs.fatEntrySectorOffset current))
      (fs.fatEntrySectorByteOffset current)
    let fs := fs.writeSector (fs.fatEntrySectorOffset current) buffer
    let fs ← fs.pushAllocation this current
    let fs ← fs.setupCluster this current
    pure (fs, true)

/-- The loop of `allocate_more_clusters` with `remaining` clusters to add after `current`, whose
sector `buffer` copies. The flag of the result is `no_more_clusters`. -/
def allocateLoop (this : EntryPtr) : Nat → FAT32 → Buffer → Nat →
    Option (FAT32 × Buffer × Nat × Bool)
  | 0, fs, buffer, current => some (fs, buffer, current, false)
  | remaining + 1, fs, buffer, current => do
      let next ← fs.findFreeCluster
      if next = 0 then some (fs, buffer, current, true)
      else
        let buffer ← Buffer.intToBytes next buffer (fs.fatEntrySectorByteOffset current)
        let fs := fs.writeSector (fs.fatEntrySectorOffset current) buffer
        let buffer := fs.di.read (fs.fatEntrySectorOffset next)
        let fs ← fs.setupCluster this next
        let fs ← fs.pushAllocation this next
        allocateLoop this remaining fs buffer next

/-- The part of `allocate_more_clusters` after the first cluster exists: run the loop from the
last cluster and write the end marker. -/
def extendChain (fs : FAT32) (this : EntryPtr) (count : Nat) : Option (FAT32 × Bool) := do
  let e ← fs.entries this
  let current ← e.fatAllocations.getLast?
  let buffer := fs.di.read (fs.fatEntrySectorOffset current)
  let (fs, buffer, current, noMoreClusters) ← allocateLoop this count fs buffer current
  let buffer ← Buffer.intToBytes endMarker buffer (fs.fatEntrySectorByteOffset current)
  let fs := fs.writeSector (fs.fatEntrySectorOffset current) buffer
  pure (fs, !noMoreClusters)

/-- `Entry::allocate_more_clusters`. -/
def allocateMoreClusters (fs : FAT32) (this : EntryPtr) (numAdditionalClusters : Int) :
    Option (FAT32 × Bool) := do
  if numAdditionalClusters ≤ 0 then some (fs, false)
  else
    let e ← fs.entries this
    if e.fatAllocations.isEmpty then
      let (fs, ok) ← fs.initialCluster this
      if !ok then some (fs, false)
      else fs.extendChain this (numAdditionalClusters - 1).toNat
    else fs.extendChain this numAdditionalClusters.toNat

/-! ## Lookup and reading -/

/-- `Entry::read_data`. The outer `none` is an invalid access, the inner one the null pointer the
code returns on failure. -/
def readData (fs : FAT32) (this : EntryPtr) (sectorOffset : Nat) : Option (Option Buffer) := do
  let e ← fs.entries this
  if e.type ≠ .FILE then some none
  else
    match e.fatAllocations[sectorOffset / fs.sectorsPerCluster]? with
    | none => some none
    | some cluster =>
        let targetSectorOffset := fs.fatEntryToClusterOffset cluster * fs.sectorsPerCluster +
          sectorOffset % fs.sectorsPerCluster
        some (some (fs.di.read targetSectorOffset))

/-- The loop of `find_sub_dir` over the remaining sub-directories. -/
def findSubDirLoop (fs : FAT32) (name : Str) : List EntryPtr → Option (Option EntryPtr)
  | [] => some none
  | dir :: rest => do
      let e ← fs.entries dir
      if e.name = name then some (some dir) else findSubDirLoop fs name rest

/-- `Entry::find_sub_dir`. -/
def findSubDir (fs : FAT32) (this : EntryPtr) (name : Str) : Option (Option EntryPtr) := do
  let e ← fs.entries this
  fs.findSubDirLoop name e.subDirs

/-- The character `'/'`. -/
def slash : UInt8 := 0x2F

/-- The loop of `parse_file_path` over the characters after the first, with the part collected so
far. -/
def parseFilePathLoop (part : Str) : Str → List Str
  | [] => [part]
  | c :: rest =>
      if c = slash then part :: parseFilePathLoop [] rest else parseFilePathLoop (part ++ [c]) rest

/-- `FAT32::parse_file_path`. -/
def parseFilePath : Str → List Str
  | [] => []
  | c :: rest => if c ≠ slash then [] else parseFilePathLoop [] rest

/-- The loop of `find_entry` over the parts of a path. -/
def findEntryLoop (fs : FAT32) (current : EntryPtr) : List Str → Option (Option EntryPtr)
  | [] => some (some current)
  | name :: rest => do
      match ← fs.findSubDir current name with
      | none => some none
      | some next => findEntryLoop fs next rest

/-- `FAT32::find_entry`. -/
def findEntry (fs : FAT32) (filePath : Str) : Option (Option EntryPtr) :=
  if filePath = [slash] then some (some fs.rootDir)
  else
    match parseFilePath filePath with
    | [] => some none
    | path => fs.findEntryLoop fs.rootDir path

/-- `FAT32::file_type`. The inner `none` is `failure`. -/
def fileType (fs : FAT32) (filePath : Str) : Option (Option EntryAttribute) := do
  match ← fs.findEntry filePath with
  | none => some none
  | some this => do
      let e ← fs.entries this
      pure (some e.type)

/-- `FAT32::file_size`. The inner `none` is `failure`. -/
def fileSize (fs : FAT32) (filePath : Str) : Option (Option Int) := do
  match ← fs.findEntry filePath with
  | none => some none
  | some this => do
      let e ← fs.entries this
      pure (some e.fileSizeBytes)

/-- `FAT32::read_file`. The inner `none` is `failure`, with a null buffer. -/
def readFile (fs : FAT32) (filePath : Str) (sectorOffset : Nat) : Option (Option Buffer) := do
  match ← fs.findEntry filePath with
  | none => some none
  | some this => fs.readData this sectorOffset

/-- `FAT32::get_sector_size`. -/
def getSectorSize (fs : FAT32) : Nat := fs.bytesPerSector

end FAT32

end CrosKernel.Fs
