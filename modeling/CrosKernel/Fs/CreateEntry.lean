import CrosKernel.Fs.DirEntrySlots

/-!
# Creating files and directories

`create_file` and `create_dir` of `src/fs/fat32/fat32.cpp`, with `snip_file_path` of
`fs_helpers.cpp`, `find_empty_entries` of `entry_helpers.cpp` and `new_dir_entry` of `entry.cpp`.
`new Entry()` yields an object at an address that holds none; `past` is what lies behind the
terminators of strings.
-/

namespace CrosKernel.Fs

namespace FAT32

/-! ## Paths -/

/-- The loop of `snip_file_path` over the characters from `index` on. -/
def lastSlashLoop : Str → Nat → Nat → Nat
  | [], _, last => last
  | c :: rest, index, last => lastSlashLoop rest (index + 1) (if c = slash then index else last)

/-- `FAT32::snip_file_path`. -/
def snipFilePath (filePath : Str) : Str :=
  let lastSlashIndex := lastSlashLoop filePath.tail 1 0
  if lastSlashIndex ≠ 0 then filePath.substr 0 lastSlashIndex else [slash]

/-! ## Empty slots -/

/-- The loop of `find_empty_entries`. The cluster comparison uses the byte offset of the entry
itself, which the loop does not change. -/
def findEmptyLoop (this : EntryPtr) (numEntries : Nat) :
    Nat → FAT32 → Nat → Nat → Nat → Nat → Nat → Option (FAT32 × Nat)
  | 0, _, _, _, _, _, _ => none
  | fuel + 1, fs, currentByteOffset, currentClusterOffset, numEmptyFound, emptyStartOffset,
      clusterNum => do
      let type ← fs.parseAttribute currentByteOffset
      let emptyStartOffset :=
        if type = .EMPTY ∧ numEmptyFound = 0 then currentByteOffset else emptyStartOffset
      let numEmptyFound := if type = .EMPTY then numEmptyFound + 1 else 0
      if type = .EMPTY ∧ numEmptyFound = numEntries then some (fs, emptyStartOffset)
      else
        let e ← fs.entries this
        let nextByteOffset := currentByteOffset + fs.bytesPerDirEntry
        let nextClusterOffset := e.byteOffset / fs.bytesPerCluster
        if nextClusterOffset ≠ currentClusterOffset then
          let parentDir ← e.parentDir
          let parent ← fs.entries parentDir
          let (fs, ok) ←
            (if clusterNum + 1 > parent.fatAllocations.length then
              fs.allocateMoreClusters parentDir 1
            else some (fs, true))
          if !ok then some (fs, 0)
          else
            let parent ← fs.entries parentDir
            let back ← parent.fatAllocations.getLast?
            findEmptyLoop this numEntries fuel fs
              (fs.fatEntryToClusterOffset back + 2 * fs.bytesPerDirEntry)
              (e.byteOffset / fs.bytesPerCluster) numEmptyFound emptyStartOffset (clusterNum + 1)
        else
          findEmptyLoop this numEntries fuel fs nextByteOffset nextClusterOffset numEmptyFound
            emptyStartOffset clusterNum

/-- `Entry::find_empty_entries`. For the root the code follows the null pointer to the parent. The
result 0 is `failure`. -/
def findEmptyEntries (fs : FAT32) (fuel : Nat) (this : EntryPtr) (numEntries : Nat) :
    Option (FAT32 × Nat) := do
  let e ← fs.entries this
  let _ ← e.parentDir
  let first ← e.fatAllocations.head?
  findEmptyLoop this numEntries fuel fs (fs.fatEntryToClusterOffset first * fs.bytesPerCluster)
    (e.byteOffset / fs.bytesPerCluster) 0 0 1

/-! ## New entries -/

/-- The object that `new Entry()` yields, with all members zero. -/
def blankEntry : Entry where
  name := []
  type := .FILE
  fileSizeBytes := 0
  byteOffset := 0
  parentDir := none
  subDirs := []
  fatAllocations := []

/-- The end of `new_dir_entry`, once its cluster is allocated. The list of long name entries of an
empty name has no last element. -/
def storeDirEntry (fs : FAT32) (this parDir : EntryPtr) (name : Str) (type : EntryAttribute)
    (past : Nat → Nat → Nat → UInt8) (firstEntryByteOffset : Nat) : Option FAT32 := do
  let e ← fs.entries this
  let e := { e with fileSizeBytes := if type = .FILE then 0 else (fs.bytesPerCluster : Int) }
  let fs := fs.setEntry this e
  if numLongNameEntries name = 0 then none
  else
    let fs ← fs.writeDirEntry e [] (markLast (fs.longNames name firstEntryByteOffset)) past
    let parent ← fs.entries parDir
    pure (fs.setEntry parDir { parent with subDirs := parent.subDirs ++ [this] })

/-- `Entry::new_dir_entry`. -/
def newDirEntry (fs : FAT32) (fuel : Nat) (this parDir : EntryPtr) (name : Str)
    (type : EntryAttribute) (past : Nat → Nat → Nat → UInt8) : Option (FAT32 × Bool) := do
  let e ← fs.entries this
  let fs := fs.setEntry this { e with parentDir := some parDir, name := name, type := type }
  let (fs, firstEntryByteOffset) ← fs.findEmptyEntries fuel parDir (numLongNameEntries name + 1)
  if firstEntryByteOffset = 0 then some (fs, false)
  else
    let e ← fs.entries this
    let byteOffset := firstEntryByteOffset + numLongNameEntries name * fs.bytesPerDirEntry
    let fs := fs.setEntry this { e with byteOffset := byteOffset }
    let (fs, ok) ← fs.allocateMoreClusters this 1
    if !ok then some (fs, false)
    else
      let fs ← fs.storeDirEntry this parDir name type past firstEntryByteOffset
      pure (fs, true)

/-- `delete` of an entry without sub-directories and long name entries. -/
def deleteEntry (fs : FAT32) (this : EntryPtr) : FAT32 :=
  { fs with entries := Function.update fs.entries this none }

/-- The common end of `create_file` and `create_dir`, for the parent directory that was found. -/
def createIn (fs : FAT32) (fuel : Nat) (this parDir : EntryPtr) (path : Str)
    (type : EntryAttribute) (past : Nat → Nat → Nat → UInt8) : Option (FAT32 × Bool) := do
  match ← fs.findEntry path with
  | some _ => some (fs, false)
  | none =>
      let name ← (parseFilePath path).getLast?
      let (fs, ok) ← (fs.setEntry this blankEntry).newDirEntry fuel this parDir name type past
      if ok then some (fs, true) else some (fs.deleteEntry this, false)

/-- `FAT32::create_file`, where `new Entry()` yields `this`. -/
def createFile (fs : FAT32) (fuel : Nat) (this : EntryPtr) (filePath : Str)
    (past : Nat → Nat → Nat → UInt8) : Option (FAT32 × Bool) := do
  match ← fs.findEntry (snipFilePath filePath) with
  | none => some (fs, false)
  | some parDir =>
      let parent ← fs.entries parDir
      if parent.type ≠ .DIRECTORY then some (fs, false)
      else fs.createIn fuel this parDir filePath .FILE past

/-- `FAT32::create_dir`, where `new Entry()` yields `this`. -/
def createDir (fs : FAT32) (fuel : Nat) (this : EntryPtr) (dirPath : Str)
    (past : Nat → Nat → Nat → UInt8) : Option (FAT32 × Bool) := do
  match ← fs.findEntry (snipFilePath dirPath) with
  | none => some (fs, false)
  | some parDir => fs.createIn fuel this parDir dirPath .DIRECTORY past

end FAT32

end CrosKernel.Fs
