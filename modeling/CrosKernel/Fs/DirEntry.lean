import CrosKernel.Fs.ClusterChain

/-!
# Directory entries on disk

The functions of `src/fs/fat32/entry_helpers.cpp` that read and write the 32-byte slots of a
directory, and the constructor of `FAT32::Entry` from `src/fs/fat32/entry.cpp`. A name is read past
its terminator where the code does so: `past` is what lies there.
-/

namespace CrosKernel.Fs

/-! ## Strings -/

/-- `string::operator+=` with a character. The terminator adds nothing. -/
def Str.push (s : Str) (c : UInt8) : Str := if c = 0 then s else s ++ [c]

/-- `string::operator[]`. Behind the terminator lies `past`. -/
def Str.charAt (s : Str) (past : Nat → UInt8) (index : Nat) : UInt8 :=
  if index < s.length then s.getD index 0 else if index = s.length then 0 else past index

/-- `string::substr` with one index. -/
def Str.substrFrom (s : Str) (startIndex : Nat) : Str :=
  if startIndex ≥ s.length then [] else s.drop startIndex

/-- `string::substr` with two indices. -/
def Str.substr (s : Str) (startIndex endIndex : Nat) : Str :=
  if startIndex ≥ s.length ∨ endIndex ≤ startIndex ∨ endIndex > s.length then []
  else (s.drop startIndex).take (endIndex - startIndex)

/-- The members of an `Entry` of the type `LONG_NAME`. -/
structure LongNameEntry where
  name : Str
  byteOffset : Nat
  order : Nat
  last : Bool

/-- What the constructor of `Entry` reads from a slot. -/
structure SlotEntry where
  name : Str
  extension : Str
  type : EntryAttribute
  fileSizeBytes : Int
  byteOffset : Nat
  order : Int
  longNameEntries : List LongNameEntry
  fatAllocations : List Nat

/-- An entry with its sub-directories. -/
inductive EntryTree where
  | node (e : SlotEntry) (subDirs : List EntryTree)

namespace FAT32

/-! ## Reading a slot -/

/-- The switch of `parse_attribute` over an attribute byte. -/
def attributeType (byte : UInt8) : EntryAttribute :=
  let attr := byte &&& 0x3F
  if attr = 0x08 then .ROOT
  else if attr = 0x10 then .DIRECTORY
  else if attr = 0x20 then .FILE
  else if attr = 0x0F then .LONG_NAME
  else .EMPTY

/-- `Entry::parse_attribute`. -/
def parseAttribute (fs : FAT32) (byteOffset : Nat) : Option EntryAttribute := do
  let sectorByteOffset := byteOffset % fs.bytesPerSector
  let byte ← (fs.di.read (byteOffset / fs.bytesPerSector)).get (11 + sectorByteOffset)
  pure (attributeType byte)

/-- The loop that collects the characters of a short name or an extension that are not blanks. -/
def parseChars (buffer : Buffer) (offset : Nat) : Nat → Str → Option Str
  | 0, name => some name
  | count + 1, name => do
      let c ← buffer.get offset
      parseChars buffer (offset + 1) count (if c ≠ 0x20 then name.push c else name)

/-- `Entry::parse_short_file_name`. -/
def parseShortFileName (fs : FAT32) (byteOffset : Nat) : Option Str :=
  parseChars (fs.di.read (byteOffset / fs.bytesPerSector)) (byteOffset % fs.bytesPerSector) 8 []

/-- `chars_to_unicode`. -/
def charsToUnicode (first second : UInt8) : Nat := first.toNat * 2 ^ 8 ||| second.toNat

/-- One of the three loops of `parse_long_name`. -/
def parseNamePart (buffer : Buffer) (offset : Nat) : Nat → Str → Option Str
  | 0, name => some name
  | count + 1, name => do
      let first ← buffer.get offset
      let second ← buffer.get (offset + 1)
      if charsToUnicode first second ≠ 0xFFFF then
        parseNamePart buffer (offset + 2) count (name.push first)
      else some name

/-- `Entry::parse_long_name`. -/
def parseLongName (fs : FAT32) (byteOffset : Nat) : Option LongNameEntry := do
  let sectorByteOffset := byteOffset % fs.bytesPerSector
  let buffer := fs.di.read (byteOffset / fs.bytesPerSector)
  let first ← buffer.get (0 + sectorByteOffset)
  let name ← parseNamePart buffer (1 + sectorByteOffset) 5 []
  let name ← parseNamePart buffer (14 + sectorByteOffset) 6 name
  let name ← parseNamePart buffer (28 + sectorByteOffset) 2 name
  pure { name := name, byteOffset := byteOffset, order := (first &&& 0x1F).toNat, last := false }

/-- The loop of `find_long_name_entries`, which walks back from the slot before the entry. -/
def findLongNameLoop (fs : FAT32) (clusterStart : Int) : Nat → Int → Option (List LongNameEntry)
  | 0, _ => none
  | fuel + 1, search =>
      if clusterStart ≤ search then do
        match ← fs.parseAttribute search.toNat with
        | .LONG_NAME => do
            let longName ← fs.parseLongName search.toNat
            let rest ← findLongNameLoop fs clusterStart fuel (search - fs.bytesPerDirEntry)
            pure (longName :: rest)
        | _ => some []
      else some []

/-- `long_name_entries.back()->last = true`. -/
def markLast : List LongNameEntry → List LongNameEntry
  | [] => []
  | [l] => [{ l with last := true }]
  | l :: m :: rest => l :: markLast (m :: rest)

/-- `Entry::find_long_name_entries`. The result is the new name, when there is one, with the
entries. -/
def findLongNameEntries (fs : FAT32) (byteOffset : Nat) (name : Str) :
    Option (Str × List LongNameEntry) := do
  let longNames ← fs.findLongNameLoop (byteOffset / fs.bytesPerCluster : Nat) (byteOffset + 1)
    ((byteOffset : Int) - fs.bytesPerDirEntry)
  if longNames.isEmpty then some (name, [])
  else some ((longNames.map LongNameEntry.name).flatten, markLast longNames)

/-- The clusters that `find_cluster_allocations` appends to an entry without clusters. -/
def clusterAllocations (fs : FAT32) (fuel first : Nat) : Option (List Nat) :=
  if first = 0 then some []
  else do
    let buffer := fs.di.read (fs.clusterFatSectorOffset first)
    let val ← buffer.bytesToInt (fs.clusterFatIntOffset first)
    fs.findClusterLoop fuel (fs.checkFatEntryType val) buffer first

/-- `Entry::parse_dir_entry`, up to the search for sub-directories. -/
def parseDirEntry (fs : FAT32) (fuel : Nat) (type : EntryAttribute) (byteOffset : Nat) :
    Option SlotEntry := do
  let sectorByteOffset := byteOffset % fs.bytesPerSector
  let buffer := fs.di.read (byteOffset / fs.bytesPerSector)
  let name ← fs.parseShortFileName byteOffset
  let extension ← parseChars buffer (8 + sectorByteOffset) 3 []
  let firstClusterHigh ← buffer.bytesToShort (20 + sectorByteOffset)
  let firstClusterLow ← buffer.bytesToShort (26 + sectorByteOffset)
  let fatAllocations ← fs.clusterAllocations fuel (firstClusterHigh * 2 ^ 16 ||| firstClusterLow)
  let fileSizeBytes ← buffer.bytesToInt (28 + sectorByteOffset)
  let (name, longNameEntries) ← fs.findLongNameEntries byteOffset name
  pure { name := name, extension := extension, type := type
         fileSizeBytes := toSigned fileSizeBytes, byteOffset := byteOffset, order := -1
         longNameEntries := longNameEntries, fatAllocations := fatAllocations }

/-- `Entry::parse_root_entry`, up to the search for sub-directories. -/
def parseRootEntry (fs : FAT32) (fuel byteOffset : Nat) : Option SlotEntry := do
  let sectorByteOffset := byteOffset % fs.bytesPerSector
  let buffer := fs.di.read (byteOffset / fs.bytesPerSector)
  let fatAllocations ← fs.clusterAllocations fuel fs.reservedFatEntries
  let fileSizeBytes ← buffer.bytesToInt (28 + sectorByteOffset)
  pure { name := [], extension := [], type := .ROOT, fileSizeBytes := toSigned fileSizeBytes
         byteOffset := byteOffset, order := -1, longNameEntries := []
         fatAllocations := fatAllocations }

/-- The byte offsets of the slots of a cluster. -/
def slotOffsets (fs : FAT32) (cluster : Nat) : List Nat :=
  (List.range ((fs.bytesPerCluster + fs.bytesPerDirEntry - 1) / fs.bytesPerDirEntry)).map fun i =>
    fs.fatEntryToClusterOffset cluster * fs.bytesPerCluster + i * fs.bytesPerDirEntry

/-- The loops of `find_sub_dir_entries` over the remaining slots, where `newEntry` constructs an
entry. -/
def findSubDirEntriesLoop (newEntry : FAT32 → Nat → Option (FAT32 × EntryTree)) (fs : FAT32) :
    List Nat → Option (FAT32 × List EntryTree)
  | [] => some (fs, [])
  | search :: rest => do
      let type ← fs.parseAttribute search
      let name ← fs.parseShortFileName search
      if (type = .DIRECTORY ∨ type = .FILE) ∧ name ≠ [0x2E] ∧ name ≠ [0x2E, 0x2E] then do
        let (fs, subDir) ← newEntry fs search
        let (fs, subDirs) ← findSubDirEntriesLoop newEntry fs rest
        pure (fs, subDir :: subDirs)
      else findSubDirEntriesLoop newEntry fs rest

/-- The entry of a slot that holds no file or directory. -/
def slotEntry (type : EntryAttribute) (byteOffset : Nat) : SlotEntry where
  name := []
  extension := []
  type := type
  fileSizeBytes := -1
  byteOffset := byteOffset
  order := 0
  longNameEntries := []
  fatAllocations := []

/-- `Entry::Entry` at a byte offset. A cyclic chain or directory runs out of fuel. -/
def newEntry : Nat → FAT32 → Nat → Option (FAT32 × EntryTree)
  | 0, _, _ => none
  | fuel + 1, fs, byteOffset => do
      match ← fs.parseAttribute byteOffset with
      | .ROOT => do
          let e ← fs.parseRootEntry fuel byteOffset
          let (fs, subDirs) ← findSubDirEntriesLoop (newEntry fuel) fs
            (e.fatAllocations.flatMap fs.slotOffsets)
          pure (fs, .node e subDirs)
      | .DIRECTORY => do
          let e ← fs.parseDirEntry fuel .DIRECTORY byteOffset
          let (fs, subDirs) ← findSubDirEntriesLoop (newEntry fuel) fs
            (e.fatAllocations.flatMap fs.slotOffsets)
          pure (fs, .node e subDirs)
      | .FILE => do
          let e ← fs.parseDirEntry fuel .FILE byteOffset
          pure (fs, .node e [])
      | .LONG_NAME => do
          let l ← fs.parseLongName byteOffset
          pure (fs,
            .node { slotEntry .LONG_NAME byteOffset with name := l.name, order := l.order } [])
      | .EMPTY => do
          let fs ← fs.clearEntry byteOffset
          pure (fs, .node (slotEntry .EMPTY byteOffset) [])

/-! ## Writing a slot -/

/-- The characters other than letters that `long_to_short_name` keeps. -/
def shortNameChars : List UInt8 :=
  [0x24, 0x25, 0x27, 0x2D, 0x5F, 0x40, 0x7E, 0x60, 0x21, 0x28, 0x29, 0x7B, 0x7D, 0x5E, 0x23, 0x26,
    0x2E]

/-- The first loop of `long_to_short_name`. -/
def shortNameLoop (longName : Str) (past : Nat → UInt8) (index : Nat) : Nat → Str → Str
  | 0, shortName => shortName
  | count + 1, shortName =>
      let c := longName.charAt past index
      let shortName :=
        if 0x41 ≤ c ∧ c ≤ 0x5A then shortName.push c
        else if 0x61 ≤ c ∧ c ≤ 0x7A then shortName.push (c - 0x20)
        else if c ∈ shortNameChars then shortName.push c
        else shortName
      shortNameLoop longName past (index + 1) count shortName

/-- `Entry::long_to_short_name`. -/
def longToShortName (longName : Str) (past : Nat → UInt8) (len : Nat) : Str :=
  let shortName := shortNameLoop longName past 0 len []
  shortName ++ List.replicate (len - shortName.length) 0x20

/-- The loops of `write_dir_entry` that store a short name or an extension. -/
def writeChars (buffer : Buffer) (offset : Nat) : Str → Option Buffer
  | [] => some buffer
  | c :: rest => do
      let buffer ← buffer.set offset c
      writeChars buffer (offset + 1) rest

/-- One of the three loops of `write_long_name_entry` that store a part of the name, with
`remaining` characters left from `index` on. -/
def writeNamePart (part : Str) (buffer : Buffer) (offset index : Nat) : Nat → Option Buffer
  | 0 => some buffer
  | remaining + 1 => do
      let buffer ←
        (if index = part.length then buffer.set offset 0
        else if index > part.length then do
          let buffer ← buffer.set offset 0xFF
          buffer.set (offset + 1) 0xFF
        else buffer.set offset (part.getD index 0))
      writeNamePart part buffer (offset + 2) (index + 1) remaining

/-- The parts of a long name that `write_long_name_entry` cuts. -/
def nameParts (name : Str) : Str × Str × Str :=
  if 5 ≥ name.length then (name.substrFrom 0, [], [])
  else if 11 ≥ name.length then (name.substr 0 5, name.substrFrom 5, [])
  else if 13 ≥ name.length then (name.substr 0 5, name.substr 5 11, name.substrFrom 11)
  else (name.substr 0 5, name.substr 5 11, name.substr 11 13)

/-- The checksum loop of `write_long_name_entry`. -/
def checksum (shortName : Str) : UInt8 :=
  shortName.foldl (fun sum c => (if sum &&& 1 ≠ 0 then (0x80 : UInt8) else 0) + (sum >>> 1) + c) 0

/-- `Entry::write_long_name_entry` for an entry named `parentName`. `past` is what lies behind the
terminators of the two strings that are shortened. -/
def writeLongNameEntry (fs : FAT32) (parentName : Str) (past : Nat → Nat → UInt8)
    (l : LongNameEntry) : Option FAT32 := do
  let fs ← fs.clearEntry l.byteOffset
  let sectorOffset := l.byteOffset / fs.bytesPerSector
  let sectorByteOffset := l.byteOffset % fs.bytesPerSector
  let order := UInt8.ofNat l.order
  let buffer ← (fs.di.read sectorOffset).set sectorByteOffset
    (if l.last then order ||| 0x40 else order)
  let (part1, part2, part3) := nameParts l.name
  let buffer ← writeNamePart part1 buffer (sectorByteOffset + 1) 0 5
  let buffer ← writeNamePart part2 buffer (sectorByteOffset + 14) 0 6
  let buffer ← writeNamePart part3 buffer (sectorByteOffset + 28) 0 2
  let buffer ← buffer.set (sectorByteOffset + 11) 0x0F
  let shortName := longToShortName parentName (past 0) 8 ++ longToShortName [] (past 1) 3
  let buffer ← buffer.set (sectorByteOffset + 13) (checksum shortName)
  pure (fs.writeSector sectorOffset buffer)

/-- The loop of `write_dir_entry` over the long name entries, where `past i` is what the entry `i`
finds behind terminators. -/
def writeLongNames (parentName : Str) (past : Nat → Nat → Nat → UInt8) :
    FAT32 → Nat → List LongNameEntry → Option FAT32
  | fs, _, [] => some fs
  | fs, i, l :: rest => do
      let fs ← fs.writeLongNameEntry parentName (past i) l
      writeLongNames parentName past fs (i + 1) rest

/-- `Entry::write_dir_entry`. `past` is what lies behind the terminators of the strings that are
shortened. -/
def writeDirEntry (fs : FAT32) (e : Entry) (extension : Str) (longNames : List LongNameEntry)
    (past : Nat → Nat → Nat → UInt8) : Option FAT32 := do
  let fs ← fs.clearEntry e.byteOffset
  let sectorOffset := e.byteOffset / fs.bytesPerSector
  let sectorByteOffset := e.byteOffset % fs.bytesPerSector
  let buffer ← writeChars (fs.di.read sectorOffset) sectorByteOffset
    (longToShortName e.name (past 0 0) 8)
  let buffer ← writeChars buffer (8 + sectorByteOffset) (longToShortName extension (past 0 1) 3)
  let buffer ← buffer.set (sectorByteOffset + 11) (if e.type = .FILE then 0x20 else 0x10)
  let firstCluster ← e.fatAllocations.head?
  let buffer ← Buffer.shortToBytes (firstCluster / 2 ^ 16) buffer (20 + sectorByteOffset)
  let buffer ← Buffer.shortToBytes firstCluster buffer (26 + sectorByteOffset)
  let buffer ← Buffer.intToBytes (toUnsigned e.fileSizeBytes) buffer (28 + sectorByteOffset)
  let fs := fs.writeSector sectorOffset buffer
  writeLongNames e.name past fs 1 longNames

/-! ## The long name entries of a new entry -/

/-- The number of long name entries that `new_dir_entry` reserves for a name. -/
def numLongNameEntries (name : Str) : Nat :=
  let num := name.length / 13 + 1
  if name.length % 13 = 0 then num - 1 else num

/-- The part of the name in the long name entry `i`. -/
def longNamePart (name : Str) (i : Nat) : Str :=
  let startIndex := i * 13
  let endIndex := i * 13 + 13
  if endIndex ≥ name.length then name.substrFrom startIndex else name.substr startIndex endIndex

/-- The long name entries that `new_dir_entry` creates, before the last one is marked. -/
def longNames (fs : FAT32) (name : Str) (firstEntryByteOffset : Nat) : List LongNameEntry :=
  (List.range (numLongNameEntries name)).map fun i =>
    { name := longNamePart name i
      byteOffset := firstEntryByteOffset +
        (numLongNameEntries name - i - 1) * fs.bytesPerDirEntry
      order := i + 1
      last := false }

end FAT32

end CrosKernel.Fs
