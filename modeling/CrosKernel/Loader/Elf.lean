import CrosKernel.Memory.MappedRegions

/-!
# Program images

`ELF` and `buildProgramImage` of `src/loader/elf.cpp`, with `memset` and `memcpy` of
`src/util/string.cpp`, for words of 64 bits. The file is read from memory again for every segment,
after the segments before it were copied.

The physical memory of `Mmu` is a memory of translation tables. How a byte appears in an entry is
left open: a `ByteView` says how bytes are read and written.
-/

namespace CrosKernel.Loader

open Memory Util

/-- The bytes of the physical memory. -/
structure ByteView where
  peek : (Nat → Nat → PageTableEntry) → Nat → UInt8
  poke : (Nat → Nat → PageTableEntry) → Nat → UInt8 → Nat → Nat → PageTableEntry

variable (v : ByteView)

/-! ## Memory access -/

/-- The byte that the kernel reads at an address. -/
def loadByte (m : Mmu) (va : Nat) : Option UInt8 :=
  match m.walk va with
  | .ok (leaf, pa) => if leaf.af then some (v.peek m.memory pa) else none
  | .error _ => none

/-- A store of a byte. After a page fault was handled it is executed again. -/
def storeByte : Nat → Mmu → Nat → UInt8 → Option Mmu
  | 0, _, _, _ => none
  | fuel + 1, m, va, byte =>
      match m.walk va with
      | .ok (leaf, pa) =>
          if leaf.af && !leaf.apReadOnly then some { m with memory := v.poke m.memory pa byte }
          else none
      | .error .other => none
      | .error (.translation level) => do
          let m ← m.handlePageFault (Mmu.store fuel) level va
          storeByte fuel m va byte

/-- A field of `size` bytes. -/
def loadWord (m : Mmu) (va : Nat) : Nat → Option Nat
  | 0 => some 0
  | size + 1 => do
      let byte ← loadByte v m (va % 2 ^ 64)
      let rest ← loadWord m (va + 1) size
      pure (byte.toNat + 256 * rest)

/-- The loop of `memset`, with `remaining` bytes left from `s` on. -/
def memsetLoop (fuel : Nat) (byte : UInt8) : Nat → Nat → Mmu → Option Mmu
  | 0, _, m => some m
  | remaining + 1, s, m => do
      let m ← storeByte v fuel m (s % 2 ^ 64) byte
      memsetLoop fuel byte remaining (s + 1) m

/-- `memset`. The size is an `int`. -/
def memset (fuel : Nat) (m : Mmu) (s size : Nat) (byte : UInt8) : Option Mmu :=
  if size % 2 ^ 32 < 2 ^ 31 then memsetLoop v fuel byte (size % 2 ^ 32) s m else some m

/-- The loop of `memcpy`, with `remaining` bytes left. -/
def memcpyLoop (fuel : Nat) : Nat → Nat → Nat → Mmu → Option Mmu
  | 0, _, _, m => some m
  | remaining + 1, dest, src, m => do
      let byte ← loadByte v m (src % 2 ^ 64)
      let m ← storeByte v fuel m (dest % 2 ^ 64) byte
      memcpyLoop fuel remaining (dest + 1) (src + 1) m

/-- `memcpy`. The index is an `int`, which overflows when there are more bytes. -/
def memcpy (fuel : Nat) (m : Mmu) (dest src count : Nat) : Option Mmu :=
  if count < 2 ^ 31 then memcpyLoop v fuel count dest src m else none

/-! ## The file -/

/-- `ELFSegmentType::LOAD`. -/
def LOAD : Nat := 1

/-- `sizeof(ELFProgramHeader)`. -/
def sizeofProgramHeader : Nat := 56

/-- `PAGE_RW | PAGE_USER | PAGE_EXE`. -/
def segmentFlags : Nat := 7

/-- `ELF`. -/
structure ELF where
  header : Nat
  sectionIndex : Nat
  deriving DecidableEq

namespace ELF

/-- `ELF::ELF`. -/
def new (file : Nat) : ELF := ⟨file, 0⟩

/-- The field `magic` of the file header. -/
def magic (m : Mmu) (elf : ELF) : Option Nat := loadWord v m elf.header 4

/-- The field `phoffset` of the file header. -/
def phoffset (m : Mmu) (elf : ELF) : Option Nat := loadWord v m (elf.header + 32) 8

/-- The field `phcount` of the file header. -/
def phcount (m : Mmu) (elf : ELF) : Option Nat := loadWord v m (elf.header + 56) 2

/-- `ELF::isValid`. -/
def isValid (m : Mmu) (elf : ELF) : Option Bool := do
  let magic ← elf.magic v m
  if magic ≠ 0x464c457f then pure false
  else do
    let phcount ← elf.phcount v m
    pure (phcount > 0)

/-- `ELF::currentSection`, the address of a program header. -/
def currentSection (m : Mmu) (elf : ELF) : Option Nat := do
  let phoffset ← elf.phoffset v m
  pure (elf.header + phoffset + sizeofProgramHeader * elf.sectionIndex)

/-- `ELF::nextSection`, with its result. -/
def nextSection (m : Mmu) (elf : ELF) : Option (ELF × Bool) := do
  let phcount ← elf.phcount v m
  let sectionIndex := if elf.sectionIndex + 1 ≥ phcount then 0 else elf.sectionIndex + 1
  pure ({ elf with sectionIndex := sectionIndex }, sectionIndex > 0)

end ELF

namespace ELFProgramHeader

/-- The field `type`. -/
def type (m : Mmu) (p : Nat) : Option Nat := loadWord v m p 4

/-- The field `offset`. -/
def offset (m : Mmu) (p : Nat) : Option Nat := loadWord v m (p + 8) 8

/-- The field `vaddr`. -/
def vaddr (m : Mmu) (p : Nat) : Option Nat := loadWord v m (p + 16) 8

/-- The field `filesize`. -/
def filesize (m : Mmu) (p : Nat) : Option Nat := loadWord v m (p + 32) 8

/-- The field `memsize`. -/
def memsize (m : Mmu) (p : Nat) : Option Nat := loadWord v m (p + 40) 8

end ELFProgramHeader

/-! ## Loading a segment -/

/-- The local variables of the loop of `buildProgramImage` when it calls `map_region`, with the
allocator after `reserve` and what `getPageFrame` returned for the first address. -/
structure Segment where
  sectionSize : Nat
  frame : Nat
  allocator : PageAllocator
  fileSize : Nat
  dest : Nat
  src : Nat
  firstFrame : Nat

namespace Segment

/-- The local variable `diff`. -/
def diff (s : Segment) : Nat := s.dest % pageSize

/-- The local variable `mapPtr`. -/
def mapPtr (s : Segment) : Nat :=
  if s.firstFrame = 0 then s.dest - s.diff else (s.dest + (pageSize - s.diff)) % 2 ^ 64

/-- The local variable `mapSize`. -/
def mapSize (s : Segment) : Nat :=
  if s.firstFrame = 0 then (s.sectionSize + s.diff) % 2 ^ 64
  else sub64 s.sectionSize (pageSize - s.diff)

end Segment

/-- What the body of the loop comes to before it maps anything. -/
inductive Begun where
  | continue
  | failed (m : Mmu)
  | mapping (m : Mmu) (s : Segment)

/-- The body of the loop up to the call of `map_region`, for the program header at `p`. -/
def beginSection (m : Mmu) (elf : ELF) (p : Nat) : Option Begun := do
  let type ← ELFProgramHeader.type v m p
  if type ≠ LOAD then pure .continue
  else do
    let sectionSize ← ELFProgramHeader.memsize v m p
    let (a, frame) ← m.pageAllocator.reserve sectionSize
    let m := { m with pageAllocator := a }
    if frame = NOMEM then pure (.failed m)
    else do
      let fileSize ← ELFProgramHeader.filesize v m p
      let dest ← ELFProgramHeader.vaddr v m p
      let offset ← ELFProgramHeader.offset v m p
      let firstFrame ← m.getPageFrame dest
      pure (.mapping m ⟨sectionSize, frame, a, fileSize, dest, elf.header + offset, firstFrame⟩)

/-- The rest of the body, which maps the segment, clears it and copies it from the file. -/
def mapSegment (fuel : Nat) (m : Mmu) (s : Segment) : Option Mmu := do
  let m ← m.mapRegion fuel s.mapPtr s.mapSize s.frame segmentFlags
  let m ← memset v fuel m s.dest s.sectionSize 0
  memcpy v fuel m s.dest s.src s.fileSize

/-- The segments that `map_region` is called for, in order, and what is left when
`buildProgramImage` returns. -/
structure Image where
  segments : List Segment
  result : Option (Mmu × ELF × Int)

/-- A segment before the rest of an image. -/
def Image.cons (s : Segment) (image : Image) : Image :=
  { image with segments := s :: image.segments }

/-- The condition of the loop and the passes after it. -/
def Image.next (loop : Mmu → ELF → Image) (m : Mmu) (elf : ELF) : Image :=
  match elf.nextSection v m with
  | none => ⟨[], none⟩
  | some (elf, true) => loop m elf
  | some (elf, false) => ⟨[], some (m, elf, 0)⟩

/-- The loop of `buildProgramImage`, of at most `remaining` passes. -/
def buildLoop (fuel : Nat) : Nat → Mmu → ELF → Image
  | 0, _, _ => ⟨[], none⟩
  | remaining + 1, m, elf =>
      match elf.currentSection v m >>= beginSection v m elf with
      | none => ⟨[], none⟩
      | some .continue => Image.next v (buildLoop fuel remaining) m elf
      | some (.failed m) => ⟨[], some (m, elf, -1)⟩
      | some (.mapping m s) =>
          match mapSegment v fuel m s with
          | none => ⟨[s], none⟩
          | some m => (Image.next v (buildLoop fuel remaining) m elf).cons s

/-- `buildProgramImage`. The index of a section has 16 bits. -/
def buildProgramImage (fuel : Nat) (m : Mmu) (elf : ELF) : Image :=
  match elf.isValid v m with
  | none => ⟨[], none⟩
  | some false => ⟨[], some (m, elf, -1)⟩
  | some true => buildLoop v fuel (2 ^ 16) m elf

end CrosKernel.Loader
