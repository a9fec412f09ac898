import CrosKernel.Memory.PageAllocator

/-!
# Translation tables

The memory management unit and the functions of `src/memory/aarch64/mmu.cpp` and
`src/memory/mmap.cpp` that write translation tables, with the system calls `mmap` and `munmap` of
`src/kernel.cpp`. Each half of the address space has tables of three levels, and the last entry of
the top table refers to the table itself, so that all tables appear in windows at the end of the
half. A write to a table that is missing raises a page fault, whose handler adds tables.

A function returns `none` where the kernel stops: `hacf`, an abort that nothing handles, or an
access outside an array or through an uninitialised pointer.
-/

namespace CrosKernel.Memory

/-- `PageTableEntry`, with the fields that the functions below write. -/
structure PageTableEntry where
  present : Bool
  type : Bool
  apEL0 : Bool
  apReadOnly : Bool
  af : Bool
  outputAddress : Nat
  xn : Bool
  deriving DecidableEq

namespace PageTableEntry

/-- The entry after `clear`. -/
def cleared : PageTableEntry where
  present := false
  type := false
  apEL0 := false
  apReadOnly := false
  af := false
  outputAddress := 0
  xn := false

/-- The field `outputAddress` for a physical address. -/
def outputOf (addr : Nat) : Nat := addr / 2 ^ 12 % 2 ^ 40

/-- The entry after `makeTableDescriptor`. -/
def tableDescriptor (nextLevel : Nat) : PageTableEntry :=
  { cleared with present := true, type := true, af := true, outputAddress := outputOf nextLevel }

/-- The entry after `makeBlockDescriptor`. -/
def blockDescriptor (frame permissions : Nat) : PageTableEntry where
  present := true
  type := false
  apEL0 := permissions.testBit 1
  apReadOnly := !permissions.testBit 0
  af := true
  outputAddress := outputOf frame
  xn := !permissions.testBit 2

/-- The entry after `makePageDescriptor`. -/
def pageDescriptor (frame permissions : Nat) : PageTableEntry :=
  { blockDescriptor frame permissions with type := true }

/-- `PageTableEntry::physicalAddress`. -/
def physicalAddress (e : PageTableEntry) : Nat := e.outputAddress * 2 ^ 12

end PageTableEntry

/-- `PAGE_USER`. -/
def PAGE_USER : Nat := 2

/-- `page_size` and `getBlockSize(0)`. -/
def pageSize : Nat := 4096

/-- `&__high_mem`. -/
def highMem : Nat := 0xFFFFFF8000000000

/-- The end of the lower half. -/
def lowEnd : Nat := 0x0000008000000000

/-- The half of the address space that a table belongs to. -/
inductive Half where
  | user | kernel
  deriving DecidableEq

/-- `kernelTables` and `userTables`. -/
def tables : Half → Nat → Nat
  | .kernel, 0 => 0xFFFFFFFFFFFFF000
  | .kernel, 1 => 0xFFFFFFFFFFE00000
  | .kernel, _ => 0xFFFFFFFFC0000000
  | .user, 0 => 0x0000007FFFFFF000
  | .user, 1 => 0x0000007FFFE00000
  | .user, _ => 0x0000007FC0000000

/-- Why an access is aborted: no translation at a level, or any other cause. -/
inductive Abort where
  | translation (level : Nat)
  | other
  deriving DecidableEq

/-- The physical memory as translation tables, a table of 512 entries for each page frame, with the
two translation table base registers. `tableFrames` records what `fillTranslationTable` reserved. -/
structure Mmu where
  memory : Nat → Nat → PageTableEntry
  ttbr0 : Nat
  ttbr1 : Nat
  pageAllocator : PageAllocator
  tableFrames : List Nat

namespace Mmu

/-! ## The translation of an address -/

/-- The walk through the three levels from the top table, for an address inside its half: the
descriptor and the physical address. -/
def walkFrom (memory : Nat → Nat → PageTableEntry) (top linear : Nat) :
    Except Abort (PageTableEntry × Nat) :=
  let e₁ := memory top (linear / 2 ^ 30)
  if !e₁.present then .error (.translation 1)
  else if !e₁.type then .ok (e₁, e₁.physicalAddress / 2 ^ 30 * 2 ^ 30 + linear % 2 ^ 30)
  else
    let e₂ := memory e₁.outputAddress (linear / 2 ^ 21 % 512)
    if !e₂.present then .error (.translation 2)
    else if !e₂.type then .ok (e₂, e₂.physicalAddress / 2 ^ 21 * 2 ^ 21 + linear % 2 ^ 21)
    else
      let e₃ := memory e₂.outputAddress (linear / 2 ^ 12 % 512)
      -- a block descriptor has no meaning at the last level
      if e₃.present && e₃.type then .ok (e₃, e₃.physicalAddress + linear % 2 ^ 12)
      else .error (.translation 3)

/-- The translation of a virtual address. -/
def walk (m : Mmu) (va : Nat) : Except Abort (PageTableEntry × Nat) :=
  if va < lowEnd then walkFrom m.memory m.ttbr0 va
  else if highMem ≤ va ∧ va < 2 ^ 64 then walkFrom m.memory m.ttbr1 (va - highMem)
  else .error (.translation 0)

/-- Store an entry in a page frame. -/
def set (m : Mmu) (frame index : Nat) (e : PageTableEntry) : Mmu :=
  { m with memory := Function.update m.memory frame (Function.update (m.memory frame) index e) }

/-- The entry that the kernel reads at an address. -/
def load (m : Mmu) (va : Nat) : Option PageTableEntry :=
  match m.walk va with
  | .ok (leaf, pa) => if leaf.af then some (m.memory (pa / 2 ^ 12) (pa % 2 ^ 12 / 8)) else none
  | .error _ => none

/-- The memory after the kernel writes an entry at an address. -/
def write (m : Mmu) (va : Nat) (e : PageTableEntry) : Except Abort Mmu :=
  match m.walk va with
  | .ok (leaf, pa) =>
      if leaf.af && !leaf.apReadOnly then .ok (m.set (pa / 2 ^ 12) (pa % 2 ^ 12 / 8) e)
      else .error .other
  | .error abort => .error abort

/-! ## Page faults -/

/-- The functions that make a descriptor. They clear the entry with the instruction `store`, which
may raise a page fault, and then assign to its fields, which are read first. -/
def makeDescriptor (store : Mmu → Nat → PageTableEntry → Option Mmu) (m : Mmu) (va : Nat)
    (e : PageTableEntry) : Option Mmu := do
  let m ← store m va .cleared
  (m.write va e).toOption

/-- The loop of `fillTranslationTable`, with `remaining` tables to add from the level `i` on. -/
def fillLoop (store : Mmu → Nat → PageTableEntry → Option Mmu) (half : Half)
    (targetLevel farOffset : Nat) : Nat → Nat → Mmu → Option Mmu
  | 0, _, m => some m
  | remaining + 1, i, m => do
      let tableIndex := farOffset / 2 ^ (12 + 9 * (targetLevel - i - 1))
      let (a, tableFrame) ← m.pageAllocator.reserve pageSize
      if tableFrame = NOMEM then none
      else
        let m := { m with pageAllocator := a, tableFrames := tableFrame :: m.tableFrames }
        let m ← makeDescriptor store m (tables half i + 8 * tableIndex)
          (.tableDescriptor tableFrame)
        fillLoop store half targetLevel farOffset remaining (i + 1) m

/-- `fillTranslationTable`. From `tables[-1]` on nothing is defined. -/
def fillTranslationTable (store : Mmu → Nat → PageTableEntry → Option Mmu) (m : Mmu)
    (faultLevel targetLevel far : Nat) : Option Mmu :=
  let half := if highMem ≤ far then Half.kernel else .user
  if targetLevel + faultLevel < 4 then none
  else fillLoop store half targetLevel (far - tables half targetLevel) (4 - faultLevel)
    (targetLevel + faultLevel - 4) m

/-- `handlePageFault` for a translation fault of a write to `far`. -/
def handlePageFault (store : Mmu → Nat → PageTableEntry → Option Mmu) (m : Mmu) (level far : Nat) :
    Option Mmu :=
  if level = 0 then none
  else if tables .kernel 0 ≤ far then none
  else if tables .kernel 1 ≤ far then fillTranslationTable store m level 1 far
  else if tables .kernel 2 ≤ far then fillTranslationTable store m level 2 far
  else if tables .user 0 ≤ far then none
  else if tables .user 1 ≤ far then fillTranslationTable store m level 1 far
  else if tables .user 2 ≤ far then fillTranslationTable store m level 2 far
  else none

/-- A store instruction of the kernel. After a page fault was handled it is executed again. -/
def store : Nat → Mmu → Nat → PageTableEntry → Option Mmu
  | 0, _, _, _ => none
  | fuel + 1, m, va, e =>
      match m.write va e with
      | .ok m => some m
      | .error .other => none
      | .error (.translation level) => do
          let m ← handlePageFault (store fuel) m level va
          store fuel m va e

/-! ## Page entries -/

/-- The address of the entry for a page, as the functions below compute it. Between the two halves
the pointer is not initialised. -/
def entryAddress (level page : Nat) : Option Nat :=
  if highMem ≤ page then
    some (tables .kernel (2 - level) + 8 * ((page - highMem) / 2 ^ (12 + 9 * level)))
  else if page < lowEnd then some (tables .user (2 - level) + 8 * (page / 2 ^ (12 + 9 * level)))
  else none

/-- `setPageEntry`. -/
def setPageEntry (fuel : Nat) (m : Mmu) (level page frame flags : Nat) : Option Mmu :=
  if level > 2 then some m
  else do
    let entry ← entryAddress level page
    makeDescriptor (store fuel) m entry
      (if level = 0 then .pageDescriptor frame flags else .blockDescriptor frame flags)

/-- `clearEntry`. -/
def clearEntry (fuel : Nat) (m : Mmu) (level page : Nat) : Option Mmu := do
  let entry ← entryAddress level page
  store fuel m entry .cleared

/-- `getPageFrame`. -/
def getPageFrame (m : Mmu) (page : Nat) : Option Nat := do
  let half := if highMem < page then Half.kernel else .user
  let linearAddr := page % 2 ^ 39
  let e ← m.load (tables half 0 + 8 * (linearAddr / 2 ^ 30))
  if !e.present then some 0
  else if !e.type then some e.physicalAddress
  else do
    let e ← m.load (tables half 1 + 8 * (linearAddr / 2 ^ 21))
    if !e.present then some 0
    else if !e.type then some e.physicalAddress
    else do
      let e ← m.load (tables half 2 + 8 * (linearAddr / 2 ^ 12))
      if !e.present then some 0 else some e.physicalAddress

/-! ## Regions -/

/-- The offsets of the pages of a region. -/
def offsets (size : Nat) : List Nat :=
  (List.range ((size + pageSize - 1) / pageSize)).map (· * pageSize)

/-- The loop of `map_region` over the offsets. -/
def mapLoop (fuel addr frame flags : Nat) : List Nat → Mmu → Option Mmu
  | [], m => some m
  | p :: rest, m => do
      let m ← setPageEntry fuel m 0 ((addr + p) % 2 ^ 64) ((frame + p) % 2 ^ 64) flags
      mapLoop fuel addr frame flags rest m

/-- `map_region`. -/
def mapRegion (fuel : Nat) (m : Mmu) (addr size frame flags : Nat) : Option Mmu :=
  mapLoop fuel addr frame flags (offsets size) m

/-- The loop of `unmap_region` over the offsets. -/
def unmapLoop (fuel addr : Nat) : List Nat → Mmu → Option Mmu
  | [], m => some m
  | p :: rest, m => do
      let m ← clearEntry fuel m 0 ((addr + p) % 2 ^ 64)
      unmapLoop fuel addr rest m

/-- `unmap_region`. -/
def unmapRegion (fuel : Nat) (m : Mmu) (addr size : Nat) : Option Mmu :=
  unmapLoop fuel addr (offsets size) m

/-- `syscall_mmap`, with the frame that it reserved. The call fails when there is none. -/
def syscallMmap (fuel : Nat) (m : Mmu) (ptr size flags : Nat) : Option (Mmu × Option Nat) := do
  let (a, frame) ← m.pageAllocator.reserve size
  let m := { m with pageAllocator := a }
  if frame = NOMEM then some (m, none)
  else
    let m ← mapRegion fuel m ptr size frame (flags ||| PAGE_USER)
    pure (m, some frame)

/-- `syscall_munmap`. -/
def syscallMunmap (fuel : Nat) (m : Mmu) (ptr size : Nat) : Option Mmu :=
  unmapRegion fuel m ptr size

end Mmu

end CrosKernel.Memory
