import CrosKernel.Memory.HeapRealloc
import CrosKernel.Memory.UserSpace

/-!
# Address spaces

`createAddressSpace` and `loadAddressSpace` of `src/memory/mmap.cpp` and
`src/memory/aarch64/mmu.cpp`. A new top table is written through a page of the kernel half, which is
mapped to its page frame for that time. `SpaceEvent.perform` is a machine on which address spaces are
created and entered, while the processes in them and the kernel map pages and write to them.
-/

namespace CrosKernel.Memory

open Lib PageTableEntry

/-- `AddressSpace`, without the reference count. -/
structure AddressSpace where
  topLevelTable : Nat
  id : Nat
  deriving DecidableEq

namespace AddressSpace

/-- `AddressSpace::getTableFrame`. -/
def getTableFrame (a : AddressSpace) : Nat := a.topLevelTable

/-- `AddressSpace::getId`. -/
def getId (a : AddressSpace) : Nat := a.id

end AddressSpace

namespace Mmu

/-! ## Creating and entering address spaces -/

/-- The base of the tables in a translation table base register. The bits above it are the number of
the address space. -/
def tableBase (ttbr : Nat) : Nat := ttbr % 2 ^ 48 / 2 ^ 12

/-- `loadAddressSpace`. -/
def loadAddressSpace (m : Mmu) (a : AddressSpace) : Mmu :=
  { m with ttbr0 := tableBase ((a.getTableFrame ||| a.getId <<< 48) % 2 ^ 64) }

/-- `scratchAddr`. -/
def scratchAddr : Nat := 0xFFFFFFFFBFFFF000

/-- The loop of `initializeTopTable` over the indices of the entries. -/
def clearLoop (fuel : Nat) : List Nat → Mmu → Option Mmu
  | [], m => some m
  | i :: rest, m => do
      let m ← store fuel m (scratchAddr + 8 * i) .cleared
      clearLoop fuel rest m

/-- `initializeTopTable`. -/
def initializeTopTable (fuel : Nat) (m : Mmu) (frame : Nat) : Option Mmu := do
  let buffer ← m.getPageFrame scratchAddr
  let m ← setPageEntry fuel m 0 scratchAddr frame PAGE_RW
  let m ← clearLoop fuel (List.range 511) m
  let m ← makeDescriptor (store fuel) m (scratchAddr + 8 * 511) (.tableDescriptor frame)
  setPageEntry fuel m 0 scratchAddr buffer PAGE_RW

/-- `createAddressSpace`, with the counter for the number of the next address space. Its object is
allocated on the heap, which is no part of this state. -/
def createAddressSpace (fuel : Nat) (m : Mmu) (idCounter : Nat) :
    Option (Mmu × Nat × Option AddressSpace) := do
  let (a, frame) ← m.pageAllocator.reserve pageSize
  let m := { m with pageAllocator := a }
  if frame = NOMEM then some (m, idCounter, none)
  else do
    let m ← initializeTopTable fuel m frame
    pure (m, idCounter + 1, some ⟨frame, idCounter⟩)

/-! ## What a process reads and writes -/

/-- The entry that a process reads at an address. -/
def userLoad (m : Mmu) (va : Nat) : Option PageTableEntry :=
  match m.walk va with
  | .ok (leaf, pa) =>
      if leaf.af && leaf.apEL0 then some (m.memory (pa / 2 ^ 12) (pa % 2 ^ 12 / 8)) else none
  | .error _ => none

/-- The memory after a process writes an entry at an address. An abort stops the kernel. -/
def userStore (m : Mmu) (va : Nat) (e : PageTableEntry) : Option Mmu :=
  match m.walk va with
  | .ok (leaf, pa) =>
      if leaf.af && leaf.apEL0 && !leaf.apReadOnly then
        some (m.set (pa / 2 ^ 12) (pa % 2 ^ 12 / 8) e)
      else none
  | .error _ => none

end Mmu

/-- A page as a process sees it: whether it can write there, the field `xn` of the descriptor and the
entries in it. -/
@[ext] structure Page where
  writable : Bool
  xn : Bool
  contents : Fin 512 → PageTableEntry

/-- The number of pages in the lower half. -/
def lowPages : Nat := 2 ^ 27

/-- The page with this number in the address space of a top table. -/
def pageAt (memory : Nat → Nat → PageTableEntry) (top p : Nat) : Option Page :=
  if p < lowPages then
    match Mmu.walkFrom memory top (p * pageSize) with
    | .ok (leaf, pa) =>
        if leaf.af && leaf.apEL0 then
          some ⟨!leaf.apReadOnly, leaf.xn, fun x => memory (pa / 2 ^ 12) x⟩
        else none
    | .error _ => none
  else none

/-! ## The machine -/

/-- The machine with the address spaces that were created. -/
structure Spaces where
  mmu : Mmu
  idCounter : Nat
  created : List AddressSpace

/-- What happens in the address space of a process. The flag of `mmap` says whether there was memory
for it, and `copy` is a write of the kernel to the memory of the process. -/
inductive SpaceOp where
  | mmap (ptr size flags : Nat) (success : Bool)
  | munmap (ptr size : Nat)
  | store (va : Nat) (e : PageTableEntry)
  | copy (va : Nat) (e : PageTableEntry)

/-- What happens on the machine: an address space is created or entered, the heap of the kernel
grows, or something happens in the current address space, which is the one of the top table `t`. -/
inductive SpaceEvent where
  | create
  | enter (a : AddressSpace)
  | grow (heapEnd size : Nat)
  | op (t : Nat) (o : SpaceOp)

/-- The machine after an operation in the current address space. -/
def SpaceOp.perform (fuel : Nat) (m : Mmu) : SpaceOp → Option Mmu
  | .mmap ptr size flags success => do
      let (m, frame) ← m.syscallMmap fuel ptr size flags
      if frame.isSome = success then some m else none
  | .munmap ptr size => m.syscallMunmap fuel ptr size
  | .store va e => m.userStore va e
  | .copy va e => Mmu.store fuel m va e

/-- The machine after an event. -/
def SpaceEvent.perform (fuel : Nat) (s : Spaces) : SpaceEvent → Option Spaces
  | .create => do
      let (m, idCounter, a) ← s.mmu.createAddressSpace fuel s.idCounter
      pure ⟨m, idCounter, a.toList ++ s.created⟩
  | .enter a => if a ∈ s.created then some { s with mmu := s.mmu.loadAddressSpace a } else none
  | .grow heapEnd size => do
      let (_, m) ← MappedHeap.mapFrames fuel s.mmu heapEnd size
      pure { s with mmu := m }
  | .op _ o => do
      let m ← o.perform fuel s.mmu
      pure { s with mmu := m }

/-! ## The memory of one process -/

/-- The page number of an address. -/
def pageNumber (va : Nat) : Nat := va / pageSize

/-- The entry of its page that an address names. -/
theorem entryIndex_lt (va : Nat) : va % pageSize / 8 < 512 := by
  unfold pageSize
  omega

/-- A page as `mmap` maps it. -/
def newPage (flags : Nat) : Page :=
  ⟨flags.testBit 0, !flags.testBit 2, fun _ => .cleared⟩

/-- The page with another entry at this address. -/
def Page.write (pg : Page) (va : Nat) (e : PageTableEntry) : Page :=
  { pg with contents := fun x => if x.val = va % pageSize / 8 then e else pg.contents x }

/-- What an operation means for the pages of a process that has a memory of its own. -/
def SpaceOp.apply (pages : Nat → Option Page) : SpaceOp → Nat → Option Page
  | .mmap ptr size flags true =>
      (Mmu.offsets size).foldl (fun pages p =>
        Function.update pages (pageNumber ((ptr + p) % 2 ^ 64)) (some (newPage flags))) pages
  | .mmap _ _ _ false => pages
  | .munmap ptr size =>
      (Mmu.offsets size).foldl (fun pages p =>
        Function.update pages (pageNumber ((ptr + p) % 2 ^ 64)) none) pages
  | .store va e | .copy va e =>
      Function.update pages (pageNumber va) ((pages (pageNumber va)).map (·.write va e))

/-- What an event means for the pages of the process with the top table `t`. -/
def SpaceEvent.applyFor (t : Nat) (pages : Nat → Option Page) : SpaceEvent → Nat → Option Page
  | .op t' o => if t' = t then o.apply pages else pages
  | _ => pages

/-- The pages of the process with the top table `t` after some events. -/
def replay (t : Nat) (es : List SpaceEvent) (pages : Nat → Option Page) : Nat → Option Page :=
  es.foldl (fun pages e => e.applyFor t pages) pages

end CrosKernel.Memory
