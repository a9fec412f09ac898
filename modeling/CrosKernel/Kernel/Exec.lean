import CrosKernel.Fs.Fat32
import CrosKernel.Loader.Elf
import CrosKernel.Memory.AddressSpace
import CrosKernel.Sched.Process

/-!
# Executing a program

`Kernel::exec` of `src/kernel.cpp`: the file is read into the heap sector by sector, and
`buildProgramImage` maps its segments in a new address space, with a stack behind them. The addresses
that `rmalloc` returns are parameters, and the heap has room for what is allocated. Neither the result
of `buildProgramImage` nor that of the reservation for the stack is looked at, so both are part of
what is returned here.
-/

namespace CrosKernel

open Fs Loader Memory Sched

/-- `Process::exec`. The address space of a process is no part of its registers. -/
def Sched.Process.exec (p : Process) (pc stack kernelStack : UInt64) : Process × Int :=
  if p.state ≠ .ACTIVE then (p, -1)
  else
    let ctx := ((p.ctx.setProgramCounter pc).setStackPointer stack).setKernelStack kernelStack
    ({ p with ctx := ctx }, 0)

/-- The active process continues at `pc` with the new stack. -/
theorem Sched.Process.exec_ctx {p p' : Process} {pc stack kernelStack : UInt64} {status : Int}
    (h : p.state = .ACTIVE) (hexec : p.exec pc stack kernelStack = (p', status)) : p'.ctx =
      { p.ctx with programCounter := pc, stackPointer := stack, kernelStack := kernelStack } := by
  rw [exec, if_neg (not_not.2 h)] at hexec
  rw [← (Prod.mk.inj hexec).1]
  rfl

/-- The active process, and the machine with all address spaces. -/
structure ExecKernel where
  process : Process
  spaces : Spaces

namespace ExecKernel

/-- The size of the stack of a new program. -/
def stackSize : Nat := 0x10000

/-- The first address of the stack. -/
def stackBase : Nat := 0x7FBFFF0000

/-- The initial stack pointer. -/
def stackTop : Nat := 0x7FC0000000

/-- `PAGE_USER | PAGE_RW`. -/
def stackFlags : Nat := PAGE_USER ||| PAGE_RW

/-- The size of a kernel stack. -/
def kernelStackSize : Nat := 2 ^ 16

variable (v : ByteView) (fuel : Nat)

/-- The loop of `memcpy` from a sector that was read, with `remaining` bytes left from `index` on. -/
def copySector (data : Buffer) : Nat → Nat → Nat → Mmu → Option Mmu
  | 0, _, _, m => some m
  | remaining + 1, index, dest, m => do
      let byte ← data.get index
      let m ← storeByte v fuel m (dest % 2 ^ 64) byte
      copySector data remaining (index + 1) (dest + 1) m

/-- The loop of `exec` that reads the file to `exeData`, of at most `remaining` passes. The flag is
false when a sector could not be read. -/
def readLoop (fs : FAT32) (path : Str) (size : Int) (exeData : Nat) :
    Nat → Nat → Mmu → Option (Mmu × Bool)
  | 0, _, _ => none
  | remaining + 1, i, m =>
      if (i : Int) < size then do
        match ← fs.readFile path (i / 512) with
        | none => pure (m, false)
        | some data => do
            let count := if size - i ≥ 512 then 512 else (size - i).toNat
            let m ← copySector v fuel data count 0 (exeData + i) m
            -- the index is an `int`, which overflows behind the largest sizes
            if i + 512 < 2 ^ 31 then readLoop fs path size exeData remaining (i + 512) m else none
      else some (m, true)

/-- The result of `buildProgramImage` and the page frame of the stack. -/
structure Built where
  image : Int
  stackFrame : Nat
  deriving DecidableEq

/-- The part of `exec` from the new address space to the stack. -/
def buildProgram (s : Spaces) (exeData : Nat) : Option (Spaces × Built) := do
  let (m, idCounter, a) ← s.mmu.createAddressSpace fuel s.idCounter
  -- the pointer is followed also when it is null
  let a ← a
  let m := m.loadAddressSpace a
  let (m, _, image) ← (buildProgramImage v fuel m (.new exeData)).result
  let (al, frame) ← m.pageAllocator.reserve stackSize
  let m ← ({ m with pageAllocator := al } : Mmu).mapRegion fuel stackBase stackSize frame stackFlags
  pure (⟨m, idCounter, a :: s.created⟩, ⟨image, frame⟩)

/-- The field `entry` of the file header. -/
def entry (m : Mmu) (header : Nat) : Option Nat := loadWord v m (header + 24) 8

/-- `Kernel::exec`, up to the arguments of the program, with its result. `exeData` and `base` are the
addresses that the calls of `rmalloc` return. -/
def exec (fs : FAT32) (path : Str) (exeData base : Nat) (k : ExecKernel) :
    Option (ExecKernel × Int × Option Built) := do
  if k.process.state ≠ .ACTIVE then pure (k, -1, none)
  else
    match ← fs.fileType path, ← fs.fileSize path with
    | some _, some size => do
        let (m, ok) ← readLoop v fuel fs path size exeData (2 ^ 22 + 1) 0 k.spaces.mmu
        let k := { k with spaces := { k.spaces with mmu := m } }
        if !ok then pure (k, Error.EIO.code, none)
        else do
          let (spaces, built) ← buildProgram v fuel k.spaces exeData
          if base = 0 then pure ({ k with spaces := spaces }, Error.ENOMEM.code, some built)
          else do
            let pc ← entry v spaces.mmu exeData
            let (process, _) := k.process.exec (.ofNat pc) (.ofNat stackTop)
              (.ofNat (base + kernelStackSize))
            pure (⟨process, spaces⟩, Error.ENONE.code, some built)
    | _, _ => pure (k, Error.ENOFILE.code, none)

end ExecKernel

end CrosKernel
