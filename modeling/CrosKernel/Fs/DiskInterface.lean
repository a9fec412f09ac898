import CrosKernel.Lib.LittleEndian
import Mathlib.Data.List.Basic

/-!
# Sector buffers and the RAM disk

`DiskInterface` of `src/fs/fat32/disk_interface/disk_interface.cpp` and the byte helpers of
`src/fs/fat32/helpers.cpp`. A sector buffer is an array that was allocated with a fixed size;
an access outside it yields `none`. The disk is the memory behind the `ramfs` pointer, whose
extent the code does not know.
-/

namespace CrosKernel.Fs

open Lib

/-- A `byte` array obtained from `new byte[size]`. -/
structure Buffer where
  size : Nat
  data : Nat → UInt8

namespace Buffer

/-- `buffer[index]`. -/
def get (b : Buffer) (index : Nat) : Option UInt8 :=
  if index < b.size then some (b.data index) else none

/-- `buffer[index] = byte`. -/
def set (b : Buffer) (index : Nat) (byte : UInt8) : Option Buffer :=
  if index < b.size then some { b with data := Function.update b.data index byte } else none

/-- The loop shared by `bytes_to_short`, `bytes_to_int` and `bytes_to_long`: collect `size` bytes
from `index` and reinterpret them as a little-endian number. -/
def bytesToNat (b : Buffer) (index : Nat) : Nat → Option Nat
  | 0 => some 0
  | size + 1 => do
      let byte ← b.get index
      let rest ← bytesToNat b (index + 1) size
      pure (byte.toNat + 256 * rest)

/-- The loop shared by `short_to_bytes`, `int_to_bytes` and `long_to_bytes`: store the low `size`
bytes of `num` from `offset`. -/
def natToBytes (num : Nat) (b : Buffer) (offset : Nat) : Nat → Option Buffer
  | 0 => some b
  | size + 1 => do
      let b ← b.set offset (UInt8.ofNat num)
      natToBytes (num / 256) b (offset + 1) size

/-- `bytes_to_short`. -/
def bytesToShort (b : Buffer) (index : Nat) : Option Nat := b.bytesToNat index 2

/-- `bytes_to_int`. -/
def bytesToInt (b : Buffer) (index : Nat) : Option Nat := b.bytesToNat index 4

/-- `short_to_bytes`. -/
def shortToBytes (num : Nat) (b : Buffer) (offset : Nat) : Option Buffer :=
  natToBytes num b offset 2

/-- `int_to_bytes`. -/
def intToBytes (num : Nat) (b : Buffer) (offset : Nat) : Option Buffer := natToBytes num b offset 4

variable {b : Buffer}

/-- Inside the buffer the reading helpers return the stored word. -/
theorem bytesToNat_eq {index size : Nat} (h : index + size ≤ b.size) :
    b.bytesToNat index size = some (wordAt b.data index size) := by
  induction size generalizing index with
  | zero => rfl
  | succ size ih =>
      have hindex : index < b.size := by omega
      have hrest : b.bytesToNat (index + 1) size = some (wordAt b.data (index + 1) size) :=
        ih (by omega)
      simp [bytesToNat, get, hindex, hrest, wordAt]

/-- Inside the buffer the writing helpers store the word. -/
theorem natToBytes_eq {num offset size : Nat} (h : offset + size ≤ b.size) :
    natToBytes num b offset size = some { b with data := setWord b.data offset num size } := by
  induction size generalizing b num offset with
  | zero => rfl
  | succ size ih =>
      have hoffset : offset < b.size := by omega
      simp only [natToBytes, set, hoffset, if_true, Option.bind_eq_bind, Option.bind_some, setWord]
      rw [ih (by simp only; omega)]

end Buffer

/-- `DiskInterface`. -/
structure DiskInterface where
  bytesPerSector : Nat
  disk : Nat → UInt8

namespace DiskInterface

/-- `DiskInterface::read`: a fresh copy of one sector. -/
def read (di : DiskInterface) (sectorIndex : Nat) : Buffer where
  size := di.bytesPerSector
  data i := di.disk (i + di.bytesPerSector * sectorIndex)

/-- `DiskInterface::write`: copy a buffer over one sector. -/
def write (di : DiskInterface) (sectorIndex : Nat) (buffer : Buffer) : DiskInterface :=
  { di with
    disk := fun a =>
      if di.bytesPerSector * sectorIndex ≤ a ∧
          a < di.bytesPerSector * sectorIndex + di.bytesPerSector then
        buffer.data (a - di.bytesPerSector * sectorIndex)
      else di.disk a }

/-- The byte range that `size` bytes from byte offset `address` occupy lies in one sector. -/
def InSector (di : DiskInterface) (address size : Nat) : Prop :=
  address % di.bytesPerSector + size ≤ di.bytesPerSector

variable {di : DiskInterface} {address size : Nat}

/-- Reading a word through the buffer of its sector reads it from the disk. -/
theorem read_bytesToNat (h : di.InSector address size) :
    (di.read (address / di.bytesPerSector)).bytesToNat (address % di.bytesPerSector) size =
      some (wordAt di.disk address size) := by
  rw [Buffer.bytesToNat_eq h]
  congr 1
  have hdiv := Nat.mod_add_div address di.bytesPerSector
  have hshift : ∀ index, wordAt (di.read (address / di.bytesPerSector)).data index size =
      wordAt di.disk (index + di.bytesPerSector * (address / di.bytesPerSector)) size := by
    intro index
    clear h hdiv
    induction size generalizing index with
    | zero => rfl
    | succ size ih =>
        simp only [wordAt, ih, Nat.add_right_comm _ 1]
        rfl
  rw [hshift, hdiv]

/-- Changing a word in the buffer of its sector and writing the buffer back stores the word. -/
theorem write_natToBytes (value : Nat) (h : di.InSector address size) :
    ∃ b, Buffer.natToBytes value (di.read (address / di.bytesPerSector))
        (address % di.bytesPerSector) size = some b ∧
      di.write (address / di.bytesPerSector) b =
        { di with disk := setWord di.disk address value size } := by
  refine ⟨_, Buffer.natToBytes_eq h, ?_⟩
  have hdiv := Nat.mod_add_div address di.bytesPerSector
  simp only [write, DiskInterface.mk.injEq, true_and]
  funext a
  simp only [read]
  split
  next hin =>
    rw [setWord_shift di.disk, hdiv, Nat.sub_add_cancel hin.1]
  next hout =>
    have hrange := h
    unfold InSector at hrange
    exact (setWord_outside (by omega)).symm

@[simp] theorem write_bytesPerSector (sectorIndex : Nat) (buffer : Buffer) :
    (di.write sectorIndex buffer).bytesPerSector = di.bytesPerSector := rfl

end DiskInterface

end CrosKernel.Fs
