import CrosKernel.Lib.Layering
import Mathlib.Algebra.Order.Ring.Nat

/-!
# Memory maps

`MemoryMap` of `src/memory/memorymap.cpp`: the array of regions that `place` keeps free of
overlaps with `insert` and `trim`. The list `MemoryMap` is the array `map` up to `mapSize`;
operations return `none` where the code would write behind the end of the array.
-/

namespace CrosKernel.Memory

open Lib

/-- `MemoryMap::MemoryType`. -/
inductive MemoryType where
  | AVAILABLE | UNAVAILABLE | MMIO | DEFECTIVE
  deriving DecidableEq, Repr

/-- The enumerator's value; higher values overwrite lower ones. -/
def MemoryType.value : MemoryType → Nat
  | MemoryType.AVAILABLE => 1
  | MemoryType.UNAVAILABLE => 2
  | MemoryType.MMIO => 3
  | MemoryType.DEFECTIVE => 4

theorem MemoryType.value_pos (type : MemoryType) : 0 < type.value := by
  cases type <;> decide

theorem MemoryType.value_inj {type type' : MemoryType} :
    type.value = type'.value ↔ type = type' := by
  cases type <;> cases type' <;> decide

/-- Subtraction of `unsigned long` values. -/
def sub64 (a b : Nat) : Nat := (a + 2 ^ 64 - b) % 2 ^ 64

theorem sub64_eq {a b : Nat} (hle : b ≤ a) (hlt : a < 2 ^ 64) : sub64 a b = a - b := by
  unfold sub64
  omega

/-- `MemoryMap::MemoryRegion`. -/
structure MemoryRegion where
  type : MemoryType
  location : Nat
  size : Nat
  deriving DecidableEq, Repr

namespace MemoryRegion

/-- `MemoryRegion::end`. -/
def finish (r : MemoryRegion) : Nat := (r.location + r.size) % 2 ^ 64

/-- `MemoryRegion::operator<`. -/
def lt (r rhs : MemoryRegion) : Prop :=
  if r.location = rhs.location then r.size < rhs.size else r.location < rhs.location

instance (r rhs : MemoryRegion) : Decidable (r.lt rhs) :=
  inferInstanceAs (Decidable (if r.location = rhs.location then r.size < rhs.size else
    r.location < rhs.location))

/-- `MemoryRegion::overlaps`. -/
def overlaps (r rhs : MemoryRegion) : Prop :=
  if rhs.location < r.location then rhs.finish > r.location else rhs.location < r.finish

instance (r rhs : MemoryRegion) : Decidable (r.overlaps rhs) :=
  inferInstanceAs (Decidable (if rhs.location < r.location then rhs.finish > r.location else
    rhs.location < r.finish))

/-- `MemoryRegion::contains`. -/
def contains (r rhs : MemoryRegion) : Prop :=
  rhs.location ≥ r.location ∧ rhs.finish ≤ r.finish

instance (r rhs : MemoryRegion) : Decidable (r.contains rhs) :=
  inferInstanceAs (Decidable (_ ∧ _))

end MemoryRegion

/-- `MemoryMap`: the regions of the array `map` up to `mapSize`. -/
abbrev MemoryMap := List MemoryRegion

/-- `MemoryMap::capacity`. -/
def capacity : Nat := 16

namespace MemoryMap

/-- The loop of `MemoryMap::insert` over the rest of the array, which carries the region that is
still to be stored. -/
def insertLoop (newRegion : MemoryRegion) : MemoryMap → MemoryMap
  | [] => [newRegion]
  | r :: rest =>
      if newRegion.lt r then newRegion :: insertLoop r rest else r :: insertLoop newRegion rest

/-- `MemoryMap::insert`. -/
def insert (map : MemoryMap) (type : MemoryType) (location size : Nat) : Option MemoryMap :=
  if map.length < capacity then some (insertLoop ⟨type, location, size⟩ map) else none

/-- `MemoryMap::remove`. -/
def remove (map : MemoryMap) (index : Nat) : MemoryMap := map.eraseIdx index

/-- `MemoryMap::trim`. The index -1 is `none`. -/
def trim (map : MemoryMap) (index : Nat) : Option (MemoryMap × Option Nat) := do
  match map[index]?, map[index + 1]? with
  | some left, some right =>
      if left.overlaps right ∧ left.type = right.type then
        let finish := if right.finish > left.finish then right.finish else left.finish
        let map := map.set index { left with size := sub64 finish left.location }
        some (remove map (index + 1), some index)
      else if left.overlaps right ∧ left.type.value < right.type.value ∧ right.contains left then
        some (remove map index, some index)
      else if left.overlaps right ∧ left.type.value < right.type.value ∧
          left.finish ≤ right.finish then
        let size := if right.location > left.location then sub64 right.location left.location else 0
        some (map.set index { left with size := size }, some (index + 1))
      else if left.overlaps right ∧ left.type.value < right.type.value then
        let size := if right.location > left.location then sub64 right.location left.location else 0
        let trimmed := map.set index { left with size := size }
        let trimmed := if size = 0 then remove trimmed index else trimmed
        let map ← insert trimmed left.type right.finish (sub64 left.finish right.finish)
        some (map, some (index + 2))
      else if left.overlaps right ∧ left.contains right then
        some (remove map (index + 1), some index)
      else if left.overlaps right then
        let right :=
          { right with location := left.finish, size := sub64 right.finish left.finish }
        some (map.set (index + 1) right, some (index + 1))
      else if left.finish = right.location ∧ left.type = right.type then
        let map := map.set index { left with size := sub64 right.finish left.location }
        some (remove map (index + 1), some index)
      else some (map, some (index + 1))
  | _, _ => some (map, none)

/-- The loop of `place`, which calls `trim` until it returns -1. -/
def trimLoop : Nat → MemoryMap → Nat → Option MemoryMap
  | 0, _, _ => none
  | fuel + 1, map, index => do
      match ← trim map index with
      | (map, none) => some map
      | (map, some next) => trimLoop fuel map next

/-- `MemoryMap::place`. Every call of `trim` brings the loop closer to the end of the array, so
`mapSize` passes are enough (`place_total`). -/
def place (map : MemoryMap) (type : MemoryType) (location size : Nat) :
    Option (MemoryMap × Int) :=
  if map.length ≤ capacity - 2 then do
    let map ← insert map type location size
    let map ← trimLoop map.length map 0
    some (map, 0)
  else some (map, -1)

end MemoryMap

end CrosKernel.Memory
