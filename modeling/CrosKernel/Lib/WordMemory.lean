import CrosKernel.Lib.LittleEndian

/-!
# 64-bit words in a 64-bit address space

Addresses wrap around, so every address is valid and an offset is added modulo `2 ^ 64`.
`loadWord` and `storeWord` move one word, least significant byte first, `storeWords` a list of
consecutive words. Words at different multiples of 8 from one address do not overlap.
-/

namespace CrosKernel.Lib

/-- A byte memory with 64-bit addresses. -/
abbrev WordMemory := UInt64 → UInt8

/-- The address this many bytes behind another one. -/
def offsetBy (address : UInt64) (offset : Nat) : UInt64 := address + UInt64.ofNat offset

/-- The word at an address. -/
def loadWord (memory : WordMemory) (address : UInt64) : UInt64 :=
  UInt64.ofNat (wordAt (fun i => memory (offsetBy address i)) 0 8)

/-- The memory with a word stored at an address. -/
def storeWord (memory : WordMemory) (address value : UInt64) : WordMemory := fun b =>
  setWord (fun i => memory (offsetBy address i)) 0 value.toNat 8 (b - address).toNat

/-- The memory with consecutive words stored from an address on. -/
def storeWords (memory : WordMemory) (address : UInt64) : List UInt64 → WordMemory
  | [] => memory
  | value :: rest => storeWords (storeWord memory address value) (offsetBy address 8) rest

variable {memory memory' : WordMemory} {address address' value : UInt64} {i j n : Nat}

/-! ## Addresses -/

@[simp] theorem offsetBy_zero (address : UInt64) : offsetBy address 0 = address :=
  UInt64.add_zero address

theorem offsetBy_add (address : UInt64) (i j : Nat) :
    offsetBy address (i + j) = offsetBy (offsetBy address i) j := by
  rw [offsetBy, offsetBy, offsetBy, UInt64.ofNat_add, UInt64.add_assoc]

/-- Going back by less than was gone forward. -/
theorem offsetBy_sub (address : UInt64) (h : j ≤ i) :
    offsetBy address i - UInt64.ofNat j = offsetBy address (i - j) := by
  obtain ⟨k, rfl⟩ := Nat.exists_eq_add_of_le h
  rw [Nat.add_comm, offsetBy_add, Nat.add_sub_cancel_right, offsetBy, UInt64.add_sub_cancel]

/-- The distance from one offset to another, the long way round where that is before it. -/
theorem toNat_offsetBy_sub (hi : i < 2 ^ 64) (hj : j < 2 ^ 64) (address : UInt64) :
    (offsetBy address i - offsetBy address j).toNat =
      if j ≤ i then i - j else 2 ^ 64 + i - j := by
  simp only [offsetBy, UInt64.toNat_sub, UInt64.toNat_add, UInt64.toNat_ofNat',
    Nat.mod_eq_of_lt hi, Nat.mod_eq_of_lt hj]
  split <;> omega

/-! ## Loads and stores -/

/-- A word depends only on its own bytes. -/
theorem loadWord_congr
    (h : ∀ i < 8, memory (offsetBy address i) = memory' (offsetBy address' i)) :
    loadWord memory address = loadWord memory' address' :=
  congrArg UInt64.ofNat (wordAt_congr fun i hi => by simpa using h i hi)

/-- Words in regions with the same bytes. -/
theorem loadWord_offset_congr {size : Nat} (hj : j + 8 ≤ size)
    (h : ∀ i < size, memory (offsetBy address i) = memory' (offsetBy address' i)) :
    loadWord memory (offsetBy address j) = loadWord memory' (offsetBy address' j) :=
  loadWord_congr fun i hi => by
    rw [← offsetBy_add, ← offsetBy_add]
    exact h (j + i) (by omega)

theorem storeWord_outside (h : 8 ≤ (value - address).toNat) (v : UInt64) :
    storeWord memory address v value = memory value := by
  rw [storeWord, setWord_outside (Or.inr (by omega)), offsetBy, UInt64.ofNat_toNat,
    UInt64.add_comm, UInt64.sub_add_cancel]

/-- The word that was stored is loaded. -/
theorem loadWord_storeWord_same (memory : WordMemory) (address value : UInt64) :
    loadWord (storeWord memory address value) address = value := by
  have hbytes : ∀ i < 8, storeWord memory address value (offsetBy address (0 + i)) =
      setWord (fun i => memory (offsetBy address i)) 0 value.toNat 8 (0 + i) := by
    intro i hi
    have hsub := toNat_offsetBy_sub (i := 0 + i) (j := 0) (by omega) (by omega) address
    rw [offsetBy_zero, if_pos (Nat.zero_le _), Nat.sub_zero] at hsub
    rw [storeWord, hsub]
  have hlt := value.toNat_lt
  rw [loadWord, wordAt_congr hbytes, wordAt_setWord_same, Nat.mod_eq_of_lt (by omega),
    UInt64.ofNat_toNat]

/-- A word at another offset is not changed. -/
theorem loadWord_storeWord_other (h : i + 8 ≤ j ∨ j + 8 ≤ i) (hi : i + 8 ≤ 2 ^ 64)
    (hj : j + 8 ≤ 2 ^ 64) (memory : WordMemory) (address value : UInt64) :
    loadWord (storeWord memory (offsetBy address j) value) (offsetBy address i) =
      loadWord memory (offsetBy address i) :=
  loadWord_congr fun b hb => by
    rw [← offsetBy_add]
    refine storeWord_outside ?_ value
    rw [toNat_offsetBy_sub (by omega) (by omega)]
    split <;> omega

/-- Consecutive words leave a word before or behind them alone. -/
theorem loadWord_storeWords_other {values : List UInt64}
    (h : j + 8 ≤ i ∨ i + 8 * values.length ≤ j) (hi : i + 8 * values.length ≤ 2 ^ 64)
    (hj : j + 8 ≤ 2 ^ 64) (memory : WordMemory) (address : UInt64) :
    loadWord (storeWords memory (offsetBy address i) values) (offsetBy address j) =
      loadWord memory (offsetBy address j) := by
  induction values generalizing memory i with
  | nil => rfl
  | cons value rest ih =>
      rw [List.length_cons] at h hi
      rw [storeWords, ← offsetBy_add, ih (by omega) (by omega),
        loadWord_storeWord_other (by omega) hj (by omega)]

/-- Each of the consecutive words is loaded at its place. -/
theorem loadWord_storeWords_get {values : List UInt64} (hn : n < values.length)
    (hi : i + 8 * values.length ≤ 2 ^ 64) (memory : WordMemory) (address : UInt64) :
    loadWord (storeWords memory (offsetBy address i) values) (offsetBy address (i + 8 * n)) =
      values[n] := by
  induction values generalizing memory i n with
  | nil => exact absurd hn (Nat.not_lt_zero n)
  | cons value rest ih =>
      rw [List.length_cons] at hn hi
      rw [storeWords, ← offsetBy_add]
      cases n with
      | zero =>
          rw [loadWord_storeWords_other (by omega) (by omega) (by omega)]
          exact loadWord_storeWord_same memory _ value
      | succ n =>
          have hplace : i + 8 * (n + 1) = i + 8 + 8 * n := by omega
          rw [hplace, ih (Nat.lt_of_succ_lt_succ hn) (by omega)]
          rfl

end CrosKernel.Lib
