import Mathlib.Logic.Function.Basic
import Mathlib.Tactic.Ring

/-!
# Little-endian words in a byte memory

`wordAt memory address size` is the number stored in the `size` bytes from `address`, least
significant byte first, and `setWord` stores a number there. A word read back is the stored
number modulo `256 ^ size`, and a store changes no byte outside its range.
-/

namespace CrosKernel.Lib

/-- The number stored in `size` bytes of a memory. -/
def wordAt (memory : Nat → UInt8) (address : Nat) : Nat → Nat
  | 0 => 0
  | size + 1 => (memory address).toNat + 256 * wordAt memory (address + 1) size

/-- The memory after storing the low `size` bytes of `value`. -/
def setWord (memory : Nat → UInt8) (address value : Nat) : Nat → Nat → UInt8
  | 0 => memory
  | size + 1 =>
      setWord (Function.update memory address (UInt8.ofNat value)) (address + 1) (value / 256) size

variable {memory memory' : Nat → UInt8}

/-- A word depends only on its own bytes. -/
theorem wordAt_congr {address address' size : Nat}
    (h : ∀ i, i < size → memory (address + i) = memory' (address' + i)) :
    wordAt memory address size = wordAt memory' address' size := by
  induction size generalizing address address' with
  | zero => rfl
  | succ size ih =>
      have hhead := h 0 (Nat.zero_lt_succ size)
      have htail : ∀ i, i < size → memory (address + 1 + i) = memory' (address' + 1 + i) :=
        fun i hi => by simpa [Nat.add_assoc, Nat.add_comm 1 i] using h (i + 1) (by omega)
      simp only [Nat.add_zero] at hhead
      simp only [wordAt, hhead, ih htail]

/-- A word is zero if all its bytes are. -/
theorem wordAt_eq_zero_iff {address size : Nat} :
    wordAt memory address size = 0 ↔ ∀ i, i < size → memory (address + i) = 0 := by
  induction size generalizing address with
  | zero => simp [wordAt]
  | succ size ih =>
      have hbyte : (memory address).toNat = 0 ↔ memory address = 0 := by
        rw [← UInt8.toNat_inj]
        rfl
      rw [wordAt, Nat.add_eq_zero_iff, hbyte, Nat.mul_eq_zero, or_iff_right (by decide), ih]
      constructor
      · rintro ⟨hzero, hrest⟩ i hi
        cases i with
        | zero => exact hzero
        | succ i => simpa [Nat.add_assoc, Nat.add_comm 1 i] using hrest i (by omega)
      · intro h
        refine ⟨h 0 (Nat.zero_lt_succ size), fun i hi => ?_⟩
        simpa [Nat.add_assoc, Nat.add_comm 1 i] using h (i + 1) (by omega)

/-- A store leaves every byte outside its range alone. -/
theorem setWord_outside {address value size b : Nat} (h : b < address ∨ address + size ≤ b) :
    setWord memory address value size b = memory b := by
  induction size generalizing memory address value with
  | zero => rfl
  | succ size ih =>
      have hne : b ≠ address := by omega
      rw [setWord, ih (by omega), Function.update_of_ne hne]

/-- Reading a word back yields the low bytes that were stored. -/
theorem wordAt_setWord_same (memory : Nat → UInt8) (address value size : Nat) :
    wordAt (setWord memory address value size) address size = value % 256 ^ size := by
  induction size generalizing memory address value with
  | zero => simp [wordAt, Nat.mod_one]
  | succ size ih =>
      have hbyte : (UInt8.ofNat value).toNat = value % 256 := by simp
      rw [setWord, wordAt, ih, setWord_outside (Or.inl (Nat.lt_succ_self address)),
        Function.update_self, hbyte, Nat.pow_succ, Nat.mul_comm (256 ^ size), Nat.mod_mul]

/-- A store does not change a word it does not overlap. -/
theorem wordAt_setWord_other {address other value size size' : Nat}
    (h : other + size' ≤ address ∨ address + size ≤ other) :
    wordAt (setWord memory address value size) other size' = wordAt memory other size' :=
  wordAt_congr fun i hi => setWord_outside (by omega)

/-- A store seen from a shifted origin. -/
theorem setWord_shift (memory : Nat → UInt8) (origin address value size b : Nat) :
    setWord (fun i => memory (i + origin)) address value size b =
      setWord memory (address + origin) value size (b + origin) := by
  induction size generalizing memory address value with
  | zero => rfl
  | succ size ih =>
      have hshift : Function.update (fun i => memory (i + origin)) address (UInt8.ofNat value) =
          fun i => Function.update memory (address + origin) (UInt8.ofNat value) (i + origin) := by
        funext i
        by_cases hi : i = address
        · simp [hi]
        · have hne : i + origin ≠ address + origin := by omega
          rw [Function.update_of_ne hi, Function.update_of_ne hne]
      rw [setWord, hshift, ih, setWord, Nat.add_right_comm]

end CrosKernel.Lib
