import CrosKernel.Memory.HeapExpansion
import Mathlib.Order.Bounds.Basic

/-!
# The sizes that the heap asks for

`next_power_of_2` returns a power of two as it is, and shifts a one by the length of any other
number. The one is an `int`, so the shift is only right below 31: `nextPowerOf2_iff`.
-/

namespace CrosKernel.Memory

variable {bits n : Nat}

/-- The loop counts the bits of the number. -/
theorem shiftCount_eq_log2 (hn : n < 2 ^ bits) (hne : n ≠ 0) :
    shiftCount bits n = n.log2 + 1 := by
  induction bits generalizing n with
  | zero => exact absurd (Nat.lt_one_iff.1 hn) hne
  | succ bits ih =>
      rw [shiftCount, if_pos hne]
      by_cases hhalf : n / 2 = 0
      · obtain rfl : n = 1 := by omega
        rw [hhalf]
        cases bits <;> rfl
      · have htwo : 2 ≤ n := by omega
        have hlt : n / 2 < 2 ^ bits := by
          rw [Nat.pow_succ] at hn
          omega
        rw [ih hlt hhalf, Nat.log2_def n, if_pos htwo]

theorem nextPowerOf2_of_isPowerOfTwo (h : n.isPowerOfTwo) : nextPowerOf2 n = some n :=
  if_pos (Nat.ne_zero_and_sub_one_eq_zero_iff_isPowerOfTwo.2 h)

theorem nextPowerOf2_of_not_isPowerOfTwo (h : ¬ n.isPowerOfTwo) (hn : n < 2 ^ 64) (hne : n ≠ 0) :
    nextPowerOf2 n = shiftOne (n.log2 + 1) := by
  have hbits := mt Nat.ne_zero_and_sub_one_eq_zero_iff_isPowerOfTwo.1 h
  rw [nextPowerOf2, if_neg hbits, shiftCount_eq_log2 hn hne]

/-- Above a number that is no power of two the next one has one bit more. -/
theorem isLeast_two_pow_log2 (h : ¬ n.isPowerOfTwo) (hne : n ≠ 0) :
    IsLeast {p | p.isPowerOfTwo ∧ n ≤ p} (2 ^ (n.log2 + 1)) := by
  refine ⟨⟨⟨_, rfl⟩, Nat.lt_log2_self.le⟩, ?_⟩
  rintro p ⟨⟨k, rfl⟩, hle⟩
  have hlt : n < 2 ^ k := hle.lt_of_ne fun heq => h ⟨k, heq⟩
  exact Nat.pow_le_pow_right (by decide) ((Nat.log2_lt hne).2 hlt)

/-- For a number from 1 to `2 ^ 63` the result is the smallest power of two that is not below it if
and only if the number is a power of two itself or at most `2 ^ 30`. -/
theorem nextPowerOf2_iff (hpos : 1 ≤ n) (hn : n ≤ 2 ^ 63) :
    (∃ m, nextPowerOf2 n = some m ∧ IsLeast {p | p.isPowerOfTwo ∧ n ≤ p} m) ↔
      n.isPowerOfTwo ∨ n ≤ 2 ^ 30 := by
  have hne : n ≠ 0 := by omega
  by_cases hpower : n.isPowerOfTwo
  · refine iff_of_true ⟨n, nextPowerOf2_of_isPowerOfTwo hpower, ?_⟩ (.inl hpower)
    exact ⟨⟨hpower, Nat.le_refl n⟩, fun p hp => hp.2⟩
  · rw [nextPowerOf2_of_not_isPowerOfTwo hpower (by omega) hne, shiftOne, or_iff_right hpower]
    have hleast := isLeast_two_pow_log2 hpower hne
    constructor
    · rintro ⟨m, hm, hmleast⟩
      split at hm
      next hsmall =>
        have hlt : n < 2 ^ 30 := (Nat.log2_lt hne).1 (by omega)
        exact hlt.le
      next =>
        split at hm
        next hsign =>
          -- the shift reaches the sign, and the smallest `int` is widened
          obtain rfl := Option.some.inj hm
          have heq := hmleast.unique hleast
          rw [hsign] at heq
          exact absurd heq (by decide)
        next => cases hm
    · intro hle
      have hlt : n < 2 ^ 30 := hle.lt_of_ne fun heq => hpower ⟨30, heq⟩
      have hlog : n.log2 < 30 := (Nat.log2_lt hne).2 hlt
      exact ⟨_, if_pos (by omega), hleast⟩

theorem nextPowerOf2_five :
    ∃ m, nextPowerOf2 5 = some m ∧ IsLeast {p | p.isPowerOfTwo ∧ 5 ≤ p} m :=
  (nextPowerOf2_iff (by decide) (by decide)).2 (.inr (by decide))

/-- The first number for which the shift reaches the sign. -/
theorem nextPowerOf2_overflows : ¬ ∀ n, 1 ≤ n → n ≤ 2 ^ 63 →
    ∃ m, nextPowerOf2 n = some m ∧ IsLeast {p | p.isPowerOfTwo ∧ n ≤ p} m := by
  intro h
  obtain ⟨m, hm, hleast⟩ := h (2 ^ 30 + 1) (by decide) (by decide)
  have hvalue : nextPowerOf2 (2 ^ 30 + 1) = some 0xFFFFFFFF80000000 := by decide
  obtain rfl := Option.some.inj (hm.symm.trans hvalue)
  have hle := hleast.2 ⟨⟨31, rfl⟩, by decide⟩
  exact absurd hle (by decide)

end CrosKernel.Memory
