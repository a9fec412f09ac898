import Mathlib.Data.Nat.Bitwise

/-!
# Smearing the bits of a number

A number with each bit copied to the `n` places from it downwards. Doubling `n` takes one shift, and
when `n` reaches the length of the number all bits below the highest one are set.
-/

namespace CrosKernel.Lib

variable {x y n : Nat}

/-- `y` has the bit `i` where `x` has one of the `n` bits from `i` on. -/
def Smears (x n y : Nat) : Prop :=
  ∀ i, y.testBit i = true ↔ ∃ j, j < n ∧ x.testBit (i + j) = true

theorem Smears.refl (x : Nat) : Smears x 1 x := by
  intro i
  constructor
  · exact fun hbit => ⟨0, Nat.one_pos, hbit⟩
  · rintro ⟨j, hj, hbit⟩
    rwa [Nat.lt_one_iff.1 hj] at hbit

/-- A shift by the number of places doubles it. -/
theorem Smears.double (h : Smears x n y) : Smears x (n + n) (y ||| y >>> n) := by
  intro i
  rw [Nat.testBit_or, Bool.or_eq_true, Nat.testBit_shiftRight, h i, h (n + i)]
  constructor
  · rintro (⟨j, hj, hbit⟩ | ⟨j, hj, hbit⟩)
    · exact ⟨j, by omega, hbit⟩
    · refine ⟨n + j, by omega, ?_⟩
      rwa [← Nat.add_assoc, Nat.add_comm i n]
  · rintro ⟨j, hj, hbit⟩
    by_cases hfirst : j < n
    · exact .inl ⟨j, hfirst, hbit⟩
    · refine .inr ⟨j - n, by omega, ?_⟩
      have hsum : n + i + (j - n) = i + j := by omega
      rwa [hsum]

/-- Smeared over all its places, a number has all bits up to its highest one. -/
theorem Smears.eq_two_pow_sub_one (h : Smears x n y) (hx : x < 2 ^ n) (hne : x ≠ 0) :
    y = 2 ^ (x.log2 + 1) - 1 := by
  refine Nat.eq_of_testBit_eq fun i => ?_
  rw [Nat.testBit_two_pow_sub_one, Bool.eq_iff_iff, h i, decide_eq_true_iff]
  constructor
  · rintro ⟨j, -, hbit⟩
    have hle : i + j ≤ x.log2 := (Nat.le_log2 hne).2 (Nat.ge_two_pow_of_testBit hbit)
    omega
  · intro hi
    have hlog : x.log2 < n := (Nat.log2_lt hne).2 hx
    refine ⟨x.log2 - i, by omega, ?_⟩
    rw [Nat.add_sub_of_le (by omega)]
    exact Nat.testBit_log2 hne

end CrosKernel.Lib
