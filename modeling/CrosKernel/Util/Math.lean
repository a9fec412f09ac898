import CrosKernel.Lib.Smear
import Mathlib.Algebra.Order.Ring.Nat
import Mathlib.Data.Nat.Log
import Mathlib.Order.Bounds.Basic

/-!
# Logarithms of machine words

`llog2` of `src/util/math.h`, for an `unsigned long` of 64 bits. The branch that counts leading
zeros rounds up, the portable branch rounds down: `llog2_branches_agree_iff`.
-/

namespace CrosKernel.Util

open Lib

/-- `__builtin_clzl` of a word that is not zero. -/
def builtinClzl (x : Nat) : Nat := 63 - Nat.log2 x

/-- `llog2`. -/
def llog2 (x : Nat) : Nat := if x ≤ 1 then 0 else 64 - builtinClzl (x - 1)

/-- `llog2` is the logarithm rounded up. -/
theorem llog2_eq_clog {x : Nat} (h : x ≤ 2 ^ 64) : llog2 x = Nat.clog 2 x := by
  unfold llog2 builtinClzl
  split
  next hle => exact (Nat.clog_of_right_le_one hle 2).symm
  next hgt =>
    have hne : x - 1 ≠ 0 := by omega
    have hlt : (x - 1).log2 < 64 := (Nat.log2_lt hne).2 (by omega)
    have hself := Nat.log2_self_le hne
    have hself' := Nat.lt_log2_self (n := x - 1)
    have hle : Nat.clog 2 x ≤ (x - 1).log2 + 1 :=
      (Nat.clog_le_iff_le_pow (by omega)).2 (by omega)
    have hge : (x - 1).log2 < Nat.clog 2 x := (Nat.lt_clog_iff_pow_lt (by omega)).2 (by omega)
    omega

theorem llog2_two_pow {k : Nat} (h : k ≤ 64) : llog2 (2 ^ k) = k := by
  rw [llog2_eq_clog (Nat.pow_le_pow_right (by omega) h), Nat.clog_pow 2 k (by omega)]

/-! ## The portable branch -/

/-- `table` in the portable branch of `llog2`. -/
def llog2Table : List Nat :=
  [0, 58, 1, 59, 47, 53, 2, 60, 39, 48, 27, 54, 33, 42, 3, 61,
    51, 37, 40, 49, 18, 28, 20, 55, 30, 34, 11, 43, 14, 22, 4, 62,
    57, 46, 52, 38, 26, 32, 41, 50, 36, 17, 19, 29, 10, 13, 21, 56,
    45, 25, 31, 35, 16, 9, 12, 44, 24, 15, 8, 23, 7, 6, 5, 63]

/-- The portable branch of `llog2`. The product is one of 64 bits, so the index is in the table. -/
def llog2Portable (x : Nat) : Nat :=
  let x := x ||| x >>> 1
  let x := x ||| x >>> 2
  let x := x ||| x >>> 4
  let x := x ||| x >>> 8
  let x := x ||| x >>> 16
  let x := x ||| x >>> 32
  llog2Table.getD ((x * 0x03f6eaf2cd271461 % 2 ^ 64) >>> 58) 0

theorem llog2Table_two_pow_sub_one : ∀ k < 64,
    llog2Table.getD (((2 ^ (k + 1) - 1) * 0x03f6eaf2cd271461 % 2 ^ 64) >>> 58) 0 = k := by
  decide

/-- The portable branch is the logarithm rounded down. -/
theorem llog2Portable_eq_log2 {x : Nat} (hpos : 1 ≤ x) (hx : x < 2 ^ 64) :
    llog2Portable x = x.log2 := by
  have hne : x ≠ 0 := by omega
  have hsmear := (Smears.refl x).double.double.double.double.double.double
  have htable := llog2Table_two_pow_sub_one x.log2 ((Nat.log2_lt hne).2 hx)
  rw [← hsmear.eq_two_pow_sub_one hx hne] at htable
  exact htable

/-- Both branches of `llog2` give the least exponent of a power of two that is not below the number
if and only if the number is a power of two. -/
theorem llog2_branches_agree_iff {x : Nat} (hpos : 1 ≤ x) (hx : x < 2 ^ 64) :
    (llog2 x = llog2Portable x ∧ IsLeast {k | x ≤ 2 ^ k} (llog2 x)) ↔ x.isPowerOfTwo := by
  have hclog := llog2_eq_clog hx.le
  rw [llog2Portable_eq_log2 hpos hx, hclog]
  have hleast : IsLeast {k | x ≤ 2 ^ k} (Nat.clog 2 x) :=
    ⟨Nat.le_pow_clog (by decide) x, fun k hk => Nat.clog_le_of_le_pow hk⟩
  constructor
  · rintro ⟨heq, -⟩
    refine ⟨x.log2, Nat.le_antisymm ?_ (Nat.log2_self_le (by omega))⟩
    exact heq ▸ hleast.1
  · rintro ⟨k, rfl⟩
    refine ⟨?_, hleast⟩
    rw [Nat.clog_pow 2 k (by decide), Nat.log2_two_pow]

theorem llog2_branches_agree_four : llog2 4 = llog2Portable 4 ∧ IsLeast {k | 4 ≤ 2 ^ k} (llog2 4) :=
  (llog2_branches_agree_iff (by decide) (by decide)).2 ⟨2, rfl⟩

/-- For three the first branch gives two, the portable branch one. -/
theorem llog2_branches_differ : ¬ ∀ x : Nat, 1 ≤ x → x < 2 ^ 64 →
    llog2 x = llog2Portable x ∧ IsLeast {k | x ≤ 2 ^ k} (llog2 x) := by
  intro h
  have hthree := (h 3 (by decide) (by decide)).1
  exact absurd hthree (by decide)

end CrosKernel.Util
