import Mathlib.Order.Basic

/-!
# The first run of consecutive positions

`IsRun P m k` says that the `m` positions from `k` on satisfy `P`, and `IsFirstRun P m k` that `k`
is the least such position. `Scanned` is the state of a scan from 0 that counts how many positions
in a row satisfied `P`: each step of such a scan either grows the count, resets it, or has found the
first run.
-/

namespace CrosKernel.Lib

/-- The `m` positions from `k` on satisfy `P`. -/
def IsRun (P : Nat → Prop) (m k : Nat) : Prop := ∀ i, i < m → P (k + i)

/-- The first position from which `m` positions satisfy `P`. -/
structure IsFirstRun (P : Nat → Prop) (m k : Nat) : Prop where
  run : IsRun P m k
  before : ∀ k', k' < k → ¬ IsRun P m k'

/-- A scan has seen the positions below `j` without finding a run, and the last `count` of them
satisfied `P`. -/
structure Scanned (P : Nat → Prop) (m j count : Nat) : Prop where
  lt : count < m
  le : count ≤ j
  seen : ∀ i, i < count → P (j - count + i)
  start : ∀ k, k + count + 1 = j → ¬ P k
  none_before : ∀ k, k + m ≤ j → ¬ IsRun P m k

variable {P : Nat → Prop} {m j k k' count : Nat}

/-- There is one first run. -/
theorem IsFirstRun.unique (h : IsFirstRun P m k) (h' : IsFirstRun P m k') : k = k' := by
  rcases Nat.lt_trichotomy k k' with hlt | rfl | hlt
  · exact absurd h.run (h'.before k hlt)
  · rfl
  · exact absurd h'.run (h.before k' hlt)

/-- Where there is a run, there is a first one. -/
theorem IsRun.exists_first (h : IsRun P m k) : ∃ k', IsFirstRun P m k' := by
  induction k using Nat.strongRecOn with
  | _ k ih =>
      by_cases hbefore : ∃ k', k' < k ∧ IsRun P m k'
      · obtain ⟨k', hlt, hrun⟩ := hbefore
        exact ih k' hlt hrun
      · exact ⟨k, h, fun k' hlt hrun => hbefore ⟨k', hlt, hrun⟩⟩

namespace Scanned

theorem init (hm : 0 < m) : Scanned P m 0 0 where
  lt := hm
  le := Nat.le_refl 0
  seen i hi := by omega
  start k hk := by omega
  none_before k hk := by omega

/-- The position `j` does not satisfy `P`. -/
theorem reset (h : Scanned P m j count) (hj : ¬ P j) : Scanned P m (j + 1) 0 where
  lt := Nat.zero_lt_of_lt h.lt
  le := Nat.zero_le _
  seen i hi := by omega
  start k hk := by
    have hkj : k = j := Nat.succ.inj hk
    rw [hkj]
    exact hj
  none_before k hk hrun := by
    have hpos := h.lt
    rcases Nat.lt_or_ge j (k + m) with hlt | hge
    · have hmem := hrun (j - k) (by omega)
      rw [show k + (j - k) = j by omega] at hmem
      exact hj hmem
    · exact h.none_before k hge hrun

/-- The positions that a new run would need from before the count. -/
theorem not_run_of_lt (h : Scanned P m j count) (hk : k + count < j) (hkm : j ≤ k + m) :
    ¬ IsRun P m k := by
  intro hrun
  have hbad := h.start (j - count - 1) (by have hle := h.le; omega)
  have hmem := hrun (j - count - 1 - k) (by omega)
  rw [show k + (j - count - 1 - k) = j - count - 1 by omega] at hmem
  exact hbad hmem

/-- The position `j` satisfies `P`, and the count is still too small. -/
theorem grow (h : Scanned P m j count) (hj : P j) (hlt : count + 1 < m) :
    Scanned P m (j + 1) (count + 1) where
  lt := hlt
  le := Nat.succ_le_succ h.le
  seen i hi := by
    have hle := h.le
    rcases Nat.lt_or_ge i count with hlt' | hge
    · rw [show j + 1 - (count + 1) + i = j - count + i by omega]
      exact h.seen i hlt'
    · rw [show j + 1 - (count + 1) + i = j by omega]
      exact hj
  start k hk := h.start k (by omega)
  none_before k hk := by
    rcases Nat.lt_or_ge j (k + m) with hgt | hge
    · exact h.not_run_of_lt (by omega) (by omega)
    · exact h.none_before k hge

/-- The position `j` satisfies `P` and completes the first run. -/
theorem hit (h : Scanned P m j count) (hj : P j) (heq : count + 1 = m) :
    IsFirstRun P m (j - count) where
  run i hi := by
    have hle := h.le
    rcases Nat.lt_or_ge i count with hlt | hge
    · exact h.seen i hlt
    · rw [show j - count + i = j by omega]
      exact hj
  before k hk := by
    rcases Nat.lt_or_ge j (k + m) with hgt | hge
    · exact h.not_run_of_lt (by omega) (by omega)
    · exact h.none_before k hge

end Scanned

end CrosKernel.Lib
