import Mathlib.Data.List.Pairwise
import Mathlib.Order.Nat
import Mathlib.Tactic.Common

/-!
# Tilings of an interval

Tiles that follow each other without a gap. `Tiling start len a l b` says that the tiles of `l`,
each of which reaches from its start over its length, fill the interval from `a` to `b` in this
order.
-/

namespace CrosKernel.Lib

variable {ι : Type*} {start len : ι → Nat} {a b : Nat} {s t : ι} {l r : List ι}

/-- The tiles of the list fill the interval from `a` to `b`. -/
def Tiling (start len : ι → Nat) : Nat → List ι → Nat → Prop
  | a, [], b => a = b
  | a, t :: l, b => start t = a ∧ Tiling start len (a + len t) l b

@[simp]
theorem tiling_nil : Tiling start len a [] b ↔ a = b := Iff.rfl

@[simp]
theorem tiling_cons :
    Tiling start len a (t :: l) b ↔ start t = a ∧ Tiling start len (a + len t) l b := Iff.rfl

theorem tiling_append :
    Tiling start len a (l ++ r) b ↔ ∃ c, Tiling start len a l c ∧ Tiling start len c r b := by
  induction l generalizing a with
  | nil => simp
  | cons t l ih => simp [ih, and_assoc]

theorem Tiling.le (h : Tiling start len a l b) : a ≤ b := by
  induction l generalizing a with
  | nil => exact h.le
  | cons t l ih => exact (Nat.le_add_right a (len t)).trans (ih h.2)

/-- A tile lies inside the interval. -/
theorem Tiling.bounds (h : Tiling start len a l b) (ht : t ∈ l) :
    a ≤ start t ∧ start t + len t ≤ b := by
  obtain ⟨l₁, l₂, rfl⟩ := List.append_of_mem ht
  obtain ⟨c, h₁, rfl, h₂⟩ := tiling_append.1 h
  exact ⟨h₁.le, h₂.le⟩

/-- Every point of the interval lies in a tile. -/
theorem Tiling.covers {x : Nat} (h : Tiling start len a l b) (hlow : a ≤ x) (hhigh : x < b) :
    ∃ t ∈ l, start t ≤ x ∧ x < start t + len t := by
  induction l generalizing a with
  | nil =>
      obtain rfl := tiling_nil.1 h
      omega
  | cons t l ih =>
      obtain ⟨rfl, htail⟩ := h
      by_cases hin : x < start t + len t
      · exact ⟨t, List.mem_cons_self, hlow, hin⟩
      · obtain ⟨s, hs, hcover⟩ := ih htail (Nat.le_of_not_lt hin)
        exact ⟨s, List.mem_cons_of_mem t hs, hcover⟩

/-- Tiles stand in the order of their starts. -/
theorem Tiling.pairwise (h : Tiling start len a l b) :
    l.Pairwise fun s t => start s + len s ≤ start t := by
  induction l generalizing a with
  | nil => exact .nil
  | cons t l ih =>
      obtain ⟨rfl, h⟩ := h
      exact List.pairwise_cons.2 ⟨fun s hs => (h.bounds hs).1, ih h⟩

/-- Two tiles are the same or lie apart. -/
theorem Tiling.apart (h : Tiling start len a l b) (hs : s ∈ l) (ht : t ∈ l) :
    s = t ∨ start s + len s ≤ start t ∨ start t + len t ≤ start s := by
  obtain ⟨l₁, l₂, rfl⟩ := List.append_of_mem hs
  obtain ⟨c, h₁, rfl, h₂⟩ := tiling_append.1 h
  rcases List.mem_append.1 ht with ht | ht
  · exact .inr (.inr (h₁.bounds ht).2)
  · rcases List.mem_cons.1 ht with rfl | ht
    · exact .inl rfl
    · exact .inr (.inl (h₂.bounds ht).1)

/-- The other tiles lie in front of a tile or behind it. -/
theorem Tiling.beside (h : Tiling start len a (l ++ t :: r) b) (hs : s ∈ l ++ r) :
    start s + len s ≤ start t ∨ start t + len t ≤ start s := by
  obtain ⟨c, h₁, rfl, h₂⟩ := tiling_append.1 h
  obtain hmem | hmem := List.mem_append.1 hs
  · exact .inl (h₁.bounds hmem).2
  · exact .inr (h₂.bounds hmem).1

/-- Tiles in the middle may be replaced by others that fill the same interval. -/
theorem Tiling.replace {m m' : List ι} (h : Tiling start len a (l ++ m ++ r) b)
    (hm : ∀ c d, Tiling start len c m d → Tiling start len c m' d) :
    Tiling start len a (l ++ m' ++ r) b := by
  obtain ⟨d, h₁, hr⟩ := tiling_append.1 h
  obtain ⟨c, hl, hm₁⟩ := tiling_append.1 h₁
  exact tiling_append.2 ⟨d, tiling_append.2 ⟨c, hl, hm c d hm₁⟩, hr⟩

end CrosKernel.Lib
