import Mathlib.Data.List.Basic
import Mathlib.Data.List.Pairwise
import Mathlib.Data.List.Perm.Basic
import Mathlib.Order.Basic

/-!
# Layered intervals

A list of half-open intervals that carry a rank describes, at every point, the highest rank among
the intervals there: its level. Levels are additive over appending and blind to the order of the
list. In a separated list, whose intervals follow each other without overlap, the level of a point
is the rank of the one interval that contains it.
-/

namespace CrosKernel.Lib

/-- How the elements of `α` are read as ranked half-open intervals. -/
structure Layering (α : Type*) where
  lo : α → Nat
  hi : α → Nat
  rank : α → Nat

namespace Layering

variable {α : Type*} (L : Layering α)

/-- The interval of `r` contains the point `a`. -/
def Covers (r : α) (a : Nat) : Prop := L.lo r ≤ a ∧ a < L.hi r

instance (r : α) (a : Nat) : Decidable (L.Covers r a) :=
  inferInstanceAs (Decidable (_ ∧ _))

/-- The rank that `r` contributes at a point. -/
def share (r : α) (a : Nat) : Nat := if L.Covers r a then L.rank r else 0

/-- The highest rank at a point, 0 where there is no interval. -/
def level : List α → Nat → Nat
  | [], _ => 0
  | r :: rest, a => max (L.share r a) (level rest a)

/-- Each interval ends before the next ones begin. -/
def Separated (l : List α) : Prop := l.Pairwise fun r s => L.hi r ≤ L.lo s

variable {L} {l l' : List α} {r : α} {a : Nat}

@[simp] theorem level_nil : L.level [] a = 0 := rfl

@[simp] theorem level_cons : L.level (r :: l) a = max (L.share r a) (L.level l a) := rfl

@[simp] theorem level_append : L.level (l ++ l') a = max (L.level l a) (L.level l' a) := by
  induction l with
  | nil => simp
  | cons r l ih => simp [ih, Nat.max_assoc]

theorem level_perm (h : l.Perm l') : L.level l a = L.level l' a := by
  induction h with
  | nil => rfl
  | cons r _ ih => simp [ih]
  | swap r s l => simp only [level_cons, Nat.max_left_comm]
  | trans _ _ ih ih' => exact ih.trans ih'

theorem share_of_covers (h : L.Covers r a) : L.share r a = L.rank r := if_pos h

theorem share_of_not_covers (h : ¬ L.Covers r a) : L.share r a = 0 := if_neg h

/-- An interval at a point bounds the level from below. -/
theorem rank_le_level (hmem : r ∈ l) (h : L.Covers r a) : L.rank r ≤ L.level l a := by
  induction l with
  | nil => simp at hmem
  | cons s l ih =>
      rw [level_cons]
      rcases List.mem_cons.mp hmem with rfl | hmem
      · rw [share_of_covers h]
        exact Nat.le_max_left _ _
      · exact Nat.le_trans (ih hmem) (Nat.le_max_right _ _)

/-- A positive level is the rank of an interval at that point. -/
theorem exists_of_level_pos (h : 0 < L.level l a) :
    ∃ r ∈ l, L.Covers r a ∧ L.rank r = L.level l a := by
  induction l with
  | nil => simp at h
  | cons s l ih =>
      rw [level_cons] at h ⊢
      rcases Nat.le_total (L.level l a) (L.share s a) with hle | hle
      · rw [Nat.max_eq_left hle] at h ⊢
        have hcovers : L.Covers s a := by
          by_contra hnot
          rw [share_of_not_covers hnot] at h
          exact Nat.lt_irrefl 0 h
        exact ⟨s, List.mem_cons_self, hcovers, (share_of_covers hcovers).symm⟩
      · rw [Nat.max_eq_right hle] at h ⊢
        obtain ⟨r, hmem, hcovers, hrank⟩ := ih h
        exact ⟨r, List.mem_cons_of_mem s hmem, hcovers, hrank⟩

/-- An interval fits between the two parts of a separated list. -/
theorem separated_append_cons :
    L.Separated (l ++ r :: l') ↔
      L.Separated (l ++ l') ∧ (∀ s ∈ l, L.hi s ≤ L.lo r) ∧ ∀ s ∈ l', L.hi r ≤ L.lo s := by
  simp only [Separated, List.pairwise_append, List.pairwise_cons, List.mem_cons, forall_eq_or_imp]
  constructor
  · rintro ⟨hl, ⟨hr, hl'⟩, hcross⟩
    exact ⟨⟨hl, hl', fun s hs => (hcross s hs).2⟩, fun s hs => (hcross s hs).1, hr⟩
  · rintro ⟨⟨hl, hl', hcross⟩, hleft, hr⟩
    exact ⟨hl, ⟨hr, hl'⟩, fun s hs => ⟨hleft s hs, hcross s hs⟩⟩

/-- In a separated list at most one interval contains a point. -/
theorem Separated.eq_of_covers {r s : α} (h : L.Separated l) (hr : r ∈ l) (hs : s ∈ l)
    (hcoversr : L.Covers r a) (hcoverss : L.Covers s a) : r = s := by
  by_contra hne
  have hsymm : Std.Symm fun x y => L.hi x ≤ L.lo y ∨ L.hi y ≤ L.lo x := ⟨fun _ _ => Or.symm⟩
  have hapart := (h.imp fun hle => Or.inl hle : l.Pairwise fun x y =>
    L.hi x ≤ L.lo y ∨ L.hi y ≤ L.lo x).forall hr hs hne
  obtain ⟨hloR, hhiR⟩ := hcoversr
  obtain ⟨hloS, hhiS⟩ := hcoverss
  omega

/-- In a separated list the level of a point is the rank of the interval that contains it. -/
theorem Separated.level_eq (h : L.Separated l) (hmem : r ∈ l) (hcovers : L.Covers r a) :
    L.level l a = L.rank r := by
  rcases Nat.eq_zero_or_pos (L.level l a) with hzero | hpos
  · have hle := rank_le_level hmem hcovers
    omega
  · obtain ⟨s, hs, hcoverss, hrank⟩ := exists_of_level_pos hpos
    rw [← hrank, h.eq_of_covers hmem hs hcovers hcoverss]

end Layering

end CrosKernel.Lib
