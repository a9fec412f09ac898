import CrosKernel.Lib.BinaryTree
import Mathlib.Algebra.Order.Ring.Nat

/-!
# Balanced binary trees

A tree is balanced when the heights of the two children of every node differ by at most one.
`balanced_rotate` and `balanced_rotate_twice` say that one or two rotations balance a node whose
children differ by two. `Balanced.plug_congr` lets a subtree be exchanged for one of its height.
-/

namespace BinaryTree

variable {α : Type*} {s : Side} {a b d : α} {t t' u v t₁ t₂ t₃ near far : BinaryTree α}
  {c : List (Frame α)}

/-- In every node the heights of the children differ by at most one. -/
def Balanced : BinaryTree α → Prop
  | nil => True
  | node _ l r => Balanced l ∧ Balanced r ∧ l.height ≤ r.height + 1 ∧ r.height ≤ l.height + 1

/-- The children of the root are equally high. -/
def Level : BinaryTree α → Prop
  | nil => True
  | node _ l r => l.height = r.height

@[simp] theorem balanced_nil : Balanced (nil : BinaryTree α) := trivial

@[simp]
theorem height_join : (join s a near far).height = max near.height far.height + 1 := by
  cases s
  · rfl
  · simp only [join, height, Nat.max_comm]

theorem join_other : join s.other a near far = join s a far near := by
  cases s <;> rfl

theorem level_join : Level (join s a near far) ↔ near.height = far.height := by
  cases s
  · exact Iff.rfl
  · exact eq_comm

theorem balanced_join : Balanced (join s a near far) ↔
    Balanced near ∧ Balanced far ∧ near.height ≤ far.height + 1 ∧ far.height ≤ near.height + 1 := by
  cases s
  · exact Iff.rfl
  · show Balanced far ∧ Balanced near ∧ _ ∧ _ ↔ _
    tauto

theorem height_eq_zero : t.height = 0 ↔ t = nil := by
  cases t <;> simp

/-- A balanced tree of height at most one is empty or a leaf. -/
theorem eq_nil_or_leaf (h : t.height ≤ 1) : t = nil ∨ ∃ a, t = node a nil nil := by
  cases t with
  | nil => exact .inl rfl
  | node a l r =>
      have hzero : l.height = 0 ∧ r.height = 0 := by
        simp only [height] at h
        omega
      rw [height_eq_zero.1 hzero.1, height_eq_zero.1 hzero.2]
      exact .inr ⟨a, rfl⟩

/-! ## Contexts -/

theorem height_add_length_le_plug (c : List (Frame α)) (t : BinaryTree α) :
    t.height + c.length ≤ (plug c t).height := by
  induction c generalizing t with
  | nil => exact Nat.le_refl _
  | cons f c ih =>
      have hle := ih (join f.side f.label t f.sibling)
      rw [height_join] at hle
      rw [plug_cons, List.length_cons]
      omega

theorem height_plug_congr (c : List (Frame α)) (h : t'.height = t.height) :
    (plug c t').height = (plug c t).height := by
  induction c generalizing t t' with
  | nil => exact h
  | cons f c ih => exact ih (by rw [height_join, height_join, h])

theorem Balanced.of_plug (h : Balanced (plug c t)) : Balanced t := by
  induction c generalizing t with
  | nil => exact h
  | cons f c ih => exact (balanced_join.1 (ih h)).1

/-- A subtree may be exchanged for a balanced one of the same height. -/
theorem Balanced.plug_congr (h : Balanced (plug c t)) (ht' : Balanced t')
    (hheight : t'.height = t.height) : Balanced (plug c t') := by
  induction c generalizing t t' with
  | nil => exact ht'
  | cons f c ih =>
      obtain ⟨-, hfar, hle, hge⟩ := balanced_join.1 (Balanced.of_plug (c := c) h)
      refine ih h (balanced_join.2 ⟨ht', hfar, ?_, ?_⟩) (by rw [height_join, height_join, hheight])
      · rwa [hheight]
      · rwa [hheight]

/-! ## Rotations -/

/-- A rotation balances a node whose higher child leans to the outside. -/
theorem balanced_rotate (hnear : Balanced (join s b t₁ t₂)) (hfar : Balanced t₃)
    (hheight : (join s b t₁ t₂).height = t₃.height + 2) (houter : t₂.height ≤ t₁.height) :
    Balanced (join s b t₁ (join s a t₂ t₃)) ∧
      (join s b t₁ t₂).height ≤ (join s b t₁ (join s a t₂ t₃)).height ∧
      (join s b t₁ (join s a t₂ t₃)).height ≤ (join s b t₁ t₂).height + 1 ∧
      (t₁.height = t₂.height →
        (join s b t₁ (join s a t₂ t₃)).height = (join s b t₁ t₂).height + 1) := by
  obtain ⟨h₁, h₂, hle, hge⟩ := balanced_join.1 hnear
  simp only [balanced_join, height_join] at hheight ⊢
  refine ⟨⟨h₁, ⟨h₂, hfar, ?_, ?_⟩, ?_, ?_⟩, ?_, ?_, fun hlevel => ?_⟩
  all_goals omega

/-- Two rotations balance a node whose higher child leans to the inside. -/
theorem balanced_rotate_twice (hnear : Balanced (join s b t₁ (join s d u v))) (hfar : Balanced t₃)
    (hheight : (join s b t₁ (join s d u v)).height = t₃.height + 2)
    (hinner : t₁.height < (join s d u v).height) :
    Balanced (join s d (join s b t₁ u) (join s a v t₃)) ∧
      (join s d (join s b t₁ u) (join s a v t₃)).height =
        (join s b t₁ (join s d u v)).height := by
  obtain ⟨h₁, h₂, hle, hge⟩ := balanced_join.1 hnear
  obtain ⟨hu, hv, hule, huge⟩ := balanced_join.1 h₂
  simp only [balanced_join, height_join] at hheight hinner hle hge ⊢
  refine ⟨⟨⟨h₁, hu, ?_, ?_⟩, ⟨hv, hfar, ?_, ?_⟩, ?_, ?_⟩, ?_⟩
  all_goals omega

end BinaryTree
