import Mathlib.Data.List.Basic
import Mathlib.Data.Tree.Basic

/-!
# Symmetric order and contexts of binary trees

The labels of a binary tree in symmetric order, and one-hole contexts. A context is the list of
its frames from the hole upwards; `plug` fills the hole. `exists_plug` focuses on a label, and
`inorder_plug` says what the focus means in symmetric order, so that a local change of a tree is
a local change of the list of its labels.
-/

/-- Left or right. -/
inductive BinaryTree.Side where
  | left | right
  deriving DecidableEq, Repr

/-- The other side. -/
def BinaryTree.Side.other : BinaryTree.Side → BinaryTree.Side
  | .left => .right
  | .right => .left

namespace BinaryTree

variable {α β : Type*}

/-- The labels in symmetric order. -/
def inorder : BinaryTree α → List α
  | nil => []
  | node a l r => l.inorder ++ a :: r.inorder

@[simp]
theorem inorder_nil : (nil : BinaryTree α).inorder = [] := rfl

@[simp]
theorem inorder_node (a : α) (l r : BinaryTree α) :
    (node a l r).inorder = l.inorder ++ a :: r.inorder := rfl

theorem length_inorder (t : BinaryTree α) : t.inorder.length = t.numNodes := by
  induction t with
  | nil => rfl
  | node a l r hl hr => simp [hl, hr]; omega

@[simp]
theorem inorder_eq_nil {t : BinaryTree α} : t.inorder = [] ↔ t = nil := by
  cases t <;> simp

@[simp]
theorem inorder_map (f : α → β) (t : BinaryTree α) : (t.map f).inorder = t.inorder.map f := by
  induction t with
  | nil => rfl
  | node a l r hl hr => simp [map, hl, hr]

@[simp]
theorem numNodes_map (f : α → β) (t : BinaryTree α) : (t.map f).numNodes = t.numNodes := by
  rw [← length_inorder, inorder_map, List.length_map, length_inorder]

/-- The label at the root. -/
def label? : BinaryTree α → Option α
  | nil => none
  | node a _ _ => some a

@[simp] theorem label?_nil : (nil : BinaryTree α).label? = none := rfl

@[simp] theorem label?_node (a : α) (l r : BinaryTree α) : (node a l r).label? = some a := rfl

@[simp]
theorem label?_map (f : α → β) (t : BinaryTree α) : (t.map f).label? = t.label?.map f := by
  cases t <;> rfl

theorem mem_of_label? {t : BinaryTree α} {a : α} (h : t.label? = some a) : a ∈ t.inorder := by
  cases t with
  | nil => cases h
  | node b l r => simp_all

/-- A node whose child on the side `s` is `near`. -/
def join (s : Side) (a : α) (near far : BinaryTree α) : BinaryTree α :=
  match s with
  | .left => node a near far
  | .right => node a far near

theorem join_ne_nil (s : Side) (a : α) (near far : BinaryTree α) : join s a near far ≠ nil := by
  cases s <;> simp [join]

theorem numNodes_join (s : Side) (a : α) (near far : BinaryTree α) :
    (join s a near far).numNodes = near.numNodes + far.numNodes + 1 := by
  cases s
  · rfl
  · simp [join, Nat.add_comm]

theorem exists_join {t : BinaryTree α} (s : Side) (ht : t ≠ nil) :
    ∃ a near far, t = join s a near far := by
  cases t with
  | nil => exact absurd rfl ht
  | node a l r =>
      cases s
      · exact ⟨a, l, r, rfl⟩
      · exact ⟨a, r, l, rfl⟩

/-- A node with a hole in the place of its child on one side. -/
structure Frame (α : Type*) where
  side : Side
  label : α
  sibling : BinaryTree α

/-- Fill the hole of a context. -/
def plug : List (Frame α) → BinaryTree α → BinaryTree α
  | [], t => t
  | f :: c, t => plug c (join f.side f.label t f.sibling)

@[simp] theorem plug_nil (t : BinaryTree α) : plug [] t = t := rfl

@[simp]
theorem plug_cons (f : Frame α) (c : List (Frame α)) (t : BinaryTree α) :
    plug (f :: c) t = plug c (join f.side f.label t f.sibling) := rfl

theorem plug_append (c c' : List (Frame α)) (t : BinaryTree α) :
    plug (c ++ c') t = plug c' (plug c t) := by
  induction c generalizing t with
  | nil => rfl
  | cons f c ih => exact ih _

/-- The labels of a context before its hole. -/
def before : List (Frame α) → List α
  | [] => []
  | f :: c =>
      match f.side with
      | .left => before c
      | .right => before c ++ (f.sibling.inorder ++ [f.label])

/-- The labels of a context behind its hole. -/
def after : List (Frame α) → List α
  | [] => []
  | f :: c =>
      match f.side with
      | .left => f.label :: (f.sibling.inorder ++ after c)
      | .right => after c

@[simp] theorem before_nil : before ([] : List (Frame α)) = [] := rfl
@[simp] theorem after_nil : after ([] : List (Frame α)) = [] := rfl

@[simp]
theorem before_left (a : α) (t : BinaryTree α) (c : List (Frame α)) :
    before (⟨.left, a, t⟩ :: c) = before c := rfl

@[simp]
theorem before_right (a : α) (t : BinaryTree α) (c : List (Frame α)) :
    before (⟨.right, a, t⟩ :: c) = before c ++ (t.inorder ++ [a]) := rfl

@[simp]
theorem after_left (a : α) (t : BinaryTree α) (c : List (Frame α)) :
    after (⟨.left, a, t⟩ :: c) = a :: (t.inorder ++ after c) := rfl

@[simp]
theorem after_right (a : α) (t : BinaryTree α) (c : List (Frame α)) :
    after (⟨.right, a, t⟩ :: c) = after c := rfl

/-- Filling the hole puts the labels of the tree between those of the context. -/
theorem inorder_plug (c : List (Frame α)) (t : BinaryTree α) :
    (plug c t).inorder = before c ++ (t.inorder ++ after c) := by
  induction c generalizing t with
  | nil => simp
  | cons f c ih =>
      obtain ⟨s, a, sib⟩ := f
      cases s <;> simp [ih, join]

theorem numNodes_le_plug (c : List (Frame α)) (t : BinaryTree α) :
    t.numNodes + c.length ≤ (plug c t).numNodes := by
  induction c generalizing t with
  | nil => simp
  | cons f c ih =>
      have hle := ih (join f.side f.label t f.sibling)
      rw [numNodes_join] at hle
      rw [plug_cons, List.length_cons]
      omega

theorem before_append (c c' : List (Frame α)) : before (c ++ c') = before c' ++ before c := by
  induction c with
  | nil => simp
  | cons f c ih =>
      obtain ⟨s, a, sib⟩ := f
      cases s <;> simp [ih]

theorem after_append (c c' : List (Frame α)) : after (c ++ c') = after c ++ after c' := by
  induction c with
  | nil => simp
  | cons f c ih =>
      obtain ⟨s, a, sib⟩ := f
      cases s <;> simp [ih]

/-- Every label is at the root of some subtree. -/
theorem exists_plug {t : BinaryTree α} {a : α} (h : a ∈ t.inorder) :
    ∃ c l r, t = plug c (node a l r) := by
  induction t with
  | nil => simp at h
  | node b l r hl hr =>
      simp only [inorder_node, List.mem_append, List.mem_cons] at h
      rcases h with h | rfl | h
      · obtain ⟨c, l', r', rfl⟩ := hl h
        exact ⟨c ++ [⟨.left, b, r⟩], l', r', by simp [plug_append, join]⟩
      · exact ⟨[], l, r, rfl⟩
      · obtain ⟨c, l', r', rfl⟩ := hr h
        exact ⟨c ++ [⟨.right, b, l⟩], l', r', by simp [plug_append, join]⟩

/-- Apply a function to the labels of a frame. -/
def Frame.map (f : α → β) (x : Frame α) : Frame β :=
  ⟨x.side, f x.label, x.sibling.map f⟩

theorem map_plug (f : α → β) (c : List (Frame α)) (t : BinaryTree α) :
    (plug c t).map f = plug (c.map (Frame.map f)) (t.map f) := by
  induction c generalizing t with
  | nil => rfl
  | cons x c ih =>
      obtain ⟨s, a, sib⟩ := x
      cases s <;> simp [ih, join, map, Frame.map]

theorem before_map (f : α → β) (c : List (Frame α)) :
    before (c.map (Frame.map f)) = (before c).map f := by
  induction c with
  | nil => rfl
  | cons x c ih =>
      obtain ⟨s, a, sib⟩ := x
      cases s <;> simp [ih, Frame.map]

theorem after_map (f : α → β) (c : List (Frame α)) :
    after (c.map (Frame.map f)) = (after c).map f := by
  induction c with
  | nil => rfl
  | cons x c ih =>
      obtain ⟨s, a, sib⟩ := x
      cases s <;> simp [ih, Frame.map]

/-- A context whose hole is reached by going left only has nothing before it. -/
theorem before_of_spine {c : List (Frame α)} (h : ∀ f ∈ c, f.side = .left) : before c = [] := by
  induction c with
  | nil => rfl
  | cons f c ih =>
      obtain ⟨s, a, sib⟩ := f
      obtain rfl : s = .left := h ⟨s, a, sib⟩ List.mem_cons_self
      simpa using ih fun f hf => h f (by simp [hf])

/-- A context whose hole is reached by going right only has nothing behind it. -/
theorem after_of_spine {c : List (Frame α)} (h : ∀ f ∈ c, f.side = .right) : after c = [] := by
  induction c with
  | nil => rfl
  | cons f c ih =>
      obtain ⟨s, a, sib⟩ := f
      obtain rfl : s = .right := h ⟨s, a, sib⟩ List.mem_cons_self
      simpa using ih fun f hf => h f (by simp [hf])

end BinaryTree
