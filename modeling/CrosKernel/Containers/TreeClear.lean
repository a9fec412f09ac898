import CrosKernel.Containers.TreeSession

/-!
# Deleting a whole tree

`clear`, `clear_rec` and the destructor. The recursion looks at the children of its argument
before it deletes it, and its callers pass the root without a look at it, so what `clear` does
rests on the tree having a root: `clear_iff`. The nodes deleted are listed in order, and `delete`
of a node that is not on the heap yields `none`.
-/

namespace CrosKernel.Containers.BinarySearchTree

open BinaryTree Lib

variable {K V : Type} {t : BinarySearchTree K V} {T : BinaryTree (Entry K V)}

/-- `delete cur` of a node that has to be on the heap. -/
def deleteNode (t : BinarySearchTree K V) (cur : Addr) : Option (BinarySearchTree K V) := do
  let _ ← t.nodes cur
  pure (t.delete cur)

/-- `clear_rec`, with the nodes that it deletes. -/
def clearRec : Nat → BinarySearchTree K V → Option Addr →
    Option (BinarySearchTree K V × List Addr)
  | 0, _, _ => none
  | fuel + 1, t, cur => do
      let c ← cur
      let n ← t.nodes c
      let (t, deleted) ← match n.left, n.right with
        | some left, some _ => do
            let (t, first) ← clearRec fuel t (some left)
            let n ← t.nodes c
            let (t, second) ← clearRec fuel t n.right
            pure (t, first ++ second)
        | some left, none => clearRec fuel t (some left)
        | none, some right => clearRec fuel t (some right)
        | none, none => some (t, [])
      let t ← t.deleteNode c
      pure (t, deleted ++ [c])

/-- `clear`, with the nodes that it deletes. -/
def clear (t : BinarySearchTree K V) : Option (BinarySearchTree K V × List Addr) := do
  let (t, deleted) ← clearRec t.fuel t t.root
  pure ({ t with root := none, size := 0 }, deleted)

/-- The destructor. -/
def destroy (t : BinarySearchTree K V) : Option (BinarySearchTree K V × List Addr) :=
  t.clear

/-! ## The recursion -/

/-- The tree after the nodes of a list are deleted. -/
def without (t : BinarySearchTree K V) (L : List Addr) : BinarySearchTree K V :=
  { t with nodes := fun x => if x ∈ L then none else t.nodes x }

@[simp]
theorem without_nil (t : BinarySearchTree K V) : t.without [] = t := by
  simp [without]

theorem without_nodes_of_not_mem {L : List Addr} {x : Addr} (h : x ∉ L) :
    (t.without L).nodes x = t.nodes x :=
  if_neg h

theorem without_append (t : BinarySearchTree K V) (L L' : List Addr) :
    (t.without L).without L' = t.without (L ++ L') := by
  simp only [without, BinarySearchTree.mk.injEq, and_true]
  funext x
  by_cases hx : x ∈ L <;> by_cases hx' : x ∈ L' <;> simp [hx, hx']

theorem deleteNode_eq {a : Addr} {n : Node K V} (ha : t.nodes a = some n) :
    t.deleteNode a = some (t.without [a]) := by
  have hnodes : Function.update t.nodes a none = fun x => if x ∈ [a] then none else t.nodes x := by
    funext x
    by_cases hx : x = a <;> simp [hx]
  simp [deleteNode, ha, delete, without, hnodes]

/-- Deleting one more node. -/
theorem deleteNode_without {L : List Addr} {a : Addr} {n : Node K V} (ha : t.nodes a = some n)
    (hL : a ∉ L) : (t.without L).deleteNode a = some (t.without (L ++ [a])) := by
  rw [deleteNode_eq ((without_nodes_of_not_mem hL).trans ha), without_append]

/-- No call of `clear_rec` survives a null pointer. -/
theorem clearRec_none (fuel : Nat) : clearRec fuel t none = none := by
  cases fuel <;> rfl

/-- `clear_rec` of a subtree that is not empty deletes its nodes, each of them once. -/
theorem clearRec_spec (fuel : Nat) {p : Option Addr} {S : BinaryTree (Entry K V)}
    (h : Rep t.nodes p S) (hnodup : (ids S).Nodup) (hfuel : S.numNodes ≤ fuel) (hne : S ≠ nil) :
    ∃ deleted, clearRec fuel t (ptr S) = some (t.without deleted, deleted) ∧
      deleted.Perm (ids S) := by
  induction S generalizing t p fuel with
  | nil => exact absurd rfl hne
  | node e l r hl hr =>
      cases fuel with
      | zero => simp at hfuel
      | succ fuel =>
          obtain ⟨⟨k, hk⟩, hrepl, hrepr⟩ := h
          simp only [numNodes] at hfuel
          simp only [ids_node, List.nodup_append, List.nodup_cons, List.mem_cons] at hnodup
          obtain ⟨hndl, ⟨her, hndr⟩, hdisj⟩ := hnodup
          have hel : e.id ∉ ids l := fun hm => hdisj _ hm _ (.inl rfl) rfl
          -- the node itself goes last
          have hlast : ∀ {L : List Addr}, L.Perm (ids l ++ ids r) →
              (t.without L).deleteNode e.id = some (t.without (L ++ [e.id])) ∧
                (L ++ [e.id]).Perm (ids (node e l r)) := by
            intro L hL
            refine ⟨deleteNode_without hk ?_, ?_⟩
            · rw [hL.mem_iff, List.mem_append, not_or]
              exact ⟨hel, her⟩
            · rw [ids_node]
              exact (List.perm_append_singleton ..).trans
                ((hL.cons _).trans List.perm_middle.symm)
          cases hpl : ptr l with
          | none =>
              obtain rfl := ptr_eq_none.1 hpl
              cases hpr : ptr r with
              | none =>
                  obtain rfl := ptr_eq_none.1 hpr
                  obtain ⟨hdel, hperm⟩ := hlast (L := []) (by simp)
                  rw [without_nil] at hdel
                  exact ⟨_, by simp [clearRec, hk, cell, hdel], hperm⟩
              | some b =>
                  have hnil : r ≠ nil := fun hr => by simp [hr] at hpr
                  obtain ⟨L, hL, hLperm⟩ := hr fuel hrepr hndr (by omega) hnil
                  obtain ⟨hdel, hperm⟩ := hlast (L := L) (by simpa using hLperm)
                  rw [hpr] at hL
                  exact ⟨_, by simp [clearRec, hk, cell, hpr, hL, hdel], hperm⟩
          | some a =>
              have hnil : l ≠ nil := fun hl => by simp [hl] at hpl
              obtain ⟨L, hL, hLperm⟩ := hl fuel hrepl hndl (by omega) hnil
              rw [hpl] at hL
              cases hpr : ptr r with
              | none =>
                  obtain rfl := ptr_eq_none.1 hpr
                  obtain ⟨hdel, hperm⟩ := hlast (L := L) (by simpa using hLperm)
                  exact ⟨_, by simp [clearRec, hk, cell, hpl, hL, hdel], hperm⟩
              | some b =>
                  have hnilr : r ≠ nil := fun hr => by simp [hr] at hpr
                  -- the first call leaves the node and its right subtree alone
                  have hstay : ∀ x, x ∉ ids l → (t.without L).nodes x = t.nodes x := fun x hx =>
                    without_nodes_of_not_mem fun hm => hx (hLperm.mem_iff.1 hm)
                  have hrepr' : Rep (t.without L).nodes (some e.id) r :=
                    hrepr.congr fun x hx => hstay x fun hm => hdisj x hm x (.inr hx) rfl
                  obtain ⟨L', hL', hLperm'⟩ := hr fuel hrepr' hndr (by omega) hnilr
                  obtain ⟨hdel, hperm⟩ := hlast (hLperm.append hLperm')
                  rw [hpr, without_append] at hL'
                  refine ⟨_, ?_, hperm⟩
                  simp [clearRec, hk, cell, hpl, hpr, hL, hstay _ hel, hL', hdel]

/-! ## `clear` -/

/-- The result of deleting a tree is right: every node was deleted exactly once, no null pointer
and no pointer of a deleted node was followed, and the tree is as the constructor makes it. -/
def Clears (t : BinarySearchTree K V) (result : Option (BinarySearchTree K V × List Addr)) :
    Prop :=
  ∃ deleted, result = some (empty, deleted) ∧ deleted.Nodup ∧
    ∀ a, a ∈ deleted ↔ (t.nodes a).isSome

theorem clear_of_root_eq_none (h : t.root = none) : t.clear = none := by
  simp [clear, h, clearRec_none]

/-- `clear` of a tree that has a root. -/
theorem clear_spec (h : Represents t T) (hsize : T.numNodes ≤ t.size) (hne : T ≠ nil) :
    Clears t t.clear := by
  obtain ⟨deleted, hrec, hperm⟩ :=
    clearRec_spec t.fuel h.rep h.nodup (by simp only [fuel]; omega) hne
  have hmem : ∀ a, a ∈ deleted ↔ (t.nodes a).isSome := by
    intro a
    rw [hperm.mem_iff, Option.isSome_iff_exists]
    constructor
    · exact h.exists_node
    · rintro ⟨n, hn⟩
      exact h.mem_ids hn
  refine ⟨deleted, ?_, hperm.nodup_iff.2 h.nodup, hmem⟩
  rw [← h.root_eq] at hrec
  simp only [clear, hrec, without, empty, Option.bind_eq_bind, Option.bind_some, Option.pure_def,
    Option.some.injEq, Prod.mk.injEq, BinarySearchTree.mk.injEq, and_true]
  funext x
  cases hx : t.nodes x with
  | none => simp
  | some n => simp [(hmem x).2 (by simp [hx])]

section Order

variable [LinearOrder K]

theorem Holds.clear_iff_size_ne_zero {E : List (Entry K V)} (h : Holds t E) :
    Clears t t.clear ↔ t.size ≠ 0 := by
  obtain ⟨T, hrep, -, hsize, -⟩ := h
  constructor
  · rintro ⟨deleted, hclear, -⟩ hzero
    have hnil : T = nil := by
      rw [← inorder_eq_nil, ← List.length_eq_zero_iff, length_inorder]
      omega
    rw [clear_of_root_eq_none (by rw [hrep.root_eq, hnil, ptr_nil])] at hclear
    cases hclear
  · refine fun hpos => clear_spec hrep hsize.ge ?_
    rintro rfl
    exact hpos hsize

/-- In every state that calls of `insert` and `remove` lead to, `clear` and the destructor do what
they are for if and only if the tree is not empty. -/
theorem clear_iff {ops : List (Operation K V)}
    (h : Run Step (BinarySearchTree.empty : BinarySearchTree K V) ops t) :
    (Clears t t.clear ↔ t.size ≠ 0) ∧ (Clears t t.destroy ↔ t.size ≠ 0) := by
  obtain ⟨M, -, E, hE, -⟩ := run_stores h
  exact ⟨hE.clear_iff_size_ne_zero, hE.clear_iff_size_ne_zero⟩

theorem clear_iff_one :
    ∃ t, Run Step (BinarySearchTree.empty : BinarySearchTree Nat Nat) [.insert 1 10] t ∧
      (Clears t t.clear ↔ t.size ≠ 0) ∧ (Clears t t.destroy ↔ t.size ≠ 0) := by
  have hrun : Run Step (BinarySearchTree.empty : BinarySearchTree Nat Nat) [.insert 1 10] _ :=
    .single (.insert (a := 0) rfl rfl)
  exact ⟨_, hrun, clear_iff hrun⟩

/-- The destructor of a tree that nothing was inserted into follows the null pointer. -/
theorem not_clears_empty :
    ¬ ∀ (ops : List (Operation Nat Nat)) (t : BinarySearchTree Nat Nat),
      Run Step BinarySearchTree.empty ops t → Clears t t.clear ∧ Clears t t.destroy := by
  intro h
  obtain ⟨-, deleted, hdestroy, -⟩ := h [] _ (.nil _)
  rw [destroy, clear_of_root_eq_none rfl] at hdestroy
  cases hdestroy

end Order

end CrosKernel.Containers.BinarySearchTree
