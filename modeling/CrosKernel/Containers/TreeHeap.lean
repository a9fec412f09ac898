import CrosKernel.Containers.BinarySearchTree
import Mathlib.Data.List.Nodup

/-!
# The tree that a heap of nodes represents

`Represents t T` says that the nodes of `t` are linked as the binary tree `T`, whose labels are
the pairs stored and the addresses of their nodes. Heights are left open: the operations keep the
links right whatever the heights are. `rep_plug` splits a representation at a focus, and
`Rep.congr`, `Rep.reparent` and `RepCtx.rehole` are the frame rules with which an assignment to a
node is followed.
-/

namespace CrosKernel.Containers

open BinaryTree

/-- A pair stored in a tree, and the address of the node that stores it. -/
structure Entry (K V : Type) where
  id : Addr
  key : K
  value : V

/-- The pair of an entry. -/
def Entry.pair {K V : Type} (e : Entry K V) : K × V := (e.key, e.value)

variable {K V : Type}

/-- A pointer to the root of a tree. -/
def ptr (T : BinaryTree (Entry K V)) : Option Addr := T.label?.map Entry.id

/-- The addresses of the nodes of a tree. -/
def ids (T : BinaryTree (Entry K V)) : List Addr := T.inorder.map Entry.id

/-- The pairs stored in a tree, in order. -/
def pairs (T : BinaryTree (Entry K V)) : List (K × V) := T.inorder.map Entry.pair

/-- The addresses of the nodes of a context. -/
def ctxIds (c : List (Frame (Entry K V))) : List Addr := (before c ++ after c).map Entry.id

/-- A pointer to the node whose child is the hole of a context. -/
def ctxPtr (c : List (Frame (Entry K V))) : Option Addr := c.head?.map fun f => f.label.id

@[simp] theorem ptr_nil : ptr (nil : BinaryTree (Entry K V)) = none := rfl

@[simp]
theorem ptr_node (e : Entry K V) (l r : BinaryTree (Entry K V)) :
    ptr (node e l r) = some e.id := rfl

@[simp]
theorem ptr_join (s : Side) (e : Entry K V) (near far : BinaryTree (Entry K V)) :
    ptr (join s e near far) = some e.id := by
  cases s <;> rfl

theorem ptr_eq_none {T : BinaryTree (Entry K V)} : ptr T = none ↔ T = nil := by
  cases T <;> simp

@[simp] theorem ids_nil : ids (nil : BinaryTree (Entry K V)) = [] := rfl

@[simp]
theorem ids_node (e : Entry K V) (l r : BinaryTree (Entry K V)) :
    ids (node e l r) = ids l ++ e.id :: ids r := by
  simp [ids]

@[simp] theorem ctxPtr_nil : ctxPtr ([] : List (Frame (Entry K V))) = none := rfl

@[simp]
theorem ctxPtr_cons (f : Frame (Entry K V)) (c : List (Frame (Entry K V))) :
    ctxPtr (f :: c) = some f.label.id := rfl

@[simp] theorem ctxIds_nil : ctxIds ([] : List (Frame (Entry K V))) = [] := rfl

theorem ids_join (s : Side) (e : Entry K V) (near far : BinaryTree (Entry K V)) :
    (ids (join s e near far)).Perm (e.id :: (ids near ++ ids far)) := by
  refine List.perm_iff_count.2 fun x => ?_
  cases s <;> simp [join, List.count_cons] <;> omega

theorem mem_ids_join {s : Side} {e : Entry K V} {near far : BinaryTree (Entry K V)} {x : Addr} :
    x ∈ ids (join s e near far) ↔ x = e.id ∨ x ∈ ids near ∨ x ∈ ids far := by
  cases s <;> simp [join] <;> tauto

theorem mem_ctxIds_cons {f : Frame (Entry K V)} {c : List (Frame (Entry K V))} {x : Addr} :
    x ∈ ctxIds (f :: c) ↔ x = f.label.id ∨ x ∈ ids f.sibling ∨ x ∈ ctxIds c := by
  obtain ⟨s, e, sib⟩ := f
  cases s <;> simp [ctxIds, ids] <;> grind

theorem ctxIds_cons (f : Frame (Entry K V)) (c : List (Frame (Entry K V))) :
    (ctxIds (f :: c)).Perm (f.label.id :: (ids f.sibling ++ ctxIds c)) := by
  obtain ⟨s, e, sib⟩ := f
  refine List.perm_iff_count.2 fun x => ?_
  cases s <;> simp [ctxIds, ids, List.count_cons] <;> omega

theorem ids_plug (c : List (Frame (Entry K V))) (T : BinaryTree (Entry K V)) :
    (ids (plug c T)).Perm (ids T ++ ctxIds c) := by
  simp only [ids, ctxIds, inorder_plug, List.map_append]
  rw [← List.append_assoc, ← List.append_assoc]
  exact List.perm_append_comm.append_right _

theorem mem_ids_plug {c : List (Frame (Entry K V))} {T : BinaryTree (Entry K V)} {x : Addr} :
    x ∈ ids (plug c T) ↔ x ∈ ids T ∨ x ∈ ctxIds c := by
  rw [(ids_plug c T).mem_iff, List.mem_append]

theorem mem_ids_of_ptr {T : BinaryTree (Entry K V)} {a : Addr} (h : ptr T = some a) :
    a ∈ ids T := by
  obtain ⟨e, he, rfl⟩ := Option.map_eq_some_iff.1 h
  exact List.mem_map_of_mem (mem_of_label? he)

theorem mem_ctxIds_of_ctxPtr {c : List (Frame (Entry K V))} {x : Addr} (h : ctxPtr c = some x) :
    x ∈ ctxIds c := by
  cases c with
  | nil => cases h
  | cons f c =>
      cases h
      exact mem_ctxIds_cons.2 (.inl rfl)

theorem mem_ctxIds_append {c c' : List (Frame (Entry K V))} {x : Addr} :
    x ∈ ctxIds (c ++ c') ↔ x ∈ ctxIds c ∨ x ∈ ctxIds c' := by
  simp only [ctxIds, before_append, after_append, List.map_append, List.mem_append]
  tauto

/-- Below a context that is not empty the root pointer does not depend on the hole. -/
theorem ptr_plug {c : List (Frame (Entry K V))} (hc : c ≠ []) (S T : BinaryTree (Entry K V)) :
    ptr (plug c S) = ptr (plug c T) := by
  induction c generalizing S T with
  | nil => exact absurd rfl hc
  | cons f c ih =>
      cases c with
      | nil => simp
      | cons g c => exact ih (by simp) _ _

/-- The root of a tree with a proper focus is in the context. -/
theorem mem_ctxIds_of_root {c : List (Frame (Entry K V))} {S : BinaryTree (Entry K V)} {x : Addr}
    (hc : c ≠ []) (h : ptr (plug c S) = some x) : x ∈ ctxIds c := by
  rw [ptr_plug hc S nil] at h
  simpa using mem_ids_plug.1 (mem_ids_of_ptr h)

/-! ## Cells -/

/-- The node that stores the entry `e`, with its children named by the side `s`. -/
def cell (e : Entry K V) (parent : Option Addr) (s : Side) (near far : Option Addr)
    (height : Nat) : Node K V where
  key := e.key
  value := e.value
  parent := parent
  left := match s with | .left => near | .right => far
  right := match s with | .left => far | .right => near
  height := height

section Cell

variable (e : Entry K V) (p : Option Addr) (s : Side) (near far q : Option Addr) (h : Nat)

@[simp] theorem cell_key : (cell e p s near far h).key = e.key := rfl
@[simp] theorem cell_value : (cell e p s near far h).value = e.value := rfl
@[simp] theorem cell_parent : (cell e p s near far h).parent = p := rfl

@[simp]
theorem cell_child : (cell e p s near far h).child s = near := by
  cases s <;> rfl

@[simp]
theorem cell_child_other : (cell e p s near far h).child s.other = far := by
  cases s <;> rfl

@[simp]
theorem cell_setChild : (cell e p s near far h).setChild s q = cell e p s q far h := by
  cases s <;> rfl

@[simp]
theorem cell_setChild_other : (cell e p s near far h).setChild s.other q = cell e p s near q h := by
  cases s <;> rfl

theorem cell_set_parent : { cell e p s near far h with parent := q } = cell e q s near far h := rfl

theorem cell_other : cell e p s.other near far h = cell e p s far near h := by
  cases s <;> rfl

end Cell

/-- When the children of a node differ, `redirect` changes the child it is asked to change. -/
theorem redirect_cell {e : Entry K V} {p far b : Option Addr} {s : Side} {a : Addr} {h : Nat}
    (hfar : far ≠ some a) :
    BinarySearchTree.redirect (cell e p s (some a) far h) a b = cell e p s b far h := by
  cases s <;> simp [BinarySearchTree.redirect, cell, hfar]

/-! ## Representation -/

/-- The nodes of a heap. -/
abbrev Heap (K V : Type) := Addr → Option (Node K V)

/-- The nodes of the tree are linked as it says, and `parent` is the parent pointer of its
root. -/
def Rep (H : Heap K V) (parent : Option Addr) : BinaryTree (Entry K V) → Prop
  | nil => True
  | node e l r =>
      (∃ h, H e.id = some (cell e parent .left (ptr l) (ptr r) h)) ∧
        Rep H (some e.id) l ∧ Rep H (some e.id) r

/-- The nodes of the context are linked as it says, and its hole is `hole`. -/
def RepCtx (H : Heap K V) (hole : Option Addr) : List (Frame (Entry K V)) → Prop
  | [] => True
  | f :: c =>
      (∃ h, H f.label.id = some (cell f.label (ctxPtr c) f.side hole (ptr f.sibling) h)) ∧
        Rep H (some f.label.id) f.sibling ∧ RepCtx H (some f.label.id) c

variable {H H' : Heap K V} {p q hole : Option Addr}

@[simp] theorem rep_nil : Rep H p nil := trivial
@[simp] theorem repCtx_nil : RepCtx H hole [] := trivial

theorem rep_join {s : Side} {e : Entry K V} {near far : BinaryTree (Entry K V)} :
    Rep H p (join s e near far) ↔
      (∃ h, H e.id = some (cell e p s (ptr near) (ptr far) h)) ∧
        Rep H (some e.id) near ∧ Rep H (some e.id) far := by
  cases s
  · exact Iff.rfl
  · show _ ∧ Rep H _ far ∧ Rep H _ near ↔ _
    rw [and_comm (a := Rep H (some e.id) far)]
    exact Iff.rfl

/-- A representation splits at the hole of a context. -/
theorem rep_plug {c : List (Frame (Entry K V))} {T : BinaryTree (Entry K V)} :
    Rep H none (plug c T) ↔ Rep H (ctxPtr c) T ∧ RepCtx H (ptr T) c := by
  induction c generalizing T with
  | nil => simp
  | cons f c ih =>
      rw [plug_cons, ih, rep_join]
      simp only [RepCtx, ptr_join, ctxPtr_cons]
      tauto

/-- A representation depends only on the nodes of the tree. -/
theorem Rep.congr {T : BinaryTree (Entry K V)} (h : Rep H p T) (hH : ∀ x ∈ ids T, H' x = H x) :
    Rep H' p T := by
  induction T generalizing p with
  | nil => trivial
  | node e l r hl hr =>
      simp only [ids_node, List.mem_append, List.mem_cons] at hH
      obtain ⟨hroot, hleft, hright⟩ := h
      refine ⟨?_, hl hleft fun x hx => hH x (.inl hx), hr hright fun x hx => hH x (.inr (.inr hx))⟩
      rwa [hH e.id (.inr (.inl rfl))]

theorem RepCtx.congr {c : List (Frame (Entry K V))} (h : RepCtx H hole c)
    (hH : ∀ x ∈ ctxIds c, H' x = H x) : RepCtx H' hole c := by
  induction c generalizing hole with
  | nil => trivial
  | cons f c ih =>
      simp only [mem_ctxIds_cons] at hH
      obtain ⟨hroot, hsib, hctx⟩ := h
      refine ⟨?_, hsib.congr fun x hx => hH x (.inr (.inl hx)),
        ih hctx fun x hx => hH x (.inr (.inr hx))⟩
      rwa [hH f.label.id (.inl rfl)]

/-- Assigning to the parent pointer of the root gives the tree another parent. -/
theorem Rep.reparent {T : BinaryTree (Entry K V)} (h : Rep H p T) (hnodup : (ids T).Nodup)
    (hroot : ∀ a n, ptr T = some a → H a = some n → H' a = some { n with parent := q })
    (hrest : ∀ x ∈ ids T, ptr T ≠ some x → H' x = H x) : Rep H' q T := by
  cases T with
  | nil => trivial
  | node e l r =>
      obtain ⟨⟨k, hk⟩, hl, hr⟩ := h
      simp only [ids_node, List.mem_append, List.mem_cons, ptr_node] at hrest hroot hnodup
      rw [List.nodup_middle, List.nodup_cons, List.mem_append, not_or] at hnodup
      have hne : ∀ x ∈ ids l ++ ids r, H' x = H x := by
        intro x hx
        refine hrest x (by simp at hx; tauto) ?_
        rintro ⟨rfl⟩
        simp at hx; tauto
      refine ⟨⟨k, ?_⟩, hl.congr fun x hx => hne x (by simp [hx]),
        hr.congr fun x hx => hne x (by simp [hx])⟩
      rw [hroot e.id _ rfl hk, cell_set_parent]

/-- Assigning to the child pointer above the hole changes what the context has in its hole. -/
theorem RepCtx.rehole {f : Frame (Entry K V)} {c : List (Frame (Entry K V))}
    {hole' : Option Addr} (h : RepCtx H hole (f :: c))
    (hroot : ∀ k, H f.label.id = some (cell f.label (ctxPtr c) f.side hole (ptr f.sibling) k) →
      ∃ k', H' f.label.id = some (cell f.label (ctxPtr c) f.side hole' (ptr f.sibling) k'))
    (hrest : ∀ x ∈ ids f.sibling ++ ctxIds c, H' x = H x) : RepCtx H' hole' (f :: c) := by
  obtain ⟨⟨k, hk⟩, hsib, hctx⟩ := h
  simp only [List.mem_append] at hrest
  exact ⟨hroot k hk, hsib.congr fun x hx => hrest x (.inl hx),
    hctx.congr fun x hx => hrest x (.inr hx)⟩

/-- The state `t` of the program stores the tree `T`. -/
structure Represents (t : BinarySearchTree K V) (T : BinaryTree (Entry K V)) : Prop where
  root_eq : t.root = ptr T
  rep : Rep t.nodes none T
  nodup : (ids T).Nodup
  domain : ∀ x, x ∉ ids T → t.nodes x = none

namespace Represents

variable {t t' : BinarySearchTree K V} {T : BinaryTree (Entry K V)}

/-- The tree of an empty program state. -/
theorem empty : Represents (BinarySearchTree.empty : BinarySearchTree K V) nil :=
  ⟨rfl, trivial, List.nodup_nil, fun _ _ => rfl⟩

/-- Only the nodes and the root pointer are represented. -/
theorem of_eq (h : Represents t T) (hroot : t'.root = t.root) (hnodes : t'.nodes = t.nodes) :
    Represents t' T :=
  ⟨hroot ▸ h.root_eq, hnodes ▸ h.rep, h.nodup, hnodes ▸ h.domain⟩

/-- Focus on the node at an address. -/
theorem exists_focus {x : Addr} (hx : x ∈ ids T) :
    ∃ c e l r, T = plug c (node e l r) ∧ e.id = x := by
  obtain ⟨e, he, rfl⟩ := List.mem_map.1 hx
  obtain ⟨c, l, r, rfl⟩ := exists_plug he
  exact ⟨c, e, l, r, rfl, rfl⟩

/-- The node in focus. -/
theorem nodes_eq {c : List (Frame (Entry K V))} {s : Side} {e : Entry K V}
    {near far : BinaryTree (Entry K V)} (h : Represents t (plug c (join s e near far))) :
    ∃ k, t.nodes e.id = some (cell e (ctxPtr c) s (ptr near) (ptr far) k) :=
  (rep_join.1 (rep_plug.1 h.rep).1).1

/-- No pointer of the tree dangles. -/
theorem exists_node {x : Addr} (h : Represents t T) (hx : x ∈ ids T) :
    ∃ n, t.nodes x = some n := by
  obtain ⟨c, e, l, r, rfl, rfl⟩ := exists_focus hx
  obtain ⟨k, hk⟩ := h.nodes_eq (s := .left)
  exact ⟨_, hk⟩

theorem mem_ids {x : Addr} {n : Node K V} (h : Represents t T) (hx : t.nodes x = some n) :
    x ∈ ids T := by
  by_contra hmem
  rw [h.domain x hmem] at hx
  cases hx

/-- The addresses at a focus are distinct. -/
theorem nodup_plug {c : List (Frame (Entry K V))} {S : BinaryTree (Entry K V)}
    (h : Represents t (plug c S)) : (ids S ++ ctxIds c).Nodup :=
  (ids_plug c S).nodup_iff.1 h.nodup

end Represents

namespace BinarySearchTree

variable {t : BinarySearchTree K V} {T : BinaryTree (Entry K V)} {a : Addr} {n : Node K V}

theorem modify_eq {f : Node K V → Node K V} (h : t.nodes a = some n) :
    t.modify a f = some { t with nodes := Function.update t.nodes a (some (f n)) } := by
  simp [modify, h]

/-- The effect of an assignment to a node. -/
theorem modify_spec (f : Node K V → Node K V) (h : t.nodes a = some n) :
    ∃ t', t.modify a f = some t' ∧ t'.root = t.root ∧ t'.size = t.size ∧
      t'.nodes a = some (f n) ∧ ∀ x, x ≠ a → t'.nodes x = t.nodes x :=
  ⟨_, modify_eq h, rfl, rfl, Function.update_self .., fun _ hx => Function.update_of_ne hx ..⟩

/-- The effect of an assignment through a pointer that may be null. -/
theorem modifyNonNull_spec {q : Option Addr} (f : Node K V → Node K V)
    (h : ∀ a, q = some a → ∃ n, t.nodes a = some n) :
    ∃ t', t.modifyNonNull q f = some t' ∧ t'.root = t.root ∧ t'.size = t.size ∧
      (∀ a n, q = some a → t.nodes a = some n → t'.nodes a = some (f n)) ∧
      ∀ x, q ≠ some x → t'.nodes x = t.nodes x := by
  cases q with
  | none => exact ⟨t, rfl, rfl, rfl, by simp, by simp⟩
  | some a =>
      obtain ⟨n, hn⟩ := h a rfl
      obtain ⟨t', ht', hroot, hsize, ha, hrest⟩ := modify_spec f hn
      refine ⟨t', ht', hroot, hsize, ?_, fun x hx => hrest x (by simpa [eq_comm] using hx)⟩
      rintro _ m ⟨rfl⟩ hm
      rwa [Option.some.inj (hn.symm.trans hm)] at ha

/-! ## Assignments to fields that are not links -/

theorem rep_set_height {k : Nat} (h : Rep H p T) (ha : H a = some n) :
    Rep (Function.update H a (some { n with height := k })) p T := by
  induction T generalizing p with
  | nil => trivial
  | node e l r hl hr =>
      obtain ⟨⟨m, hm⟩, hleft, hright⟩ := h
      refine ⟨?_, hl hleft, hr hright⟩
      by_cases he : e.id = a
      · subst he
        obtain rfl : _ = n := Option.some.inj (hm.symm.trans ha)
        exact ⟨k, by simp [cell]⟩
      · exact ⟨m, by rw [Function.update_of_ne he, hm]⟩

/-- Assigning to a height changes no link. -/
theorem represents_set_height {k : Nat} (h : Represents t T) (ha : t.nodes a = some n) :
    Represents
      { t with nodes := Function.update t.nodes a (some { n with height := k }) } T where
  root_eq := h.root_eq
  rep := rep_set_height h.rep ha
  nodup := h.nodup
  domain x hx := by
    have hne : x ≠ a := by
      rintro rfl
      exact hx (h.mem_ids ha)
    simpa [hne] using h.domain x hx

/-- Another pair in the entry at the address `a`. -/
def setPair (a : Addr) (key : K) (value : V) (e : Entry K V) : Entry K V :=
  if e.id = a then { e with key := key, value := value } else e

section SetPair

variable {key : K} {value : V}

@[simp]
theorem setPair_id (e : Entry K V) : (setPair a key value e).id = e.id := by
  unfold setPair
  split <;> rfl

theorem setPair_of_ne {e : Entry K V} (h : e.id ≠ a) : setPair a key value e = e :=
  if_neg h

theorem setPair_self (e e' : Entry K V) :
    setPair e.id e'.key e'.value e = { e' with id := e.id } := by
  simp [setPair]

theorem map_setPair_of_not_mem {L : List (Entry K V)} (h : a ∉ L.map Entry.id) :
    L.map (setPair a key value) = L := by
  refine (List.map_congr_left fun e he => setPair_of_ne ?_).trans (List.map_id L)
  rintro rfl
  exact h (List.mem_map_of_mem he)

@[simp]
theorem ptr_map_setPair (T : BinaryTree (Entry K V)) :
    ptr (T.map (setPair a key value)) = ptr T := by
  cases T <;> simp [ptr]

@[simp]
theorem ids_map_setPair (T : BinaryTree (Entry K V)) :
    ids (T.map (setPair a key value)) = ids T := by
  simp [ids, Function.comp_def]

theorem ctxIds_map_setPair (c : List (Frame (Entry K V))) :
    ctxIds (c.map (Frame.map (setPair a key value))) = ctxIds c := by
  simp [ctxIds, before_map, after_map, Function.comp_def]

variable (key value) in
theorem rep_set_pair (h : Rep H p T) (ha : H a = some n) :
    Rep (Function.update H a (some { n with key := key, value := value })) p
      (T.map (setPair a key value)) := by
  induction T generalizing p with
  | nil => trivial
  | node e l r hl hr =>
      obtain ⟨⟨m, hm⟩, hleft, hright⟩ := h
      refine ⟨⟨m, ?_⟩, by simpa using hl hleft, by simpa using hr hright⟩
      by_cases he : e.id = a
      · subst he
        obtain rfl : _ = n := Option.some.inj (hm.symm.trans ha)
        simp [setPair, cell]
      · simp [setPair, he, hm]

variable (key value) in
/-- Assigning a pair to a node changes the label of that node and no link. -/
theorem represents_set_pair (h : Represents t T) (ha : t.nodes a = some n) :
    Represents
      { t with nodes := Function.update t.nodes a (some { n with key := key, value := value }) }
      (T.map (setPair a key value)) where
  root_eq := by simp [h.root_eq]
  rep := rep_set_pair key value h.rep ha
  nodup := by simpa using h.nodup
  domain x hx := by
    rw [ids_map_setPair] at hx
    have hne : x ≠ a := by
      rintro rfl
      exact hx (h.mem_ids ha)
    simpa [hne] using h.domain x hx

end SetPair

/-! ## Heights -/

/-- `update_height` of a node of the tree follows no dangling pointer. -/
theorem updateHeight_spec (h : Represents t T) (ha : a ∈ ids T) :
    ∃ t', t.updateHeight a = some t' ∧ t'.size = t.size ∧ Represents t' T := by
  obtain ⟨c, e, l, r, rfl, rfl⟩ := Represents.exists_focus ha
  obtain ⟨k, hk⟩ := h.nodes_eq (s := .left)
  obtain ⟨-, hl, hr⟩ := (rep_plug.1 h.rep).1
  have hset : ∀ m, ∃ t', t.modify e.id (fun n => { n with height := m }) = some t' ∧
      t'.size = t.size ∧ Represents t' (plug c (node e l r)) := fun m =>
    ⟨_, modify_eq hk, rfl, represents_set_height h hk⟩
  cases l with
  | nil =>
      cases r with
      | nil => simpa [updateHeight, hk, cell] using hset _
      | node er rl rr =>
          obtain ⟨⟨m, hm⟩, -⟩ := hr
          simpa [updateHeight, hk, hm, cell] using hset _
  | node el ll lr =>
      obtain ⟨⟨m, hm⟩, -⟩ := hl
      cases r with
      | nil => simpa [updateHeight, hk, hm, cell] using hset _
      | node er rl rr =>
          obtain ⟨⟨m', hm'⟩, -⟩ := hr
          simpa [updateHeight, hk, hm, hm', cell] using hset _

/-- `balance` is positive only above a left child and negative only above a right child. -/
theorem balance_spec {c : List (Frame (Entry K V))} {e : Entry K V}
    {l r : BinaryTree (Entry K V)} (h : Represents t (plug c (node e l r))) :
    ∃ b, t.balance e.id = some b ∧ (0 < b → l ≠ nil) ∧ (b < 0 → r ≠ nil) := by
  obtain ⟨k, hk⟩ := h.nodes_eq (s := .left)
  obtain ⟨-, hl, hr⟩ := (rep_plug.1 h.rep).1
  cases l with
  | nil =>
      cases r with
      | nil => exact ⟨0, by simp [balance, hk, cell], by simp, by simp⟩
      | node er rl rr =>
          obtain ⟨⟨m, hm⟩, -⟩ := hr
          exact ⟨-m, by simp [balance, hk, hm, cell], by simp, by simp⟩
  | node el ll lr =>
      obtain ⟨⟨m, hm⟩, -⟩ := hl
      cases r with
      | nil => exact ⟨m, by simp [balance, hk, hm, cell], by simp, by simp⟩
      | node er rl rr =>
          obtain ⟨⟨m', hm'⟩, -⟩ := hr
          exact ⟨m - m', by simp [balance, hk, hm, hm', cell], by simp, by simp⟩

end BinarySearchTree

end CrosKernel.Containers
