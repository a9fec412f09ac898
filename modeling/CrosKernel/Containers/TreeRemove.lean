import CrosKernel.Containers.TreeRebalance
import Mathlib.Order.Basic

/-!
# Removal copies pairs along a chain of successors

`remove` does not delete the node with the key. It copies the pair of the successor into it, goes
on with the successor, and deletes the node at the end of the chain. `Excise` says what this does
to the entries in order: the pairs move along the chain and one pair is gone. `replace_spec` and
`removeNode_spec` show this for the code, `removeRec_spec` for the search from the root.
-/

namespace CrosKernel.Containers

open BinaryTree

variable {K V : Type}

/-! ## Moving pairs along a chain -/

/-- `Excise chain A e B L` says that the pair of `e` is taken out of the entries `A ++ e :: B` by
moving the pairs of the entries of `chain` to the left or to the right and that `L` is left. -/
inductive Excise : List Addr → List (Entry K V) → Entry K V → List (Entry K V) →
    List (Entry K V) → Prop where
  | last (A : List (Entry K V)) (e : Entry K V) (B : List (Entry K V)) :
      Excise [e.id] A e B (A ++ B)
  | next {chain : List Addr} {A : List (Entry K V)} {e e' : Entry K V}
      {B L : List (Entry K V)} :
      Excise chain (A ++ [{ e' with id := e.id }]) e' B L → Excise (e.id :: chain) A e (e' :: B) L
  | prev {chain : List Addr} {A : List (Entry K V)} {e e' : Entry K V}
      {B L : List (Entry K V)} :
      Excise chain A e' ({ e' with id := e.id } :: B) L → Excise (e.id :: chain) (A ++ [e']) e B L

/-- The node in which the pair of the node `x` is after the pairs moved along a chain, each to the
node before it. The pair of the first node is gone. -/
def movedAlong : List Addr → Addr → Option Addr
  | [], x => some x
  | [a], x => if x = a then none else some x
  | a :: b :: chain, x => if x = a then none else movedAlong (b :: chain) (if x = b then a else x)

namespace Excise

variable {chain : List Addr} {A B L : List (Entry K V)} {e : Entry K V}

/-- Exactly the pair of `e` is gone. -/
theorem map_pair (h : Excise chain A e B L) :
    L.map Entry.pair = A.map Entry.pair ++ B.map Entry.pair := by
  induction h with
  | last => simp
  | next _ ih => simp [ih, Entry.pair]
  | prev _ ih => simp [ih, Entry.pair]

/-- Exactly one node of the chain is gone. -/
theorem exists_perm (h : Excise chain A e B L) :
    ∃ d ∈ chain, ((A ++ e :: B).map Entry.id).Perm (d :: L.map Entry.id) := by
  induction h with
  | last A e B => exact ⟨e.id, by simp, by simp⟩
  | next _ ih =>
      obtain ⟨d, hd, hperm⟩ := ih
      exact ⟨d, by simp [hd], by simpa using hperm⟩
  | prev _ ih =>
      obtain ⟨d, hd, hperm⟩ := ih
      exact ⟨d, by simp [hd], by simpa using hperm⟩

/-- Entries whose nodes are not in the chain stay as they are. -/
theorem mem_of_not_mem {x : Entry K V} (h : Excise chain A e B L) (hx : x ∈ A ++ e :: B)
    (hchain : x.id ∉ chain) : x ∈ L := by
  induction h with
  | last A e B =>
      simp only [List.mem_append, List.mem_cons, List.not_mem_nil, or_false] at hx hchain ⊢
      rcases hx with h | rfl | h
      exacts [.inl h, absurd rfl hchain, .inr h]
  | next _ ih =>
      simp only [List.mem_cons, not_or] at hchain
      refine ih ?_ hchain.2
      simp only [List.mem_append, List.mem_cons] at hx ⊢
      rcases hx with h | rfl | h
      exacts [.inl (.inl h), absurd rfl hchain.1, .inr h]
  | prev _ ih =>
      simp only [List.mem_cons, not_or] at hchain
      refine ih ?_ hchain.2
      simp only [List.mem_append, List.mem_cons, List.not_mem_nil, or_false] at hx ⊢
      rcases hx with (h | h) | rfl | h
      exacts [.inl h, .inr (.inl h), absurd rfl hchain.1, .inr (.inr (.inr h))]

/-- The chain starts at the entry that is taken out. -/
theorem exists_cons (h : Excise chain A e B L) : ∃ rest, chain = e.id :: rest := by
  cases h with
  | last => exact ⟨[], rfl⟩
  | next => exact ⟨_, rfl⟩
  | prev => exact ⟨_, rfl⟩

/-- The other pairs end up where the moves along the chain take them. -/
theorem mem_movedAlong {x : Entry K V} {y : Addr} (h : Excise chain A e B L)
    (hnodup : ((A ++ e :: B).map Entry.id).Nodup) (hx : x ∈ A ++ e :: B)
    (hy : movedAlong chain x.id = some y) : { x with id := y } ∈ L := by
  induction h generalizing x with
  | last A e B =>
      have hne : x.id ≠ e.id := fun heq => by simp [movedAlong, heq] at hy
      obtain rfl : x.id = y := by simpa [movedAlong, hne] using hy
      simp only [List.mem_append, List.mem_cons] at hx ⊢
      rcases hx with h | rfl | h
      exacts [.inl h, absurd rfl hne, .inr h]
  | @next chain A e e' B L hex ih =>
      obtain ⟨rest, rfl⟩ := hex.exists_cons
      have hne : x.id ≠ e.id := fun heq => by simp [movedAlong, heq] at hy
      have hmove : movedAlong (e'.id :: rest) (if x.id = e'.id then e.id else x.id) = some y := by
        simpa [movedAlong, hne] using hy
      have hnodup' : (((A ++ [{ e' with id := e.id }]) ++ e' :: B).map Entry.id).Nodup := by
        simpa using hnodup
      by_cases hid : x.id = e'.id
      · obtain rfl := List.inj_on_of_nodup_map hnodup hx (by simp) hid
        rw [if_pos rfl] at hmove
        exact ih (x := { x with id := e.id }) hnodup' (by simp) hmove
      · rw [if_neg hid] at hmove
        refine ih hnodup' ?_ hmove
        simp only [List.mem_append, List.mem_cons] at hx ⊢
        rcases hx with h | rfl | rfl | h
        exacts [.inl (.inl h), absurd rfl hne, absurd rfl hid, .inr (.inr h)]
  | @prev chain A e e' B L hex ih =>
      obtain ⟨rest, rfl⟩ := hex.exists_cons
      have hne : x.id ≠ e.id := fun heq => by simp [movedAlong, heq] at hy
      have hmove : movedAlong (e'.id :: rest) (if x.id = e'.id then e.id else x.id) = some y := by
        simpa [movedAlong, hne] using hy
      have hnodup' : ((A ++ e' :: { e' with id := e.id } :: B).map Entry.id).Nodup := by
        simpa using hnodup
      by_cases hid : x.id = e'.id
      · obtain rfl := List.inj_on_of_nodup_map hnodup hx (by simp) hid
        rw [if_pos rfl] at hmove
        exact ih (x := { x with id := e.id }) hnodup' (by simp) hmove
      · rw [if_neg hid] at hmove
        refine ih hnodup' ?_ hmove
        simp only [List.mem_append, List.mem_cons, List.not_mem_nil, or_false] at hx ⊢
        rcases hx with (h | rfl) | rfl | h
        exacts [.inl h, absurd rfl hid, absurd rfl hne, .inr (.inr (.inr h))]

theorem length_eq (h : Excise chain A e B L) : L.length + 1 = (A ++ e :: B).length := by
  obtain ⟨d, -, hperm⟩ := h.exists_perm
  simpa using hperm.length_eq.symm

end Excise

namespace BinarySearchTree

variable {t t' : BinarySearchTree K V} {T : BinaryTree (Entry K V)}

/-- The nodes that a removal at `a` copies between: `a`, its successor, and so on. -/
def successorChain (t : BinarySearchTree K V) : Nat → Addr → List Addr
  | 0, _ => []
  | fuel + 1, a =>
      match t.successor a with
      | some (some succ) => a :: successorChain t fuel succ
      | _ => [a]

/-- Two states whose nodes have the same children. -/
def SameChildren (t t' : BinarySearchTree K V) : Prop :=
  t'.size = t.size ∧ ∀ x, (t'.nodes x).map (fun n => (n.left, n.right)) =
    (t.nodes x).map fun n => (n.left, n.right)

theorem walk_congr (h : SameChildren t t') (s : Side) (fuel : Nat) (a : Addr) :
    t'.walk s fuel a = t.walk s fuel a := by
  induction fuel generalizing a with
  | zero => rfl
  | succ fuel ih =>
      have ha := h.2 a
      cases hn : t.nodes a with
      | none => simp_all [walk]
      | some n =>
          obtain ⟨n', hn', heq⟩ := Option.map_eq_some_iff.1 (ha.trans (by rw [hn]; rfl))
          have hchild : n'.child s = n.child s := by
            cases s <;> simp_all [Node.child]
          simp [walk, hn, hn', hchild, ih]

theorem successor_congr (h : SameChildren t t') (a : Addr) : t'.successor a = t.successor a := by
  have ha := h.2 a
  have hfuel : t'.fuel = t.fuel := by rw [fuel, fuel, h.1]
  cases hn : t.nodes a with
  | none => simp_all [successor]
  | some n =>
      obtain ⟨n', hn', heq⟩ := Option.map_eq_some_iff.1 (ha.trans (by rw [hn]; rfl))
      rw [Prod.mk.injEq] at heq
      simp [successor, hn, hn', heq.1, heq.2, hfuel, walk_congr h]

theorem successorChain_congr (h : SameChildren t t') (fuel : Nat) (a : Addr) :
    t'.successorChain fuel a = t.successorChain fuel a := by
  induction fuel generalizing a with
  | zero => rfl
  | succ fuel ih => simp [successorChain, successor_congr h, ih]

theorem sameChildren_set_pair {a : Addr} {n : Node K V} (key : K) (value : V)
    (ha : t.nodes a = some n) :
    SameChildren t { t with
      nodes := Function.update t.nodes a (some { n with key := key, value := value }) } := by
  refine ⟨rfl, fun x => ?_⟩
  by_cases hx : x = a
  · subst hx
    simp [ha]
  · simp [hx]

/-! ## Successors -/

/-- The loop of `successor` stops at the end of the spine on its side. -/
theorem walk_spec {s : Side} {fuel : Nat} {p : Option Addr} {S : BinaryTree (Entry K V)}
    {a : Addr} (h : Rep t.nodes p S) (ha : ptr S = some a) (hfuel : S.numNodes ≤ fuel) :
    ∃ c e far, S = plug c (join s e nil far) ∧ (∀ f ∈ c, f.side = s) ∧
      t.walk s fuel a = some e.id := by
  induction fuel generalizing p S a with
  | zero =>
      cases S with
      | nil => cases ha
      | node e l r => simp at hfuel
  | succ fuel ih =>
      have hne : S ≠ nil := by
        rintro rfl
        cases ha
      obtain ⟨e, near, far, rfl⟩ := exists_join s hne
      obtain ⟨⟨k, hk⟩, hnear, -⟩ := rep_join.1 h
      rw [ptr_join, Option.some.injEq] at ha
      subst ha
      simp only [walk, hk, Option.bind_eq_bind, Option.bind_some, cell_child]
      cases hptr : ptr near with
      | none =>
          obtain rfl := ptr_eq_none.1 hptr
          exact ⟨[], e, far, rfl, by simp, rfl⟩
      | some b =>
          rw [numNodes_join] at hfuel
          obtain ⟨c, e', far', rfl, hside, hwalk⟩ := ih hnear hptr (by omega)
          refine ⟨c ++ [⟨s, e, far⟩], e', far', by simp [plug_append], ?_, hwalk⟩
          simpa [or_imp, forall_and] using hside

/-- The entries before the root of a subtree in focus. -/
def leftPart (c : List (Frame (Entry K V))) (l : BinaryTree (Entry K V)) : List (Entry K V) :=
  before c ++ l.inorder

/-- The entries behind the root of a subtree in focus. -/
def rightPart (r : BinaryTree (Entry K V)) (c : List (Frame (Entry K V))) : List (Entry K V) :=
  r.inorder ++ after c

theorem inorder_focus (c : List (Frame (Entry K V))) (e : Entry K V)
    (l r : BinaryTree (Entry K V)) :
    (plug c (node e l r)).inorder = leftPart c l ++ e :: rightPart r c := by
  simp [inorder_plug, leftPart, rightPart]

/-- `successor` of a node goes to a child, on the left only when there is none on the right, and
from there to the other side as far as it gets. -/
theorem successor_shape {c : List (Frame (Entry K V))} {e : Entry K V}
    {l r : BinaryTree (Entry K V)} (h : Represents t (plug c (node e l r)))
    (hsize : (plug c (node e l r)).numNodes ≤ t.size) :
    l = nil ∧ r = nil ∧ t.successor e.id = some none ∨
      ∃ s spine e' far other, node e l r = join s e (plug spine (join s.other e' nil far)) other ∧
        (∀ f ∈ spine, f.side = s.other) ∧ (s = .left → other = nil) ∧
        t.successor e.id = some (some e'.id) := by
  obtain ⟨k, hk⟩ := h.nodes_eq (s := .left)
  obtain ⟨-, hl, hr⟩ := (rep_plug.1 h.rep).1
  have hfuel : l.numNodes + r.numNodes ≤ t.fuel := by
    rw [← length_inorder] at hsize
    simp [inorder_plug, length_inorder] at hsize
    simp only [fuel]
    omega
  cases hpr : ptr r with
  | some b =>
      right
      obtain ⟨spine, e', far, rfl, hside, hwalk⟩ :=
        walk_spec (s := .left) hr hpr (show r.numNodes ≤ t.fuel by omega)
      refine ⟨.right, spine, e', far, l, rfl, hside, nofun, ?_⟩
      simp [successor, hk, cell, hpr, hwalk]
  | none =>
      obtain rfl := ptr_eq_none.1 hpr
      cases hpl : ptr l with
      | some b =>
          right
          obtain ⟨spine, e', far, rfl, hside, hwalk⟩ :=
            walk_spec (s := .right) hl hpl (show l.numNodes ≤ t.fuel by omega)
          refine ⟨.left, spine, e', far, nil, rfl, hside, fun _ => rfl, ?_⟩
          simp [successor, hk, cell, hpl, hwalk]
      | none =>
          obtain rfl := ptr_eq_none.1 hpl
          exact .inl ⟨rfl, rfl, by simp [successor, hk, cell]⟩

/-- `successor` of a node with a child finds the entry next to it, within its own subtree. -/
theorem successor_spec {c : List (Frame (Entry K V))} {e : Entry K V}
    {l r : BinaryTree (Entry K V)} (h : Represents t (plug c (node e l r)))
    (hsize : (plug c (node e l r)).numNodes ≤ t.size) :
    l = nil ∧ r = nil ∧ t.successor e.id = some none ∨
      ∃ c' e' l' r', node e l r = plug c' (node e' l' r') ∧ c' ≠ [] ∧
        t.successor e.id = some (some e'.id) ∧
        (leftPart (c' ++ c) l' = leftPart c l ++ [e] ∧
            rightPart r c = e' :: rightPart r' (c' ++ c) ∨
          leftPart c l = leftPart (c' ++ c) l' ++ [e'] ∧
            rightPart r' (c' ++ c) = e :: rightPart r c) := by
  obtain hleaf | ⟨s, spine, e', far, other, heq, hside, hother, hsucc⟩ := successor_shape h hsize
  · exact .inl hleaf
  right
  cases s with
  | right =>
      cases heq
      refine ⟨spine ++ [⟨.right, e, l⟩], e', nil, far, by simp [plug_append, join, Side.other],
        by simp, hsucc, .inl ?_⟩
      simp [leftPart, rightPart, inorder_plug, before_append, after_append,
        before_of_spine hside, join, Side.other]
  | left =>
      cases heq
      obtain rfl := hother rfl
      refine ⟨spine ++ [⟨.left, e, nil⟩], e', far, nil, by simp [plug_append, join, Side.other],
        by simp, hsucc, .inr ?_⟩
      simp [leftPart, rightPart, inorder_plug, before_append, after_append,
        after_of_spine hside, join, Side.other]

/-! ## Copying along the chain -/

/-- `unlink` and `delete` take a leaf out of the tree. -/
theorem detach_spec {f : Frame (Entry K V)} {c : List (Frame (Entry K V))} {e : Entry K V}
    (h : Represents t (plug (f :: c) (node e nil nil))) :
    ∃ t', t.unlink e.id = some t' ∧ t'.size = t.size ∧
      Represents (t'.delete e.id) (plug (f :: c) nil) := by
  obtain ⟨k, hk⟩ := h.nodes_eq (s := .left)
  obtain ⟨-, hctx⟩ := rep_plug.1 h.rep
  obtain ⟨m, hm⟩ := hctx.1
  have hnodup := h.nodup_plug
  simp only [ids_node, ids_nil, List.nil_append, List.singleton_append, List.nodup_cons] at hnodup
  have hne : f.label.id ≠ e.id := fun hp => hnodup.1 (mem_ctxIds_cons.2 (.inl hp.symm))
  have hfar : ptr f.sibling ≠ some e.id := fun hp =>
    hnodup.1 (mem_ctxIds_cons.2 (.inr (.inl (mem_ids_of_ptr hp))))
  obtain ⟨t', ht', hroot, hsize, hparent, hrest⟩ :=
    modify_spec (fun p => redirect p e.id none) hm
  refine ⟨t', by simpa [unlink, modifyNonNull, hk] using ht', hsize, ?_⟩
  have hframe : ∀ x, x ≠ e.id → x ≠ f.label.id → (t'.delete e.id).nodes x = t.nodes x := by
    intro x hxe hxf
    simp [delete, hxe, hrest x hxf]
  have hids := (ctxIds_cons f c).nodup_iff.1 hnodup.2
  simp only [List.nodup_cons] at hids
  refine ⟨?_, rep_plug.2 ⟨trivial, hctx.rehole (fun k' hk' => ⟨m, ?_⟩) fun x hx => ?_⟩, ?_, ?_⟩
  · show t'.root = _
    rw [hroot, h.root_eq]
    exact ptr_plug (by simp) _ _
  · rw [ptr_node, redirect_cell hfar] at hparent
    simpa [delete, hne] using hparent
  · have hmem := mem_ctxIds_cons.2 (.inr (List.mem_append.1 hx))
    refine hframe x ?_ ?_
    · rintro rfl
      exact hnodup.1 hmem
    · rintro rfl
      exact hids.1 hx
  · exact (ids_plug _ _).nodup_iff.2 (by simpa using hnodup.2)
  · intro x hx
    by_cases hxe : x = e.id
    · simp [delete, hxe]
    · simp only [mem_ids_plug, ids_nil, List.not_mem_nil, false_or] at hx
      rw [hframe x hxe fun hp => hx (mem_ctxIds_cons.2 (.inl hp))]
      refine h.domain x fun hm => ?_
      rcases mem_ids_plug.1 hm with hm | hm
      exacts [hxe (by simpa using hm), hx hm]

theorem leftPart_map (g : Entry K V → Entry K V) (c : List (Frame (Entry K V)))
    (l : BinaryTree (Entry K V)) :
    leftPart (c.map (Frame.map g)) (l.map g) = (leftPart c l).map g := by
  simp [leftPart, before_map]

theorem rightPart_map (g : Entry K V → Entry K V) (c : List (Frame (Entry K V)))
    (r : BinaryTree (Entry K V)) :
    rightPart (r.map g) (c.map (Frame.map g)) = (rightPart r c).map g := by
  simp [rightPart, after_map]

/-- One link of the chain: the pair of the neighbour `e'` moves to `e`, and the pair of `e'` is
taken out of what results. -/
theorem excise_step {chain : List Addr} {A B A' B' L : List (Entry K V)} {e e' : Entry K V}
    (hnodup : ((A ++ e :: B).map Entry.id).Nodup)
    (hadj : A' = A ++ [e] ∧ B = e' :: B' ∨ A = A' ++ [e'] ∧ B' = e :: B)
    (h : Excise chain (A'.map (setPair e.id e'.key e'.value)) e'
      (B'.map (setPair e.id e'.key e'.value)) L) : Excise (e.id :: chain) A e B L := by
  have hout : e.id ∉ A.map Entry.id ∧ e.id ∉ B.map Entry.id := by
    rw [List.map_append, List.map_cons, List.nodup_middle, List.nodup_cons, List.mem_append,
      not_or] at hnodup
    exact hnodup.1
  rcases hadj with ⟨rfl, rfl⟩ | ⟨rfl, rfl⟩
  · have hB' : e.id ∉ B'.map Entry.id := fun hm => hout.2 (by simp_all)
    rw [List.map_append, List.map_cons, List.map_nil, setPair_self,
      map_setPair_of_not_mem hout.1, map_setPair_of_not_mem hB'] at h
    exact .next h
  · have hA' : e.id ∉ A'.map Entry.id := fun hm => hout.1 (by simp_all)
    rw [List.map_cons, setPair_self, map_setPair_of_not_mem hout.2,
      map_setPair_of_not_mem hA'] at h
    exact .prev h

/-- What `replace` of the node `this` by the root of a subtree in focus does: it copies the pair of
that root and takes it out of the rest. -/
def Replaces (t : BinarySearchTree K V) (fuel : Nat) (this : Addr) (c : List (Frame (Entry K V)))
    (e : Entry K V) (l r : BinaryTree (Entry K V)) : Prop :=
  ∃ t' T', replace fuel t this e.id = some t' ∧ t'.size = t.size ∧ Represents t' T' ∧
    Excise (successorChain t fuel e.id) ((leftPart c l).map (setPair this e.key e.value)) e
      ((rightPart r c).map (setPair this e.key e.value)) T'.inorder ∧
    ∀ x ∈ ctxIds c, x ∈ ids T'

/-- Moving the focus from the root of a subtree to a node within it. -/
theorem refocus {c c' : List (Frame (Entry K V))} {e e' : Entry K V}
    {l r l' r' : BinaryTree (Entry K V)} (h : Represents t (plug c (node e l r)))
    (hsize : (plug c (node e l r)).numNodes ≤ t.size)
    (hfocus : node e l r = plug c' (node e' l' r')) (hc' : c' ≠ []) :
    Represents t (plug (c' ++ c) (node e' l' r')) ∧ e.id ∈ ctxIds (c' ++ c) ∧ e.id ≠ e'.id ∧
      (plug (c' ++ c) (node e' l' r')).numNodes ≤ t.size ∧
      (node e' l' r').numNodes < (node e l r).numNodes := by
  have hroot : e.id ∈ ctxIds c' := mem_ctxIds_of_root hc' (hfocus ▸ ptr_node e l r)
  have hlt := numNodes_le_plug c' (node e' l' r')
  have hpos := List.length_pos_iff.2 hc'
  rw [hfocus, ← plug_append] at h hsize
  have hmem : e.id ∈ ctxIds (c' ++ c) := mem_ctxIds_append.2 (.inl hroot)
  have hnodup := List.nodup_append.1 h.nodup_plug
  exact ⟨h, hmem, (hnodup.2.2 _ (by simp) _ hmem).symm, hsize, by rw [hfocus]; omega⟩

/-- Replacing a node by its successor and rebalancing the parent of the successor, as `replace` and
`remove_rec` do. -/
theorem replace_successor {fuel : Nat} {c c' : List (Frame (Entry K V))} {e e' : Entry K V}
    {l r l' r' : BinaryTree (Entry K V)} (h : Represents t (plug c (node e l r)))
    (hfocus : node e l r = plug c' (node e' l' r')) (hc' : c' ≠ [])
    (hadj : leftPart (c' ++ c) l' = leftPart c l ++ [e] ∧
        rightPart r c = e' :: rightPart r' (c' ++ c) ∨
      leftPart c l = leftPart (c' ++ c) l' ++ [e'] ∧
        rightPart r' (c' ++ c) = e :: rightPart r c)
    (hrec : Replaces t fuel e.id (c' ++ c) e' l' r') :
    ∃ t' T', (do
        let n ← t.nodes e'.id
        let t ← replace fuel t e.id e'.id
        t.rebalance n.parent) = some t' ∧ t'.size = t.size ∧ Represents t' T' ∧
      Excise (e.id :: successorChain t fuel e'.id) (leftPart c l) e (rightPart r c) T'.inorder ∧
      ∀ x ∈ ctxIds (c' ++ c), x ∈ ids T' := by
  obtain ⟨t₁, T₁, ht₁, hsize₁, h₁, hex, hframe⟩ := hrec
  have hnodup : ((leftPart c l ++ e :: rightPart r c).map Entry.id).Nodup := by
    rw [← inorder_focus]
    exact h.nodup
  rw [hfocus, ← plug_append] at h
  obtain ⟨k, hk⟩ := h.nodes_eq (s := .left)
  obtain ⟨p, hp⟩ : ∃ p, ctxPtr (c' ++ c) = some p := by
    cases c' with
    | nil => exact absurd rfl hc'
    | cons f c' => exact ⟨_, rfl⟩
  obtain ⟨t₂, T₂, ht₂, hsize₂, h₂, hinorder⟩ :=
    rebalance_spec h₁ (hframe p (mem_ctxIds_of_ctxPtr hp))
  refine ⟨t₂, T₂, ?_, hsize₂.trans hsize₁, h₂, ?_, ?_⟩
  · simp [hk, ht₁, hp, ht₂]
  · rw [hinorder]
    exact excise_step hnodup hadj hex
  · simpa only [ids, hinorder] using hframe

/-- The rest of `replace` after the copy: the pair of `other` is taken out of the tree. -/
def vacate (fuel : Nat) (t : BinarySearchTree K V) (other : Addr) :
    Option (BinarySearchTree K V) := do
  match ← t.successor other with
  | none => do
      let o ← t.nodes other
      let t ← t.unlink other
      (t.delete other).rebalance o.parent
  | some succ => do
      let n ← t.nodes succ
      let t ← replace fuel t other succ
      t.rebalance n.parent

theorem replace_succ (fuel : Nat) (t : BinarySearchTree K V) (this other : Addr) :
    replace (fuel + 1) t this other = (do
      let o ← t.nodes other
      let t ← t.modify this fun n => { n with key := o.key, value := o.value }
      vacate fuel t other) := rfl

/-- Deleting a leaf below the root and rebalancing its parent. -/
theorem rebalance_detach {c : List (Frame (Entry K V))} {e : Entry K V}
    (h : Represents t (plug c (node e nil nil))) (hc : c ≠ []) :
    ∃ t' T', (do
        let n ← t.nodes e.id
        let t ← t.unlink e.id
        (t.delete e.id).rebalance n.parent) = some t' ∧ t'.size = t.size ∧ Represents t' T' ∧
      T'.inorder = before c ++ after c := by
  obtain ⟨k, hk⟩ := h.nodes_eq (s := .left)
  cases c with
  | nil => exact absurd rfl hc
  | cons f c =>
      obtain ⟨t₁, ht₁, hsize₁, h₁⟩ := detach_spec h
      obtain ⟨t₂, T₂, ht₂, hsize₂, h₂, hinorder⟩ :=
        rebalance_spec (a := f.label.id) h₁ (mem_ids_plug.2 (.inr (mem_ctxIds_cons.2 (.inl rfl))))
      refine ⟨t₂, T₂, ?_, hsize₂.trans hsize₁, h₂, ?_⟩
      · simp [hk, ht₁, ht₂]
      · rw [hinorder, inorder_plug]
        rfl

theorem vacate_spec {fuel : Nat} {c : List (Frame (Entry K V))} {e : Entry K V}
    {l r : BinaryTree (Entry K V)} (h : Represents t (plug c (node e l r))) (hc : c ≠ [])
    (hsize : (plug c (node e l r)).numNodes ≤ t.size)
    (hrec : ∀ c' e' l' r', node e l r = plug c' (node e' l' r') → c' ≠ [] →
      Replaces t fuel e.id (c' ++ c) e' l' r') :
    ∃ t' T', vacate fuel t e.id = some t' ∧ t'.size = t.size ∧ Represents t' T' ∧
      Excise (successorChain t (fuel + 1) e.id) (leftPart c l) e (rightPart r c) T'.inorder ∧
      ∀ x ∈ ctxIds c, x ∈ ids T' := by
  rcases successor_spec h hsize with ⟨rfl, rfl, hsucc⟩ | ⟨c', e', l', r', hfocus, hc', hsucc, hadj⟩
  · obtain ⟨t', T', ht', hsize', h', hinorder⟩ := rebalance_detach h hc
    refine ⟨t', T', by simpa [vacate, hsucc] using ht', hsize', h', ?_, fun x hx => ?_⟩
    · have hlast := Excise.last (leftPart c nil) e (rightPart nil c)
      simpa [successorChain, hsucc, hinorder, leftPart, rightPart] using hlast
    · rw [ids, hinorder]
      exact hx
  · obtain ⟨t', T', ht', hsize', h', hex, hframe⟩ :=
      replace_successor h hfocus hc' hadj (hrec _ _ _ _ hfocus hc')
    refine ⟨t', T', by simpa [vacate, hsucc] using ht', hsize', h', ?_, fun x hx => ?_⟩
    · simpa [successorChain, hsucc] using hex
    · exact hframe x (mem_ctxIds_append.2 (.inr hx))

/-- `replace` copies the pair of `other` and passes the hole in the tree on along the chain. -/
theorem replace_spec {fuel : Nat} {this : Addr} {c : List (Frame (Entry K V))} {e : Entry K V}
    {l r : BinaryTree (Entry K V)} (h : Represents t (plug c (node e l r))) (hc : c ≠ [])
    (hthis : this ∈ ids (plug c (node e l r))) (hne : this ≠ e.id)
    (hsize : (plug c (node e l r)).numNodes ≤ t.size)
    (hfuel : (node e l r).numNodes ≤ fuel) : Replaces t fuel this c e l r := by
  induction fuel generalizing t this c e l r with
  | zero => simp at hfuel
  | succ fuel ih =>
      obtain ⟨k, hk⟩ := h.nodes_eq (s := .left)
      obtain ⟨n, hn⟩ := h.exists_node hthis
      -- the copy keeps the shape and the addresses of the tree
      have h₁ := represents_set_pair e.key e.value h hn
      have hsame := sameChildren_set_pair e.key e.value hn
      have hge : setPair this e.key e.value e = e := setPair_of_ne hne.symm
      rw [← numNodes_map (setPair this e.key e.value)] at hsize hfuel
      rw [map_plug] at h₁ hsize
      rw [map, hge] at h₁ hsize hfuel
      obtain ⟨t', T', ht', hsize', h', hex, hframe⟩ := vacate_spec  h₁
        (by simpa using hc) hsize fun c' e' l' r' hfocus hc' => by
          obtain ⟨h₂, hmem, hne', hsize₂, hlt⟩ := refocus h₁ hsize hfocus hc'
          exact ih h₂ (by simp [hc']) (mem_ids_plug.2 (.inr hmem)) hne' hsize₂ (by omega)
      refine ⟨t', T', ?_, hsize', h', ?_, ?_⟩
      · simpa [replace_succ, hk, modify_eq hn] using ht'
      · rwa [← leftPart_map, ← rightPart_map, ← successorChain_congr hsame]
      · rwa [ctxIds_map_setPair] at hframe

/-! ## `remove_rec` -/

/-- Removing the only node. -/
theorem removeNode_root {cur : Addr} {n : Node K V} (hsucc : t.successor cur = some none)
    (hroot : t.root = some cur) (hn : t.nodes cur = some n) (hparent : n.parent = none) :
    t.removeNode cur = some { t.delete cur with root := none, size := t.size - 1 } := by
  simp [removeNode, hsucc, hroot, hn, hparent, unlink, modifyNonNull, delete]

/-- Removing a leaf below the root. -/
theorem removeNode_below {cur parent : Addr} {n : Node K V} {u v : BinarySearchTree K V}
    (hsucc : t.successor cur = some none) (hroot : t.root ≠ some cur) (hn : t.nodes cur = some n)
    (hparent : n.parent = some parent) (hu : t.unlink cur = some u)
    (hv : (u.delete cur).rebalance (some parent) = some v) :
    t.removeNode cur = some { v with size := v.size - 1 } := by
  simp [removeNode, hsucc, hroot, hn, hparent, hu, hv]

/-- The only node is deleted. -/
theorem delete_only {e : Entry K V} (h : Represents t (node e nil nil)) :
    Represents { t.delete e.id with root := none, size := t.size - 1 } nil := by
  refine ⟨rfl, trivial, List.nodup_nil, fun x _ => ?_⟩
  by_cases hx : x = e.id
  · simp [delete, hx]
  · simpa [delete, hx] using h.domain x (by simpa using hx)

/-- A node below another one is not the root. -/
theorem root_ne {f : Frame (Entry K V)} {c : List (Frame (Entry K V))} {e : Entry K V}
    {l r : BinaryTree (Entry K V)} (h : Represents t (plug (f :: c) (node e l r))) :
    t.root ≠ some e.id := by
  rw [h.root_eq]
  intro hp
  have hnodup := List.nodup_append.1 h.nodup_plug
  exact hnodup.2.2 e.id (by simp) e.id (mem_ctxIds_of_root (by simp) hp) rfl

/-- The leaf case of `remove_rec`. -/
theorem removeLeaf_spec {c : List (Frame (Entry K V))} {e : Entry K V}
    (h : Represents t (plug c (node e nil nil))) (hsucc : t.successor e.id = some none) :
    ∃ t' T', t.removeNode e.id = some t' ∧ t'.size = t.size - 1 ∧ Represents t' T' ∧
      T'.inorder = before c ++ after c := by
  obtain ⟨k, hk⟩ := h.nodes_eq (s := .left)
  cases c with
  | nil =>
      have hroot : t.root = some e.id := h.root_eq
      refine ⟨{ t.delete e.id with root := none, size := t.size - 1 }, nil, ?_, rfl, ?_, rfl⟩
      · exact removeNode_root hsucc hroot hk rfl
      · exact delete_only h
  | cons f c =>
      have hroot := root_ne h
      obtain ⟨t₁, T₁, ht₁, hsize₁, h₁, hinorder⟩ := rebalance_detach h (by simp)
      refine ⟨{ t₁ with size := t₁.size - 1 }, T₁, ?_, by rw [hsize₁], h₁.of_eq rfl rfl, hinorder⟩
      simp only [hk, cell_parent, ctxPtr_cons, Option.bind_eq_bind, Option.bind_some] at ht₁
      obtain ⟨u, hu, hrebalance⟩ := Option.bind_eq_some_iff.1 ht₁
      exact removeNode_below hsucc hroot hk rfl hu hrebalance

/-- The node with the key: exactly its pair is removed. -/
theorem removeNode_spec {c : List (Frame (Entry K V))} {e : Entry K V}
    {l r : BinaryTree (Entry K V)} (h : Represents t (plug c (node e l r)))
    (hsize : (plug c (node e l r)).numNodes ≤ t.size) :
    ∃ t' T', t.removeNode e.id = some t' ∧ t'.size = t.size - 1 ∧ Represents t' T' ∧
      Excise (successorChain t (t.fuel + 1) e.id) (leftPart c l) e (rightPart r c) T'.inorder ∧
      ∀ x ∈ ctxIds c, x ∈ ids T' := by
  rcases successor_spec h hsize with ⟨rfl, rfl, hsucc⟩ | ⟨c', e', l', r', hfocus, hc', hsucc, hadj⟩
  · obtain ⟨t', T', ht', hsize', h', hinorder⟩ := removeLeaf_spec h hsucc
    refine ⟨t', T', ht', hsize', h', ?_, fun x hx => ?_⟩
    · have hlast := Excise.last (leftPart c nil) e (rightPart nil c)
      simpa [successorChain, hsucc, hinorder, leftPart, rightPart] using hlast
    · rw [ids, hinorder]
      exact hx
  · obtain ⟨h₂, hmem, hne, hsize₂, hlt⟩ := refocus h hsize hfocus hc'
    have hfuel : (node e' l' r').numNodes ≤ t.fuel := by
      have hle := numNodes_le_plug (c' ++ c) (node e' l' r')
      simp only [fuel]
      omega
    obtain ⟨t₁, T₁, ht₁, hsize₁, h₁, hex, hframe⟩ := replace_successor h hfocus hc' hadj
      (replace_spec h₂ (by simp [hc']) (mem_ids_plug.2 (.inr hmem)) hne hsize₂ hfuel)
    -- the size is decreased between the last two calls of `rebalance`
    have hdec : Represents { t₁ with size := t₁.size - 1 } T₁ := h₁.of_eq rfl rfl
    obtain ⟨t₂, T₂, ht₂, hsize₂, h₂, hinorder⟩ := rebalance_spec hdec (hframe _ hmem)
    obtain ⟨n, hn, ht₁⟩ := Option.bind_eq_some_iff.1 ht₁
    obtain ⟨u, hu, ht₁⟩ := Option.bind_eq_some_iff.1 ht₁
    refine ⟨t₂, T₂, ?_, by rw [hsize₂, hsize₁], h₂, ?_, fun x hx => ?_⟩
    · simp [removeNode, hsucc, hn, hu, ht₁, ht₂]
    · simpa [successorChain, hsucc, hinorder] using hex
    · rw [ids, hinorder]
      exact hframe x (mem_ctxIds_append.2 (.inr hx))

section Order

variable [LinearOrder K]

/-- What `remove` of a key does to the entries `L`, leaving `L'`: nothing if no entry has the key,
and otherwise the pair of the entry that the search finds is taken out. -/
def Removes (t : BinarySearchTree K V) (key : K) (L : List (Entry K V))
    (found : Option (Option Addr)) (t' : BinarySearchTree K V) (L' : List (Entry K V)) : Prop :=
  (t'.size = t.size ∧ L' = L ∧ ∀ e ∈ L, e.key ≠ key) ∨
    ∃ A e B, L = A ++ e :: B ∧ e.key = key ∧ found = some (some e.id) ∧ t'.size = t.size - 1 ∧
      Excise (successorChain t (t.fuel + 1) e.id) A e B L'

/-- Entries sorted by key. -/
def SortedKeys (L : List (Entry K V)) : Prop := L.Pairwise fun e e' => e.key ≤ e'.key

theorem sortedKeys_node {e : Entry K V} {l r : BinaryTree (Entry K V)} :
    SortedKeys (node e l r).inorder ↔ SortedKeys l.inorder ∧ SortedKeys r.inorder ∧
      (∀ x ∈ l.inorder, x.key ≤ e.key) ∧ ∀ x ∈ r.inorder, e.key ≤ x.key := by
  simp only [SortedKeys, inorder_node, List.pairwise_append, List.pairwise_cons, List.mem_cons]
  constructor
  · rintro ⟨hl, ⟨hge, hr⟩, hlr⟩
    exact ⟨hl, hr, fun x hx => hlr x hx e (.inl rfl), hge⟩
  · rintro ⟨hl, hr, hle, hge⟩
    refine ⟨hl, ⟨hge, hr⟩, fun x hx y hy => ?_⟩
    rcases hy with rfl | hy
    exacts [hle x hx, (hle x hx).trans (hge y hy)]

omit [LinearOrder K] in
/-- The call of `rebalance` after the recursive call of `remove_rec`. -/
theorem Removes.rebalance {t₁ : BinarySearchTree K V} {key : K} {f : Frame (Entry K V)}
    {c : List (Frame (Entry K V))} {L : List (Entry K V)} {T₁ : BinaryTree (Entry K V)}
    {found found' : Option (Option Addr)} (hrem : Removes t key L found t₁ T₁.inorder)
    (h : Represents t₁ T₁) (hframe : ∀ x ∈ ctxIds (f :: c), x ∈ ids T₁)
    (hfound : ∀ a, found = some (some a) → found' = some (some a)) :
    ∃ t' T', t₁.rebalance (some f.label.id) = some t' ∧ Represents t' T' ∧
      (∀ x ∈ ctxIds c, x ∈ ids T') ∧ Removes t key L found' t' T'.inorder := by
  obtain ⟨t', T', ht', hsize, h', hinorder⟩ :=
    rebalance_spec h (hframe _ (mem_ctxIds_cons.2 (.inl rfl)))
  refine ⟨t', T', ht', h', fun x hx => ?_, ?_⟩
  · rw [ids, hinorder]
    exact hframe x (mem_ctxIds_cons.2 (.inr (.inr hx)))
  · rw [hinorder]
    rcases hrem with ⟨hsize₁, hL, habsent⟩ | ⟨A, e, B, hL, hkey, hf, hsize₁, hex⟩
    · exact .inl ⟨hsize.trans hsize₁, hL, habsent⟩
    · exact .inr ⟨A, e, B, hL, hkey, hfound _ hf, hsize.trans hsize₁, hex⟩

/-- The loop of `search_rec` goes on in the left subtree. -/
theorem searchLoop_left {key : K} {fuel : Nat} {c : List (Frame (Entry K V))} {e : Entry K V}
    {l r : BinaryTree (Entry K V)} {a : Addr} (h : Represents t (plug c (node e l r)))
    (hlt : key < e.key) (ha : t.searchLoop key fuel (ptr l) = some (some a)) :
    t.searchLoop key (fuel + 1) (ptr (node e l r)) = some (some a) := by
  obtain ⟨k, hk⟩ := h.nodes_eq (s := .left)
  have hnil : ptr l ≠ none := fun hp => by cases fuel <;> simp [hp, searchLoop] at ha
  simp [searchLoop, hk, cell, hlt, hnil, ha]

/-- The loop of `search_rec` goes on in the right subtree. -/
theorem searchLoop_right {key : K} {fuel : Nat} {c : List (Frame (Entry K V))} {e : Entry K V}
    {l r : BinaryTree (Entry K V)} {a : Addr} (h : Represents t (plug c (node e l r)))
    (hgt : e.key < key) (ha : t.searchLoop key fuel (ptr r) = some (some a)) :
    t.searchLoop key (fuel + 1) (ptr (node e l r)) = some (some a) := by
  obtain ⟨k, hk⟩ := h.nodes_eq (s := .left)
  have hnil : ptr r ≠ none := fun hp => by cases fuel <;> simp [hp, searchLoop] at ha
  simp [searchLoop, hk, cell, hgt, hgt.not_gt, hnil, ha]

/-- The recursion of `remove_rec`, in a subtree outside of which no entry has the key. -/
theorem removeRec_spec {key : K} (fuel : Nat) {c : List (Frame (Entry K V))}
    {S : BinaryTree (Entry K V)} (h : Represents t (plug c S)) (hsorted : SortedKeys S.inorder)
    (hctx : ∀ e ∈ before c ++ after c, e.key ≠ key) (hsize : (plug c S).numNodes ≤ t.size)
    (hfuel : S.numNodes ≤ fuel) :
    ∃ t' T', removeRec key fuel t (ptr S) = some t' ∧ Represents t' T' ∧
      (∀ x ∈ ctxIds c, x ∈ ids T') ∧
      Removes t key (plug c S).inorder (t.searchLoop key fuel (ptr S)) t' T'.inorder := by
  induction S generalizing c fuel with
  | nil =>
      refine ⟨t, _, by cases fuel <;> rfl, h, fun x hx => by simpa [mem_ids_plug] using hx,
        .inl ⟨rfl, rfl, ?_⟩⟩
      rwa [inorder_plug]
  | node e l r hl hr =>
      cases fuel with
      | zero => simp at hfuel
      | succ fuel =>
          obtain ⟨k, hk⟩ := h.nodes_eq (s := .left)
          simp only [numNodes] at hfuel
          obtain ⟨hsl, hsr, hle, hge⟩ := sortedKeys_node.1 hsorted
          rcases lt_trichotomy key e.key with hlt | heq | hgt
          · have hctx' : ∀ x ∈ before (⟨.left, e, r⟩ :: c) ++ after (⟨.left, e, r⟩ :: c),
                x.key ≠ key := by
              simp only [before_left, after_left, List.mem_append, List.mem_cons] at hctx ⊢
              rintro x (hx | rfl | hx | hx)
              exacts [hctx x (.inl hx), hlt.ne', (hlt.trans_le (hge x hx)).ne', hctx x (.inr hx)]
            obtain ⟨t₁, T₁, ht₁, h₁, hframe₁, hrem₁⟩ := hl fuel
              (c := ⟨.left, e, r⟩ :: c) h hsl hctx' hsize (by omega)
            obtain ⟨t', T', ht', h', hframe, hrem⟩ := hrem₁.rebalance h₁ hframe₁ fun a ha =>
              searchLoop_left h hlt ha
            refine ⟨t', T', ?_, h', hframe, hrem⟩
            simp [removeRec, hk, cell, hlt, ht₁, ht']
          · subst heq
            obtain ⟨t', T', ht', hsize', h', hex, hframe⟩ := removeNode_spec h hsize
            refine ⟨t', T', ?_, h', hframe, .inr ⟨_, e, _, inorder_focus .., rfl, ?_,
              hsize', hex⟩⟩
            · simp [removeRec, hk, ht']
            · simp [searchLoop, hk]
          · have hctx' : ∀ x ∈ before (⟨.right, e, l⟩ :: c) ++ after (⟨.right, e, l⟩ :: c),
                x.key ≠ key := by
              simp only [before_right, after_right, List.mem_append, List.mem_singleton] at hctx ⊢
              rintro x ((hx | hx | rfl) | hx)
              exacts [hctx x (.inl hx), ((hle x hx).trans_lt hgt).ne, hgt.ne, hctx x (.inr hx)]
            obtain ⟨t₁, T₁, ht₁, h₁, hframe₁, hrem₁⟩ := hr fuel
              (c := ⟨.right, e, l⟩ :: c) h hsr hctx' hsize (by omega)
            obtain ⟨t', T', ht', h', hframe, hrem⟩ := hrem₁.rebalance h₁ hframe₁ fun a ha =>
              searchLoop_right h hgt ha
            refine ⟨t', T', ?_, h', hframe, hrem⟩
            simp [removeRec, hk, cell, hgt, hgt.not_gt, ht₁, ht']

/-- `remove` succeeds on every sorted tree and removes exactly one pair with the key, if any: the
one of the node that the search finds. -/
theorem remove_spec (key : K) {T : BinaryTree (Entry K V)} (h : Represents t T)
    (hsorted : SortedKeys T.inorder) (hsize : T.numNodes ≤ t.size) :
    ∃ t' T', t.remove key = some t' ∧ Represents t' T' ∧
      Removes t key T.inorder (t.searchRec key) t' T'.inorder := by
  obtain ⟨t', T', ht', h', -, hrem⟩ := removeRec_spec t.fuel (c := []) h
    hsorted (by simp) hsize (by simp only [fuel]; omega)
  exact ⟨t', T', by rwa [remove, h.root_eq], h', by rwa [searchRec, h.root_eq]⟩

end Order

end BinarySearchTree

end CrosKernel.Containers
