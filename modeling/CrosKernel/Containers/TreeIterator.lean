import CrosKernel.Containers.TreeSession

/-!
# Iterating over a tree

`tree_iterator` of `src/containers/binary_search_tree.h` and the range-based loop over the keys.
An iterator is the pointer to a node, null at the end. `increment_spec` says that `++` goes to the
next node in symmetric order, by the pointers to the parents when there is no right child, and
`iteration_in_order` follows a whole loop over a tree that nothing changes meanwhile.
-/

namespace CrosKernel.Containers.BinarySearchTree

open BinaryTree Lib

variable {K V σ : Type}

/-- `begin`: the leftmost node. -/
def begin (t : BinarySearchTree K V) : Option (Option Addr) :=
  match t.root with
  | none => some none
  | some root => do
      let p ← t.walk .left t.fuel root
      pure (some p)

/-- The loop of `operator++` that goes up until it comes from a left child. -/
def climb (t : BinarySearchTree K V) : Nat → Addr → Option (Option Addr)
  | 0, _ => none
  | fuel + 1, p => do
      let n ← t.nodes p
      match n.parent with
      | none => some none
      | some parent => do
          let m ← t.nodes parent
          if m.left = some p then some (some parent) else climb t fuel parent

/-- `tree_iterator::operator++`. -/
def increment (t : BinarySearchTree K V) (p : Addr) : Option (Option Addr) := do
  let n ← t.nodes p
  match n.right with
  | some right => do
      let q ← t.walk .left t.fuel right
      pure (some q)
  | none => t.climb t.fuel p

/-- The loop `for (K key : t)`, from an iterator on. -/
def forEach (t : BinarySearchTree K V) (body : K → σ → Option σ) : Nat → Option Addr → σ → Option σ
  | _, none, s => some s
  | 0, some _, _ => none
  | fuel + 1, some p, s => do
      let n ← t.nodes p
      let s ← body n.key s
      let next ← t.increment p
      forEach t body fuel next s

/-- The loop `for (K key : t)`. -/
def forKeys (t : BinarySearchTree K V) (body : K → σ → Option σ) (s : σ) : Option σ := do
  let p ← t.begin
  t.forEach body t.fuel p s

/-- The nodes that the loop `while (it != t.end())` visits from an iterator on. -/
def visitFrom (t : BinarySearchTree K V) : Nat → Option Addr → Option (List Addr)
  | _, none => some []
  | 0, some _ => none
  | fuel + 1, some p => do
      let next ← t.increment p
      let rest ← visitFrom t fuel next
      pure (p :: rest)

/-- The nodes that the loop from `begin` visits. -/
def visit (t : BinarySearchTree K V) : Option (List Addr) := do
  let p ← t.begin
  t.visitFrom t.fuel p

/-- The nodes of the subtree at a pointer, in order. -/
def nodesInOrder (t : BinarySearchTree K V) : Nat → Option Addr → Option (List Addr)
  | _, none => some []
  | 0, some _ => none
  | fuel + 1, some a => do
      let n ← t.nodes a
      let before ← nodesInOrder t fuel n.left
      let after ← nodesInOrder t fuel n.right
      pure (before ++ a :: after)

/-- The pairs in order. -/
def pairs (t : BinarySearchTree K V) : List (K × V) := (t.traverse t.fuel t.root).getD []

theorem forKeys_of_root_eq_none {t : BinarySearchTree K V} (h : t.root = none)
    (body : K → σ → Option σ) (s : σ) : t.forKeys body s = some s := by
  cases hf : t.fuel <;> simp [forKeys, begin, h, forEach]

theorem Holds.pairs_eq [LinearOrder K] {t : BinarySearchTree K V} {E : List (Entry K V)}
    (h : Holds t E) : t.pairs = E.map Entry.pair := by
  rw [pairs, h.traverse, Option.getD_some]

/-! ## The next node -/

variable {t : BinarySearchTree K V} {T : BinaryTree (Entry K V)}

/-- The node of the first of some entries. -/
def firstNode (L : List (Entry K V)) : Option Addr := L.head?.map Entry.id

@[simp] theorem firstNode_nil : firstNode ([] : List (Entry K V)) = none := rfl

@[simp]
theorem firstNode_cons (e : Entry K V) (L : List (Entry K V)) :
    firstNode (e :: L) = some e.id := rfl

/-- Going down to the left ends at the first node of the subtree. -/
theorem walk_left_firstNode {p : Option Addr} {S : BinaryTree (Entry K V)} {a : Addr} {fuel : Nat}
    (h : Rep t.nodes p S) (ha : ptr S = some a) (hfuel : S.numNodes ≤ fuel) (L : List (Entry K V)) :
    t.walk .left fuel a = firstNode (S.inorder ++ L) := by
  obtain ⟨c, e, far, rfl, hspine, hwalk⟩ := walk_spec (s := .left) h ha hfuel
  rw [hwalk, inorder_plug, before_of_spine hspine]
  rfl

/-- Going up from a subtree ends at the first node behind it. -/
theorem climb_spec {c : List (Frame (Entry K V))} {S : BinaryTree (Entry K V)} {a : Addr}
    {fuel : Nat} (h : Represents t (plug c S)) (ha : ptr S = some a) (hfuel : c.length < fuel) :
    t.climb fuel a = some (firstNode (after c)) := by
  obtain ⟨fuel, rfl⟩ := Nat.exists_eq_succ_of_ne_zero (Nat.ne_of_gt (Nat.zero_lt_of_lt hfuel))
  induction c generalizing S a fuel with
  | nil =>
      cases S with
      | nil => cases ha
      | node e l r =>
          obtain rfl : e.id = a := Option.some.inj ha
          obtain ⟨k, hk⟩ := h.nodes_eq (s := .left)
          simp [climb, hk]
  | cons f c ih =>
      obtain ⟨s, e, sib⟩ := f
      have hparent : ∃ n, t.nodes a = some n ∧ n.parent = some e.id := by
        cases S with
        | nil => cases ha
        | node x l r =>
            obtain rfl : x.id = a := Option.some.inj ha
            obtain ⟨k, hk⟩ := h.nodes_eq (s := .left)
            exact ⟨_, hk, rfl⟩
      obtain ⟨n, hn, hup⟩ := hparent
      obtain ⟨k, hk⟩ := Represents.nodes_eq (c := c) (s := s) h
      cases s with
      | left => simp [climb, hn, hup, hk, cell, ha]
      | right =>
          -- the left child of the parent is another one
          have hleft : ptr sib ≠ some a := by
            intro heq
            have hdisjoint := List.disjoint_of_nodup_append h.nodup_plug
            exact hdisjoint (mem_ids_of_ptr ha)
              (mem_ctxIds_cons.2 (.inr (.inl (mem_ids_of_ptr heq))))
          rw [List.length_cons] at hfuel
          obtain ⟨fuel, rfl⟩ := Nat.exists_eq_succ_of_ne_zero (show fuel ≠ 0 by omega)
          have hrec := ih (S := join .right e S sib) h (ptr_join ..) fuel (by omega)
          rw [climb, hn]
          simpa [hup, hk, cell, hleft] using hrec

/-- `++` goes to the next node in symmetric order. -/
theorem increment_spec {c : List (Frame (Entry K V))} {e : Entry K V}
    {l r : BinaryTree (Entry K V)} (h : Represents t (plug c (node e l r)))
    (hsize : (plug c (node e l r)).numNodes ≤ t.size) :
    t.increment e.id = some (firstNode (r.inorder ++ after c)) := by
  have hnodes := numNodes_le_plug c (node e l r)
  simp only [numNodes] at hnodes
  obtain ⟨k, hk⟩ := h.nodes_eq (s := .left)
  cases hr : ptr r with
  | none =>
      obtain rfl := ptr_eq_none.1 hr
      have hclimb := climb_spec h rfl (show c.length < t.fuel by simp only [fuel]; omega)
      simp [increment, hk, cell, hclimb]
  | some b =>
      have hrep : Rep t.nodes (some e.id) r := (rep_plug.1 h.rep).1.2.2
      have hwalk :=
        walk_left_firstNode hrep hr (show r.numNodes ≤ t.fuel by simp only [fuel]; omega)
        (after c)
      have hsome : ∃ x, firstNode (r.inorder ++ after c) = some x := by
        cases r with
        | nil => cases hr
        | node x l' r' =>
            cases hl : l'.inorder <;> simp [hl]
      obtain ⟨x, hx⟩ := hsome
      rw [hx] at hwalk
      simp [increment, hk, cell, hr, hwalk, hx]

/-- `begin` is the first node. -/
theorem begin_spec (h : Represents t T) (hsize : T.numNodes ≤ t.size) :
    t.begin = some (firstNode T.inorder) := by
  cases hT : ptr T with
  | none =>
      obtain rfl := ptr_eq_none.1 hT
      have hroot : t.root = none := h.root_eq
      simp [begin, hroot]
  | some a =>
      have hwalk :=
        walk_left_firstNode h.rep hT (show T.numNodes ≤ t.fuel by simp only [fuel]; omega) []
      obtain ⟨c, e, far, rfl, -, hleft⟩ :=
        walk_spec (s := .left) h.rep hT (show T.numNodes ≤ t.fuel by simp only [fuel]; omega)
      rw [List.append_nil, hleft] at hwalk
      simp [begin, h.root_eq, hT, hleft, ← hwalk]

/-- `++` goes from each entry to the next one of the traversal. -/
theorem increment_of_split (h : Represents t T) (hsize : T.numNodes ≤ t.size)
    {A B : List (Entry K V)} {e : Entry K V} (hsplit : T.inorder = A ++ e :: B) :
    t.increment e.id = some (firstNode B) := by
  have hmem : e ∈ T.inorder := hsplit ▸ List.mem_append_right A List.mem_cons_self
  obtain ⟨c, l, r, rfl⟩ := exists_plug hmem
  -- the rest of the list is what stands behind the focus
  have hrest : r.inorder ++ after c = B := by
    have hnodup := h.nodup
    have heq := inorder_plug c (node e l r)
    rw [hsplit, inorder_node, List.append_assoc, List.cons_append, ← List.append_assoc] at heq
    rw [ids, hsplit] at hnodup
    have hnodup' : (A ++ e :: B).Nodup := hnodup.of_map
    have hnotin := (List.nodup_middle.1 hnodup').notMem
    rw [List.mem_append, not_or] at hnotin
    rw [heq, List.nodup_middle] at hnodup'
    have hnotin' := hnodup'.notMem
    rw [List.mem_append, not_or] at hnotin'
    exact ((List.append_cons_inj_of_notMem hnotin'.1 hnotin'.2).1 heq.symm).2.2
  rw [← hrest]
  exact increment_spec h hsize

/-- From each node on, the loop visits the rest of the tree in symmetric order. -/
theorem visitFrom_spec (h : Represents t T) (hsize : T.numNodes ≤ t.size)
    {A B : List (Entry K V)} {fuel : Nat} (hsplit : T.inorder = A ++ B) (hfuel : B.length ≤ fuel) :
    t.visitFrom fuel (firstNode B) = some (B.map Entry.id) := by
  induction B generalizing A fuel with
  | nil => cases fuel <;> rfl
  | cons e B ih =>
      rw [List.length_cons] at hfuel
      obtain ⟨fuel, rfl⟩ := Nat.exists_eq_succ_of_ne_zero (show fuel ≠ 0 by omega)
      have hnext := increment_of_split h hsize hsplit
      have hvisit := ih (hsplit.trans (List.append_cons A e B)) (Nat.le_of_succ_le_succ hfuel)
      simp [visitFrom, hnext, hvisit]

/-- From each node on, the loop runs its body for the keys of the rest of the tree in order. -/
theorem forEach_spec (h : Represents t T) (hsize : T.numNodes ≤ t.size)
    (body : K → σ → Option σ) {A B : List (Entry K V)} {fuel : Nat} (hsplit : T.inorder = A ++ B)
    (hfuel : B.length ≤ fuel) (s : σ) :
    t.forEach body fuel (firstNode B) s = B.foldlM (fun s e => body e.key s) s := by
  induction B generalizing A fuel s with
  | nil => cases fuel <;> rfl
  | cons e B ih =>
      rw [List.length_cons] at hfuel
      obtain ⟨fuel, rfl⟩ := Nat.exists_eq_succ_of_ne_zero (show fuel ≠ 0 by omega)
      obtain ⟨n, hn, hkey⟩ : ∃ n, t.nodes e.id = some n ∧ n.key = e.key := by
        have hmem : e ∈ T.inorder := hsplit ▸ List.mem_append_right A List.mem_cons_self
        obtain ⟨c, l, r, rfl⟩ := exists_plug hmem
        obtain ⟨k, hk⟩ := h.nodes_eq (s := .left)
        exact ⟨_, hk, rfl⟩
      have hnext := increment_of_split h hsize hsplit
      rw [firstNode_cons, forEach, hn, List.foldlM_cons]
      show (body n.key s >>= fun s => t.increment e.id >>= fun p => t.forEach body fuel p s) = _
      rw [hkey, hnext]
      refine Option.bind_congr fun s' _ => ?_
      exact ih (hsplit.trans (List.append_cons A e B)) (Nat.le_of_succ_le_succ hfuel) s'

/-- The loop over a tree runs its body for the keys in order. -/
theorem Holds.forKeys [LinearOrder K] {E : List (Entry K V)} (h : Holds t E)
    (body : K → σ → Option σ) (s : σ) :
    t.forKeys body s = E.foldlM (fun s e => body e.key s) s := by
  obtain ⟨T, hrep, -, hsize, rfl⟩ := h
  have hlength : T.inorder.length ≤ t.fuel := by
    rw [length_inorder, fuel]
    omega
  have hloop := forEach_spec hrep (by omega) body (A := []) rfl hlength s
  simpa [BinarySearchTree.forKeys, begin_spec hrep (by omega)] using hloop

/-- The nodes in order are those of the tree. -/
theorem nodesInOrder_spec (fuel : Nat) {p : Option Addr} {S : BinaryTree (Entry K V)}
    (h : Rep t.nodes p S) (hfuel : S.numNodes ≤ fuel) :
    t.nodesInOrder fuel (ptr S) = some (ids S) := by
  induction S generalizing p fuel with
  | nil => cases fuel <;> rfl
  | node e l r hl hr =>
      obtain ⟨⟨k, hk⟩, hrepl, hrepr⟩ := h
      cases fuel with
      | zero => simp at hfuel
      | succ fuel =>
          simp only [numNodes] at hfuel
          simp [nodesInOrder, hk, cell, hl fuel hrepl (by omega), hr fuel hrepr (by omega)]

/-- A loop over the whole tree visits its nodes in order. -/
theorem visit_spec (h : Represents t T) (hsize : T.numNodes ≤ t.size) :
    t.visit = some (ids T) := by
  have hlength : T.inorder.length ≤ t.fuel := by
    rw [length_inorder, fuel]
    omega
  simp [visit, begin_spec h hsize, visitFrom_spec h hsize (A := []) rfl hlength, ids]

/-- In every reachable tree, the loop from `begin` over `++` ends, and it visits every node exactly
once and in the order of the traversal. -/
theorem iteration_in_order [LinearOrder K] {ops : List (Operation K V)}
    (hrun : Run Step (empty : BinarySearchTree K V) ops t) :
    ∃ ps, t.visit = some ps ∧ t.nodesInOrder t.fuel t.root = some ps ∧ ps.Nodup ∧
      ∀ a, a ∈ ps ↔ (t.nodes a).isSome := by
  obtain ⟨M, -, E, hE, -⟩ := run_stores hrun
  obtain ⟨T, hrep, -, hsize, -⟩ := hE
  refine ⟨ids T, visit_spec hrep (by omega), ?_, hrep.nodup, fun a => ?_⟩
  · rw [hrep.root_eq]
    exact nodesInOrder_spec _ hrep.rep (by simp only [fuel]; omega)
  · constructor
    · intro ha
      obtain ⟨n, hn⟩ := hrep.exists_node ha
      rw [hn, Option.isSome_some]
    · intro ha
      obtain ⟨n, hn⟩ := Option.isSome_iff_exists.1 ha
      exact hrep.mem_ids hn

/-- The loop over a tree that was rotated at the root. -/
theorem iteration_in_order_three :
    ∃ (t : BinarySearchTree Nat Nat) (ps : List Addr),
      Run Step empty [.insert 1 0, .insert 2 0, .insert 3 0] t ∧ t.visit = some ps ∧
      t.nodesInOrder t.fuel t.root = some ps ∧ ps.Nodup ∧ ∀ a, a ∈ ps ↔ (t.nodes a).isSome := by
  have hrun : Run Step (empty : BinarySearchTree Nat Nat)
      [.insert 1 0, .insert 2 0, .insert 3 0] _ :=
    .cons (.insert (a := 0) rfl rfl) (.cons (.insert (a := 1) rfl rfl)
      (.single (.insert (a := 2) rfl rfl)))
  obtain ⟨ps, hps⟩ := iteration_in_order hrun
  exact ⟨_, ps, hrun, hps⟩

end CrosKernel.Containers.BinarySearchTree
