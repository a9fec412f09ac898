import CrosKernel.Containers.TreeRemove

/-!
# Insertion adds one pair at its place

`insert` walks down to a null child pointer, attaches a new node there and rebalances on the way
back. `addBelow_spec` is the induction over the subtree below the current node; `insert_spec`
says that exactly one entry is added, behind entries with keys at most its own and before entries
with keys at least its own.
-/

namespace CrosKernel.Containers.BinarySearchTree

open BinaryTree

variable {K V : Type} {t : BinarySearchTree K V} {T : BinaryTree (Entry K V)}

/-- Attaching a new node at a null child pointer. -/
theorem attach_spec {f : Frame (Entry K V)} {c : List (Frame (Entry K V))} {a : Addr} (key : K)
    (value : V) (h : Represents t (plug (f :: c) nil)) (hfresh : t.nodes a = none) :
    ∃ t', t.attach f.label.id f.side key value a = some t' ∧ t'.size = t.size + 1 ∧
      Represents t' (plug (f :: c) (node ⟨a, key, value⟩ nil nil)) := by
  have hctx := (rep_plug.1 h.rep).2
  obtain ⟨k, hk⟩ := hctx.1
  have hids : ids (plug (f :: c) nil) = ctxIds (f :: c) := by
    simp only [ids, ctxIds, inorder_plug, inorder_nil, List.nil_append]
  have hout : a ∉ ctxIds (f :: c) := by
    rw [← hids]
    intro ha
    obtain ⟨n, hn⟩ := h.exists_node ha
    rw [hfresh] at hn
    cases hn
  have hne : f.label.id ≠ a := by
    rintro rfl
    exact hout (mem_ctxIds_cons.2 (.inl rfl))
  have hnodup := h.nodup
  rw [hids] at hnodup
  have hf : f.label.id ∉ ids f.sibling ++ ctxIds c :=
    (List.nodup_cons.1 ((ctxIds_cons f c).nodup_iff.1 hnodup)).1
  let t₁ : BinarySearchTree K V := { t with
    nodes := Function.update t.nodes a (some (Node.new key value))
    size := t.size + 1 }
  have hk₁ : t₁.nodes f.label.id =
      some (cell f.label (ctxPtr c) f.side none (ptr f.sibling) k) := by
    simpa [t₁, hne] using hk
  obtain ⟨t₂, ht₂, hroot₂, hsize₂, hp₂, hrest₂⟩ :=
    modify_spec (fun n => n.setChild f.side (some a)) hk₁
  have ha₂ : t₂.nodes a = some (Node.new key value) := by
    rw [hrest₂ a hne.symm]
    simp [t₁]
  obtain ⟨t₃, ht₃, hroot₃, hsize₃, ha₃, hrest₃⟩ :=
    modify_spec (fun n => { n with parent := some f.label.id }) ha₂
  have hframe : ∀ x, x ≠ a → x ≠ f.label.id → t₃.nodes x = t.nodes x := by
    intro x hxa hxf
    rw [hrest₃ x hxa, hrest₂ x hxf]
    simp [t₁, hxa]
  refine ⟨t₃, ?_, by rw [hsize₃, hsize₂], ?_, ?_, ?_, ?_⟩
  · simpa [attach, t₁, ht₂] using ht₃
  · rw [hroot₃, hroot₂]
    exact h.root_eq.trans (ptr_plug (by simp) _ _)
  · refine rep_plug.2
      ⟨⟨⟨1, ha₃⟩, trivial, trivial⟩, hctx.rehole (fun k' hk' => ⟨k, ?_⟩) fun x hx => ?_⟩
    · rw [hrest₃ _ hne, hp₂, cell_setChild]
      rfl
    · have hmem := mem_ctxIds_cons.2 (.inr (List.mem_append.1 hx))
      refine hframe x ?_ ?_
      · rintro rfl
        exact hout hmem
      · rintro rfl
        exact hf hx
  · refine (ids_plug _ _).nodup_iff.2 ?_
    simpa using ⟨hout, hnodup⟩
  · intro x hx
    have hx' : x ≠ a ∧ x ∉ ctxIds (f :: c) := by
      have := mt mem_ids_plug.2 hx
      simpa using this
    rw [hframe x hx'.1 fun hp => hx'.2 (mem_ctxIds_cons.2 (.inl hp))]
    exact h.domain x (by rw [hids]; exact hx'.2)

/-- The tree after the first insertion, before it is rebalanced. -/
def addRoot (t : BinarySearchTree K V) (new : Entry K V) : BinarySearchTree K V := { t with
  nodes := Function.update t.nodes new.id (some (Node.new new.key new.value))
  root := some new.id
  size := t.size + 1 }

theorem represents_addRoot (new : Entry K V) (h : Represents t nil) :
    Represents (addRoot t new) (node new nil nil) := by
  refine ⟨rfl, ⟨⟨1, ?_⟩, trivial, trivial⟩, by simp, fun x hx => ?_⟩
  · exact Function.update_self ..
  · have hne : x ≠ new.id := by simpa using hx
    simpa [addRoot, hne] using h.domain x (by simp)

section Order

variable [LinearOrder K]

/-- `L'` is `L` with one entry added where its key belongs. -/
def Inserts (new : Entry K V) (L L' : List (Entry K V)) : Prop :=
  ∃ A B, L = A ++ B ∧ L' = A ++ new :: B ∧ (∀ x ∈ A, x.key ≤ new.key) ∧ ∀ x ∈ B, new.key ≤ x.key

/-- The result of adding an entry to the tree `T` of the state `t`. -/
def Adds (t : BinarySearchTree K V) (T : BinaryTree (Entry K V)) (new : Entry K V)
    (res : Option (BinarySearchTree K V × Bool)) : Prop :=
  ∃ t' T', res = some (t', true) ∧ t'.size = t.size + 1 ∧ Represents t' T' ∧
    Inserts new T.inorder T'.inorder

/-- What `add_rec` does below the node `p` on the side `s`: go on with the child there, or attach
the new node. -/
def addBelow (new : Entry K V) (fuel : Nat) (t : BinarySearchTree K V) (p : Addr) (s : Side)
    (child : Option Addr) : Option (BinarySearchTree K V × Bool) :=
  match child with
  | some b => addRec new.key new.value new.id fuel t (some b) false
  | none => do
      let t ← t.attach p s new.key new.value new.id
      pure (t, true)

/-- The call of `rebalance` at the end of `add_rec`. -/
theorem Adds.rebalance {c : List (Frame (Entry K V))} {e : Entry K V}
    {l r : BinaryTree (Entry K V)} {new : Entry K V}
    {res : Option (BinarySearchTree K V × Bool)} (h : Adds t (plug c (node e l r)) new res) :
    Adds t (plug c (node e l r)) new (do
      let (t, added) ← res
      let t ← t.rebalance (some e.id)
      pure (t, added)) := by
  obtain ⟨t₁, T₁, rfl, hsize₁, h₁, A, B, hL, hL₁, hA, hB⟩ := h
  have hmem : e.id ∈ ids T₁ := by
    have he : e ∈ A ++ B := by
      rw [← hL]
      simp [inorder_plug]
    refine List.mem_map_of_mem ?_
    rw [hL₁]
    simp only [List.mem_append, List.mem_cons] at he ⊢
    tauto
  obtain ⟨t₂, T₂, ht₂, hsize₂, h₂, hinorder⟩ := rebalance_spec h₁ hmem
  exact ⟨t₂, T₂, by simp [ht₂], hsize₂.trans hsize₁, h₂, A, B, hL, hinorder.trans hL₁, hA, hB⟩

/-- One call of `add_rec` goes on below the node and rebalances it. Equal keys go to the right. -/
theorem addRec_eq (fuel : Nat) {c : List (Frame (Entry K V))} {e : Entry K V}
    {l r : BinaryTree (Entry K V)} (new : Entry K V) (h : Represents t (plug c (node e l r))) :
    addRec new.key new.value new.id (fuel + 1) t (some e.id) false = (do
      let (t, added) ← if new.key < e.key then addBelow new fuel t e.id .left (ptr l)
        else addBelow new fuel t e.id .right (ptr r)
      let t ← t.rebalance (some e.id)
      pure (t, added)) := by
  obtain ⟨k, hk⟩ := h.nodes_eq (s := .left)
  have hroot : t.root ≠ none := by
    rw [h.root_eq, ne_eq, ptr_eq_none]
    intro hnil
    have hmem : e.id ∈ ids (plug c (node e l r)) := mem_ids_plug.2 (.inl (by simp))
    simp [hnil] at hmem
  by_cases hlt : new.key < e.key
  · simp only [addRec, addBelow, hroot, hk, cell, hlt, if_true, if_false, Option.bind_eq_bind,
      Option.bind_some, gt_iff_lt]
    cases ptr l <;> simp [Option.bind_assoc]
  · simp only [addRec, addBelow, hroot, hk, cell, hlt, if_false, Option.bind_eq_bind,
      Option.bind_some, gt_iff_lt, Bool.false_eq_true]
    cases ptr r <;> simp [Option.bind_assoc]

/-- One call of `add_rec`, given what happens below the node. -/
theorem addRec_node {fuel : Nat} {c : List (Frame (Entry K V))} {e : Entry K V}
    {l r : BinaryTree (Entry K V)} {new : Entry K V} (h : Represents t (plug c (node e l r)))
    (hleft : new.key < e.key →
      Adds t (plug c (node e l r)) new (addBelow new fuel t e.id .left (ptr l)))
    (hright : e.key ≤ new.key →
      Adds t (plug c (node e l r)) new (addBelow new fuel t e.id .right (ptr r))) :
    Adds t (plug c (node e l r)) new
      (addRec new.key new.value new.id (fuel + 1) t (some e.id) false) := by
  rw [addRec_eq fuel new h]
  by_cases hlt : new.key < e.key
  · rw [if_pos hlt]
    exact (hleft hlt).rebalance
  · rw [if_neg hlt]
    exact (hright (not_lt.1 hlt)).rebalance

/-- The recursion of `add_rec` below the frame `f`. -/
theorem addBelow_spec {new : Entry K V} (fuel : Nat) {f : Frame (Entry K V)}
    {c : List (Frame (Entry K V))} {S : BinaryTree (Entry K V)}
    (h : Represents t (plug (f :: c) S)) (hfresh : t.nodes new.id = none)
    (hsorted : SortedKeys S.inorder) (hbefore : ∀ x ∈ before (f :: c), x.key ≤ new.key)
    (hafter : ∀ x ∈ after (f :: c), new.key ≤ x.key) (hfuel : S.numNodes ≤ fuel) :
    Adds t (plug (f :: c) S) new (addBelow new fuel t f.label.id f.side (ptr S)) := by
  induction S generalizing f c fuel with
  | nil =>
      obtain ⟨t', ht', hsize, h'⟩ := attach_spec new.key new.value h hfresh
      refine ⟨t', _, by simp [addBelow, ht'], hsize, h', before (f :: c), after (f :: c), ?_, ?_,
        hbefore, hafter⟩
      · rw [inorder_plug]
        rfl
      · rw [inorder_plug]
        rfl
  | node e l r hl hr =>
      cases fuel with
      | zero => simp at hfuel
      | succ fuel =>
          simp only [numNodes] at hfuel
          obtain ⟨hsl, hsr, hle, hge⟩ := sortedKeys_node.1 hsorted
          refine addRec_node (c := f :: c) h (fun hlt => ?_) fun hle' => ?_
          · refine hl fuel (f := ⟨.left, e, r⟩) (c := f :: c) h hsl hbefore ?_ (by omega)
            simp only [after_left, List.mem_cons, List.mem_append]
            rintro x (rfl | hx | hx)
            exacts [hlt.le, hlt.le.trans (hge x hx), hafter x hx]
          · refine hr fuel (f := ⟨.right, e, l⟩) (c := f :: c) h hsr ?_ hafter (by omega)
            simp only [before_right, List.mem_append, List.mem_singleton]
            rintro x (hx | hx | rfl)
            exacts [hbefore x hx, (hle x hx).trans hle', hle']

/-- `insert` adds one entry where its key belongs. -/
theorem insert_spec {new : Entry K V} (h : Represents t T) (hfresh : t.nodes new.id = none)
    (hsorted : SortedKeys T.inorder) (hsize : T.numNodes ≤ t.size) :
    ∃ t' T', t.insert new.key new.value new.id = some t' ∧ t'.size = t.size + 1 ∧
      Represents t' T' ∧ Inserts new T.inorder T'.inorder := by
  have hadds : Adds t T new (addRec new.key new.value new.id t.fuel t t.root false) := by
    rw [h.root_eq]
    cases T with
    | nil =>
        obtain ⟨t', T', ht', hsize', h', hinorder⟩ :=
          rebalance_spec (a := new.id) (represents_addRoot new h) (by simp)
        have hroot : t.root = none := h.root_eq
        refine ⟨t', T', ?_, hsize', h', [], [], rfl, hinorder, by simp, by simp⟩
        simp only [addRoot] at ht'
        simp [fuel, addRec, hroot, ht']
    | node e l r =>
        have hfuel : l.numNodes + r.numNodes + 1 ≤ t.size.toNat := by
          simp only [numNodes] at hsize
          omega
        obtain ⟨hsl, hsr, hle, hge⟩ := sortedKeys_node.1 hsorted
        refine addRec_node (c := []) h (fun hlt => ?_) fun hle' => ?_
        · refine addBelow_spec _ (f := ⟨.left, e, r⟩) (c := []) h hfresh hsl (by simp) ?_ (by omega)
          simp only [after_left, after_nil, List.append_nil, List.mem_cons]
          rintro x (rfl | hx)
          exacts [hlt.le, hlt.le.trans (hge x hx)]
        · refine addBelow_spec _ (f := ⟨.right, e, l⟩) (c := []) h hfresh hsr ?_
            (by simp) (by omega)
          simp only [before_right, before_nil, List.nil_append, List.mem_append, List.mem_singleton]
          rintro x (hx | rfl)
          exacts [(hle x hx).trans hle', hle']
  obtain ⟨t', T', ht', hsize', h', hins⟩ := hadds
  exact ⟨t', T', by simp [insert, ht'], hsize', h', hins⟩

end Order

end CrosKernel.Containers.BinarySearchTree
