import CrosKernel.Containers.TreeHeap

/-!
# Rotations keep the pairs in order

`rotate_spec` follows the assignments of a rotation and shows that they link the rotated tree,
whose labels in symmetric order are the same. `rebalance_spec` concludes that `rebalance` of any
node of the tree succeeds, whatever the stored heights are, and keeps the labels in order.
-/

namespace CrosKernel.Containers.BinarySearchTree

open BinaryTree

variable {K V : Type} {t t' : BinarySearchTree K V} {c : List (Frame (Entry K V))}
  {s : Side} {ea eb : Entry K V} {t₁ t₂ t₃ : BinaryTree (Entry K V)}

/-- The labels of the two shapes between which a rotation goes. -/
theorem inorder_rotate (c : List (Frame (Entry K V))) (s : Side) (ea eb : Entry K V)
    (t₁ t₂ t₃ : BinaryTree (Entry K V)) :
    (plug c (join s eb t₁ (join s ea t₂ t₃))).inorder =
      (plug c (join s ea (join s eb t₁ t₂) t₃)).inorder := by
  cases s <;> simp [inorder_plug, join]

/-- The nodes of a context whose hole is redirected from `a` to `b`. -/
theorem repCtx_redirect {H H' : Heap K V} {a b : Addr} (h : RepCtx H (some a) c)
    (ha : a ∉ ctxIds c) (hnodup : (ctxIds c).Nodup)
    (hparent : ∀ x n, ctxPtr c = some x → H x = some n → H' x = some (redirect n a (some b)))
    (hrest : ∀ x ∈ ctxIds c, ctxPtr c ≠ some x → H' x = H x) : RepCtx H' (some b) c := by
  cases c with
  | nil => trivial
  | cons f c =>
      have hfar : ptr f.sibling ≠ some a := fun hptr =>
        ha (mem_ctxIds_cons.2 (.inr (.inl (mem_ids_of_ptr hptr))))
      refine h.rehole (fun k hk => ⟨k, ?_⟩) fun x hx => ?_
      · rw [hparent _ _ rfl hk, redirect_cell hfar]
      · have hmem : x ∈ ids f.sibling ∨ x ∈ ctxIds c := List.mem_append.1 hx
        have hne : f.label.id ≠ x := by
          rintro rfl
          simp [(ctxIds_cons f c).nodup_iff, hmem] at hnodup
        exact hrest x (mem_ctxIds_cons.2 (.inr hmem)) (by simpa using hne)

/-- The addresses of the rotated part and of its context are pairwise distinct. -/
theorem nodup_rotate (h : Represents t (plug c (join s ea (join s eb t₁ t₂) t₃))) :
    (ea.id :: eb.id :: (ids t₁ ++ (ids t₂ ++ (ids t₃ ++ ctxIds c)))).Nodup := by
  refine (List.perm_iff_count.2 fun x => ?_).nodup_iff.1 h.nodup_plug
  simp only [List.count_append, List.count_cons, (ids_join _ _ _ _).count_eq]
  omega

/-- The assignments of a rotation link the rotated tree. -/
theorem represents_rotate (h : Represents t (plug c (join s ea (join s eb t₁ t₂) t₃)))
    (ka kb : Nat) (hroot : t'.root = if c = [] then some eb.id else t.root)
    (hb : t'.nodes eb.id = some (cell eb (ctxPtr c) s (ptr t₁) (some ea.id) kb))
    (ha : t'.nodes ea.id = some (cell ea (some eb.id) s (ptr t₂) (ptr t₃) ka))
    (hinner : ∀ x n, ptr t₂ = some x → t.nodes x = some n →
      t'.nodes x = some { n with parent := some ea.id })
    (hparent : ∀ x n, ctxPtr c = some x → t.nodes x = some n →
      t'.nodes x = some (redirect n ea.id (some eb.id)))
    (hrest : ∀ x, x ≠ ea.id → x ≠ eb.id → ptr t₂ ≠ some x → ctxPtr c ≠ some x →
      t'.nodes x = t.nodes x) :
    Represents t' (plug c (join s eb t₁ (join s ea t₂ t₃))) := by
  have hnodup := nodup_rotate h
  have hctx : ∀ x, ctxPtr c = some x → x ∈ ctxIds c := fun x => mem_ctxIds_of_ctxPtr
  have ht₂ : ∀ x, ptr t₂ = some x → x ∈ ids t₂ := fun x => mem_ids_of_ptr
  obtain ⟨hrep, hrepctx⟩ := rep_plug.1 h.rep
  obtain ⟨-, hrepb, hrep₃⟩ := rep_join.1 hrep
  obtain ⟨-, hrep₁, hrep₂⟩ := rep_join.1 hrepb
  rw [ptr_join] at hrepctx
  simp only [List.nodup_cons, List.nodup_append, List.mem_append, List.mem_cons] at hnodup
  refine ⟨?_,
    rep_plug.2 ⟨rep_join.2 ⟨⟨kb, by simpa using hb⟩, ?_, rep_join.2 ⟨⟨ka, ha⟩, ?_, ?_⟩⟩, ?_⟩,
    ?_, fun x hx => ?_⟩
  · rw [hroot]
    split
    · subst c
      simp
    · rw [h.root_eq]
      exact ptr_plug ‹_› _ _
  · exact hrep₁.congr fun x hx => hrest x (by grind) (by grind) (by grind) (by grind)
  · exact hrep₂.reparent (by grind) hinner fun x hx hne =>
      hrest x (by grind) (by grind) hne (by grind)
  · exact hrep₃.congr fun x hx => hrest x (by grind) (by grind) (by grind) (by grind)
  · rw [ptr_join]
    exact repCtx_redirect hrepctx (by grind) (by grind) hparent
      fun x hx hne => hrest x (by grind) (by grind) (by grind) hne
  · rw [ids, inorder_rotate]
    exact h.nodup
  · rw [ids, inorder_rotate] at hx
    have hout : x ≠ ea.id ∧ x ≠ eb.id ∧ x ∉ ids t₂ ∧ x ∉ ctxIds c := by
      have hx' := mt mem_ids_plug.2 hx
      simp only [mem_ids_join, not_or] at hx'
      tauto
    rw [hrest x hout.1 hout.2.1 (fun hp => hout.2.2.1 (ht₂ x hp)) fun hp => hout.2.2.2 (hctx x hp)]
    exact h.domain x hx

/-- The assignments of a rotation succeed. -/
theorem relink_spec (h : Represents t (plug c (join s ea (join s eb t₁ t₂) t₃))) :
    ∃ t', relink s t ea.id eb.id (ctxPtr c) (ptr t₂) = some t' ∧ t'.size = t.size ∧
      Represents t' (plug c (join s eb t₁ (join s ea t₂ t₃))) := by
  obtain ⟨hrep, hrepctx⟩ := rep_plug.1 h.rep
  obtain ⟨⟨ka, ha⟩, hrepb, -⟩ := rep_join.1 hrep
  obtain ⟨⟨kb, hb⟩, -, hrep₂⟩ := rep_join.1 hrepb
  have hnodup := nodup_rotate h
  simp only [List.nodup_cons, List.nodup_append, List.mem_append, List.mem_cons] at hnodup
  have hab : ea.id ≠ eb.id := by grind
  obtain ⟨u₁, hu₁, hroot₁, hsize₁, hb₁, hrest₁⟩ :=
    modify_spec (fun n => n.setChild s.other (some ea.id)) hb
  obtain ⟨u₂, hu₂, hroot₂, hsize₂, ha₂, hrest₂⟩ :=
    modify_spec (fun n => n.setChild s (ptr t₂)) ((hrest₁ _ hab).trans ha)
  obtain ⟨u₃, hu₃, hroot₃, hsize₃, hb₃, hrest₃⟩ :=
    modify_spec (fun n => { n with parent := ctxPtr c }) ((hrest₂ _ hab.symm).trans hb₁)
  obtain ⟨u₄, hu₄, hroot₄, hsize₄, ha₄, hrest₄⟩ :=
    modify_spec (fun n => { n with parent := some eb.id }) ((hrest₃ _ hab).trans ha₂)
  have hframe₄ : ∀ x, x ≠ ea.id → x ≠ eb.id → u₄.nodes x = t.nodes x := by grind
  have ht₂ : ∀ x, ptr t₂ = some x → x ≠ ea.id ∧ x ≠ eb.id ∧ ctxPtr c ≠ some x := by
    intro x hx
    have := mem_ids_of_ptr hx
    have := fun y => @mem_ctxIds_of_ctxPtr _ _ c y
    grind
  have hc : ∀ x, ctxPtr c = some x → x ≠ ea.id ∧ x ≠ eb.id ∧ ptr t₂ ≠ some x := by
    intro x hx
    have := mem_ctxIds_of_ctxPtr hx
    have := fun y => @mem_ids_of_ptr _ _ t₂ y
    grind
  -- the pointers to the inner subtree and to the parent are null or point to other nodes
  obtain ⟨u₅, hu₅, hroot₅, hsize₅, hinner₅, hrest₅⟩ :=
    modifyNonNull_spec (t := u₄) (q := ptr t₂) (fun n => { n with parent := some ea.id })
      fun x hx => by
        rw [hframe₄ x (ht₂ x hx).1 (ht₂ x hx).2.1]
        exact h.exists_node (mem_ids_plug.2 (.inl (by simp [mem_ids_join, mem_ids_of_ptr hx])))
  obtain ⟨u₆, hu₆, hroot₆, hsize₆, hparent₆, hrest₆⟩ :=
    modifyNonNull_spec (t := u₅) (q := ctxPtr c) (fun p => redirect p ea.id (some eb.id))
      fun x hx => by
        rw [hrest₅ x (hc x hx).2.2, hframe₄ x (hc x hx).1 (hc x hx).2.1]
        exact h.exists_node (mem_ids_plug.2 (.inr (mem_ctxIds_of_ctxPtr hx)))
  have hu : relink s t ea.id eb.id (ctxPtr c) (ptr t₂) =
      some { u₆ with root := if c = [] then some eb.id else t.root } := by
    simp only [relink, hu₁, hu₂, hu₃, hu₄, hu₅, Option.bind_eq_bind, Option.bind_some]
    cases c with
    | nil =>
        obtain rfl : u₅ = u₆ := Option.some.inj hu₆
        rfl
    | cons f c =>
        rw [if_neg (by simp), hu₆, if_neg (by simp), ← hroot₁, ← hroot₂, ← hroot₃, ← hroot₄,
          ← hroot₅, ← hroot₆]
  simp only [cell_setChild, cell_setChild_other, cell_set_parent] at ha₄ hb₃
  refine ⟨_, hu, by simp [*], represents_rotate h ka kb rfl ?_ ?_ ?_ ?_ ?_⟩
  · show u₆.nodes _ = _
    rw [hrest₆ _ fun hp => (hc _ hp).2.1 rfl, hrest₅ _ fun hp => (ht₂ _ hp).2.1 rfl,
      hrest₄ _ hab.symm, hb₃]
  · show u₆.nodes _ = _
    rw [hrest₆ _ fun hp => (hc _ hp).1 rfl, hrest₅ _ fun hp => (ht₂ _ hp).1 rfl, ha₄]
  · intro x n hx hn
    show u₆.nodes _ = _
    rw [hrest₆ _ (ht₂ x hx).2.2]
    exact hinner₅ x n hx ((hframe₄ x (ht₂ x hx).1 (ht₂ x hx).2.1).trans hn)
  · intro x n hx hn
    refine hparent₆ x n hx ?_
    rw [hrest₅ x (hc x hx).2.2, hframe₄ x (hc x hx).1 (hc x hx).2.1, hn]
  · intro x hxa hxb hx₂ hxc
    show u₆.nodes _ = _
    rw [hrest₆ x hxc, hrest₅ x hx₂, hframe₄ x hxa hxb]

/-- A rotation succeeds and links the rotated tree. -/
theorem rotate_spec (h : Represents t (plug c (join s ea (join s eb t₁ t₂) t₃))) :
    ∃ t', rotate s t ea.id = some t' ∧ t'.size = t.size ∧
      Represents t' (plug c (join s eb t₁ (join s ea t₂ t₃))) := by
  obtain ⟨t', hlink, hsize, h'⟩ := relink_spec h
  obtain ⟨t'', ht'', hsize', h''⟩ :=
    updateHeight_spec (a := ea.id) h' (by simp [mem_ids_plug, mem_ids_join])
  obtain ⟨t₃, ht₃, hsize₃, h₃⟩ :=
    updateHeight_spec (a := eb.id) h'' (by simp [mem_ids_plug, mem_ids_join])
  obtain ⟨ka, ha⟩ := (rep_join.1 (rep_plug.1 h.rep).1).1
  obtain ⟨kb, hb⟩ := (rep_join.1 (rep_join.1 (rep_plug.1 h.rep).1).2.1).1
  refine ⟨t₃, ?_, by rw [hsize₃, hsize', hsize], h₃⟩
  simp [rotate, ha, hb, hlink, ht'', ht₃]

/-- A node with a child on the side `s` can be rotated to raise it. -/
theorem exists_rotate {e : Entry K V} {near far : BinaryTree (Entry K V)}
    (h : Represents t (plug c (join s e near far))) (hnear : near ≠ nil) :
    ∃ t' T', rotate s t e.id = some t' ∧ t'.size = t.size ∧ Represents t' T' ∧
      T'.inorder = (plug c (join s e near far)).inorder ∧
      ∃ e' near' far', T' = plug c (join s e' near' far') := by
  cases near with
  | nil => exact absurd rfl hnear
  | node eb l r =>
      obtain ⟨t₁, t₂, hsplit⟩ : ∃ t₁ t₂, node eb l r = join s eb t₁ t₂ := by
        cases s
        · exact ⟨l, r, rfl⟩
        · exact ⟨r, l, rfl⟩
      rw [hsplit] at h ⊢
      obtain ⟨t', ht', hsize, h'⟩ := rotate_spec h
      exact ⟨t', _, ht', hsize, h', inorder_rotate .., _, _, _, rfl⟩

/-- The rotations on one side of `rebalance`: the child on the side `s` is rotated first when
`inner` holds, which the code decides from its balance. -/
theorem rotate_inner_spec {e e' : Entry K V} {near far n f : BinaryTree (Entry K V)}
    (inner : Prop) [Decidable inner] (h : Represents t (plug c (join s e near far)))
    (hnear : near = join s.other e' n f) (hinner : inner → n ≠ nil) :
    ∃ t' T', (do
        let t ← if inner then rotate s.other t e'.id else some t
        rotate s t e.id) = some t' ∧ t'.size = t.size ∧ Represents t' T' ∧
      T'.inorder = (plug c (join s e near far)).inorder := by
  subst hnear
  by_cases hi : inner
  · have h₁ : Represents t (plug (⟨s, e, far⟩ :: c) (join s.other e' n f)) := h
    obtain ⟨t₁, T₁, ht₁, hsize₁, h₁, hinorder₁, e₁, n₁, f₁, rfl⟩ := exists_rotate h₁ (hinner hi)
    obtain ⟨t₂, T₂, ht₂, hsize₂, h₂, hinorder₂, -⟩ :=
      exists_rotate (c := c) (s := s) (e := e) h₁ (join_ne_nil _ _ _ _)
    refine ⟨t₂, T₂, ?_, hsize₂.trans hsize₁, h₂, hinorder₂.trans hinorder₁⟩
    simp only [if_pos hi, Option.bind_eq_bind, ht₁, Option.bind_some, ht₂]
  · obtain ⟨t₂, T₂, ht₂, hsize₂, h₂, hinorder₂, -⟩ := exists_rotate h (join_ne_nil _ _ _ _)
    refine ⟨t₂, T₂, ?_, hsize₂, h₂, hinorder₂⟩
    simp only [if_neg hi, Option.bind_eq_bind, Option.bind_some, ht₂]

/-- `rebalance` of a node of the tree succeeds and keeps the entries in order. -/
theorem rebalance_spec {T : BinaryTree (Entry K V)} {a : Addr} (h : Represents t T)
    (ha : a ∈ ids T) :
    ∃ t' T', t.rebalance (some a) = some t' ∧ t'.size = t.size ∧ Represents t' T' ∧
      T'.inorder = T.inorder := by
  obtain ⟨u, hu, hsize, h⟩ := updateHeight_spec h ha
  obtain ⟨c, e, l, r, rfl, rfl⟩ := Represents.exists_focus ha
  obtain ⟨bal, hbal, hleft, hright⟩ := balance_spec h
  obtain ⟨k, hk⟩ := h.nodes_eq (s := .left)
  simp only [rebalance, Option.bind_eq_bind, Option.bind_some, hu, hbal, hk]
  split
  case isTrue hpos =>
    cases l with
    | nil => exact absurd rfl (hleft (by omega))
    | node el ll lr =>
        obtain ⟨b, hb, -, hinner⟩ := balance_spec (c := ⟨.left, e, r⟩ :: c) h
        obtain ⟨t', T', ht', hsize', h', hinorder⟩ :=
          rotate_inner_spec (s := .left) (b < 0) h rfl hinner
        refine ⟨t', T', ?_, hsize'.trans hsize, h', hinorder⟩
        simpa [cell, hb, rotateRight, rotateLeft, Side.other] using ht'
  case isFalse hpos =>
    split
    case isTrue hneg =>
      cases r with
      | nil => exact absurd rfl (hright (by omega))
      | node er rl rr =>
          obtain ⟨b, hb, hinner, -⟩ := balance_spec (c := ⟨.right, e, l⟩ :: c) h
          obtain ⟨t', T', ht', hsize', h', hinorder⟩ :=
            rotate_inner_spec (s := .right) (b > 0) h rfl hinner
          refine ⟨t', T', ?_, hsize'.trans hsize, h', hinorder⟩
          simpa [cell, hb, rotateRight, rotateLeft, Side.other] using ht'
    case isFalse hneg => exact ⟨u, _, rfl, hsize, h, rfl⟩

end CrosKernel.Containers.BinarySearchTree
