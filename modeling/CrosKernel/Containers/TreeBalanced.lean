import CrosKernel.Containers.TreeHeights
import CrosKernel.Containers.TreeSession

/-!
# Trees stay balanced

`insert` calls `rebalance` for every node of its path, and keeps the tree balanced with the right
heights. `remove` takes out the successor of the node that it found, and between the parent of the
successor and this node it calls `rebalance` for none: heights on this part of the path get stale
when the subtree of the parent gets lower. `HeightsSafe` says when they do not, and
`guarded_runs_balanced` that this is enough.
-/

namespace CrosKernel.Containers.BinarySearchTree

open BinaryTree Lib

variable {K V : Type} {t t' : BinarySearchTree K V} {c : List (Frame (Entry K V))} {s : Side}
  {e : Entry K V} {l r near far S T : BinaryTree (Entry K V)} {a : Addr}

/-- The tree is balanced and stores the right heights. -/
def Kept (t : BinarySearchTree K V) : Prop :=
  ∃ T, Represents t T ∧ Balanced T ∧ HeightsOf t.stored T

/-- The number of nodes is that of the entries, whatever tree shows them. -/
theorem Holds.numNodes_le [LinearOrder K] {E : List (Entry K V)} (hE : Holds t E)
    (h : Represents t T) : (T.numNodes : Int) ≤ t.size := by
  obtain ⟨T₀, h₀, -, hsize, -⟩ := hE
  have hsub : ids T ⊆ ids T₀ := fun x hx => by
    obtain ⟨n, hn⟩ := h.exists_node hx
    exact h₀.mem_ids hn
  have hle := (h.nodup.subperm hsub).length_le
  simp only [ids, List.length_map, length_inorder] at hle
  omega

/-! ## The condition on removals -/

/-- The parent of a node. -/
def parentOf (t : BinarySearchTree K V) (a : Addr) : Option Addr := do
  let n ← t.nodes a
  n.parent

/-- The subtree of `p` stays as high as it is when its left child gets one lower: this child is not
the higher one, and if the right one is, the rotation raises a level node. -/
def KeepsHeight (t : BinarySearchTree K V) (p : Addr) : Prop :=
  t.balance p = some 0 ∨ t.balance p = some (-1) ∧
    ∃ n q, t.nodes p = some n ∧ n.right = some q ∧ t.balance q = some 0

/-- No height between the parent `p` of the successor and the node `cur` gets stale. When there is a
node in between, the lowest one is level or the subtree of `p` stays as high as it is. -/
def RemovalLevel (t : BinarySearchTree K V) (cur : Addr) : Prop :=
  ∀ succ p g, t.successor cur = some (some succ) → t.parentOf succ = some p → p ≠ cur →
    t.parentOf p = some g → g ≠ cur → t.balance g = some 0 ∨ t.KeepsHeight p

/-- `RemovalLevel` for the node that `remove` finds. -/
def HeightsSafe [LinearOrder K] (t : BinarySearchTree K V) : Operation K V → Prop
  | .insert .. => True
  | .remove key => ∀ cur n, t.searchRec key = some (some cur) → t.nodes cur = some n → n.key = key →
      t.RemovalLevel cur

/-! ## Insertion -/

/-- The new node stores the height 1, and no other height changes. -/
theorem attach_stored {cur : Addr} {key : K} {value : V}
    (h : t.attach cur s key value a = some t') :
    t'.stored = Function.update t.stored a 1 := by
  obtain ⟨u, hu, h⟩ := Option.bind_eq_some_iff.1 h
  have hparent : ∀ (q : Option Addr) (n : Node K V), ({ n with parent := q }).height = n.height :=
    fun _ _ => rfl
  rw [modify_stored (hparent _) h, modify_stored (fun n => setChild_height n _ _) hu]
  funext x
  by_cases hx : x = a
  · simp [stored, hx, Node.new]
  · simp [stored, hx]

/-- What adding an entry does to a subtree: it is balanced again, and at most one higher. -/
def Grows (t : BinarySearchTree K V) (c : List (Frame (Entry K V))) (S : BinaryTree (Entry K V))
    (res : Option (BinarySearchTree K V × Bool)) : Prop :=
  ∃ t' S', res = some (t', true) ∧ Rebuilt t t' c S' ∧ S.height ≤ S'.height ∧
    S'.height ≤ S.height + 1

/-- The call of `rebalance` at the end of `add_rec`. -/
theorem Grows.rebalance {res : Option (BinarySearchTree K V × Bool)}
    (h : Grows t (⟨s, e, far⟩ :: c) near res) (hbal : Balanced (join s e near far))
    (hstored : HeightsOf t.stored (join s e near far)) :
    Grows t c (join s e near far) (do
      let (t, added) ← res
      let t ← t.rebalance (some e.id)
      pure (t, added)) := by
  obtain ⟨t₁, S₁, rfl, hS₁, hlow₁, hhigh₁⟩ := h
  obtain ⟨-, hfar, hle, hge⟩ := balanced_join.1 hbal
  obtain ⟨t', S', ht', -, hS', -, hlow, hhigh, hsame⟩ :=
    hS₁.rebalance hfar (heightsOf_join.1 hstored).2.2 (by omega) (by omega)
  refine ⟨t', S', by simp [ht'], hS', ?_, ?_⟩
  all_goals
    rw [height_join]
    omega

section Order

variable [LinearOrder K]

/-- The recursion of `add_rec` below the frame `f`. -/
theorem addBelow_grows (new : Entry K V) (fuel : Nat) {f : Frame (Entry K V)}
    (h : Represents t (plug (f :: c) S)) (hfresh : t.nodes new.id = none) (hbal : Balanced S)
    (hstored : HeightsOf t.stored S) (hfuel : S.numNodes ≤ fuel) :
    Grows t (f :: c) S (addBelow new fuel t f.label.id f.side (ptr S)) := by
  induction S generalizing f c fuel with
  | nil =>
      obtain ⟨t', ht', -, h'⟩ := attach_spec new.key new.value h hfresh
      have hheights := attach_stored ht'
      refine ⟨t', _, by simp [addBelow, ht'], ⟨h', ?_, ?_, fun x hx => ?_⟩, by simp, by simp⟩
      · exact ⟨trivial, trivial, by simp, by simp⟩
      · refine ⟨?_, trivial, trivial⟩
        rw [hheights, Function.update_self]
        rfl
      · have hne : x ≠ new.id := by
          rintro rfl
          exact List.disjoint_of_nodup_append h'.nodup_plug (by simp) hx
        rw [hheights, Function.update_of_ne hne]
  | node e l r hl hr =>
      cases fuel with
      | zero => simp at hfuel
      | succ fuel =>
          simp only [numNodes] at hfuel
          show Grows t (f :: c) (node e l r)
            (addRec new.key new.value new.id (fuel + 1) t (some e.id) false)
          rw [addRec_eq fuel new (c := f :: c) h]
          by_cases hlt : new.key < e.key
          · rw [if_pos hlt]
            exact (hl fuel (f := ⟨.left, e, r⟩) (c := f :: c) h hbal.1 hstored.2.1
              (by omega)).rebalance (s := .left) hbal hstored
          · rw [if_neg hlt]
            exact (hr fuel (f := ⟨.right, e, l⟩) (c := f :: c) h hbal.2.1 hstored.2.2
              (by omega)).rebalance (s := .right) hbal hstored

/-- `insert` keeps the tree balanced. -/
theorem Kept.insert {key : K} {value : V} {E : List (Entry K V)} (hkept : Kept t) (hE : Holds t E)
    (hfresh : t.nodes a = none) (ht' : t.insert key value a = some t') : Kept t' := by
  obtain ⟨T, h, hbal, hstored⟩ := hkept
  obtain ⟨⟨t₁, added⟩, hadd, heq⟩ := Option.bind_eq_some_iff.1 ht'
  cases heq
  cases T with
  | nil =>
      have hroot : t.root = none := h.root_eq
      have h₁ := represents_addRoot ⟨a, key, value⟩ h
      have hbal₁ : Balanced (node (⟨a, key, value⟩ : Entry K V) nil nil) :=
        ⟨trivial, trivial, by simp, by simp⟩
      have hstored₁ : HeightsOf (addRoot t ⟨a, key, value⟩).stored
          (node (⟨a, key, value⟩ : Entry K V) nil nil) :=
        ⟨by simp [stored, addRoot, Node.new], trivial, trivial⟩
      have hself := rebalance_self (c := []) h₁ hbal₁ hstored₁
      simp only [addRoot] at hself
      simp only [fuel, addRec, hroot, if_true, Option.bind_eq_bind, hself, Option.bind_some,
        Option.pure_def, Option.some.injEq, Prod.mk.injEq] at hadd
      rw [← hadd.1]
      exact ⟨_, h₁, hbal₁, hstored₁⟩
  | node e l r =>
      have hsize := hE.numNodes_le h
      simp only [numNodes] at hsize
      have hgrows : Grows t [] (node e l r)
          (addRec key value a (t.size.toNat + 1) t (some e.id) false) := by
        rw [addRec_eq t.size.toNat ⟨a, key, value⟩ (c := []) h]
        split
        · exact (addBelow_grows ⟨a, key, value⟩ _ (f := ⟨.left, e, r⟩) (c := []) h hfresh hbal.1
            hstored.2.1 (by omega)).rebalance (s := .left) hbal hstored
        · exact (addBelow_grows ⟨a, key, value⟩ _ (f := ⟨.right, e, l⟩) (c := []) h hfresh hbal.2.1
            hstored.2.2 (by omega)).rebalance (s := .right) hbal hstored
      obtain ⟨t₂, S, hadd', hS, -, -⟩ := hgrows
      rw [h.root_eq] at hadd
      obtain ⟨rfl, -⟩ := Prod.mk.inj (Option.some.inj (hadd'.symm.trans hadd))
      exact ⟨S, hS.represents, hS.balanced, hS.heights⟩

end Order

/-! ## Taking out a successor -/

theorem map_setPair_tree {key : K} {value : V} (ha : a ∉ ids T) :
    T.map (setPair a key value) = T := by
  induction T with
  | nil => rfl
  | node e l r hl hr =>
      simp only [ids_node, List.mem_append, List.mem_cons, not_or] at ha
      rw [map, hl ha.1, hr ha.2.2, setPair_of_ne fun h => ha.2.1 h.symm]

theorem map_setPair_ctx {key : K} {value : V} (ha : a ∉ ctxIds c) :
    c.map (Frame.map (setPair a key value)) = c := by
  induction c with
  | nil => rfl
  | cons f c ih =>
      obtain ⟨s, e, sib⟩ := f
      simp only [mem_ctxIds_cons, not_or] at ha
      rw [List.map_cons, ih ha.2.2, Frame.map, map_setPair_tree ha.2.1,
        setPair_of_ne fun h => ha.1 h.symm]

/-- Assigning a pair to the node in focus changes its label. -/
theorem assign_pair (h : Represents t (plug c (join s e near far))) (e' : Entry K V) :
    ∃ t', t.modify e.id (fun n => { n with key := e'.key, value := e'.value }) = some t' ∧
      t'.size = t.size ∧ Represents t' (plug c (join s { e' with id := e.id } near far)) ∧
      t'.stored = t.stored := by
  obtain ⟨k, hk⟩ := h.nodes_eq
  have hnodup := h.nodup_plug
  have hmap : (plug c (join s e near far)).map (setPair e.id e'.key e'.value) =
      plug c (join s { e' with id := e.id } near far) := by
    have hids := (ids_join s e near far).nodup_iff.1 (List.nodup_append.1 hnodup).1
    simp only [List.nodup_cons, List.mem_append, not_or] at hids
    have hout : e.id ∉ ctxIds c := fun hx =>
      List.disjoint_of_nodup_append hnodup (mem_ids_join.2 (.inl rfl)) hx
    rw [map_plug, map_setPair_ctx hout]
    cases s with
    | left => simp [join, map, map_setPair_tree hids.1.1, map_setPair_tree hids.1.2, setPair_self]
    | right => simp [join, map, map_setPair_tree hids.1.1, map_setPair_tree hids.1.2, setPair_self]
  have h' := represents_set_pair e'.key e'.value h hk
  rw [hmap] at h'
  refine ⟨_, modify_eq hk, rfl, h', ?_⟩
  have hheight : ∀ n : Node K V, ({ n with key := e'.key, value := e'.value }).height = n.height :=
    fun _ => rfl
  exact modify_stored hheight (modify_eq hk)

/-- Taking a leaf out changes no other height. -/
theorem detach_heights {f : Frame (Entry K V)} (h : Represents t (plug (f :: c) (node e nil nil))) :
    ∃ u, t.unlink e.id = some u ∧ u.size = t.size ∧ Rebuilt t (u.delete e.id) (f :: c) nil := by
  obtain ⟨u, hu, hsize, hrep⟩ := detach_spec h
  refine ⟨u, hu, hsize, hrep, trivial, trivial, fun x hx => ?_⟩
  have hne : x ≠ e.id := by
    rintro rfl
    exact List.disjoint_of_nodup_append h.nodup_plug (by simp) hx
  obtain ⟨n, -, hunlink⟩ := Option.bind_eq_some_iff.1 hu
  have hstored : u.stored = t.stored :=
    modifyNonNull_stored (fun n => redirect_height n _ _) hunlink
  rw [← hstored]
  simp [stored, delete, hne]

/-- `vacate` of a leaf deletes it and rebalances its parent. -/
theorem vacate_leaf {f : Frame (Entry K V)} {u : BinarySearchTree K V} (fuel : Nat)
    (h : Represents t (plug (f :: c) (node e nil nil))) (hu : t.unlink e.id = some u) :
    vacate fuel t e.id = (u.delete e.id).rebalance (some f.label.id) := by
  obtain ⟨k, hk⟩ := h.nodes_eq (s := .left)
  have hsucc : t.successor e.id = some none := by
    simp [successor, hk, cell]
  simp [vacate, hsucc, hk, hu]

/-- `replace` of a node by its successor, with the call of `rebalance` behind it: the subtree of the
successor gets one lower, and then its parent is rebalanced. -/
theorem vacate_shrinks {f : Frame (Entry K V)} (fuel : Nat)
    (h : Represents t (plug (f :: c) (join s e nil far))) (hbal : Balanced (join s e nil far))
    (hstored : HeightsOf t.stored (join s e nil far)) (hs : s = .left ∨ far = nil) :
    ∃ u X, Rebuilt t u (f :: c) X ∧ u.size = t.size ∧ X.height + 1 = (join s e nil far).height ∧
      ∀ v, u.rebalance (some f.label.id) = some v → v.rebalance (some f.label.id) = some v →
        (do
          let t ← vacate (fuel + 1) t e.id
          t.rebalance (some f.label.id)) = some v := by
  obtain ⟨-, -, -, hfar⟩ := balanced_join.1 hbal
  obtain rfl | ⟨e', rfl⟩ := eq_nil_or_leaf (hfar.trans (by simp))
  · have hleaf : Represents t (plug (f :: c) (node e nil nil)) := by
      cases s <;> exact h
    obtain ⟨u, hu, hsize, hrebuilt⟩ := detach_heights hleaf
    refine ⟨u.delete e.id, nil, hrebuilt, hsize, by simp, fun v hv hself => ?_⟩
    rw [vacate_leaf fuel.succ hleaf hu, hv]
    exact hself
  · obtain rfl : s = .left := hs.resolve_right nofun
    obtain ⟨t₁, ht₁, hsize₁, h₁, hstored₁⟩ := assign_pair h e'
    obtain ⟨u, hu, hsize, hrebuilt⟩ := detach_heights (c := f :: c) (e := e')
      (f := ⟨.right, { e' with id := e.id }, nil⟩) h₁
    obtain ⟨u', S, hu', hsize', hS, hinorder, -, -, hheight⟩ :=
      hrebuilt.rebalance trivial trivial (by simp) (by simp)
    have hheight : S.height = 1 := hheight (by simp) (.inl (by simp))
    have hmem : e.id ∈ ids S := by simp [ids, hinorder, join]
    refine ⟨u', S, ⟨hS.represents, hS.balanced, hS.heights, fun x hx => ?_⟩, ?_, ?_,
      fun v hv _ => ?_⟩
    · rw [hS.frame x hx, hstored₁]
    · exact hsize'.trans (hsize.trans hsize₁)
    · simp [hheight, join]
    · have hleaf : Represents t (plug (⟨.right, e, nil⟩ :: f :: c) (node e' nil nil)) := h
      obtain ⟨k, hk⟩ := hleaf.nodes_eq (s := .left)
      obtain ⟨k', hk'⟩ := h.nodes_eq
      have hwalk : t.walk .left t.fuel e'.id = some e'.id := by
        simp [BinarySearchTree.fuel, walk, hk, cell, Node.child]
      have hsucc : t.successor e.id = some (some e'.id) := by
        simp [successor, hk', cell, hwalk]
      have hreplace : replace (fuel + 1) t e.id e'.id = some u' := by
        rw [replace_succ, hk]
        simp only [Option.bind_eq_bind, Option.bind_some, cell_key, cell_value, ht₁]
        exact (vacate_leaf fuel (c := f :: c)
          (f := ⟨.right, { e' with id := e.id }, nil⟩) h₁ hu).trans hu'
      simp [vacate, hsucc, hk, hreplace, hS.rebalance_self hmem, hv]

namespace Rebuilt

variable {u : BinarySearchTree K V} {X X₀ Y J other : BinaryTree (Entry K V)}

/-- Only the heights of the state before are used. -/
theorem of_stored (h : Rebuilt u t' c S) (hstored : u.stored = t.stored) : Rebuilt t t' c S :=
  ⟨h.represents, h.balanced, h.heights, fun x hx => (h.frame x hx).trans (by rw [hstored])⟩

/-- The size is not part of the tree. -/
theorem set_size (h : Rebuilt t t' c S) (n : Int) : Rebuilt t { t' with size := n } c S :=
  ⟨h.represents.of_eq rfl rfl, h.balanced, h.heights, h.frame⟩

/-- `rebalance` of the node above a subtree that got lower. Its own subtree gets lower only if that
was the higher one, or if the rotation raises a child that is not level. -/
theorem rebalance_lower (h : Rebuilt t u (⟨s, e, other⟩ :: c) X)
    (hbal : Balanced (join s e X₀ other)) (hstored : HeightsOf t.stored (join s e X₀ other))
    (hle : X.height ≤ X₀.height) (hge : X₀.height ≤ X.height + 1) :
    ∃ v S, u.rebalance (some e.id) = some v ∧ Rebuilt t v c S ∧ e.id ∈ ids S ∧
      S.height ≤ (join s e X₀ other).height ∧ (join s e X₀ other).height ≤ S.height + 1 ∧
      (other.height = X₀.height ∨ s = .left ∧ other.height = X₀.height + 1 ∧ other.Level →
        S.height = (join s e X₀ other).height) := by
  obtain ⟨-, hother, hnear, hfar⟩ := balanced_join.1 hbal
  obtain ⟨v, S, hv, -, hS, hinorder, hlow, hhigh, hsame⟩ :=
    h.rebalance hother (heightsOf_join.1 hstored).2.2 (by omega) (by omega)
  refine ⟨v, S, hv, hS, ?_, ?_, ?_, fun hkeep => ?_⟩
  · rw [ids, hinorder]
    exact mem_ids_join.2 (.inl rfl)
  · rw [height_join]
    omega
  · rw [height_join]
    omega
  · rw [height_join]
    obtain heq | ⟨hs, heq, hlevel⟩ := hkeep
    · have hheight := hsame (by omega) (.inl (by omega))
      omega
    · have hheight := hsame (by omega) (.inr ⟨hs, hlevel⟩)
      omega

/-- A subtree that is as high as before leaves the heights above it right. -/
theorem fill {c' : List (Frame (Entry K V))} (h : Rebuilt t u (c' ++ c) Y)
    (hbal : Balanced (plug c' J)) (hstored : HeightsOf t.stored (plug c' J))
    (heq : Y.height = J.height) : Rebuilt t u c (plug c' Y) where
  represents := by
    rw [← plug_append]
    exact h.represents
  balanced := hbal.plug_congr h.balanced heq
  heights := hstored.plug_congr h.heights heq fun x hx => h.frame x (mem_ctxIds_append.2 (.inl hx))
  frame x hx := h.frame x (mem_ctxIds_append.2 (.inr hx))

/-- Between the parent `f` of the successor and the node above the path no height has to change: the
subtree of the parent is as high as before, or the next node on the path was level. -/
theorem climb {f : Frame (Entry K V)} {spine : List (Frame (Entry K V))}
    (h : Rebuilt t u (f :: (spine ++ c)) X)
    (hbal : Balanced (plug (f :: spine) X₀))
    (hstored : HeightsOf t.stored (plug (f :: spine) X₀))
    (hheight : X.height + 1 = X₀.height)
    (hlevel : ∀ g spine', spine = g :: spine' →
      g.sibling.height = (join f.side f.label X₀ f.sibling).height ∨
        f.sibling.height = X₀.height ∨
          f.side = .left ∧ f.sibling.height = X₀.height + 1 ∧ f.sibling.Level) :
    ∃ v R, u.rebalance (some f.label.id) = some v ∧ v.rebalance (some f.label.id) = some v ∧
      Rebuilt t v c R ∧ R.height ≤ (plug (f :: spine) X₀).height ∧
      (plug (f :: spine) X₀).height ≤ R.height + 1 := by
  have hbalJ : Balanced (join f.side f.label X₀ f.sibling) := Balanced.of_plug (c := spine) hbal
  obtain ⟨v, Y, hv, hY, hmem, hle, hge, hkeep⟩ :=
    h.rebalance_lower hbalJ (HeightsOf.of_plug (c := spine) hstored) (by omega) (by omega)
  refine ⟨v, plug spine Y, hv, hY.rebalance_self hmem, ?_⟩
  by_cases heq : Y.height = (join f.side f.label X₀ f.sibling).height
  · have hsame : (plug spine Y).height = (plug (f :: spine) X₀).height :=
      height_plug_congr spine heq
    exact ⟨hY.fill hbal hstored heq, hsame.le, hsame.ge.trans (Nat.le_succ _)⟩
  · cases spine with
    | nil => exact ⟨hY, hle, hge⟩
    | cons g spine =>
        -- the subtree got lower, so the next node was level and is as high as before
        have hlev : g.sibling.height = (join f.side f.label X₀ f.sibling).height := by
          obtain hlev | hkept := hlevel g spine rfl
          · exact hlev
          · exact absurd (hkeep hkept) heq
        have hbalG := Balanced.of_plug (c := spine) hbal
        obtain ⟨hroot, -, hsib⟩ := heightsOf_join.1 (HeightsOf.of_plug (c := spine) hstored)
        obtain ⟨-, hbalSib, -, -⟩ := balanced_join.1 hbalG
        have hsame : (join g.side g.label Y g.sibling).height =
            (join g.side g.label (join f.side f.label X₀ f.sibling) g.sibling).height := by
          refine (height_join ..).trans (.trans ?_ (height_join ..).symm)
          omega
        have hG : Rebuilt t v (spine ++ c) (join g.side g.label Y g.sibling) := by
          refine ⟨hY.represents, balanced_join.2 ⟨hY.balanced, hbalSib, by omega, by omega⟩,
            heightsOf_join.2 ⟨?_, hY.heights, hsib.congr fun x hx => ?_⟩, fun x hx => ?_⟩
          · rw [hY.frame _ (mem_ctxIds_cons.2 (.inl rfl)), hroot, hsame]
          · exact hY.frame x (mem_ctxIds_cons.2 (.inr (.inl hx)))
          · exact hY.frame x (mem_ctxIds_cons.2 (.inr (.inr hx)))
        have hall : (plug (g :: spine) Y).height =
            (plug (f :: g :: spine) X₀).height := height_plug_congr spine hsame
        exact ⟨hG.fill hbal hstored hsame, hall.le, hall.ge.trans (Nat.le_succ _)⟩

end Rebuilt

/-! ## Removal -/

/-- What a removal does to a subtree: it is balanced again, and at most one lower. After the
deletion of a leaf that holds for the subtree of its parent, which is rebalanced at once. -/
def Shrinks (t : BinarySearchTree K V) (c : List (Frame (Entry K V))) (S : BinaryTree (Entry K V))
    (res : Option (BinarySearchTree K V)) : Prop :=
  (∃ t' S', res = some t' ∧ Rebuilt t t' c S' ∧ S'.height ≤ S.height ∧ S.height ≤ S'.height + 1) ∨
    ∃ f c' t' S', c = f :: c' ∧ res = some t' ∧ Rebuilt t t' c' S' ∧ f.label.id ∈ ids S' ∧
      S'.height ≤ (join f.side f.label S f.sibling).height ∧
      (join f.side f.label S f.sibling).height ≤ S'.height + 1

/-- The call of `rebalance` at the end of `remove_rec`. -/
theorem Shrinks.rebalance {res : Option (BinarySearchTree K V)}
    (h : Shrinks t (⟨s, e, far⟩ :: c) near res) (hbal : Balanced (join s e near far))
    (hstored : HeightsOf t.stored (join s e near far)) :
    Shrinks t c (join s e near far) (do
      let t ← res
      t.rebalance (some e.id)) := by
  obtain ⟨t', S', rfl, hS, hle, hge⟩ | ⟨f, c', t', S', heq, rfl, hS, hmem, hle, hge⟩ := h
  · obtain ⟨v, S, hv, hS', -, hle', hge', -⟩ := hS.rebalance_lower hbal hstored hle hge
    exact .inl ⟨v, S, hv, hS', hle', hge'⟩
  · cases heq
    exact .inl ⟨t', S', hS.rebalance_self hmem, hS, hle, hge⟩

/-- The guard in terms of the heights of the tree. -/
theorem RemovalLevel.heights {f g : Frame (Entry K V)} {e' : Entry K V} {cur : Addr}
    (h : Represents t (plug (f :: g :: c) (join s e' nil far))) (hlevel : t.RemovalLevel cur)
    (hstored : HeightsOf t.stored (plug (f :: g :: c) (join s e' nil far)))
    (hsucc : t.successor cur = some (some e'.id)) (hcur : cur ∈ ctxIds c)
    (hf : f.side = .left) (hg : g.side = .left) :
    g.sibling.height = (join f.side f.label (join s e' nil far) f.sibling).height ∨
      f.sibling.height = (join s e' nil far).height ∨
        f.side = .left ∧ f.sibling.height = (join s e' nil far).height + 1 ∧ f.sibling.Level := by
  obtain ⟨_, ef, fs⟩ := f
  obtain ⟨_, eg, gs⟩ := g
  obtain rfl : _ = Side.left := hf
  obtain rfl : _ = Side.left := hg
  have hne : ∀ x ∈ ids (node eg (node ef (join s e' nil far) fs) gs), x ≠ cur := by
    rintro x hx rfl
    exact List.disjoint_of_nodup_append (Represents.nodup_plug (c := c) h) hx hcur
  obtain ⟨k, hk⟩ := h.nodes_eq
  obtain ⟨kf, hkf⟩ := Represents.nodes_eq (c := ⟨.left, eg, gs⟩ :: c) (s := .left) h
  have hparent : t.parentOf e'.id = some ef.id := by
    simp [parentOf, hk]
  have hparent' : t.parentOf ef.id = some eg.id := by
    simp [parentOf, hkf]
  obtain ⟨-, hf, hgs⟩ := heightsOf_join.1 (HeightsOf.of_plug (c := c) hstored)
  obtain ⟨-, hX, hfs⟩ := heightsOf_join.1 hf
  have hbalg := balance_heights (c := c) h hf hgs
  have hbalf := balance_heights (c := ⟨.left, eg, gs⟩ :: c) h hX hfs
  obtain hzero | hzero | ⟨hlean, n, q, hn, hq, hlevel⟩ := hlevel _ _ _ hsucc hparent
    (hne _ (by simp)) hparent' (hne _ (by simp))
  · rw [hbalg, Option.some.injEq, Int.sub_eq_zero] at hzero
    exact .inl (Int.ofNat_inj.1 hzero).symm
  · rw [hbalf, Option.some.injEq, Int.sub_eq_zero] at hzero
    exact .inr (.inl (Int.ofNat_inj.1 hzero).symm)
  · rw [hbalf, Option.some.injEq] at hlean
    have hheight : fs.height = (join s e' nil far).height + 1 := by
      change ((join s e' nil far).height : Int) - fs.height = -1 at hlean
      omega
    obtain rfl := Option.some.inj (hkf.symm.trans hn)
    refine .inr (.inr ⟨rfl, hheight, ?_⟩)
    show fs.Level
    cases fs with
    | nil => trivial
    | node eq l r =>
        obtain rfl : eq.id = q := Option.some.inj hq
        have hbalq :=
          balance_heights (c := ⟨.right, ef, join s e' nil far⟩ :: ⟨.left, eg, gs⟩ :: c) h
          hfs.2.1 hfs.2.2
        rw [hbalq, Option.some.injEq] at hlevel
        show l.height = r.height
        omega

/-- In a balanced tree the predecessor is a leaf below the node itself. -/
theorem predecessor_leaf {spine : List (Frame (Entry K V))} {e' : Entry K V}
    (hbal : Balanced (join s e (plug spine (join s.other e' nil far)) nil)) :
    spine = [] ∧ far = nil := by
  have hle : (plug spine (join s.other e' nil far)).height ≤ 1 := by
    simpa using (balanced_join.1 hbal).2.2.1
  have hspine := height_add_length_le_plug spine (join s.other e' nil far)
  rw [height_join] at hspine
  have hnil : far.height = 0 := by omega
  exact ⟨List.length_eq_zero_iff.1 (by omega), height_eq_zero.1 hnil⟩

/-- Removing a leaf. -/
theorem removeNode_leaf (h : Represents t (plug c (node e nil nil)))
    (hbal : Balanced (plug c (node e nil nil)))
    (hstored : HeightsOf t.stored (plug c (node e nil nil))) :
    Shrinks t c (node e nil nil) (t.removeNode e.id) := by
  obtain ⟨k, hk⟩ := h.nodes_eq (s := .left)
  have hsucc : t.successor e.id = some none := by
    simp [successor, hk, cell]
  cases c with
  | nil =>
      have hroot : t.root = some e.id := h.root_eq
      refine .inl
        ⟨{ t.delete e.id with root := none, size := t.size - 1 }, nil, ?_, ⟨?_, trivial, trivial,
        fun _ ha => absurd ha List.not_mem_nil⟩, by simp, by simp⟩
      · exact removeNode_root hsucc hroot hk rfl
      · exact delete_only h
  | cons f c =>
      have hroot := root_ne h
      obtain ⟨u, hu, hsize, hrebuilt⟩ := detach_heights h
      obtain ⟨v, S, hv, hS, hmem, hle, hge, -⟩ := hrebuilt.rebalance_lower
        (Balanced.of_plug (c := c) hbal) (HeightsOf.of_plug (c := c) hstored) (by simp) (by simp)
      refine .inr ⟨f, c, { v with size := v.size - 1 }, S, rfl, ?_, hS.set_size _, hmem, hle, hge⟩
      exact removeNode_below hsucc hroot hk rfl hu hv

/-- The case of `remove_rec` in which the found node has a successor. -/
theorem removeNode_successor {cur succ : Addr} {n : Node K V} {t₁ v : BinarySearchTree K V}
    (hsucc : t.successor cur = some (some succ)) (hn : t.nodes succ = some n)
    (ht₁ : t.modify cur (fun m => { m with key := n.key, value := n.value }) = some t₁)
    (hv : (do
      let u ← vacate t.size.toNat t₁ succ
      u.rebalance n.parent) = some v) :
    t.removeNode cur = rebalance { v with size := v.size - 1 } (some cur) := by
  obtain ⟨u, hu, hv⟩ := Option.bind_eq_some_iff.1 hv
  have hreplace : replace t.fuel t cur succ = some u := by
    rw [fuel, replace_succ, hn]
    simp only [Option.bind_eq_bind, Option.bind_some, ht₁, hu]
  simp [removeNode, hsucc, hn, hreplace, hv]

/-- Removing the node in focus. -/
theorem removeNode_shrinks (h : Represents t (plug c (node e l r)))
    (hbal : Balanced (plug c (node e l r))) (hstored : HeightsOf t.stored (plug c (node e l r)))
    (hsize : (plug c (node e l r)).numNodes ≤ t.size) (hlevel : t.RemovalLevel e.id) :
    Shrinks t c (node e l r) (t.removeNode e.id) := by
  obtain ⟨rfl, rfl, -⟩ | ⟨s, spine, e', far, other, heq, hside, hother, hsucc⟩ :=
    successor_shape h hsize
  · exact removeNode_leaf h hbal hstored
  have hpos : 1 ≤ t.size.toNat := by
    have hle := numNodes_le_plug c (node e l r)
    simp only [numNodes] at hle
    omega
  obtain ⟨fuel, hfuel⟩ : ∃ fuel, t.size.toNat = fuel + 1 := ⟨_, (Nat.sub_add_cancel hpos).symm⟩
  rw [heq] at h hbal hstored ⊢
  obtain ⟨hnear, hfar, hle, hge⟩ := balanced_join.1 hbal.of_plug
  obtain ⟨hroot, hsnear, hsfar⟩ := heightsOf_join.1 hstored.of_plug
  -- the successor is the lowest node of a spine, and on the left a leaf next to the node itself
  have hs : s.other = .left ∨ far = nil := by
    cases s with
    | right => exact .inl rfl
    | left =>
        obtain rfl := hother rfl
        exact .inr (predecessor_leaf hbal.of_plug).2
  obtain ⟨t₁, ht₁, -, h₁, hstored₁⟩ := assign_pair h e'
  have hbal₁ :
      Balanced (join s { e' with id := e.id } (plug spine (join s.other e' nil far)) other) :=
    balanced_join.2 ⟨hnear, hfar, hle, hge⟩
  have hheights₁ : HeightsOf t₁.stored
      (join s { e' with id := e.id } (plug spine (join s.other e' nil far)) other) := by
    rw [hstored₁]
    exact heightsOf_join.2 ⟨by rwa [height_join] at hroot ⊢, hsnear, hsfar⟩
  cases spine with
  | nil =>
      obtain ⟨k, hk⟩ := Represents.nodes_eq (c := ⟨s, e, other⟩ :: c) h
      obtain ⟨u, X, hu, -, hX, hvacate⟩ := vacate_shrinks fuel
        (f := ⟨s, { e' with id := e.id }, other⟩) h₁ hnear (hstored₁ ▸ hsnear) hs
      obtain ⟨v, S, hv, hS, hmem, hlow, hhigh, -⟩ :=
        hu.rebalance_lower hbal₁ hheights₁ ((Nat.le_succ _).trans hX.le) hX.ge
      have hself := hS.rebalance_self hmem
      refine .inl ⟨{ v with size := v.size - 1 }, S, ?_, (hS.of_stored hstored₁).set_size _, ?_, ?_⟩
      · rw [removeNode_successor hsucc hk ht₁ (by rw [hfuel]; exact hvacate v hv hself)]
        exact (hS.set_size _).rebalance_self hmem
      · rwa [height_join] at hlow ⊢
      · rwa [height_join] at hhigh ⊢
  | cons f spine =>
      have hplug : ∀ (x : Entry K V) (S : BinaryTree (Entry K V)),
          plug c (join s x (plug (f :: spine) S) other) =
            plug (f :: (spine ++ ⟨s, x, other⟩ :: c)) S :=
        fun x S => (plug_append (f :: spine) (⟨s, x, other⟩ :: c) S).symm
      have hleft : s.other = .left := by
        cases s with
        | right => rfl
        | left =>
            obtain rfl := hother rfl
            exact absurd (predecessor_leaf hbal.of_plug).1 (by simp)
      rw [hplug] at h h₁ hstored
      obtain ⟨k, hk⟩ := h.nodes_eq
      obtain ⟨u, X, hu, -, hX, hvacate⟩ := vacate_shrinks fuel h₁
        (Balanced.of_plug (c := f :: spine) hnear)
        (hstored₁ ▸ HeightsOf.of_plug (c := f :: spine) hsnear) hs
      obtain ⟨v, R, hv, hself, hR, hRle, hRge⟩ := hu.climb hnear (hstored₁ ▸ hsnear) hX
        fun g spine' hspine => by
          subst hspine
          exact hlevel.heights h hstored hsucc (by simp [mem_ctxIds_append, mem_ctxIds_cons])
            ((hside f (by simp)).trans hleft) ((hside g (by simp)).trans hleft)
      obtain ⟨w, S, hw, hS, -, hlow, hhigh, -⟩ :=
        (hR.set_size (v.size - 1)).rebalance_lower hbal₁ hheights₁ hRle hRge
      refine .inl ⟨w, S, ?_, hS.of_stored hstored₁, ?_, ?_⟩
      · rw [removeNode_successor hsucc hk ht₁ (by rw [hfuel]; exact hvacate v hv hself)]
        exact hw
      · rwa [height_join] at hlow ⊢
      · rwa [height_join] at hhigh ⊢

section Order

variable [LinearOrder K]

/-- The recursion of `remove_rec`. -/
theorem removeRec_shrinks (key : K) (fuel : Nat) (h : Represents t (plug c S))
    (hbal : Balanced (plug c S)) (hstored : HeightsOf t.stored (plug c S))
    (hsize : (plug c S).numNodes ≤ t.size) (hfuel : S.numNodes ≤ fuel)
    (hlevel : ∀ cur n, t.searchLoop key fuel (ptr S) = some (some cur) → t.nodes cur = some n →
      n.key = key → t.RemovalLevel cur) : Shrinks t c S (removeRec key fuel t (ptr S)) := by
  induction S generalizing c fuel with
  | nil =>
      refine .inl ⟨t, nil, by cases fuel <;> rfl, ⟨h, trivial, trivial, fun _ _ => rfl⟩, ?_, ?_⟩
      · exact Nat.le_refl _
      · exact Nat.le_succ _
  | node e l r hl hr =>
      cases fuel with
      | zero => simp at hfuel
      | succ fuel =>
          obtain ⟨k, hk⟩ := h.nodes_eq (s := .left)
          simp only [numNodes] at hfuel
          rcases lt_trichotomy key e.key with hlt | rfl | hgt
          · have hrec := (hl fuel (c := ⟨.left, e, r⟩ :: c) h hbal hstored hsize (by omega)
              fun cur n hcur => hlevel cur n (searchLoop_left h hlt hcur)).rebalance (s := .left)
                hbal.of_plug hstored.of_plug
            simpa [removeRec, hk, cell, hlt, join] using hrec
          · have hnode := removeNode_shrinks h hbal hstored hsize
              (hlevel e.id _ (by simp [searchLoop, hk]) hk rfl)
            simpa [removeRec, hk] using hnode
          · have hrec := (hr fuel (c := ⟨.right, e, l⟩ :: c) h hbal hstored hsize (by omega)
              fun cur n hcur => hlevel cur n (searchLoop_right h hgt hcur)).rebalance (s := .right)
                hbal.of_plug hstored.of_plug
            simpa [removeRec, hk, cell, hgt, hgt.not_gt, join] using hrec

/-- `remove` keeps the tree balanced when the heights on its path do not get stale. -/
theorem Kept.remove {key : K} {E : List (Entry K V)} (hkept : Kept t) (hE : Holds t E)
    (hsafe : HeightsSafe t (.remove key)) (ht' : t.remove key = some t') : Kept t' := by
  obtain ⟨T, h, hbal, hstored⟩ := hkept
  have hsize := hE.numNodes_le h
  have hroot := h.root_eq
  have hrec := removeRec_shrinks key t.fuel (c := []) h hbal hstored hsize
    (by simp only [fuel]; omega) fun cur n hcur => hsafe cur n (by rwa [searchRec, hroot])
  rw [BinarySearchTree.remove, hroot] at ht'
  obtain ⟨u, S, hu, hS, -, -⟩ | ⟨f, c, -, -, hc, -⟩ := hrec
  · obtain rfl := Option.some.inj (hu.symm.trans ht')
    exact ⟨S, hS.represents, hS.balanced, hS.heights⟩
  · cases hc

end Order

/-! ## Runs -/

/-- The height of the subtree behind a pointer, counted over its nodes. -/
def subtreeHeight (t : BinarySearchTree K V) : Nat → Option Addr → Option Nat
  | _, none => some 0
  | 0, some _ => none
  | fuel + 1, some a => do
      let n ← t.nodes a
      let left ← subtreeHeight t fuel n.left
      let right ← subtreeHeight t fuel n.right
      pure (max left right + 1)

/-- The node stores the height of its subtree, and the heights of its two subtrees differ by at most
one. -/
def HeightRight (t : BinarySearchTree K V) (n : Node K V) : Prop :=
  ∃ left right, t.subtreeHeight t.fuel n.left = some left ∧
    t.subtreeHeight t.fuel n.right = some right ∧ n.height = max left right + 1 ∧
    left ≤ right + 1 ∧ right ≤ left + 1

theorem subtreeHeight_spec (fuel : Nat) {p : Option Addr} (h : Rep t.nodes p S)
    (hfuel : S.numNodes ≤ fuel) : t.subtreeHeight fuel (ptr S) = some S.height := by
  induction S generalizing p fuel with
  | nil => cases fuel <;> rfl
  | node e l r hl hr =>
      obtain ⟨⟨k, hk⟩, hrepl, hrepr⟩ := h
      cases fuel with
      | zero => simp at hfuel
      | succ fuel =>
          simp only [numNodes] at hfuel
          simp [subtreeHeight, hk, cell, hl fuel hrepl (by omega), hr fuel hrepr (by omega)]

section Order

variable [LinearOrder K]

theorem Kept.heightRight {E : List (Entry K V)} {n : Node K V} (hkept : Kept t) (hE : Holds t E)
    (hn : t.nodes a = some n) : t.HeightRight n := by
  obtain ⟨T, h, hbal, hstored⟩ := hkept
  have hsize := hE.numNodes_le h
  obtain ⟨c, e, l, r, rfl, rfl⟩ := Represents.exists_focus (h.mem_ids hn)
  obtain ⟨k, hk⟩ := h.nodes_eq (s := .left)
  obtain rfl := Option.some.inj (hk.symm.trans hn)
  have hroot : k = max l.height r.height + 1 := by
    simpa [stored, hk, cell] using hstored.of_plug.1
  have hle := numNodes_le_plug c (node e l r)
  simp only [numNodes] at hle
  obtain ⟨-, -, hlow, hhigh⟩ := hbal.of_plug
  obtain ⟨-, hl, hr⟩ := (rep_plug.1 h.rep).1
  refine ⟨l.height, r.height, ?_, ?_, hroot, hlow, hhigh⟩
  · exact subtreeHeight_spec _ hl (by simp only [fuel]; omega)
  · exact subtreeHeight_spec _ hr (by simp only [fuel]; omega)

theorem Kept.step {op : Operation K V} {E : List (Entry K V)} (hkept : Kept t) (hE : Holds t E)
    (hsafe : HeightsSafe t op) (hstep : Step t op t') : Kept t' ∧ ∃ E', Holds t' E' := by
  cases hstep with
  | insert hfresh ht' =>
      obtain ⟨u, E', hu, hE', -⟩ := hE.insert ⟨_, _, _⟩ hfresh
      obtain rfl := Option.some.inj (hu.symm.trans ht')
      exact ⟨hkept.insert hE hfresh ht', E', hE'⟩
  | remove ht' =>
      obtain ⟨u, E', hu, hE', -⟩ := hE.remove _
      obtain rfl := Option.some.inj (hu.symm.trans ht')
      exact ⟨hkept.remove hE hsafe ht', E', hE'⟩

/-- Inserting pairs one after the other, where `new` returns the addresses from `a` on. -/
def insertAll : List (K × V) → Addr → BinarySearchTree K V → Option (BinarySearchTree K V)
  | [], _, t => some t
  | (key, value) :: pairs, a, t =>
      match t.nodes a with
      | some _ => none
      | none => do
          let t ← t.insert key value a
          insertAll pairs (a + 1) t

theorem insertAll_run {pairs : List (K × V)} (h : insertAll pairs a t = some t') :
    Run (Guarded HeightsSafe Step) t (pairs.map fun p => .insert p.1 p.2) t' := by
  induction pairs generalizing t a with
  | nil =>
      cases h
      exact .nil _
  | cons p pairs ih =>
      simp only [insertAll] at h
      split at h
      · cases h
      · next hfresh =>
          obtain ⟨u, hu, h⟩ := Option.bind_eq_some_iff.1 h
          exact .cons ⟨trivial, .insert hfresh hu⟩ (ih h)

/-- Over every sequence of calls in which the removals leave no height stale, every node stores the
height of its subtree and the heights of its two subtrees differ by at most one. -/
theorem guarded_runs_balanced {ops : List (Operation K V)} {n : Node K V}
    (hrun : Run (Guarded HeightsSafe Step) (empty : BinarySearchTree K V) ops t)
    (hn : t.nodes a = some n) : t.HeightRight n := by
  have hinit : Kept (empty : BinarySearchTree K V) ∧ ∃ E, Holds (empty : BinarySearchTree K V) E :=
    ⟨⟨nil, .empty, trivial, trivial⟩, [], .empty⟩
  have hstep : ∀ (s : BinarySearchTree K V) op s', (Kept s ∧ ∃ E, Holds s E) →
      Guarded HeightsSafe Step s op s' → Kept s' ∧ ∃ E', Holds s' E' :=
    fun _ _ _ ⟨hkept, _, hE⟩ hstep => hkept.step hE hstep.1 hstep.2
  obtain ⟨hkept, E, hE⟩ := hrun.invariant hinit hstep
  exact hkept.heightRight hE hn

/-- The successor 45 of the removed key leaves the parent 50, below the level node 60. -/
theorem guarded_runs_balanced_level :
    ∃ (t : BinarySearchTree Nat Unit) (n : Node Nat Unit),
      Run (Guarded HeightsSafe Step) empty
        ([40, 20, 60, 10, 50, 70, 45, 65].map (fun key => .insert key ()) ++ [.remove 40]) t ∧
      t.nodes 2 = some n ∧ n.key = 60 ∧ t.HeightRight n := by
  have hfacts : (do
      let t₁ ← insertAll [(40, ()), (20, ()), (60, ()), (10, ()), (50, ()), (70, ()), (45, ()),
        (65, ())] 0 (empty : BinarySearchTree Nat Unit)
      let t₂ ← t₁.remove 40
      let n ← t₂.nodes 2
      let found ← t₁.searchRec 40
      let succ ← t₁.successor 0
      let bal ← t₁.balance 2
      pure ([found, succ, t₁.parentOf 6, t₁.parentOf 4], bal, n.key)) =
        some ([some 0, some 6, some 4, some 2], 0, 60) := by
    decide +kernel
  obtain ⟨t₁, ht₁, hfacts⟩ := Option.bind_eq_some_iff.1 hfacts
  obtain ⟨t₂, ht₂, hfacts⟩ := Option.bind_eq_some_iff.1 hfacts
  obtain ⟨n, hn, hfacts⟩ := Option.bind_eq_some_iff.1 hfacts
  obtain ⟨found, hfound, hfacts⟩ := Option.bind_eq_some_iff.1 hfacts
  obtain ⟨succ, hsucc, hfacts⟩ := Option.bind_eq_some_iff.1 hfacts
  obtain ⟨bal, hlevel, hfacts⟩ := Option.bind_eq_some_iff.1 hfacts
  simp only [Option.pure_def, Option.some.injEq, Prod.mk.injEq, List.cons.injEq, and_true] at hfacts
  obtain ⟨⟨rfl, rfl, hparent, hparent'⟩, rfl, hkey⟩ := hfacts
  have hsafe : HeightsSafe t₁ (.remove 40) := fun cur n hcur _ _ succ p g hs hp _ hg _ => by
    obtain rfl := Option.some.inj (Option.some.inj (hfound.symm.trans hcur))
    obtain rfl := Option.some.inj (Option.some.inj (hsucc.symm.trans hs))
    obtain rfl := Option.some.inj (hparent.symm.trans hp)
    obtain rfl := Option.some.inj (hparent'.symm.trans hg)
    exact .inl hlevel
  have hrun := (insertAll_run ht₁).append (.single ⟨hsafe, .remove ht₂⟩)
  exact ⟨t₂, n, hrun, hn, hkey, guarded_runs_balanced hrun hn⟩

/-- Without the key 65 the removal of 40 leaves the height 3 at the node of 60, whose subtree has
the height 2 then. -/
theorem removal_leaves_stale_height :
    ∃ (ops : List (Operation Nat Unit)) (t : BinarySearchTree Nat Unit) (n : Node Nat Unit),
      Run Step empty ops t ∧ t.nodes 2 = some n ∧ ¬ t.HeightRight n := by
  have hheights : (do
      let t₁ ← insertAll [(40, ()), (20, ()), (60, ()), (10, ()), (50, ()), (70, ()), (45, ())] 0
        (empty : BinarySearchTree Nat Unit)
      let t₂ ← t₁.remove 40
      let n ← t₂.nodes 2
      let left ← t₂.subtreeHeight t₂.fuel n.left
      let right ← t₂.subtreeHeight t₂.fuel n.right
      pure (n.height, left, right)) = some (3, 1, 1) := by
    decide +kernel
  obtain ⟨t₁, ht₁, hheights⟩ := Option.bind_eq_some_iff.1 hheights
  obtain ⟨t₂, ht₂, hheights⟩ := Option.bind_eq_some_iff.1 hheights
  obtain ⟨n, hn, hheights⟩ := Option.bind_eq_some_iff.1 hheights
  obtain ⟨left, hleft, hheights⟩ := Option.bind_eq_some_iff.1 hheights
  obtain ⟨right, hright, hheights⟩ := Option.bind_eq_some_iff.1 hheights
  have hrun := ((insertAll_run ht₁).mono fun _ _ _ h => h.2).append (.single (.remove ht₂))
  refine ⟨_, t₂, n, hrun, hn, ?_⟩
  rintro ⟨left', right', hleft', hright', hheight, -⟩
  obtain rfl := Option.some.inj (hleft.symm.trans hleft')
  obtain rfl := Option.some.inj (hright.symm.trans hright')
  simp only [Option.pure_def, Option.some.injEq, Prod.mk.injEq] at hheights
  omega

end Order

end CrosKernel.Containers.BinarySearchTree
