import CrosKernel.Containers.TreeRebalance
import CrosKernel.Lib.BalancedTree

/-!
# Stored heights

Every node stores the height of its subtree. `HeightsOf` says that the stored heights of a subtree
are right. `rotate_heights` and `rebalance_heights` follow them through the rotations: `rebalance`
of a node whose children differ by at most two in height leaves a balanced subtree with the right
heights, and changes no height outside of it.
-/

namespace CrosKernel.Containers.BinarySearchTree

open BinaryTree

variable {K V : Type} {t t' : BinarySearchTree K V} {c : List (Frame (Entry K V))} {s : Side}
  {e ea eb : Entry K V} {l r near far t₁ t₂ t₃ T : BinaryTree (Entry K V)} {a : Addr} {n : Node K V}

/-- The height that the node at an address stores. -/
def stored (t : BinarySearchTree K V) (a : Addr) : Nat := (t.nodes a).elim 0 Node.height

/-- The height behind a pointer. -/
def heightAt (t : BinarySearchTree K V) (p : Option Addr) : Nat := p.elim 0 t.stored

/-- The heights `H` are those of the subtrees of a tree. -/
def HeightsOf (H : Addr → Nat) : BinaryTree (Entry K V) → Prop
  | nil => True
  | node e l r => H e.id = (node e l r).height ∧ HeightsOf H l ∧ HeightsOf H r

variable {H H' : Addr → Nat}

@[simp] theorem heightsOf_nil : HeightsOf H (nil : BinaryTree (Entry K V)) := trivial

theorem heightsOf_join : HeightsOf H (join s e near far) ↔
    H e.id = (join s e near far).height ∧ HeightsOf H near ∧ HeightsOf H far := by
  cases s
  · exact Iff.rfl
  · show _ ∧ HeightsOf H far ∧ HeightsOf H near ↔ _
    rw [and_comm (a := HeightsOf H far)]
    exact Iff.rfl

theorem HeightsOf.congr (h : HeightsOf H T) (hH : ∀ x ∈ ids T, H' x = H x) : HeightsOf H' T := by
  induction T with
  | nil => trivial
  | node e l r hl hr =>
      obtain ⟨hroot, hleft, hright⟩ := h
      simp only [ids_node, List.mem_append, List.mem_cons] at hH
      exact ⟨(hH e.id (.inr (.inl rfl))).trans hroot, hl hleft fun x hx => hH x (.inl hx),
        hr hright fun x hx => hH x (.inr (.inr hx))⟩

theorem HeightsOf.heightAt_ptr (h : HeightsOf t.stored T) : t.heightAt (ptr T) = T.height := by
  cases T with
  | nil => rfl
  | node e l r => exact h.1

theorem HeightsOf.of_plug (h : HeightsOf H (plug c T)) : HeightsOf H T := by
  induction c generalizing T with
  | nil => exact h
  | cons f c ih => exact (heightsOf_join.1 (ih h)).2.1

/-- A subtree may be exchanged for one of the same height. -/
theorem HeightsOf.plug_congr {T' : BinaryTree (Entry K V)} (h : HeightsOf H (plug c T))
    (hT' : HeightsOf H' T') (hheight : T'.height = T.height) (hctx : ∀ x ∈ ctxIds c, H' x = H x) :
    HeightsOf H' (plug c T') := by
  induction c generalizing T T' with
  | nil => exact hT'
  | cons f c ih =>
      obtain ⟨hroot, -, hfar⟩ := heightsOf_join.1 (HeightsOf.of_plug (c := c) h)
      simp only [mem_ctxIds_cons] at hctx
      refine ih h (heightsOf_join.2 ⟨?_, hT', hfar.congr fun x hx => hctx x (.inr (.inl hx))⟩) ?_
        fun x hx => hctx x (.inr (.inr hx))
      · rw [hctx _ (.inl rfl), hroot, height_join, height_join, hheight]
      · rw [height_join, height_join, hheight]

/-! ## What assignments do to the heights -/

theorem modify_stored {f : Node K V → Node K V} (hf : ∀ n, (f n).height = n.height)
    (h : t.modify a f = some t') : t'.stored = t.stored := by
  obtain ⟨n, hn, heq⟩ := Option.bind_eq_some_iff.1 h
  cases heq
  funext x
  by_cases hx : x = a
  · simp [stored, hx, hn, hf]
  · simp [stored, hx]

theorem modifyNonNull_stored {q : Option Addr} {f : Node K V → Node K V}
    (hf : ∀ n, (f n).height = n.height) (h : t.modifyNonNull q f = some t') :
    t'.stored = t.stored := by
  cases q with
  | none =>
      cases h
      rfl
  | some a => exact modify_stored hf h

theorem setChild_height (n : Node K V) (s : Side) (q : Option Addr) :
    (n.setChild s q).height = n.height := by
  cases s <;> rfl

theorem redirect_height (n : Node K V) (a : Addr) (b : Option Addr) :
    (redirect n a b).height = n.height := by
  unfold redirect
  split <;> rfl

/-- The assignments of a rotation change no height. -/
theorem relink_stored {b : Addr} {parent inner : Option Addr}
    (h : relink s t a b parent inner = some t') : t'.stored = t.stored := by
  obtain ⟨u₁, h₁, h⟩ := Option.bind_eq_some_iff.1 h
  obtain ⟨u₂, h₂, h⟩ := Option.bind_eq_some_iff.1 h
  obtain ⟨u₃, h₃, h⟩ := Option.bind_eq_some_iff.1 h
  obtain ⟨u₄, h₄, h⟩ := Option.bind_eq_some_iff.1 h
  obtain ⟨u₅, h₅, h⟩ := Option.bind_eq_some_iff.1 h
  have hparent : ∀ (q : Option Addr) (n : Node K V), ({ n with parent := q }).height = n.height :=
    fun _ _ => rfl
  have hall : u₅.stored = t.stored := by
    rw [modifyNonNull_stored (hparent _) h₅, modify_stored (hparent _) h₄,
      modify_stored (hparent _) h₃, modify_stored (fun n => setChild_height n _ _) h₂,
      modify_stored (fun n => setChild_height n _ _) h₁]
  split at h
  · cases h
    exact hall
  · exact (modifyNonNull_stored (fun n => redirect_height n _ _) h).trans hall

/-- The heights that `update_height` and `balance` read. -/
theorem children_exist (h : Represents t (plug c (node e l r))) (hn : t.nodes e.id = some n) :
    n.left = ptr l ∧ n.right = ptr r ∧ (∀ x, ptr l = some x → ∃ m, t.nodes x = some m) ∧
      ∀ x, ptr r = some x → ∃ m, t.nodes x = some m := by
  obtain ⟨k, hk⟩ := h.nodes_eq (s := .left)
  obtain rfl := Option.some.inj (hk.symm.trans hn)
  refine ⟨rfl, rfl, fun x hx => h.exists_node ?_, fun x hx => h.exists_node ?_⟩
  · exact mem_ids_plug.2 (.inl (by simp [mem_ids_of_ptr hx]))
  · exact mem_ids_plug.2 (.inl (by simp [mem_ids_of_ptr hx]))

theorem updateHeight_eq (hn : t.nodes a = some n)
    (hleft : ∀ x, n.left = some x → ∃ m, t.nodes x = some m)
    (hright : ∀ x, n.right = some x → ∃ m, t.nodes x = some m) :
    t.updateHeight a = t.modify a fun n' => { n' with
      height := 1 + max (t.heightAt n.left) (t.heightAt n.right) } := by
  rw [updateHeight, hn]
  cases hl : n.left with
  | none =>
      cases hr : n.right with
      | none => simp [hl, hr, heightAt]
      | some right =>
          obtain ⟨m, hm⟩ := hright right hr
          simp [hl, hr, hm, heightAt, stored]
  | some left =>
      obtain ⟨m, hm⟩ := hleft left hl
      cases hr : n.right with
      | none => simp [hl, hr, hm, heightAt, stored]
      | some right =>
          obtain ⟨m', hm'⟩ := hright right hr
          simp [hl, hr, hm, hm', heightAt, stored]

theorem balance_eq (hn : t.nodes a = some n)
    (hleft : ∀ x, n.left = some x → ∃ m, t.nodes x = some m)
    (hright : ∀ x, n.right = some x → ∃ m, t.nodes x = some m) :
    t.balance a = some ((t.heightAt n.left : Int) - t.heightAt n.right) := by
  rw [balance, hn]
  cases hl : n.left with
  | none =>
      cases hr : n.right with
      | none => simp [hl, hr, heightAt]
      | some right =>
          obtain ⟨m, hm⟩ := hright right hr
          simp [hl, hr, hm, heightAt, stored]
  | some left =>
      obtain ⟨m, hm⟩ := hleft left hl
      cases hr : n.right with
      | none => simp [hl, hr, hm, heightAt, stored]
      | some right =>
          obtain ⟨m', hm'⟩ := hright right hr
          simp [hl, hr, hm, hm', heightAt, stored]

/-- `balance` of a node above subtrees with the right heights. -/
theorem balance_heights (h : Represents t (plug c (node e l r))) (hl : HeightsOf t.stored l)
    (hr : HeightsOf t.stored r) : t.balance e.id = some ((l.height : Int) - r.height) := by
  obtain ⟨k, hk⟩ := h.nodes_eq (s := .left)
  obtain ⟨hleft, hright, hexl, hexr⟩ := children_exist h hk
  rw [balance_eq hk (hleft ▸ hexl) (hright ▸ hexr), hleft, hright, hl.heightAt_ptr,
    hr.heightAt_ptr]

/-- `update_height` stores one more than the height of the higher child. -/
theorem updateHeight_heights (h : Represents t (plug c (join s e near far)))
    (hnear : HeightsOf t.stored near) (hfar : HeightsOf t.stored far) :
    ∃ t', t.updateHeight e.id = some t' ∧ t'.size = t.size ∧
      Represents t' (plug c (join s e near far)) ∧
      t'.stored = Function.update t.stored e.id (join s e near far).height := by
  have hheight : ∀ {l r : BinaryTree (Entry K V)}, Represents t (plug c (node e l r)) →
      HeightsOf t.stored l → HeightsOf t.stored r → ∃ n, t.nodes e.id = some n ∧
        t.updateHeight e.id = t.modify e.id fun n => { n with height := (node e l r).height } := by
    intro l r h hl hr
    obtain ⟨k, hk⟩ := h.nodes_eq (s := .left)
    obtain ⟨hleft, hright, hexl, hexr⟩ := children_exist h hk
    refine ⟨_, hk, ?_⟩
    rw [updateHeight_eq hk (hleft ▸ hexl) (hright ▸ hexr), hleft, hright, hl.heightAt_ptr,
      hr.heightAt_ptr, Nat.add_comm]
    rfl
  obtain ⟨n, hn, hupdate⟩ : ∃ n, t.nodes e.id = some n ∧ t.updateHeight e.id =
      t.modify e.id fun n => { n with height := (join s e near far).height } := by
    cases s with
    | left => exact hheight h hnear hfar
    | right => exact hheight h hfar hnear
  refine ⟨_, hupdate.trans (modify_eq hn), rfl, represents_set_height h hn, ?_⟩
  funext x
  by_cases hx : x = e.id
  · simp [stored, hx]
  · simp [stored, hx]

/-! ## Rotations -/

/-- A rotation stores the right heights in the two nodes that it moves. -/
theorem rotate_heights (h : Represents t (plug c (join s ea (join s eb t₁ t₂) t₃)))
    (h₁ : HeightsOf t.stored t₁) (h₂ : HeightsOf t.stored t₂) (h₃ : HeightsOf t.stored t₃) :
    ∃ t', rotate s t ea.id = some t' ∧ t'.size = t.size ∧
      Represents t' (plug c (join s eb t₁ (join s ea t₂ t₃))) ∧
      HeightsOf t'.stored (join s eb t₁ (join s ea t₂ t₃)) ∧
      ∀ x, x ≠ ea.id → x ≠ eb.id → t'.stored x = t.stored x := by
  obtain ⟨ka, ha⟩ := (rep_join.1 (rep_plug.1 h.rep).1).1
  obtain ⟨kb, hb⟩ := (rep_join.1 (rep_join.1 (rep_plug.1 h.rep).1).2.1).1
  have hnodup := nodup_rotate h
  simp only [List.nodup_cons, List.nodup_append, List.mem_append, List.mem_cons] at hnodup
  obtain ⟨u, hu, hsize, hrep⟩ := relink_spec h
  have hustored : u.stored = t.stored := relink_stored hu
  rw [← hustored] at h₁ h₂ h₃
  -- the lower node gets its height first, then the one above it
  have hrepa : Represents u (plug (⟨s.other, eb, t₁⟩ :: c) (join s ea t₂ t₃)) := by
    cases s <;> exact hrep
  obtain ⟨ua, hua, hsizea, hrepa', hstoreda⟩ := updateHeight_heights hrepa h₂ h₃
  have hrepb : Represents ua (plug c (join s eb t₁ (join s ea t₂ t₃))) := by
    cases s <;> exact hrepa'
  have houter : HeightsOf ua.stored t₁ := h₁.congr fun x hx => by
    rw [hstoreda, Function.update_of_ne (by grind)]
  have hlower : HeightsOf ua.stored (join s ea t₂ t₃) := by
    refine heightsOf_join.2 ⟨?_, h₂.congr fun x hx => ?_, h₃.congr fun x hx => ?_⟩
    · rw [hstoreda, Function.update_self]
    · rw [hstoreda, Function.update_of_ne (by grind)]
    · rw [hstoreda, Function.update_of_ne (by grind)]
  obtain ⟨ub, hub, hsizeb, hrepb', hstoredb⟩ := updateHeight_heights hrepb houter hlower
  refine ⟨ub, ?_, by rw [hsizeb, hsizea, hsize], hrepb', ?_, fun x hxa hxb => ?_⟩
  · simp [rotate, ha, hb, hu, hua, hub]
  · refine heightsOf_join.2 ⟨?_, houter.congr fun x hx => ?_, hlower.congr fun x hx => ?_⟩
    · rw [hstoredb, Function.update_self]
    · rw [hstoredb, Function.update_of_ne (by grind)]
    · rw [mem_ids_join] at hx
      rw [hstoredb, Function.update_of_ne (by grind)]
  · rw [hstoredb, Function.update_of_ne hxb, hstoreda, Function.update_of_ne hxa, hustored]

/-- The subtree in the hole of `c` is a balanced one with the right heights, and no height of the
context changed. -/
structure Rebuilt (t t' : BinarySearchTree K V) (c : List (Frame (Entry K V)))
    (S : BinaryTree (Entry K V)) : Prop where
  represents : Represents t' (plug c S)
  balanced : Balanced S
  heights : HeightsOf t'.stored S
  frame : ∀ x ∈ ctxIds c, t'.stored x = t.stored x

/-- The rotations on one side of `rebalance`. The child on the side `s` is rotated first when its
inner child is the higher one. -/
theorem rotate_inner_heights (inner : Prop) [Decidable inner]
    (h : Represents t (plug c (join s e (join s eb t₁ t₂) far)))
    (hnear : Balanced (join s eb t₁ t₂)) (hfar : Balanced far)
    (hstored : HeightsOf t.stored (join s eb t₁ t₂)) (hstored' : HeightsOf t.stored far)
    (hheight : (join s eb t₁ t₂).height = far.height + 2) (hinner : inner ↔ t₁.height < t₂.height) :
    ∃ t' S, (do
        let t ← if inner then rotate s.other t eb.id else some t
        rotate s t e.id) = some t' ∧ t'.size = t.size ∧ Rebuilt t t' c S ∧
      S.inorder = (join s e (join s eb t₁ t₂) far).inorder ∧
      (join s eb t₁ t₂).height ≤ S.height ∧ S.height ≤ (join s eb t₁ t₂).height + 1 ∧
      (t₁.height = t₂.height → S.height = (join s eb t₁ t₂).height + 1) := by
  obtain ⟨-, hstored₁, hstored₂⟩ := heightsOf_join.1 hstored
  -- the nodes of the context are none of those that move
  have hctx : ∀ {t' : BinarySearchTree K V} {S : BinaryTree (Entry K V)},
      Represents t' (plug c S) → ∀ x ∈ ctxIds c, x ∉ ids S := fun hrep x hx hmem =>
    List.disjoint_of_nodup_append hrep.nodup_plug hmem hx
  by_cases hi : inner
  · have hlt := hinner.1 hi
    obtain ⟨ed, u, v, rfl⟩ := exists_join (t := t₂) s (by rintro rfl; simp at hlt)
    obtain ⟨-, hu, hv⟩ := heightsOf_join.1 hstored₂
    have hrep : Represents t (plug (⟨s, e, far⟩ :: c)
        (join s.other eb (join s.other ed v u) t₁)) := by
      rw [join_other, join_other]
      exact h
    have hnodup := nodup_rotate hrep
    obtain ⟨t₁', ht₁, hsize₁, hrep₁, hheights₁, hframe₁⟩ := rotate_heights hrep hv hu hstored₁
    rw [join_other, join_other] at hrep₁ hheights₁
    obtain ⟨-, hlow, hhigh⟩ := heightsOf_join.1 hheights₁
    have hfar₁ : HeightsOf t₁'.stored far := hstored'.congr fun x hx => by
      have hmem : x ∈ ctxIds (⟨s, e, far⟩ :: c) := mem_ctxIds_cons.2 (.inr (.inl hx))
      simp only [List.nodup_cons, List.mem_append, List.mem_cons, not_or] at hnodup
      exact hframe₁ x (by rintro rfl; tauto) (by rintro rfl; tauto)
    have hrep₂ : Represents t₁' (plug c (join s e (join s ed (join s eb t₁ u) v) far)) := hrep₁
    obtain ⟨t', ht', hsize', hrep', hheights', hframe'⟩ := rotate_heights hrep₂ hlow hhigh hfar₁
    obtain ⟨hbal, heq⟩ := balanced_rotate_twice (a := e) hnear hfar hheight hlt
    refine ⟨t', _, ?_, hsize'.trans hsize₁, ⟨hrep', hbal, hheights', fun x hx => ?_⟩, ?_, heq.ge,
      heq.le.trans (Nat.le_succ _), fun hlevel => absurd hlevel hlt.ne⟩
    · simp only [if_pos hi, Option.bind_eq_bind, ht₁, Option.bind_some, ht']
    · have hout := hctx hrep' x hx
      simp only [mem_ids_join, not_or] at hout
      rw [hframe' x (by tauto) (by tauto), hframe₁ x (by tauto) (by tauto)]
    · cases s <;> simp [join]
  · obtain ⟨t', ht', hsize', hrep', hheights', hframe'⟩ :=
      rotate_heights h hstored₁ hstored₂ hstored'
    obtain ⟨hbal, hle, hge, hlevel⟩ := balanced_rotate (a := e) hnear hfar hheight
      (not_lt.1 fun hlt => hi (hinner.2 hlt))
    refine ⟨t', _, ?_, hsize', ⟨hrep', hbal, hheights', fun x hx => ?_⟩, ?_, hle, hge, hlevel⟩
    · simp only [if_neg hi, Option.bind_eq_bind, Option.bind_some, ht']
    · have hout := hctx hrep' x hx
      simp only [mem_ids_join, not_or] at hout
      exact hframe' x (by tauto) (by tauto)
    · cases s <;> simp [join]

/-- `rebalance` of a node whose children differ by at most two in height. The subtree is as high as
without a rotation when there is none, or when it raises a level child. -/
theorem rebalance_heights (h : Represents t (plug c (node e l r))) (hl : Balanced l)
    (hr : Balanced r) (hsl : HeightsOf t.stored l) (hsr : HeightsOf t.stored r)
    (hle : l.height ≤ r.height + 2) (hge : r.height ≤ l.height + 2) :
    ∃ t' S, t.rebalance (some e.id) = some t' ∧ t'.size = t.size ∧ Rebuilt t t' c S ∧
      S.inorder = (node e l r).inorder ∧ max l.height r.height ≤ S.height ∧
      S.height ≤ max l.height r.height + 1 ∧
      (l.height ≤ r.height + 1 → (r.height ≤ l.height + 1 ∨ r.Level) →
        S.height = max l.height r.height + 1) := by
  have hnodup := h.nodup_plug
  simp only [ids_node, List.nodup_append, List.nodup_cons, List.mem_append, List.mem_cons] at hnodup
  obtain ⟨u, hu, hsize, hrep, hstored⟩ := updateHeight_heights (s := .left) h hsl hsr
  have hother : ∀ x, x ≠ e.id → u.stored x = t.stored x := fun x hx => by
    rw [hstored, Function.update_of_ne hx]
  have hul : HeightsOf u.stored l := hsl.congr fun x hx => hother x (by grind)
  have hur : HeightsOf u.stored r := hsr.congr fun x hx => hother x (by grind)
  have hbal := balance_heights hrep hul hur
  obtain ⟨k, hk⟩ := hrep.nodes_eq (s := .left)
  -- heights outside of the rebuilt subtree, over both steps
  have hrebuilt : ∀ {t' : BinarySearchTree K V} {S : BinaryTree (Entry K V)}, Rebuilt u t' c S →
      Rebuilt t t' c S := fun hS =>
    ⟨hS.represents, hS.balanced, hS.heights, fun x hx =>
      (hS.frame x hx).trans (hother x (by grind))⟩
  simp only [rebalance, Option.bind_eq_bind, Option.bind_some, hu, hbal, hk]
  split
  case isTrue hpos =>
    obtain ⟨el, ll, lr, rfl⟩ := exists_join (t := l) .left (by rintro rfl; simp at hpos; omega)
    have hb := balance_heights (c := ⟨.left, e, r⟩ :: c) hrep (heightsOf_join.1 hul).2.1
      (heightsOf_join.1 hul).2.2
    obtain ⟨t', S, ht', hsize', hS, hinorder, hlow, hhigh, -⟩ :=
      rotate_inner_heights (s := .left) ((ll.height : Int) - lr.height < 0) hrep hl hr hul hur
        (by omega) (by omega)
    refine ⟨t', S, ?_, hsize'.trans hsize, hrebuilt hS, hinorder, by omega, by omega, by omega⟩
    simpa [cell, hb, rotateRight, rotateLeft, Side.other] using ht'
  case isFalse hpos =>
    split
    case isTrue hneg =>
      obtain ⟨er, rr, rl, rfl⟩ := exists_join (t := r) .right (by rintro rfl; simp at hneg; omega)
      have hb := balance_heights (c := ⟨.right, e, l⟩ :: c) hrep (heightsOf_join.1 hur).2.2
        (heightsOf_join.1 hur).2.1
      obtain ⟨t', S, ht', hsize', hS, hinorder, hlow, hhigh, hlevel⟩ :=
        rotate_inner_heights (s := .right) ((rl.height : Int) - rr.height > 0) hrep hr hl hur hul
          (by omega) (by omega)
      refine ⟨t', S, ?_, hsize'.trans hsize, hrebuilt hS, hinorder, by omega, by omega,
        fun _ hor => ?_⟩
      swap
      · have heq := hlevel (level_join.1 (hor.resolve_left (by omega)))
        omega
      simpa [cell, hb, rotateRight, rotateLeft, Side.other] using ht'
    case isFalse hneg =>
      refine ⟨u, node e l r, rfl, hsize,
        hrebuilt ⟨hrep, ⟨hl, hr, by omega, by omega⟩, ⟨?_, hul, hur⟩,
        fun _ _ => rfl⟩, rfl, Nat.le_succ _, Nat.le_refl _, fun _ _ => rfl⟩
      rw [hstored, Function.update_self]
      rfl

theorem modify_self {f : Node K V → Node K V} (hn : t.nodes a = some n) (hf : f n = n) :
    t.modify a f = some t := by
  rw [modify_eq hn, hf, ← hn, Function.update_eq_self]

/-- `rebalance` of a node of a balanced subtree with the right heights changes nothing. -/
theorem rebalance_self (h : Represents t (plug c (node e l r))) (hbal : Balanced (node e l r))
    (hstored : HeightsOf t.stored (node e l r)) : t.rebalance (some e.id) = some t := by
  obtain ⟨-, -, hle, hge⟩ := hbal
  obtain ⟨hroot, hl, hr⟩ := hstored
  obtain ⟨k, hk⟩ := h.nodes_eq (s := .left)
  obtain ⟨hleft, hright, hexl, hexr⟩ := children_exist h hk
  have hupdate : t.updateHeight e.id = some t := by
    rw [updateHeight_eq hk (hleft ▸ hexl) (hright ▸ hexr)]
    refine modify_self hk ?_
    have hheight : k = max l.height r.height + 1 := by
      simpa [stored, hk, cell] using hroot
    rw [hleft, hright, hl.heightAt_ptr, hr.heightAt_ptr, Nat.add_comm, ← hheight]
    rfl
  have hbalance := balance_heights h hl hr
  simp only [rebalance, Option.bind_eq_bind, Option.bind_some, hupdate, hbalance]
  rw [if_neg (by omega), if_neg (by omega)]

namespace Rebuilt

variable {S : BinaryTree (Entry K V)}

/-- `rebalance` of the node above a subtree that was rebuilt. -/
theorem rebalance (h : Rebuilt t t' (⟨s, e, far⟩ :: c) S) (hfar : Balanced far)
    (hstored : HeightsOf t.stored far) (hle : S.height ≤ far.height + 2)
    (hge : far.height ≤ S.height + 2) :
    ∃ t'' S', t'.rebalance (some e.id) = some t'' ∧ t''.size = t'.size ∧ Rebuilt t t'' c S' ∧
      S'.inorder = (join s e S far).inorder ∧ max S.height far.height ≤ S'.height ∧
      S'.height ≤ max S.height far.height + 1 ∧
      (S.height ≤ far.height + 1 → (far.height ≤ S.height + 1 ∨ s = .left ∧ far.Level) →
        S'.height = max S.height far.height + 1) := by
  have hfar' : HeightsOf t'.stored far := hstored.congr fun x hx =>
    h.frame x (mem_ctxIds_cons.2 (.inr (.inl hx)))
  have hframe : ∀ {t'' : BinarySearchTree K V} {S' : BinaryTree (Entry K V)},
      Rebuilt t' t'' c S' → Rebuilt t t'' c S' := fun hS =>
    ⟨hS.represents, hS.balanced, hS.heights, fun x hx =>
      (hS.frame x hx).trans (h.frame x (mem_ctxIds_cons.2 (.inr (.inr hx))))⟩
  cases s with
  | left =>
      obtain ⟨t'', S', ht'', hsize, hS, hinorder, hlow, hhigh, hlevel⟩ :=
        rebalance_heights h.represents h.balanced hfar h.heights hfar' hle hge
      exact ⟨t'', S', ht'', hsize, hframe hS, hinorder, hlow, hhigh, fun hone hor =>
        hlevel hone (hor.imp_right And.right)⟩
  | right =>
      obtain ⟨t'', S', ht'', hsize, hS, hinorder, hlow, hhigh, hlevel⟩ :=
        rebalance_heights h.represents hfar h.balanced hfar' h.heights hge hle
      rw [Nat.max_comm] at hlow hhigh hlevel
      exact ⟨t'', S', ht'', hsize, hframe hS, hinorder, hlow, hhigh, fun hone hor =>
        hlevel (hor.resolve_right nofun) (.inl hone)⟩

/-- `rebalance` of a node within a subtree that was rebuilt changes nothing. -/
theorem rebalance_self (h : Rebuilt t t' c S) (ha : a ∈ ids S) :
    t'.rebalance (some a) = some t' := by
  obtain ⟨c', e, l, r, rfl, rfl⟩ := Represents.exists_focus ha
  have hrep := h.represents
  rw [← plug_append] at hrep
  exact BinarySearchTree.rebalance_self hrep h.balanced.of_plug h.heights.of_plug

end Rebuilt

end CrosKernel.Containers.BinarySearchTree
