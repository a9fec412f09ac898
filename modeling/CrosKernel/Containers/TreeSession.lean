import CrosKernel.Containers.TreeInsert
import CrosKernel.Lib.Run
import Mathlib.Data.Multiset.AddSub

/-!
# The tree refines a multiset of pairs

Over every sequence of `insert` and `remove` calls the tree stores the multiset of pairs that the
reference operations compute: `tree_refines_multiset`. `search_spec` and `traverse_spec` say what
the reading operations return; the searches rely on the keys being sorted, which `insert_spec` and
`remove_spec` keep although equal keys may stand on either side of a node.
-/

namespace CrosKernel.Containers.BinarySearchTree

open BinaryTree Lib

variable {K V : Type} {t t' : BinarySearchTree K V} {T : BinaryTree (Entry K V)}

/-- The node of an entry stores its key and value. -/
theorem exists_node_of_mem {e : Entry K V} (h : Represents t T) (he : e ∈ T.inorder) :
    ∃ n, t.nodes e.id = some n ∧ n.key = e.key ∧ n.value = e.value := by
  obtain ⟨c, l, r, rfl⟩ := exists_plug he
  obtain ⟨k, hk⟩ := h.nodes_eq (s := .left)
  exact ⟨_, hk, rfl, rfl⟩

/-- The traversal lists the pairs of the tree in order. -/
theorem traverse_spec (fuel : Nat) {p : Option Addr} {S : BinaryTree (Entry K V)}
    (h : Rep t.nodes p S) (hfuel : S.numNodes ≤ fuel) :
    t.traverse fuel (ptr S) = some (pairs S) := by
  induction S generalizing p fuel with
  | nil => cases fuel <;> rfl
  | node e l r hl hr =>
      obtain ⟨⟨k, hk⟩, hrepl, hrepr⟩ := h
      cases fuel with
      | zero => simp at hfuel
      | succ fuel =>
          simp only [numNodes] at hfuel
          simp [traverse, hk, cell, hl fuel hrepl (by omega), hr fuel hrepr (by omega), pairs,
            Entry.pair]

/-- Another value in the entry at the address `a`. -/
def setValue (a : Addr) (value : V) (e : Entry K V) : Entry K V :=
  if e.id = a then { e with value := value } else e

@[simp]
theorem setValue_id (a : Addr) (value : V) (e : Entry K V) : (setValue a value e).id = e.id := by
  unfold setValue
  split <;> rfl

@[simp]
theorem setValue_key (a : Addr) (value : V) (e : Entry K V) :
    (setValue a value e).key = e.key := by
  unfold setValue
  split <;> rfl

/-- Two states that differ at most in values. -/
structure SameShape (t t' : BinarySearchTree K V) : Prop where
  root : t'.root = t.root
  size : t'.size = t.size
  nodes : ∀ x, (t'.nodes x).map (fun n => (n.key, n.left, n.right)) =
    (t.nodes x).map fun n => (n.key, n.left, n.right)

theorem SameShape.refl (t : BinarySearchTree K V) : SameShape t t := ⟨rfl, rfl, fun _ => rfl⟩

theorem SameShape.trans {t₁ t₂ t₃ : BinarySearchTree K V} (h : SameShape t₁ t₂)
    (h' : SameShape t₂ t₃) : SameShape t₁ t₃ :=
  ⟨h'.root.trans h.root, h'.size.trans h.size, fun x => (h'.nodes x).trans (h.nodes x)⟩

theorem SameShape.sameChildren (h : SameShape t t') : SameChildren t t' := by
  refine ⟨h.size, fun x => ?_⟩
  have hx := congrArg (Option.map fun y : K × Option Addr × Option Addr => y.2) (h.nodes x)
  simpa [Option.map_map, Function.comp_def] using hx

theorem sameShape_set_value {a : Addr} {n : Node K V} (value : V) (ha : t.nodes a = some n) :
    SameShape t { t with
      nodes := Function.update t.nodes a (some { n with value := value }) } := by
  refine ⟨rfl, rfl, fun x => ?_⟩
  by_cases hx : x = a
  · subst hx
    simp [ha]
  · simp [hx]

section Order

variable [LinearOrder K]

theorem searchLoop_congr (h : SameShape t t') (key : K) (fuel : Nat) (p : Option Addr) :
    t'.searchLoop key fuel p = t.searchLoop key fuel p := by
  induction fuel generalizing p with
  | zero => cases p <;> rfl
  | succ fuel ih =>
      cases p with
      | none => rfl
      | some a =>
          have ha := h.nodes a
          cases hn : t.nodes a with
          | none => simp_all [searchLoop]
          | some n =>
              obtain ⟨n', hn', heq⟩ := Option.map_eq_some_iff.1 (ha.trans (by rw [hn]; rfl))
              simp only [Prod.mk.injEq] at heq
              simp [searchLoop, hn, hn', heq.1, heq.2.1, heq.2.2, ih]

theorem searchRec_congr (h : SameShape t t') (key : K) : t'.searchRec key = t.searchRec key := by
  rw [searchRec, searchRec, searchLoop_congr h, h.root, fuel, fuel, h.size]

omit [LinearOrder K] in
theorem SameShape.key_eq (h : SameShape t t') (a : Addr) :
    (t'.nodes a).map Node.key = (t.nodes a).map Node.key := by
  have ha := congrArg (Option.map fun y : K × Option Addr × Option Addr => y.1) (h.nodes a)
  simpa [Option.map_map, Function.comp_def] using ha

theorem find_congr (h : SameShape t t') (key : K) : t'.find key = t.find key := by
  have hfind : ∀ u : BinarySearchTree K V, u.find key = (u.searchRec key).bind fun p =>
      p.elim u.root fun a =>
        ((u.nodes a).map Node.key).bind fun y => if y ≠ key then u.root else some a := by
    intro u
    rw [find]
    cases u.searchRec key with
    | none => rfl
    | some p =>
        cases p with
        | none => rfl
        | some a => cases hn : u.nodes a <;> simp [hn]
  rw [hfind, hfind, searchRec_congr h]
  simp only [h.key_eq, h.root]

theorem contains_congr (h : SameShape t t') (key : K) : t'.contains key = t.contains key := by
  have hcontains : ∀ u : BinarySearchTree K V, u.contains key = (u.searchRec key).bind fun p =>
      p.elim (some false) fun a => ((u.nodes a).map Node.key).map fun y => decide (y = key) := by
    intro u
    rw [contains]
    cases u.searchRec key with
    | none => rfl
    | some p =>
        cases p with
        | none => rfl
        | some a => cases hn : u.nodes a <;> simp [hn]
  rw [hcontains, hcontains, searchRec_congr h]
  simp only [h.key_eq]

/-- The loop of `search_rec` ends at an entry that has the key if any entry has it. -/
theorem search_spec (key : K) (fuel : Nat) {p : Option Addr} {S : BinaryTree (Entry K V)}
    (h : Rep t.nodes p S) (hsorted : SortedKeys S.inorder) (hfuel : S.numNodes ≤ fuel)
    (hne : S ≠ nil) :
    ∃ e ∈ S.inorder, t.searchLoop key fuel (ptr S) = some (some e.id) ∧
      ∀ x ∈ S.inorder, x.key = key → e.key = key := by
  induction S generalizing p fuel with
  | nil => exact absurd rfl hne
  | node e l r hl hr =>
      obtain ⟨⟨k, hk⟩, hrepl, hrepr⟩ := h
      obtain ⟨hsl, hsr, hle, hge⟩ := sortedKeys_node.1 hsorted
      cases fuel with
      | zero => simp at hfuel
      | succ fuel =>
          simp only [numNodes] at hfuel
          rcases lt_trichotomy key e.key with hlt | heq | hgt
          · have honly : ∀ x ∈ (node e l r).inorder, x.key = key → x ∈ l.inorder := by
              intro x hx hkey
              simp only [inorder_node, List.mem_append, List.mem_cons] at hx
              rcases hx with hx | rfl | hx
              exacts [hx, absurd hkey hlt.ne', absurd hkey (hlt.trans_le (hge x hx)).ne']
            cases hp : ptr l with
            | none =>
                obtain rfl := ptr_eq_none.1 hp
                refine ⟨e, by simp, by simp [searchLoop, hk, cell, hlt], fun x hx hkey => ?_⟩
                cases honly x hx hkey
            | some b =>
                have hnil : l ≠ nil := by
                  rintro rfl
                  cases hp
                obtain ⟨e', he', hsearch, hfound⟩ := hl fuel hrepl hsl (by omega) hnil
                refine ⟨e', by simp [he'], ?_, fun x hx hkey => hfound x (honly x hx hkey) hkey⟩
                rw [hp] at hsearch
                simp [searchLoop, hk, cell, hlt, hp, hsearch]
          · exact ⟨e, by simp, by simp [searchLoop, hk, heq], fun _ _ _ => heq.symm⟩
          · have honly : ∀ x ∈ (node e l r).inorder, x.key = key → x ∈ r.inorder := by
              intro x hx hkey
              simp only [inorder_node, List.mem_append, List.mem_cons] at hx
              rcases hx with hx | rfl | hx
              exacts [absurd hkey ((hle x hx).trans_lt hgt).ne, absurd hkey hgt.ne, hx]
            cases hp : ptr r with
            | none =>
                obtain rfl := ptr_eq_none.1 hp
                refine ⟨e, by simp, ?_, fun x hx hkey => ?_⟩
                · simp [searchLoop, hk, cell, hgt, hgt.not_gt]
                · cases honly x hx hkey
            | some b =>
                have hnil : r ≠ nil := by
                  rintro rfl
                  cases hp
                obtain ⟨e', he', hsearch, hfound⟩ := hr fuel hrepr hsr (by omega) hnil
                refine ⟨e', by simp [he'], ?_, fun x hx hkey => hfound x (honly x hx hkey) hkey⟩
                rw [hp] at hsearch
                simp [searchLoop, hk, cell, hgt, hgt.not_gt, hp, hsearch]

/-- `contains` says whether an entry has the key. -/
theorem contains_spec (key : K) (h : Represents t T) (hsorted : SortedKeys T.inorder)
    (hsize : T.numNodes ≤ t.size) :
    ∃ b, t.contains key = some b ∧ (b = true ↔ ∃ e ∈ T.inorder, e.key = key) := by
  by_cases hne : T = nil
  · subst hne
    have hroot : t.root = none := h.root_eq
    exact ⟨false, by simp [contains, searchRec, hroot, fuel, searchLoop], by simp⟩
  · obtain ⟨e, he, hsearch, hfound⟩ :=
      search_spec key t.fuel h.rep hsorted (by simp only [fuel]; omega) hne
    obtain ⟨n, hn, hkey, -⟩ := exists_node_of_mem h he
    refine ⟨decide (e.key = key), ?_, ?_⟩
    · simp [contains, searchRec, h.root_eq, hsearch, hn, hkey]
    · rw [decide_eq_true_iff]
      constructor
      · exact fun heq => ⟨e, he, heq⟩
      · rintro ⟨x, hx, heq⟩
        exact hfound x hx heq

/-- When an entry has the key, `get` refers to the node of such an entry. -/
theorem find_spec (key : K) (h : Represents t T) (hsorted : SortedKeys T.inorder)
    (hsize : T.numNodes ≤ t.size) (hkey : ∃ e ∈ T.inorder, e.key = key) :
    ∃ e ∈ T.inorder, e.key = key ∧ t.find key = some e.id := by
  obtain ⟨x, hx, hxkey⟩ := hkey
  have hne : T ≠ nil := by
    rintro rfl
    cases hx
  obtain ⟨e, he, hsearch, hfound⟩ :=
    search_spec key t.fuel h.rep hsorted (by simp only [fuel]; omega) hne
  obtain ⟨n, hn, hnkey, -⟩ := exists_node_of_mem h he
  have hekey := hfound x hx hxkey
  exact ⟨e, he, hekey, by simp [find, searchRec, h.root_eq, hsearch, hn, hnkey, hekey]⟩

/-! ## The entries of a state -/

/-- The state `t` stores the entries `E`, which are sorted by key, and the size counts them. -/
def Holds (t : BinarySearchTree K V) (E : List (Entry K V)) : Prop :=
  ∃ T, Represents t T ∧ SortedKeys T.inorder ∧ t.size = T.numNodes ∧ T.inorder = E

theorem Inserts.sortedKeys {new : Entry K V} {L L' : List (Entry K V)} (h : Inserts new L L')
    (hsorted : SortedKeys L) : SortedKeys L' := by
  obtain ⟨A, B, rfl, rfl, hA, hB⟩ := h
  simp only [SortedKeys, List.pairwise_append, List.pairwise_cons, List.mem_cons] at hsorted ⊢
  obtain ⟨hAs, hBs, hAB⟩ := hsorted
  refine ⟨hAs, ⟨hB, hBs⟩, ?_⟩
  rintro x hx y (rfl | hy)
  exacts [hA x hx, hAB x hx y hy]

theorem sortedKeys_iff {L : List (Entry K V)} :
    SortedKeys L ↔ (L.map Entry.pair).Pairwise fun p q => p.1 ≤ q.1 := by
  rw [List.pairwise_map]
  rfl

theorem sortedKeys_of_excise {chain : List Addr} {A B L : List (Entry K V)}
    {e : Entry K V} (h : Excise chain A e B L) (hsorted : SortedKeys (A ++ e :: B)) :
    SortedKeys L := by
  rw [sortedKeys_iff] at hsorted ⊢
  rw [h.map_pair]
  refine hsorted.sublist ?_
  rw [List.map_append]
  exact (List.map_cons .. ▸ List.sublist_cons_self ..).append_left _

namespace Holds

variable {E : List (Entry K V)}

theorem empty : Holds (BinarySearchTree.empty : BinarySearchTree K V) [] :=
  ⟨nil, .empty, List.Pairwise.nil, rfl, rfl⟩

theorem sorted (h : Holds t E) : SortedKeys E := by
  obtain ⟨T, -, hsorted, -, rfl⟩ := h
  exact hsorted

theorem nodup (h : Holds t E) : (E.map Entry.id).Nodup := by
  obtain ⟨T, hrep, -, -, rfl⟩ := h
  exact hrep.nodup

theorem size_eq (h : Holds t E) : t.size = E.length := by
  obtain ⟨T, -, -, hsize, rfl⟩ := h
  rw [hsize, length_inorder]

/-- The nodes of the state are those of its entries. -/
theorem exists_node {e : Entry K V} (h : Holds t E) (he : e ∈ E) :
    ∃ n, t.nodes e.id = some n ∧ n.key = e.key ∧ n.value = e.value := by
  obtain ⟨T, hrep, -, -, rfl⟩ := h
  exact exists_node_of_mem hrep he

theorem mem_of_nodes {a : Addr} {n : Node K V} (h : Holds t E) (ha : t.nodes a = some n) :
    ⟨a, n.key, n.value⟩ ∈ E := by
  have h' := h
  obtain ⟨T, hrep, -, -, rfl⟩ := h
  obtain ⟨e, he, rfl⟩ := List.mem_map.1 (hrep.mem_ids ha)
  obtain ⟨n', hn', hkey, hvalue⟩ := h'.exists_node he
  obtain rfl := Option.some.inj (hn'.symm.trans ha)
  rwa [hkey, hvalue]

theorem traverse (h : Holds t E) : t.traverse t.fuel t.root = some (E.map Entry.pair) := by
  obtain ⟨T, hrep, -, hsize, rfl⟩ := h
  rw [hrep.root_eq]
  exact traverse_spec _ hrep.rep (by simp only [fuel]; omega)

theorem contains (h : Holds t E) (key : K) :
    ∃ b, t.contains key = some b ∧ (b = true ↔ ∃ e ∈ E, e.key = key) := by
  obtain ⟨T, hrep, hsorted, hsize, rfl⟩ := h
  exact contains_spec key hrep hsorted (by omega)

theorem find (h : Holds t E) {key : K} (hkey : ∃ e ∈ E, e.key = key) :
    ∃ e ∈ E, e.key = key ∧ t.find key = some e.id := by
  obtain ⟨T, hrep, hsorted, hsize, rfl⟩ := h
  exact find_spec key hrep hsorted (by omega) hkey

theorem insert (h : Holds t E) (new : Entry K V) (hfresh : t.nodes new.id = none) :
    ∃ t' E', t.insert new.key new.value new.id = some t' ∧ Holds t' E' ∧ Inserts new E E' := by
  obtain ⟨T, hrep, hsorted, hsize, rfl⟩ := h
  obtain ⟨t', T', ht', hsize', h', hins⟩ := insert_spec hrep hfresh hsorted (by omega)
  refine ⟨t', _, ht', ⟨T', h', hins.sortedKeys hsorted, ?_, rfl⟩, hins⟩
  obtain ⟨A, B, hL, hL', -⟩ := hins
  rw [hsize', hsize, ← length_inorder, ← length_inorder, hL, hL']
  simp
  omega

theorem remove (h : Holds t E) (key : K) :
    ∃ t' E', t.remove key = some t' ∧ Holds t' E' ∧ Removes t key E (t.searchRec key) t' E' := by
  obtain ⟨T, hrep, hsorted, hsize, rfl⟩ := h
  obtain ⟨t', T', ht', h', hrem⟩ := remove_spec key hrep hsorted (by omega)
  refine ⟨t', _, ht', ⟨T', h', ?_, ?_, rfl⟩, hrem⟩
  · rcases hrem with ⟨-, hL, -⟩ | ⟨A, e, B, hL, -, -, -, hex⟩
    · exact hL ▸ hsorted
    · exact sortedKeys_of_excise hex (hL ▸ hsorted)
  · rcases hrem with ⟨hsize', hL, -⟩ | ⟨A, e, B, hL, -, -, hsize', hex⟩
    · rw [hsize', hsize, ← length_inorder, ← length_inorder, hL]
    · have hlen := hex.length_eq
      rw [← hL, length_inorder, length_inorder] at hlen
      omega

/-- `get` returns the value of the entry that `remove` deletes. -/
theorem remove_found (h : Holds t E) {key : K} (hkey : ∃ e ∈ E, e.key = key) :
    ∃ A e B t' E', E = A ++ e :: B ∧ e.key = key ∧ t.get key = some e.value ∧
      t.remove key = some t' ∧ Holds t' E' ∧
      E'.map Entry.pair = A.map Entry.pair ++ B.map Entry.pair ∧
      ∀ a, t.nodes a = none → t'.nodes a = none := by
  obtain ⟨t', E', ht', hE', ⟨-, -, habsent⟩ | ⟨A, e, B, hE, hekey, hfound, -, hex⟩⟩ := h.remove key
  · obtain ⟨e, he, heq⟩ := hkey
    exact absurd heq (habsent e he)
  · refine ⟨A, e, B, t', E', hE, hekey, ?_, ht', hE', hex.map_pair, fun a ha => ?_⟩
    · obtain ⟨n, hn, hnkey, hvalue⟩ :=
        h.exists_node (hE ▸ List.mem_append_right A List.mem_cons_self)
      have hfind : t.find key = some e.id := by
        simp [BinarySearchTree.find, hfound, hn, hnkey, hekey]
      simp [BinarySearchTree.get, hfind, hn, hvalue]
    · -- the nodes that are left are nodes of before
      cases hn : t'.nodes a with
      | none => rfl
      | some n =>
          obtain ⟨d, -, hperm⟩ := hex.exists_perm
          have hid : a ∈ E'.map Entry.id := List.mem_map_of_mem (hE'.mem_of_nodes hn)
          have hmem : a ∈ E.map Entry.id := hE ▸ hperm.mem_iff.2 (List.mem_cons_of_mem d hid)
          obtain ⟨x, hx, rfl⟩ := List.mem_map.1 hmem
          obtain ⟨m, hm, -⟩ := h.exists_node hx
          rw [ha] at hm
          cases hm

/-- Assigning to the value of a node changes one entry. -/
theorem set_value {a : Addr} {n : Node K V} (value : V) (h : Holds t E)
    (ha : t.nodes a = some n) :
    Holds { t with nodes := Function.update t.nodes a (some { n with value := value }) }
      (E.map (setValue a value)) := by
  have hmem := h.mem_of_nodes ha
  obtain ⟨T, hrep, hsorted, hsize, rfl⟩ := h
  have heq : ∀ e ∈ T.inorder, setPair a n.key value e = setValue a value e := by
    intro e he
    by_cases hid : e.id = a
    · subst hid
      have hkey : n.key = e.key :=
        congrArg Entry.key (List.inj_on_of_nodup_map hrep.nodup hmem he rfl)
      simp [setPair, setValue, hkey]
    · simp [setPair, setValue, hid]
  have hinorder : (T.map (setPair a n.key value)).inorder = T.inorder.map (setValue a value) := by
    rw [inorder_map, List.map_congr_left heq]
  refine ⟨_, represents_set_pair n.key value hrep ha, ?_, by simp [hsize], hinorder⟩
  rw [hinorder, SortedKeys, List.pairwise_map]
  simpa [SortedKeys] using hsorted

end Holds

/-! ## Sequences of calls -/

/-- The calls that change a tree. -/
inductive Operation (K V : Type) where
  | insert (key : K) (value : V)
  | remove (key : K)

/-- A call of the code. `new` returns some address that is not in use. -/
inductive Step : BinarySearchTree K V → Operation K V → BinarySearchTree K V → Prop where
  | insert {t t' : BinarySearchTree K V} {key : K} {value : V} {a : Addr} :
      t.nodes a = none → t.insert key value a = some t' → Step t (.insert key value) t'
  | remove {t t' : BinarySearchTree K V} {key : K} :
      t.remove key = some t' → Step t (.remove key) t'

/-- The reference: a multiset of pairs, of which `remove` deletes exactly one with the key. -/
inductive RefStep : Multiset (K × V) → Operation K V → Multiset (K × V) → Prop where
  | insert (M : Multiset (K × V)) (key : K) (value : V) :
      RefStep M (.insert key value) ((key, value) ::ₘ M)
  | remove (M : Multiset (K × V)) (key : K) (value : V) :
      RefStep ((key, value) ::ₘ M) (.remove key) M
  | absent {M : Multiset (K × V)} {key : K} :
      (∀ value, (key, value) ∉ M) → RefStep M (.remove key) M

/-- The invariant of a run: the pairs stored are those of the reference. -/
def Stores (t : BinarySearchTree K V) (M : Multiset (K × V)) : Prop :=
  ∃ E, Holds t E ∧ (E.map Entry.pair : Multiset (K × V)) = M

/-- What a caller sees of a tree that stores the pairs `M`. -/
structure Shows (t : BinarySearchTree K V) (M : Multiset (K × V)) : Prop where
  traverse : ∃ L : List (K × V), t.traverse t.fuel t.root = some L ∧
    (L.Pairwise fun p q => p.1 ≤ q.1) ∧ (L : Multiset (K × V)) = M
  size : t.size = M.card
  contains : ∀ key, ∃ b, t.contains key = some b ∧ (b = true ↔ ∃ value, (key, value) ∈ M)
  get : ∀ key value, (key, value) ∈ M → ∃ value', t.get key = some value' ∧ (key, value') ∈ M
  insert : ∀ key value a, t.nodes a = none → (t.insert key value a).isSome
  remove : ∀ key, (t.remove key).isSome

omit [LinearOrder K] in
theorem mem_pairs {E : List (Entry K V)} {key : K} {value : V} :
    (key, value) ∈ (E.map Entry.pair : Multiset (K × V)) ↔
      ∃ e ∈ E, e.key = key ∧ e.value = value := by
  simp [Entry.pair]

/-- A call of `insert` succeeds and adds its pair to the reference. -/
theorem Stores.insert {M : Multiset (K × V)} {a : Addr} (key : K) (value : V) (h : Stores t M)
    (hfresh : t.nodes a = none) :
    ∃ t', t.insert key value a = some t' ∧ Stores t' ((key, value) ::ₘ M) := by
  obtain ⟨E, hE, rfl⟩ := h
  obtain ⟨t', E', ht', hE', A, B, rfl, rfl, -⟩ := hE.insert ⟨a, key, value⟩ hfresh
  refine ⟨t', ht', _, hE', ?_⟩
  rw [List.map_append, List.map_append, List.map_cons]
  exact Multiset.coe_eq_coe.2 List.perm_middle

/-- A call of `remove` succeeds and deletes one pair with the key from the reference, if any. -/
theorem Stores.remove {M : Multiset (K × V)} (key : K) (h : Stores t M) :
    ∃ t' M', t.remove key = some t' ∧ RefStep M (.remove key) M' ∧ Stores t' M' := by
  obtain ⟨E, hE, rfl⟩ := h
  obtain ⟨t', E', ht', hE', ⟨-, rfl, habsent⟩ | ⟨A, e, B, rfl, rfl, -, -, hex⟩⟩ := hE.remove key
  · refine ⟨t', _, ht', .absent fun value hmem => ?_, _, hE', rfl⟩
    obtain ⟨e, he, hkey, -⟩ := mem_pairs.1 hmem
    exact habsent e he hkey
  · have hpairs : ((A ++ e :: B).map Entry.pair : Multiset (K × V)) =
        (e.key, e.value) ::ₘ (E'.map Entry.pair : Multiset (K × V)) := by
      rw [hex.map_pair, List.map_append, List.map_cons]
      exact Multiset.coe_eq_coe.2 List.perm_middle
    exact ⟨t', _, ht', hpairs ▸ .remove .., E', hE', rfl⟩

/-- What a caller sees of a state that stores `M`. -/
theorem Stores.shows {M : Multiset (K × V)} (h : Stores t M) : Shows t M := by
  have hstores := h
  obtain ⟨E, hE, rfl⟩ := h
  refine ⟨⟨_, hE.traverse, sortedKeys_iff.1 hE.sorted, rfl⟩, by simp [hE.size_eq], fun key => ?_,
    fun key value hmem => ?_, fun key value a hfresh => ?_, fun key => ?_⟩
  · obtain ⟨b, hb, hiff⟩ := hE.contains key
    refine ⟨b, hb, hiff.trans ⟨fun ⟨e, he, hkey⟩ => ⟨e.value, ?_⟩, fun ⟨value, hmem⟩ => ?_⟩⟩
    · exact mem_pairs.2 ⟨e, he, hkey, rfl⟩
    · obtain ⟨e, he, hkey, -⟩ := mem_pairs.1 hmem
      exact ⟨e, he, hkey⟩
  · obtain ⟨x, hx, hxkey, -⟩ := mem_pairs.1 hmem
    obtain ⟨e, he, hkey, hfind⟩ := hE.find ⟨x, hx, hxkey⟩
    obtain ⟨n, hn, -, hvalue⟩ := hE.exists_node he
    exact ⟨e.value, by simp [get, hfind, hn, hvalue], mem_pairs.2 ⟨e, he, hkey, rfl⟩⟩
  · obtain ⟨t', ht', -⟩ := hstores.insert key value hfresh
    simp [ht']
  · obtain ⟨t', M', ht', -⟩ := hstores.remove key
    simp [ht']

/-- Every run is one of the reference, and the tree stores its pairs. -/
theorem run_stores {ops : List (Operation K V)}
    (h : Run Step (empty : BinarySearchTree K V) ops t) :
    ∃ M, Run RefStep 0 ops M ∧ Stores t M := by
  have hinit : Stores (empty : BinarySearchTree K V) 0 := ⟨[], .empty, rfl⟩
  refine h.simulation hinit fun s op s' M hs hstep => ?_
  cases hstep with
  | insert hfresh heq =>
      obtain ⟨t', ht', hs'⟩ := hs.insert _ _ hfresh
      obtain rfl := Option.some.inj (ht'.symm.trans heq)
      exact ⟨_, .insert .., hs'⟩
  | remove heq =>
      obtain ⟨t', M', ht', hstep', hs'⟩ := hs.remove _
      obtain rfl := Option.some.inj (ht'.symm.trans heq)
      exact ⟨M', hstep', hs'⟩

/-- Over every sequence of calls the tree stores exactly the pairs of the reference, in order, and
no call follows a null pointer or the pointer of a deleted node. -/
theorem tree_refines_multiset {ops : List (Operation K V)}
    (h : Run Step (empty : BinarySearchTree K V) ops t) :
    ∃ M, Run RefStep 0 ops M ∧ Shows t M := by
  obtain ⟨M, hrun, hstores⟩ := run_stores h
  exact ⟨M, hrun, hstores.shows⟩

theorem tree_refines_multiset_three :
    ∃ t, Run Step (empty : BinarySearchTree Nat Nat) [.insert 2 20, .insert 1 10, .remove 2] t ∧
      t.traverse t.fuel t.root = some [(1, 10)] ∧
      ∃ M, Run RefStep 0 [.insert 2 20, .insert 1 10, .remove 2] M ∧ Shows t M := by
  have hrun : Run Step (empty : BinarySearchTree Nat Nat)
      [.insert 2 20, .insert 1 10, .remove 2] _ :=
    .cons (.insert (a := 0) rfl rfl)
      (.cons (.insert (a := 1) rfl rfl) (.cons (.remove rfl) (.nil _)))
  exact ⟨_, hrun, rfl, tree_refines_multiset hrun⟩

end Order

end CrosKernel.Containers.BinarySearchTree
