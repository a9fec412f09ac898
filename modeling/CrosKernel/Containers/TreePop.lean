import CrosKernel.Containers.TreeSession

/-!
# `pop_min` and `pop_max`

Both take a reference to the value of the outermost node, remove the key of that node and return
the reference. `remove` does not delete the node with the key but the one at the end of a chain of
successors, so what the reference shows afterwards is the value that the chain leaves in the
outermost node, if it leaves the node there at all: `Excise.mem_movedFrom`. `pop_iff` says for
which trees this is the value that was taken out.
-/

namespace CrosKernel.Containers

open BinaryTree Lib

variable {K V : Type}

/-- The node whose pair the node `y` holds after the pairs moved along a chain, each to the node
before it. The last node is gone. -/
def movedFrom : List Addr → Addr → Option Addr
  | [], y => some y
  | [a], y => if y = a then none else some y
  | a :: b :: chain, y => (movedFrom (b :: chain) y).map fun x => if x = a then b else x

namespace Excise

variable {chain : List Addr} {A B L : List (Entry K V)} {e : Entry K V}

/-- One move of a pair, from the node of `e'` to the node `a` next to it. -/
theorem exists_source {a b : Addr} {rest : List Addr} {x e' : Entry K V} {E E' : List (Entry K V)}
    (hnodup : (E'.map Entry.id).Nodup) (hx : x ∈ E') (hmoved : { e' with id := a } ∈ E')
    (he' : e' ∈ E) (hb : e'.id = b) (hstay : ∀ z ∈ E', z.id ≠ a → z ∈ E) {y : Addr}
    (hy : movedFrom (b :: rest) y = some x.id) :
    ∃ z ∈ E, movedFrom (a :: b :: rest) y = some z.id ∧ z.key = x.key ∧ z.value = x.value := by
  by_cases hid : x.id = a
  · obtain rfl : x = { e' with id := a } := List.inj_on_of_nodup_map hnodup hx hmoved hid
    exact ⟨e', he', by simp [movedFrom, hy, hb], rfl, rfl⟩
  · exact ⟨x, hstay x hx hid, by simp [movedFrom, hy, hid], rfl, rfl⟩

/-- The pairs that are left were where the moves along the chain take them from. -/
theorem mem_movedFrom {y : Entry K V} (h : Excise chain A e B L)
    (hnodup : ((A ++ e :: B).map Entry.id).Nodup) (hy : y ∈ L) :
    ∃ x ∈ A ++ e :: B, movedFrom chain y.id = some x.id ∧ x.key = y.key ∧ x.value = y.value := by
  induction h with
  | last A e B =>
      have hmem : y ∈ A ++ e :: B := by
        simp only [List.mem_append, List.mem_cons] at hy ⊢
        tauto
      have hne : y.id ≠ e.id := by
        rw [List.map_append, List.map_cons, List.nodup_middle, List.nodup_cons, ← List.map_append]
          at hnodup
        exact fun heq => hnodup.1 (heq ▸ List.mem_map_of_mem hy)
      exact ⟨y, hmem, by simp [movedFrom, hne], rfl, rfl⟩
  | @next chain A e e' B L hex ih =>
      obtain ⟨rest, rfl⟩ := hex.exists_cons
      have hnodup' : (((A ++ [{ e' with id := e.id }]) ++ e' :: B).map Entry.id).Nodup := by
        simpa using hnodup
      obtain ⟨x, hx, hmoved, hkey, hvalue⟩ := ih hnodup' hy
      obtain ⟨z, hz, hz'⟩ := exists_source (E := A ++ e :: e' :: B) hnodup' hx
        (a := e.id) (by simp) (by simp) (rfl : e'.id = _) (fun z hz hne => by
          simp only [List.mem_append, List.mem_cons, List.not_mem_nil, or_false] at hz ⊢
          rcases hz with (hz | rfl) | hz
          exacts [.inl hz, absurd rfl hne, .inr (.inr hz)]) hmoved
      exact ⟨z, hz, hz'.1, hz'.2.1.trans hkey, hz'.2.2.trans hvalue⟩
  | @prev chain A e e' B L hex ih =>
      obtain ⟨rest, rfl⟩ := hex.exists_cons
      have hnodup' : ((A ++ e' :: { e' with id := e.id } :: B).map Entry.id).Nodup := by
        simpa using hnodup
      obtain ⟨x, hx, hmoved, hkey, hvalue⟩ := ih hnodup' hy
      obtain ⟨z, hz, hz'⟩ := exists_source (E := A ++ [e'] ++ e :: B) hnodup' hx
        (a := e.id) (by simp) (by simp) (rfl : e'.id = _) (fun z hz hne => by
          simp only [List.mem_append, List.mem_cons, List.not_mem_nil, or_false] at hz ⊢
          rcases hz with hz | rfl | rfl | hz
          exacts [.inl (.inl hz), .inl (.inr rfl), absurd rfl hne, .inr (.inr hz)]) hmoved
      exact ⟨z, hz, hz'.1, hz'.2.1.trans hkey, hz'.2.2.trans hvalue⟩

/-- A node that the moves along the chain leave a pair in is left. -/
theorem mem_ids_of_movedFrom {a : Addr} (h : Excise chain A e B L)
    (ha : a ∈ (A ++ e :: B).map Entry.id) (hmoved : movedFrom chain a ≠ none) :
    a ∈ L.map Entry.id := by
  induction h with
  | last A e B =>
      have hne : a ≠ e.id := fun heq => hmoved (by simp [movedFrom, heq])
      simp only [List.map_append, List.map_cons, List.mem_append, List.mem_cons, hne,
        false_or] at ha ⊢
      exact ha
  | next hex ih =>
      obtain ⟨rest, rfl⟩ := hex.exists_cons
      exact ih (by simpa using ha) fun hnone => hmoved (by simp [movedFrom, hnone])
  | prev hex ih =>
      obtain ⟨rest, rfl⟩ := hex.exists_cons
      exact ih (by simpa using ha) fun hnone => hmoved (by simp [movedFrom, hnone])

end Excise

namespace BinarySearchTree

variable {t t' : BinarySearchTree K V}

/-- The node at the end of the loop of `pop_min` and `peek_min`, on the left, or of `pop_max` and
`peek_max`, on the right. -/
def outermost (s : Side) (t : BinarySearchTree K V) : Option Addr := do
  let cur ← t.root
  t.walk s t.fuel cur

variable [LinearOrder K]

/-- The common body of `pop_min` and `pop_max`. The reference returned is the address of the node
that it points into. -/
def pop (s : Side) (t : BinarySearchTree K V) : Option (Addr × BinarySearchTree K V) := do
  let cur ← t.outermost s
  let n ← t.nodes cur
  let t ← removeRec n.key t.fuel t t.root
  pure (cur, t)

/-- `pop_min`. -/
def popMin (t : BinarySearchTree K V) : Option (Addr × BinarySearchTree K V) := t.pop .left

/-- `pop_max`. -/
def popMax (t : BinarySearchTree K V) : Option (Addr × BinarySearchTree K V) := t.pop .right

/-- The key is the smallest or the largest one of the pairs. -/
def Outermost (s : Side) (key : K) (M : Multiset (K × V)) : Prop :=
  ∀ p ∈ M, match s with
    | .left => key ≤ p.1
    | .right => p.1 ≤ key

/-- What `pop_min` and `pop_max` are for: the reference shows a value stored with the outermost
key, and the pairs that remain are all but that one. -/
def Pops (s : Side) (t : BinarySearchTree K V) (M : Multiset (K × V)) : Prop :=
  ∃ c t' n key M', t.pop s = some (c, t') ∧ t'.nodes c = some n ∧
    M = (key, n.value) ::ₘ M' ∧ Outermost s key M ∧ Shows t' M'

/-- `remove` of the key of the outermost node leaves in that node, `c`, the pair of some node `a`,
and its value is the one of the node `d` that the search for the key finds. -/
def KeepsValue (s : Side) (t : BinarySearchTree K V) : Prop :=
  ∃ c n d m a o, t.outermost s = some c ∧ t.nodes c = some n ∧
    t.searchRec n.key = some (some d) ∧ t.nodes d = some m ∧
    movedFrom (t.successorChain (t.fuel + 1) d) c = some a ∧ t.nodes a = some o ∧
    o.value = m.value

/-- A tree that is not empty has an outermost node, and no key lies further out. -/
theorem Holds.outermost {E : List (Entry K V)} (s : Side) (h : Holds t E) (hne : E ≠ []) :
    ∃ e ∈ E, t.outermost s = some e.id ∧
      Outermost s e.key (E.map Entry.pair : Multiset (K × V)) := by
  obtain ⟨T, hrep, hsorted, hsize, rfl⟩ := h
  have hnil : T ≠ nil := fun hT => hne (by rw [hT, inorder_nil])
  obtain ⟨cur, hcur⟩ := Option.ne_none_iff_exists'.1 fun hp => hnil (ptr_eq_none.1 hp)
  obtain ⟨c, e, far, rfl, hside, hwalk⟩ :=
    walk_spec (s := s) hrep.rep hcur (show T.numNodes ≤ t.fuel by simp only [fuel]; omega)
  refine ⟨e, ?_, by simp [BinarySearchTree.outermost, hrep.root_eq, hcur, hwalk], ?_⟩
  · rw [inorder_plug]
    cases s <;> simp [join]
  · rw [SortedKeys, inorder_plug] at hsorted
    rw [inorder_plug]
    intro p hp
    obtain ⟨x, hx, rfl⟩ := List.mem_map.1 (Multiset.mem_coe.1 hp)
    cases s with
    | left =>
        rw [before_of_spine hside] at hsorted hx
        simp only [join, inorder_node, inorder_nil, List.nil_append, List.cons_append,
          List.pairwise_cons, List.mem_cons] at hsorted hx
        rcases hx with rfl | hx
        exacts [le_rfl, hsorted.1 x hx]
    | right =>
        rw [after_of_spine hside] at hsorted hx
        simp only [join, inorder_node, inorder_nil, List.append_nil, ← List.append_assoc,
          List.pairwise_append, List.mem_append, List.mem_singleton] at hsorted hx
        rcases hx with hx | rfl
        exacts [hsorted.2.2 x hx e rfl, le_rfl]

/-- A state shows the pairs that it stores and no others. -/
theorem Holds.eq_of_shows {E : List (Entry K V)} {M : Multiset (K × V)} (h : Holds t E)
    (hM : Shows t M) : M = (E.map Entry.pair : Multiset (K × V)) := by
  obtain ⟨L, hL, -, rfl⟩ := hM.traverse
  rw [Option.some.inj (hL.symm.trans h.traverse)]

theorem Holds.pop_iff_keepsValue {E : List (Entry K V)} (s : Side) (h : Holds t E) (hne : E ≠ []) :
    Pops s t (E.map Entry.pair) ↔ KeepsValue s t := by
  obtain ⟨c, hc, hcur, hout⟩ := h.outermost s hne
  obtain ⟨n, hn, hnkey, -⟩ := h.exists_node hc
  obtain ⟨t', E', ht', hE', hrem⟩ := h.remove c.key
  have hpop : t.pop s = some (c.id, t') := by
    rw [BinarySearchTree.remove] at ht'
    simp [pop, hcur, hn, hnkey, ht']
  have hstores : Stores t' (E'.map Entry.pair) := ⟨E', hE', rfl⟩
  obtain ⟨-, -, habsent⟩ | ⟨A, d, B, hE, hdkey, hfound, -, hex⟩ := hrem
  · exact absurd rfl (habsent c hc)
  have hdmem : d ∈ E := hE ▸ List.mem_append_right A List.mem_cons_self
  obtain ⟨m, hm, -, hmvalue⟩ := h.exists_node hdmem
  have hpairs : (E.map Entry.pair : Multiset (K × V)) =
      (d.key, d.value) ::ₘ (E'.map Entry.pair : Multiset (K × V)) := by
    rw [hE, hex.map_pair, List.map_append, List.map_cons]
    exact Multiset.coe_eq_coe.2 List.perm_middle
  have hnodup : ((A ++ d :: B).map Entry.id).Nodup := hE ▸ h.nodup
  constructor
  · rintro ⟨c', u, k, key, M', hpop', hk, hM, -, hshows⟩
    obtain ⟨rfl, rfl⟩ := Prod.mk.inj (Option.some.inj (hpop.symm.trans hpop'))
    obtain ⟨x, hx, hmoved, -, hxvalue⟩ := hex.mem_movedFrom hnodup (hE'.mem_of_nodes hk)
    obtain ⟨o, ho, -, hovalue⟩ := h.exists_node (hE ▸ hx)
    rw [hE'.eq_of_shows hshows, hpairs] at hM
    have hvalue : d.value = k.value :=
      congrArg Prod.snd ((Multiset.cons_inj_left _).1 hM)
    refine ⟨c.id, n, d.id, m, x.id, o, hcur, hn, hnkey ▸ hfound, hm, hmoved, ho, ?_⟩
    rw [hovalue, hxvalue, hmvalue, hvalue]
  · rintro ⟨c', n', d', m', a, o, hcur', hn', hfound', hm', hmoved, ho, hvalue⟩
    obtain rfl := Option.some.inj (hcur.symm.trans hcur')
    obtain rfl := Option.some.inj (hn.symm.trans hn')
    rw [hnkey, hfound] at hfound'
    obtain rfl := Option.some.inj (Option.some.inj hfound')
    obtain rfl := Option.some.inj (hm.symm.trans hm')
    have hleft : c.id ∈ E'.map Entry.id := by
      refine hex.mem_ids_of_movedFrom (hE ▸ List.mem_map_of_mem hc) ?_
      rw [hmoved]
      simp
    obtain ⟨y, hy, hyid⟩ := List.mem_map.1 hleft
    obtain ⟨k, hk, -, hkvalue⟩ := hE'.exists_node hy
    obtain ⟨x, hx, hmoved', -, hxvalue⟩ := hex.mem_movedFrom hnodup hy
    obtain ⟨o', ho', -, hovalue'⟩ := h.exists_node (hE ▸ hx)
    rw [hyid, hmoved] at hmoved'
    obtain rfl := Option.some.inj hmoved'
    obtain rfl := Option.some.inj (ho.symm.trans ho')
    rw [hyid] at hk
    refine ⟨c.id, t', k, c.key, _, hpop, hk, ?_, hout, hstores.shows⟩
    rw [hpairs, hdkey, hkvalue, ← hxvalue, ← hovalue', hvalue, hmvalue]

/-- In every state that calls of `insert` and `remove` lead to and that is not empty, `pop_min` and
`pop_max` return a value with the outermost key and leave the other pairs if and only if `remove`
leaves that value in the outermost node. -/
theorem pop_iff {ops : List (Operation K V)}
    (h : Run Step (BinarySearchTree.empty : BinarySearchTree K V) ops t) (hne : t.size ≠ 0) :
    ∃ M, Run RefStep 0 ops M ∧ Shows t M ∧ (Pops .left t M ↔ KeepsValue .left t) ∧
      (Pops .right t M ↔ KeepsValue .right t) := by
  obtain ⟨M, hrun, E, hE, rfl⟩ := run_stores h
  have hnil : E ≠ [] := by
    rintro rfl
    exact hne hE.size_eq
  exact ⟨_, hrun, Stores.shows ⟨E, hE, rfl⟩, hE.pop_iff_keepsValue .left hnil,
    hE.pop_iff_keepsValue .right hnil⟩

theorem pop_iff_one :
    ∃ t, Run Step (BinarySearchTree.empty : BinarySearchTree Nat Nat) [.insert 1 10] t ∧
      ∃ M, Run RefStep 0 [.insert 1 10] M ∧ Shows t M ∧
        (Pops .left t M ↔ KeepsValue .left t) ∧ (Pops .right t M ↔ KeepsValue .right t) := by
  have hrun : Run Step (BinarySearchTree.empty : BinarySearchTree Nat Nat) [.insert 1 10] _ :=
    .single (.insert (a := 0) rfl rfl)
  exact ⟨_, hrun, pop_iff hrun (by decide)⟩

/-- With one pair in the tree the node that the reference points into is deleted. -/
theorem not_pops_one :
    ¬ ∀ (ops : List (Operation Nat Nat)) (t : BinarySearchTree Nat Nat) (M : Multiset (Nat × Nat)),
      Run Step BinarySearchTree.empty ops t → t.size ≠ 0 → Shows t M →
        Pops .left t M ∧ Pops .right t M := by
  intro h
  have hrun : Run Step (BinarySearchTree.empty : BinarySearchTree Nat Nat) [.insert 1 10] _ :=
    .single (.insert (a := 0) rfl rfl)
  obtain ⟨M, -, hstores⟩ := run_stores hrun
  obtain ⟨⟨c, t', n, key, M', hpop, hn, -⟩, -⟩ := h _ _ M hrun (by decide) hstores.shows
  cases hpop
  cases hn

end BinarySearchTree

end CrosKernel.Containers
