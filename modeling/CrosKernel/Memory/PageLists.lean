import CrosKernel.Lib.Buddies
import CrosKernel.Lib.LinkRing
import CrosKernel.Memory.PageAllocator

/-!
# The lists of the page allocator

`Lists` says that the list of each order is a ring through `blockMap`, that the blocks on a list
carry its order, and that exactly the blocks on the lists are tagged free. The operations on the
pointers keep it: `unlink_spec`, `link_spec`, `pop_spec` and `split_spec`.
-/

namespace CrosKernel.Memory

open Lib

namespace PageAllocator

/-- The forward pointers of the blocks. -/
def forward (blocks : BlockPtr → Block) (p : BlockPtr) : BlockPtr := (blocks p).linkf

/-- The backward pointers of the blocks. -/
def backward (blocks : BlockPtr → Block) (p : BlockPtr) : BlockPtr := (blocks p).linkb

/-- The blocks `l` of `blockMap` are the list of order `k`. -/
def AvailList (blocks : BlockPtr → Block) (k : Nat) (l : List Nat) : Prop :=
  Ring (forward blocks) (backward blocks) (.availList k) (l.map .blockMap)

/-- The lists of the orders up to `maxKVal` are `lists`. -/
structure Lists (maxKVal numBlocks : Nat) (blocks : BlockPtr → Block) (lists : Nat → List Nat) :
    Prop where
  ring : ∀ k ≤ maxKVal, AvailList blocks k (lists k)
  le : ∀ k, ∀ i ∈ lists k, k ≤ maxKVal
  lt : ∀ k, ∀ i ∈ lists k, i < numBlocks
  kval : ∀ k, ∀ i ∈ lists k, (blocks (.blockMap i)).kval = k
  free : ∀ i < numBlocks, (blocks (.blockMap i)).tag = .FREE ↔ ∃ k, i ∈ lists k

/-- The blocks on the lists, with their orders. -/
def freeBlocks (lists : Nat → List Nat) : Set (Nat × Nat) := {b | b.1 ∈ lists b.2}

variable {a : PageAllocator} {blocks blocks' : BlockPtr → Block} {lists : Nat → List Nat}
  {maxKVal numBlocks i k : Nat} {p q : BlockPtr} {b : Block} {l r : List Nat}

@[simp]
theorem mem_freeBlocks : (i, k) ∈ freeBlocks lists ↔ i ∈ lists k := Iff.rfl

theorem load_eq (h : InBounds a.numBlocks p) : a.load p = some (a.blocks p) := if_pos h

theorem store_eq (h : InBounds a.numBlocks p) :
    a.store p b = some { a with blocks := Function.update a.blocks p b } := if_pos h

@[simp]
theorem numBlocks_with (blocks : BlockPtr → Block) :
    ({ a with blocks := blocks } : PageAllocator).numBlocks = a.numBlocks := rfl

@[simp]
theorem numBlocks_with_count (count : Nat) :
    ({ a with freeBlockCount := count } : PageAllocator).numBlocks = a.numBlocks := rfl

@[simp]
theorem forward_update :
    forward (Function.update blocks p b) = Function.update (forward blocks) p b.linkf := by
  funext q
  by_cases hq : q = p <;> simp [forward, hq]

@[simp]
theorem backward_update :
    backward (Function.update blocks p b) = Function.update (backward blocks) p b.linkb := by
  funext q
  by_cases hq : q = p <;> simp [backward, hq]

/-- Lists of different orders have different blocks. -/
theorem Lists.order_unique (h : Lists maxKVal numBlocks blocks lists) {j : Nat}
    (hi : i ∈ lists k) (hi' : i ∈ lists j) : k = j :=
  (h.kval k i hi).symm.trans (h.kval j i hi')

/-- The pointers of a ring stay in the arrays. -/
theorem Lists.inBounds (h : Lists maxKVal numBlocks blocks lists) (hmax : maxKVal < availListSize)
    (hk : k ≤ maxKVal) (hp : p ∈ BlockPtr.availList k :: (lists k).map .blockMap) :
    InBounds numBlocks p := by
  rcases List.mem_cons.1 hp with rfl | hp
  · show k < availListSize
    omega
  · obtain ⟨i, hi, rfl⟩ := List.mem_map.1 hp
    exact h.lt k i hi

/-- A pointer of one ring is not in the ring of another order. -/
theorem Lists.not_mem_ring (h : Lists maxKVal numBlocks blocks lists) {j : Nat} (hne : j ≠ k)
    (hp : p ∈ BlockPtr.availList k :: (lists k).map .blockMap) :
    p ∉ BlockPtr.availList j :: (lists j).map .blockMap := by
  intro hp'
  rcases List.mem_cons.1 hp with rfl | hp
  · simp [hne.symm] at hp'
  · obtain ⟨i, hi, rfl⟩ := List.mem_map.1 hp
    obtain ⟨i', hi', heq⟩ : ∃ i' ∈ lists j, BlockPtr.blockMap i' = .blockMap i := by
      simpa using hp'
    cases heq
    exact hne (h.order_unique hi' hi)

/-- One list changes when the blocks of all others stay. -/
theorem Lists.change (h : Lists maxKVal numBlocks blocks lists) (hk : k ≤ maxKVal)
    (hring : AvailList blocks' k l)
    (hsame : ∀ j, j ≠ k → ∀ p ∈ BlockPtr.availList j :: (lists j).map .blockMap,
      blocks' p = blocks p)
    (hnew : ∀ i ∈ l, i < numBlocks ∧ (blocks' (.blockMap i)).kval = k)
    (hfree : ∀ i < numBlocks, (blocks' (.blockMap i)).tag = .FREE ↔
      i ∈ l ∨ ∃ j, j ≠ k ∧ i ∈ lists j) :
    Lists maxKVal numBlocks blocks' (Function.update lists k l) where
  ring j hj := by
    by_cases hjk : j = k
    · subst hjk
      rwa [Function.update_self]
    · rw [Function.update_of_ne hjk]
      refine (h.ring j hj).congr (fun p hp => ?_) (fun p hp => ?_)
      · simp only [forward, hsame j hjk p hp]
      · simp only [backward, hsame j hjk p hp]
  le j i hi := by
    by_cases hjk : j = k
    · rwa [hjk]
    · rw [Function.update_of_ne hjk] at hi
      exact h.le j i hi
  lt j i hi := by
    by_cases hjk : j = k
    · subst hjk
      rw [Function.update_self] at hi
      exact (hnew i hi).1
    · rw [Function.update_of_ne hjk] at hi
      exact h.lt j i hi
  kval j i hi := by
    by_cases hjk : j = k
    · subst hjk
      rw [Function.update_self] at hi
      exact (hnew i hi).2
    · rw [Function.update_of_ne hjk] at hi
      rw [hsame j hjk _ (List.mem_cons_of_mem _ (List.mem_map_of_mem hi))]
      exact h.kval j i hi
  free i hi := by
    rw [hfree i hi]
    constructor
    · rintro (hil | ⟨j, hjk, hij⟩)
      · exact ⟨k, by rwa [Function.update_self]⟩
      · exact ⟨j, by rwa [Function.update_of_ne hjk]⟩
    · rintro ⟨j, hij⟩
      by_cases hjk : j = k
      · subst hjk
        rw [Function.update_self] at hij
        exact .inl hij
      · rw [Function.update_of_ne hjk] at hij
        exact .inr ⟨j, hjk, hij⟩

/-! ## Taking a block out of its list -/

/-- The blocks after `x` has left the ring between `before` and `behind`. -/
def unlinked (blocks : BlockPtr → Block) (x : BlockPtr) : BlockPtr → Block := fun p =>
  { linkf := if p = (blocks x).linkb then (blocks x).linkf else (blocks p).linkf
    linkb := if p = (blocks x).linkf then (blocks x).linkb else (blocks p).linkb
    kval := (blocks p).kval
    tag := if p = x then .RESERVED else (blocks p).tag }

theorem Lists.unlinked (h : Lists maxKVal numBlocks blocks lists) (hk : k ≤ maxKVal)
    (hl : lists k = l ++ i :: r) :
    Lists maxKVal numBlocks (unlinked blocks (.blockMap i)) (Function.update lists k (l ++ r)) := by
  have hlist : i ∈ lists k := by simp [hl]
  have hring := h.ring k hk
  obtain ⟨⟨hbehind, -⟩, hbefore, -⟩ := hring.mem_neighbours (List.mem_map_of_mem hlist)
  have hnot : i ∉ l ++ r := by
    have hnodup := (List.nodup_cons.1 hring.nodup).2
    rw [hl] at hnodup
    exact (List.nodup_middle.1 (List.Nodup.of_map _ hnodup)).notMem
  rw [AvailList, hl, List.map_append, List.map_cons] at hring
  refine h.change hk ?_ ?_ ?_ ?_
  · rw [AvailList, List.map_append]
    refine hring.unlink.congr (fun p _ => ?_) (fun p _ => ?_)
    · simp only [forward, backward, PageAllocator.unlinked, Function.update_apply]
    · simp only [forward, backward, PageAllocator.unlinked, Function.update_apply]
  · intro j hjk p hp
    have hne : ∀ q ∈ BlockPtr.availList k :: (lists k).map .blockMap, p ≠ q := by
      rintro q hq rfl
      exact h.not_mem_ring hjk hq hp
    have hb : p ≠ (blocks (.blockMap i)).linkb := hne _ hbehind
    have hf : p ≠ (blocks (.blockMap i)).linkf := hne _ hbefore
    have hx : p ≠ .blockMap i := hne _ (List.mem_cons_of_mem _ (List.mem_map_of_mem hlist))
    simp [PageAllocator.unlinked, hb, hf, hx]
  · intro j hj
    have hold : j ∈ lists k := by
      rw [hl]
      simp only [List.mem_append, List.mem_cons] at hj ⊢
      tauto
    exact ⟨h.lt k j hold, h.kval k j hold⟩
  · intro j hj
    show (if BlockPtr.blockMap j = .blockMap i then Tag.RESERVED else (blocks (.blockMap j)).tag) =
      .FREE ↔ _
    by_cases hji : j = i
    · subst hji
      simp only [if_true, reduceCtorEq, false_iff, not_or, not_exists, not_and]
      exact ⟨hnot, fun j' hj' hmem' => hj' (h.order_unique hmem' hlist)⟩
    · rw [if_neg (by simpa using hji), h.free j hj]
      constructor
      · rintro ⟨j', hj'⟩
        by_cases hjk : j' = k
        · subst hjk
          rw [hl] at hj'
          simp only [List.mem_append, List.mem_cons, hji, false_or] at hj'
          exact .inl (List.mem_append.2 hj')
        · exact .inr ⟨j', hjk, hj'⟩
      · rintro (hold | ⟨j', -, hj'⟩)
        · refine ⟨k, ?_⟩
          rw [hl]
          simp only [List.mem_append, List.mem_cons] at hold ⊢
          tauto
        · exact ⟨j', hj'⟩

/-- `unlink` takes a block out of its list and reserves it. -/
theorem unlink_eq (h : Lists a.maxKVal a.numBlocks a.blocks lists)
    (hmax : a.maxKVal < availListSize)
    (hi : i ∈ lists k) :
    a.unlink i = some { a with blocks := unlinked a.blocks (.blockMap i) } := by
  have hk := h.le k i hi
  have hx : InBounds a.numBlocks (.blockMap i) := h.lt k i hi
  obtain ⟨⟨hbehind, hbx⟩, hbefore, hfx⟩ := (h.ring k hk).mem_neighbours (List.mem_map_of_mem hi)
  have hb : InBounds a.numBlocks (a.blocks (.blockMap i)).linkb := h.inBounds hmax hk hbehind
  have hf : InBounds a.numBlocks (a.blocks (.blockMap i)).linkf := h.inBounds hmax hk hbefore
  simp only [backward, forward] at hbx hfx
  simp only [unlink, load, store, hx, hb, hf, if_true, Option.bind_eq_bind, Option.bind_some,
    numBlocks_with, Function.update_of_ne hbx.symm, Function.update_of_ne hfx.symm]
  congr 2
  funext p
  simp only [unlinked, Function.update_apply]
  by_cases hpx : p = .blockMap i
  · simp [hpx, hbx.symm, hfx.symm]
  · by_cases hpf : p = (a.blocks (.blockMap i)).linkf
    · by_cases hpb : p = (a.blocks (.blockMap i)).linkb
      · simp [← hpf, ← hpb, hpx]
      · simp [← hpf, hpx, hpb]
    · by_cases hpb : p = (a.blocks (.blockMap i)).linkb
      · simp [← hpb, hpx, hpf]
      · simp [hpx, hpb, hpf]

/-- The list whose head does not point to itself has a last block, and `pop` takes it out. -/
theorem pop_eq (h : Lists a.maxKVal a.numBlocks a.blocks lists) (hmax : a.maxKVal < availListSize)
    (hl : lists k = l ++ [i]) :
    a.pop k = some ({ a with blocks := unlinked a.blocks (.blockMap i) }, .blockMap i) := by
  have hi : i ∈ lists k := by simp [hl]
  have hk := h.le k i hi
  have hhead : InBounds a.numBlocks (.availList k) := h.inBounds hmax hk List.mem_cons_self
  have hx : InBounds a.numBlocks (.blockMap i) := h.lt k i hi
  have hring := h.ring k hk
  obtain ⟨⟨hbehind, hbx⟩, -, -⟩ := hring.mem_neighbours (List.mem_map_of_mem hi)
  have hb : InBounds a.numBlocks (a.blocks (.blockMap i)).linkb := h.inBounds hmax hk hbehind
  rw [AvailList, hl, List.map_append, List.map_singleton] at hring
  obtain ⟨hnext, hprev⟩ := hring.prev_head
  simp only [forward, backward] at hnext hprev hbx
  have hne : BlockPtr.blockMap i ≠ .availList k := by simp
  simp only [pop, load, store, hhead, hx, hb, hprev, if_true, Option.bind_eq_bind,
    Option.bind_some, numBlocks_with, Function.update_of_ne hne,
    Function.update_of_ne hbx.symm, Option.pure_def]
  congr 3
  funext p
  simp only [unlinked, hnext, Function.update_apply]
  by_cases hpx : p = .blockMap i
  · simp [hpx, hbx.symm, hnext]
  · by_cases hpb : p = (a.blocks (.blockMap i)).linkb
    · by_cases hph : p = .availList k
      · simp [← hpb, hph]
      · simp [← hpb, hpx, hph]
    · by_cases hph : p = .availList k
      · simp only [hpx, hpb, if_false]
        simp [hph]
      · simp [hpx, hpb, hph]

/-! ## Putting a block into a list -/

/-- The blocks after the block at `index` has entered the list of order `k`. -/
def linked (blocks : BlockPtr → Block) (k index : Nat) : BlockPtr → Block := fun p =>
  if p = .blockMap index then ⟨(blocks (.availList k)).linkf, .availList k, k, .FREE⟩
  else
    { linkf := if p = .availList k then .blockMap index else (blocks p).linkf
      linkb := if p = (blocks (.availList k)).linkf then .blockMap index else (blocks p).linkb
      kval := (blocks p).kval
      tag := (blocks p).tag }

theorem Lists.linked (h : Lists maxKVal numBlocks blocks lists) (hk : k ≤ maxKVal)
    (hi : i < numBlocks) (hnew : ∀ j, i ∉ lists j) :
    Lists maxKVal numBlocks (linked blocks k i) (Function.update lists k (i :: lists k)) := by
  have hring := h.ring k hk
  have hx : BlockPtr.blockMap i ∉ BlockPtr.availList k :: (lists k).map .blockMap := by
    simpa using hnew k
  have hfirst := hring.next_head_mem
  refine h.change hk ?_ ?_ ?_ ?_
  · refine (hring.link hx).congr (fun p hp => ?_) (fun p hp => ?_)
    · by_cases hpx : p = .blockMap i
      · subst hpx
        simp [forward, PageAllocator.linked]
      · simp [forward, PageAllocator.linked, hpx, Function.update_apply]
    · by_cases hpx : p = .blockMap i
      · subst hpx
        have hne : BlockPtr.blockMap i ≠ forward blocks (.availList k) := fun heq =>
          hx (heq ▸ hfirst)
        simp [backward, PageAllocator.linked, Function.update_of_ne hne]
      · simp [forward, backward, PageAllocator.linked, hpx, Function.update_apply]
  · intro j hjk p hp
    have hpx : p ≠ .blockMap i := by
      rintro rfl
      exact hnew j (by simpa using hp)
    have hne : ∀ q ∈ BlockPtr.availList k :: (lists k).map .blockMap, p ≠ q := by
      rintro q hq rfl
      exact h.not_mem_ring hjk hq hp
    have hph : p ≠ .availList k := hne _ List.mem_cons_self
    have hpf : p ≠ (blocks (.availList k)).linkf := hne _ hfirst
    simp [PageAllocator.linked, hpx, hph, hpf]
  · intro j hj
    by_cases hji : j = i
    · exact ⟨hji ▸ hi, by simp [PageAllocator.linked, hji]⟩
    · have hold : j ∈ lists k := by simpa [hji] using hj
      exact ⟨h.lt k j hold, by simp [PageAllocator.linked, hji, h.kval k j hold]⟩
  · intro j hj
    by_cases hji : j = i
    · simp [PageAllocator.linked, hji]
    · have htag : (PageAllocator.linked blocks k i (.blockMap j)).tag =
          (blocks (.blockMap j)).tag := by simp [PageAllocator.linked, hji]
      rw [htag, h.free j hj, List.mem_cons, or_iff_right hji]
      constructor
      · rintro ⟨j', hj'⟩
        by_cases hjk : j' = k
        · exact .inl (hjk ▸ hj')
        · exact .inr ⟨j', hjk, hj'⟩
      · rintro (hold | ⟨j', -, hj'⟩)
        · exact ⟨k, hold⟩
        · exact ⟨j', hj'⟩

/-- `link` puts a block that is on no list into the list of order `k`. -/
theorem link_eq (h : Lists a.maxKVal a.numBlocks a.blocks lists) (hmax : a.maxKVal < availListSize)
    (hk : k ≤ a.maxKVal) (hi : i < a.numBlocks) (hnew : ∀ j, i ∉ lists j) :
    a.link i k = some { a with blocks := linked a.blocks k i } := by
  have hhead : InBounds a.numBlocks (.availList k) := h.inBounds hmax hk List.mem_cons_self
  have hx : InBounds a.numBlocks (.blockMap i) := hi
  have hfirst := (h.ring k hk).next_head_mem
  have hf : InBounds a.numBlocks (a.blocks (.availList k)).linkf := h.inBounds hmax hk hfirst
  have hfx : (a.blocks (.availList k)).linkf ≠ .blockMap i := by
    intro heq
    rw [forward, heq] at hfirst
    exact hnew k (by simpa using hfirst)
  simp only [link, load, store, hhead, hx, hf, if_true, Option.bind_eq_bind, Option.bind_some,
    numBlocks_with, Function.update_of_ne hfx]
  congr 2
  funext p
  simp only [linked, Function.update_apply]
  by_cases hpx : p = .blockMap i
  · simp [hpx, hfx.symm]
  · by_cases hpf : p = (a.blocks (.availList k)).linkf
    · by_cases hph : p = .availList k
      · simp [← hpf, hph]
      · simp [← hpf, hph, hpx]
    · by_cases hph : p = .availList k
      · simp only [hpf, hpx, if_false]
        rw [hph] at hpf
        simp [hph, hpf]
      · simp [hph, hpx, hpf]

/-! ## Splitting a block -/

/-- The blocks after the block at `index` has been halved to order `j`, and the upper half has
become the only block of the list of that order. -/
def halved (blocks : BlockPtr → Block) (index j : Nat) : BlockPtr → Block := fun p =>
  if p = .blockMap (index + 2 ^ j) then ⟨.availList j, .availList j, j, .FREE⟩
  else if p = .blockMap index then { blocks p with kval := j }
  else if p = .availList j then
    { blocks p with linkf := .blockMap (index + 2 ^ j), linkb := .blockMap (index + 2 ^ j) }
  else blocks p

theorem Lists.halved {index j : Nat} (h : Lists maxKVal numBlocks blocks lists) (hj : j ≤ maxKVal)
    (hlt : index + 2 ^ j < numBlocks) (hempty : lists j = []) (hindex : ∀ k, index ∉ lists k)
    (hnew : ∀ k, index + 2 ^ j ∉ lists k) :
    Lists maxKVal numBlocks (halved blocks index j)
      (Function.update lists j [index + 2 ^ j]) := by
  refine h.change hj ?_ ?_ ?_ ?_
  · refine ⟨?_, by simp⟩
    rw [List.map_singleton, List.singleton_append, links_cons_cons, links_cons_cons]
    refine ⟨⟨?_, ?_⟩, ⟨?_, ?_⟩, .singleton _⟩ <;>
      simp [forward, backward, PageAllocator.halved]
  · intro k hkj p hp
    have hpx : p ≠ .blockMap (index + 2 ^ j) := by
      rintro rfl
      exact hnew k (by simpa using hp)
    have hpi : p ≠ .blockMap index := by
      rintro rfl
      exact hindex k (by simpa using hp)
    have hph : p ≠ .availList j := by
      rintro rfl
      simp [hkj.symm] at hp
    simp [PageAllocator.halved, hpx, hpi, hph]
  · intro i hi
    rw [List.mem_singleton] at hi
    exact ⟨hi ▸ hlt, by simp [PageAllocator.halved, hi]⟩
  · intro i hi
    rw [List.mem_singleton]
    by_cases hix : i = index + 2 ^ j
    · simp [PageAllocator.halved, hix]
    · have htag : (PageAllocator.halved blocks index j (.blockMap i)).tag =
          (blocks (.blockMap i)).tag := by
        by_cases hii : i = index <;> simp [PageAllocator.halved, hix, hii]
      rw [htag, h.free i hi, or_iff_right hix]
      constructor
      · rintro ⟨k, hk⟩
        refine ⟨k, ?_, hk⟩
        rintro rfl
        rw [hempty] at hk
        cases hk
      · rintro ⟨k, -, hk⟩
        exact ⟨k, hk⟩

/-- One pass of the loop of `reserve`. -/
theorem splitLoop_succ {index remaining : Nat} (hmax : k + remaining < availListSize)
    (hlt : index + 2 ^ (k + remaining) < a.numBlocks) :
    a.splitLoop index k (remaining + 1) =
      splitLoop { a with blocks := halved a.blocks index (k + remaining) } index k remaining := by
  have hpos : 0 < 2 ^ (k + remaining) := Nat.two_pow_pos _
  have hbuddy : InBounds a.numBlocks (.blockMap (index + 2 ^ (k + remaining))) := hlt
  have hhead : InBounds a.numBlocks (.availList (k + remaining)) := hmax
  have hindex : InBounds a.numBlocks (.blockMap index) := by
    show index < a.numBlocks
    omega
  rw [splitLoop]
  simp only [load, store, hbuddy, hhead, hindex, if_true, Option.bind_eq_bind, Option.bind_some,
    numBlocks_with]
  congr 2
  funext p
  simp only [halved, Function.update_apply]
  by_cases hpb : p = .blockMap (index + 2 ^ (k + remaining))
  · simp [hpb]
  · by_cases hpi : p = .blockMap index
    · simp [hpi]
    · by_cases hph : p = .availList (k + remaining)
      · simp [hph]
      · simp [hpb, hpi, hph]

end PageAllocator

end CrosKernel.Memory
