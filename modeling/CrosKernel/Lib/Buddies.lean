import Mathlib.Algebra.BigOperators.Group.Finset.Basic
import Mathlib.Algebra.Order.Ring.Nat
import Mathlib.Data.Nat.Bitwise
import Mathlib.Data.Set.Card
import Mathlib.Data.Set.Insert
import Mathlib.Data.Set.Lattice
import Mathlib.Order.CompletePartialOrder
import Mathlib.Order.Interval.Finset.Nat
import Mathlib.Tactic.Tauto

/-!
# Buddy systems

A block of order `k` is a run of `2 ^ k` pages from a multiple of `2 ^ k` on, and its buddy is the
other half of the block of the next order. `Buddies top pages blocks` says that the blocks are
disjoint, cover exactly the given pages and contain no two buddies of an order below `top`.
`Buddies.add` and `Buddies.remove` are the two changes, and `Buddies.mem_iff` says that the blocks
are determined by the pages.
-/

namespace CrosKernel.Lib

/-- The pages of the block of order `b.2` at `b.1`. -/
def block (b : Nat × Nat) : Set Nat := {p | p / 2 ^ b.2 = b.1 / 2 ^ b.2}

/-- The index of the buddy of the block of order `k` at `i`. -/
def buddy (i k : Nat) : Nat := i ^^^ 2 ^ k

variable {i j k l p top : Nat} {b b' : Nat × Nat}

@[simp]
theorem mem_block : p ∈ block b ↔ p / 2 ^ b.2 = b.1 / 2 ^ b.2 := Iff.rfl

/-- A block contains its index. -/
theorem self_mem_block (b : Nat × Nat) : b.1 ∈ block b := rfl

/-- A block of order 0 is a page. -/
theorem block_zero (i : Nat) : block (i, 0) = {i} := by
  ext p
  simp

/-- The pages of an aligned block are those from its index on. -/
theorem mem_block_iff (halign : 2 ^ k ∣ i) : p ∈ block (i, k) ↔ i ≤ p ∧ p < i + 2 ^ k := by
  obtain ⟨q, rfl⟩ := halign
  have hpos : 0 < 2 ^ k := Nat.two_pow_pos k
  rw [mem_block, Nat.mul_div_cancel_left q hpos, Nat.div_eq_iff hpos]
  have hcomm : 2 ^ k * q = q * 2 ^ k := Nat.mul_comm _ _
  omega

/-- An aligned block is an interval. -/
theorem block_eq_Ico (halign : 2 ^ k ∣ i) : block (i, k) = ↑(Finset.Ico i (i + 2 ^ k)) := by
  ext p
  rw [mem_block_iff halign, Finset.mem_coe, Finset.mem_Ico]

theorem block_finite (halign : 2 ^ k ∣ i) : (block (i, k)).Finite :=
  block_eq_Ico halign ▸ Finset.finite_toSet _

theorem ncard_block (halign : 2 ^ k ∣ i) : (block (i, k)).ncard = 2 ^ k := by
  rw [block_eq_Ico halign, Set.ncard_coe_finset, Nat.card_Ico, Nat.add_sub_cancel_left]

/-- A block that meets a block of a smaller order contains it. -/
theorem block_subset (hle : k ≤ l) (hi : p ∈ block (i, k)) (hj : p ∈ block (j, l)) :
    block (i, k) ⊆ block (j, l) := by
  intro x hx
  have hdiv : ∀ n, n / 2 ^ l = n / 2 ^ k / 2 ^ (l - k) := by
    intro n
    rw [Nat.div_div_eq_div_mul, ← pow_add, Nat.add_sub_cancel' hle]
  simp only [mem_block] at hi hj hx ⊢
  rw [hdiv, hx, ← hi, ← hdiv, hj]

/-- Aligned blocks of one order that meet are equal. -/
theorem eq_of_mem_block (hi : 2 ^ k ∣ i) (hj : 2 ^ k ∣ j) (hpi : p ∈ block (i, k))
    (hpj : p ∈ block (j, k)) : i = j := by
  have hdiv : i / 2 ^ k = j / 2 ^ k := hpi.symm.trans hpj
  rw [← Nat.div_mul_cancel hi, ← Nat.div_mul_cancel hj, hdiv]

/-! ## Buddies of a block -/

theorem buddy_div : buddy i k / 2 ^ k = i / 2 ^ k ^^^ 1 := by
  rw [buddy, Nat.xor_div_two_pow, Nat.div_self (Nat.two_pow_pos k)]

theorem dvd_buddy (halign : 2 ^ k ∣ i) : 2 ^ k ∣ buddy i k := by
  rw [Nat.dvd_iff_mod_eq_zero, buddy, Nat.xor_mod_two_pow, Nat.mod_eq_zero_of_dvd halign,
    Nat.mod_self, Nat.xor_self]

theorem xor_one (q : Nat) : q ^^^ 1 = if q % 2 = 0 then q + 1 else q - 1 := by
  have hdiv : (q ^^^ 1) / 2 = q / 2 := by simp [Nat.xor_div_two]
  have hmod : (q ^^^ 1) % 2 = (q + 1) % 2 := by
    have hxor := Nat.xor_mod_two_pow (a := q) (b := 1) (n := 1)
    rw [pow_one] at hxor
    rcases Nat.mod_two_eq_zero_or_one q with h | h
    · rw [hxor, h]
      simp
      omega
    · rw [hxor, h]
      simp
      omega
  split <;> omega

theorem buddy_ne : buddy i k ≠ i := by
  intro h
  have hdiv := buddy_div (i := i) (k := k)
  rw [h, xor_one] at hdiv
  split at hdiv <;> omega

theorem buddy_buddy : buddy (buddy i k) k = i := by
  rw [buddy, buddy, Nat.xor_assoc, Nat.xor_self, Nat.xor_zero]

/-- A block and its buddy are disjoint. -/
theorem disjoint_buddy : Disjoint (block (i, k)) (block (buddy i k, k)) := by
  rw [Set.disjoint_left]
  intro p hp hp'
  simp only [mem_block, buddy_div, xor_one] at hp hp'
  split at hp' <;> omega

/-- A block and its buddy are the two halves of the block of the next order. -/
theorem block_union_buddy (i k : Nat) :
    block (i, k) ∪ block (buddy i k, k) = block (i, k + 1) := by
  ext p
  have hdiv : ∀ n, n / 2 ^ (k + 1) = n / 2 ^ k / 2 := by
    intro n
    rw [Nat.div_div_eq_div_mul, ← pow_succ]
  simp only [Set.mem_union, mem_block, buddy_div, xor_one, hdiv]
  generalize p / 2 ^ k = r
  generalize i / 2 ^ k = q
  split <;> omega

/-- The smaller index of two buddies is that of the block of the next order. -/
theorem dvd_min_buddy (halign : 2 ^ k ∣ i) : 2 ^ (k + 1) ∣ min i (buddy i k) := by
  have hi := Nat.div_mul_cancel halign
  have hbuddy := Nat.div_mul_cancel (dvd_buddy halign)
  rw [buddy_div, xor_one] at hbuddy
  by_cases heven : i / 2 ^ k % 2 = 0
  · rw [if_pos heven] at hbuddy
    have hmin : min i (buddy i k) = i := by
      apply min_eq_left
      rw [← hbuddy, Nat.add_mul]
      omega
    rw [hmin, pow_succ, ← hi]
    exact Nat.mul_comm 2 (2 ^ k) ▸ Nat.mul_dvd_mul (Nat.dvd_of_mod_eq_zero heven) (dvd_refl _)
  · rw [if_neg heven] at hbuddy
    have hle : (i / 2 ^ k - 1) * 2 ^ k ≤ i / 2 ^ k * 2 ^ k :=
      Nat.mul_le_mul_right _ (Nat.sub_le _ _)
    have hmin : min i (buddy i k) = buddy i k := by
      apply min_eq_right
      omega
    rw [hmin, pow_succ, ← hbuddy]
    have htwo : 2 ∣ i / 2 ^ k - 1 := by omega
    exact Nat.mul_comm 2 (2 ^ k) ▸ Nat.mul_dvd_mul htwo (dvd_refl _)

theorem block_min_buddy : block (min i (buddy i k), k + 1) = block (i, k + 1) := by
  rcases min_choice i (buddy i k) with h | h
  · rw [h]
  · rw [h, ← block_union_buddy, buddy_buddy, Set.union_comm, block_union_buddy]

/-- The upper half of an aligned block is the buddy of the lower one. -/
theorem buddy_eq_add (halign : 2 ^ (k + 1) ∣ i) : buddy i k = i + 2 ^ k := by
  have hhalf : 2 ^ k ∣ i := (pow_dvd_pow 2 (Nat.le_succ k)).trans halign
  obtain ⟨q, rfl⟩ := halign
  have hdiv : 2 ^ (k + 1) * q / 2 ^ k = 2 * q := by
    rw [pow_succ, Nat.mul_assoc, Nat.mul_div_cancel_left _ (Nat.two_pow_pos k)]
  have hbuddy := Nat.div_mul_cancel (dvd_buddy hhalf)
  rw [buddy_div, hdiv, xor_one, if_pos (by omega), Nat.add_mul, Nat.one_mul] at hbuddy
  rw [← hbuddy, pow_succ, Nat.mul_right_comm, Nat.mul_comm (2 ^ k), Nat.mul_right_comm]

/-- The pages of a block of order at most `top` that starts below `2 ^ top` lie there. -/
theorem lt_of_mem_block (hle : k ≤ top) (hi : i < 2 ^ top) (hp : p ∈ block (i, k)) :
    p < 2 ^ top := by
  have hmem : i ∈ block (0, top) := by
    rw [mem_block, Nat.div_eq_of_lt hi, Nat.zero_div]
  have hzero := block_subset hle (self_mem_block (i, k)) hmem hp
  exact (Nat.div_eq_zero_iff_lt (Nat.two_pow_pos top)).1 (hzero.trans (Nat.zero_div _))

/-- An aligned block below `2 ^ top` has its buddy below `2 ^ top`. -/
theorem buddy_lt (hk : k < top) (hi : i < 2 ^ top) : buddy i k < 2 ^ top :=
  Nat.xor_lt_two_pow hi (Nat.pow_lt_pow_right (by omega) hk)

/-! ## Families of blocks -/

/-- The blocks are aligned, of order at most `top`, disjoint, cover exactly the pages, and no two of
them below `top` are buddies. -/
structure Buddies (top : Nat) (pages : Set Nat) (blocks : Set (Nat × Nat)) : Prop where
  aligned : ∀ b ∈ blocks, 2 ^ b.2 ∣ b.1
  order_le : ∀ b ∈ blocks, b.2 ≤ top
  cover : ∀ p, p ∈ pages ↔ ∃ b ∈ blocks, p ∈ block b
  disjoint : ∀ b ∈ blocks, ∀ b' ∈ blocks, b ≠ b' → Disjoint (block b) (block b')
  coalesced : ∀ i k, (i, k) ∈ blocks → k < top → (buddy i k, k) ∉ blocks

namespace Buddies

variable {pages : Set Nat} {blocks : Set (Nat × Nat)}

/-- Without pages there are no blocks. -/
theorem empty (top : Nat) : Buddies top ∅ ∅ := by
  constructor <;> simp

theorem block_subset (h : Buddies top pages blocks) (hb : b ∈ blocks) : block b ⊆ pages :=
  fun _ hp => (h.cover _).2 ⟨b, hb, hp⟩

/-- The pages are as many as those of the blocks together. -/
theorem ncard_eq (h : Buddies top pages blocks) {s : Finset (Nat × Nat)} (hs : ↑s = blocks) :
    pages.ncard = ∑ b ∈ s, 2 ^ b.2 := by
  subst hs
  have hblock : ∀ b ∈ s, block b = ↑(Finset.Ico b.1 (b.1 + 2 ^ b.2)) := fun b hb =>
    block_eq_Ico (h.aligned b hb)
  have hpages : pages = ↑(s.biUnion fun b => Finset.Ico b.1 (b.1 + 2 ^ b.2)) := by
    ext p
    rw [h.cover, Finset.mem_coe, Finset.mem_biUnion]
    refine exists_congr fun b => and_congr_right fun hb => ?_
    rw [hblock b hb, Finset.mem_coe]
  have hdisj : (s : Set (Nat × Nat)).PairwiseDisjoint fun b =>
      Finset.Ico b.1 (b.1 + 2 ^ b.2) := by
    intro b hb b' hb' hne
    have hapart := h.disjoint b hb b' hb' hne
    rwa [hblock b hb, hblock b' hb', Finset.disjoint_coe] at hapart
  rw [hpages, Set.ncard_coe_finset, Finset.card_biUnion hdisj]
  exact Finset.sum_congr rfl fun b _ => by rw [Nat.card_Ico, Nat.add_sub_cancel_left]

/-- The pages of a block leave with it. -/
theorem remove (h : Buddies top pages blocks) (hb : b ∈ blocks) :
    Buddies top (pages \ block b) (blocks \ {b}) where
  aligned b' hb' := h.aligned b' hb'.1
  order_le b' hb' := h.order_le b' hb'.1
  cover p := by
    constructor
    · rintro ⟨hp, hnot⟩
      obtain ⟨b', hb', hpb'⟩ := (h.cover p).1 hp
      refine ⟨b', ⟨hb', ?_⟩, hpb'⟩
      rintro rfl
      exact hnot hpb'
    · rintro ⟨b', ⟨hb', hne⟩, hp⟩
      exact ⟨(h.cover p).2 ⟨b', hb', hp⟩,
        Set.disjoint_left.1 (h.disjoint b' hb' b hb hne) hp⟩
  disjoint b₁ hb₁ b₂ hb₂ hne := h.disjoint b₁ hb₁.1 b₂ hb₂.1 hne
  coalesced i k hb' hk hbuddy := h.coalesced i k hb'.1 hk hbuddy.1

/-- A new block joins the family when its buddy is not there. -/
theorem add (h : Buddies top pages blocks) (halign : 2 ^ b.2 ∣ b.1) (hle : b.2 ≤ top)
    (hdisj : Disjoint (block b) pages) (hbuddy : b.2 < top → (buddy b.1 b.2, b.2) ∉ blocks) :
    Buddies top (pages ∪ block b) (insert b blocks) where
  aligned b' hb' := by
    rcases hb' with rfl | hb'
    · exact halign
    · exact h.aligned b' hb'
  order_le b' hb' := by
    rcases hb' with rfl | hb'
    · exact hle
    · exact h.order_le b' hb'
  cover p := by
    rw [Set.mem_union, h.cover]
    constructor
    · rintro (⟨b', hb', hp⟩ | hp)
      · exact ⟨b', .inr hb', hp⟩
      · exact ⟨b, .inl rfl, hp⟩
    · rintro ⟨b', rfl | hb', hp⟩
      · exact .inr hp
      · exact .inl ⟨b', hb', hp⟩
  disjoint b₁ hb₁ b₂ hb₂ hne := by
    have hother : ∀ b' ∈ blocks, Disjoint (block b) (block b') := fun b' hb' =>
      hdisj.mono_right (h.block_subset hb')
    rcases hb₁ with rfl | hb₁
    · rcases hb₂ with rfl | hb₂
      · exact absurd rfl hne
      · exact hother b₂ hb₂
    · rcases hb₂ with rfl | hb₂
      · exact (hother b₁ hb₁).symm
      · exact h.disjoint b₁ hb₁ b₂ hb₂ hne
  coalesced i k hb' hk hb'' := by
    rcases hb' with rfl | hb'
    · rcases hb'' with heq | hb''
      · exact buddy_ne (congrArg Prod.fst heq)
      · exact hbuddy hk hb''
    · rcases hb'' with heq | hb''
      · refine hbuddy (heq ▸ hk) ?_
        rw [← heq]
        simpa only [buddy_buddy] using hb'
      · exact h.coalesced i k hb' hk hb''

/-- An aligned run of free pages lies in one block of the family. -/
theorem exists_block (h : Buddies top pages blocks) (hle : k ≤ top) (halign : 2 ^ k ∣ i)
    (hsub : block (i, k) ⊆ pages) : ∃ b ∈ blocks, k ≤ b.2 ∧ block (i, k) ⊆ block b := by
  induction k generalizing i with
  | zero =>
      obtain ⟨b, hb, hi⟩ := (h.cover i).1 (hsub (self_mem_block (i, 0)))
      exact ⟨b, hb, Nat.zero_le _, Lib.block_subset (Nat.zero_le _) (self_mem_block (i, 0)) hi⟩
  | succ k ih =>
      have hhalf : 2 ^ k ∣ i := (pow_dvd_pow 2 (Nat.le_succ k)).trans halign
      have hunion := block_union_buddy i k
      obtain ⟨b, hb, hkb, hisub⟩ := ih (by omega) hhalf
        fun p hp => hsub (hunion ▸ Or.inl hp)
      obtain ⟨b', hb', hkb', hbuddysub⟩ := ih (by omega) (dvd_buddy hhalf)
        fun p hp => hsub (hunion ▸ Or.inr hp)
      -- the block of one of the halves is larger than the half, or both halves are blocks
      rcases Nat.lt_or_ge k b.2 with hlt | hge
      · exact ⟨b, hb, hlt, Lib.block_subset hlt (self_mem_block (i, k + 1))
          (hisub (self_mem_block (i, k)))⟩
      · rcases Nat.lt_or_ge k b'.2 with hlt' | hge'
        · have hmem : buddy i k ∈ block (i, k + 1) := hunion ▸ Or.inr (self_mem_block _)
          exact ⟨b', hb', hlt', Lib.block_subset hlt' hmem (hbuddysub (self_mem_block _))⟩
        · have hsame : ∀ j b, 2 ^ k ∣ j → b ∈ blocks → k ≤ b.2 → b.2 ≤ k →
              block (j, k) ⊆ block b → (j, k) ∈ blocks := by
            rintro j ⟨x, l⟩ hj hmem hle hge hsub
            obtain rfl : k = l := Nat.le_antisymm hle hge
            have heq : j = x := eq_of_mem_block hj (h.aligned _ hmem) (self_mem_block (j, k))
              (hsub (self_mem_block (j, k)))
            rwa [heq]
          exact absurd (hsame _ b' (dvd_buddy hhalf) hb' hkb' hge' hbuddysub)
            (h.coalesced i k (hsame i b hhalf hb hkb hge hisub) (by omega))

/-- There is a block of at least the order `k` exactly when `2 ^ k` pages from a multiple of `2 ^ k`
on are free. -/
theorem exists_order_le_iff (h : Buddies top pages blocks) (hlt : ∀ p ∈ pages, p < 2 ^ top) :
    (∃ b ∈ blocks, k ≤ b.2) ↔ ∃ i, 2 ^ k ∣ i ∧ block (i, k) ⊆ pages := by
  constructor
  · rintro ⟨b, hb, hle⟩
    have hself : b.1 ∈ block (b.1, k) := self_mem_block (b.1, k)
    exact ⟨b.1, (pow_dvd_pow 2 hle).trans (h.aligned b hb),
      (Lib.block_subset hle hself (self_mem_block b)).trans (h.block_subset hb)⟩
  · rintro ⟨i, halign, hsub⟩
    have hlast : i + 2 ^ k - 1 < 2 ^ top :=
      hlt _ (hsub ((mem_block_iff halign).2 (by omega)))
    have hle : k ≤ top := (Nat.pow_le_pow_iff_right (by omega)).1 (by omega : 2 ^ k ≤ 2 ^ top)
    obtain ⟨b, hb, hkb, -⟩ := h.exists_block hle halign hsub
    exact ⟨b, hb, hkb⟩

/-- The blocks are the aligned runs of pages that cannot be doubled. -/
theorem mem_iff (h : Buddies top pages blocks) :
    (i, k) ∈ blocks ↔ 2 ^ k ∣ i ∧ k ≤ top ∧ block (i, k) ⊆ pages ∧
      (k < top → ¬ block (i, k + 1) ⊆ pages) := by
  constructor
  · intro hb
    refine ⟨h.aligned _ hb, h.order_le _ hb, h.block_subset hb, fun hk hsub => ?_⟩
    have hmin := block_min_buddy (i := i) (k := k)
    obtain ⟨b, hb', hkb, hsub'⟩ := h.exists_block (i := min i (buddy i k)) hk
      (dvd_min_buddy (h.aligned _ hb)) (hmin ▸ hsub)
    rw [hmin] at hsub'
    have hi : i ∈ block b := hsub' (self_mem_block (i, k + 1))
    have hne : (i, k) ≠ b := by
      rintro rfl
      exact absurd hkb (by simp)
    exact Set.disjoint_left.1 (h.disjoint _ hb b hb' hne) (self_mem_block (i, k)) hi
  · rintro ⟨halign, hle, hsub, hmax⟩
    obtain ⟨⟨j, l⟩, hb, hkl, hsub'⟩ := h.exists_block hle halign hsub
    have hi : i ∈ block (j, l) := hsub' (self_mem_block (i, k))
    rcases Nat.lt_or_ge k l with hlt | hge
    · refine absurd ?_ (hmax (hlt.trans_le (h.order_le _ hb)))
      exact (Lib.block_subset hlt (self_mem_block (i, k + 1)) hi).trans (h.block_subset hb)
    · obtain rfl : k = l := Nat.le_antisymm hkl hge
      rwa [eq_of_mem_block halign (h.aligned _ hb) (self_mem_block (i, k)) hi]

/-- The pages determine the blocks. -/
theorem unique {blocks' : Set (Nat × Nat)} (h : Buddies top pages blocks)
    (h' : Buddies top pages blocks') : blocks = blocks' := by
  ext ⟨i, k⟩
  rw [h.mem_iff, h'.mem_iff]

end Buddies

end CrosKernel.Lib
