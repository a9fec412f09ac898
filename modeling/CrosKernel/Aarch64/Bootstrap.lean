import CrosKernel.Memory.AddressSpace

/-!
# The first translation tables

`mmu_init` of `src/aarch64/bootstrap.cpp` writes the words of three tables before the memory
management unit is switched on. The second one becomes the top table of both halves, so that every
address that is mapped is mapped to itself: `mmuInit_identity`.
-/

namespace CrosKernel.Aarch64

open Memory Mmu PageTableEntry

/-! ## The words of descriptors -/

/-- The entry that a word is, in the layout of the bit fields of `PageTableEntry`. -/
def ofWord (w : Nat) : PageTableEntry where
  present := w.testBit 0
  type := w.testBit 1
  apEL0 := w.testBit 6
  apReadOnly := w.testBit 7
  af := w.testBit 10
  outputAddress := w / 2 ^ 12 % 2 ^ 40
  xn := w.testBit 53

/-- The words of a table as entries. -/
def entriesOf (words : Nat → Nat) (frame index : Nat) : PageTableEntry :=
  ofWord (words (frame * pageSize + 8 * index))

/-! ## The code -/

/-- The store `table[index] = value` to an array of words. -/
def storeWord (words : Nat → Nat) (table index value : Nat) : Nat → Nat :=
  Function.update words (table + 8 * index) value

/-- The size of the memory that an entry of `level2` maps. -/
def blockSize : Nat := 0x200000

/-- The values of `p` in the loop of `mmu_init`. -/
def blockOffsets (kernelSize : Nat) : List Nat :=
  (List.range ((kernelSize + blockSize - 1) / blockSize)).map (· * blockSize)

/-- The loop of `mmu_init`, with the index of the linear address 0. -/
def fillBlocks (level2 : Nat) : List Nat → (Nat → Nat) → Nat → Nat
  | [], words => words
  | p :: rest, words => fillBlocks level2 rest (storeWord words level2 (p / blockSize) (p ||| 1025))

/-- `mmu_init` up to the two base registers. -/
def mmuInit (words : Nat → Nat) (kernelSize level0 level1 level2 : Nat) : (Nat → Nat) × Nat × Nat :=
  let words := storeWord words level0 0 (level1 ||| 1027)
  let words := storeWord words level1 0 (level2 ||| 1027)
  let words := fillBlocks level2 (blockOffsets kernelSize) words
  let words := storeWord words level2 504 (0x3f000000 ||| 1025 ||| 4)
  let words := storeWord words level2 505 (0x3f200000 ||| 1025 ||| 4)
  let words := storeWord words level1 511 (level1 ||| 1027)
  -- the pointer is one to words, so the bits below the base of the table are not all clear
  (words, level1 + 8, level1 + 8)

/-- The machine after `mmu_init`. -/
def bootMachine (words : Nat → Nat) (kernelSize level0 level1 level2 : Nat) (a : PageAllocator) :
    Mmu :=
  let (words, ttbr0, ttbr1) := mmuInit words kernelSize level0 level1 level2
  ⟨entriesOf words, tableBase ttbr0, tableBase ttbr1, a, []⟩

variable {words : Nat → Nat} {a : PageAllocator}
  {f g f₀ f₁ f₂ c i x value kernelSize linear : Nat} {half : Half} {ns : List Nat}

/-! ## Reading words -/

/-- A page frame with bits below it. -/
theorem ofWord_or (f c : Nat) (hc : c < 2 ^ 12) : ofWord (f * 2 ^ 12 ||| c) =
    ⟨c.testBit 0, c.testBit 1, c.testBit 6, c.testBit 7, c.testBit 10, f % 2 ^ 40, f.testBit 41⟩ := by
  have hlow : ∀ i < 12, (f * 2 ^ 12 ||| c).testBit i = c.testBit i := by
    intro i hi
    rw [Nat.testBit_or, Nat.testBit_mul_two_pow]
    simp [hi.not_ge]
  have hdiv : (f * 2 ^ 12 ||| c) / 2 ^ 12 = f := by
    rw [Nat.or_div_two_pow, Nat.mul_div_cancel _ (Nat.two_pow_pos 12), Nat.div_eq_of_lt hc,
      Nat.or_zero]
  have hhigh : (f * 2 ^ 12 ||| c).testBit 53 = f.testBit 41 := by
    have hnone : c.testBit 53 = false := Nat.testBit_lt_two_pow (hc.trans (by decide))
    rw [Nat.testBit_or, Nat.testBit_mul_two_pow, hnone, Bool.or_false]
    rfl
  rw [ofWord, hlow 0 (by decide), hlow 1 (by decide), hlow 6 (by decide), hlow 7 (by decide),
    hlow 10 (by decide), hdiv, hhigh]

/-- The word that `mmu_init` writes for a table is what `makeTableDescriptor` makes. -/
theorem ofWord_table (hf : f < 2 ^ 40) :
    ofWord (f * pageSize ||| 1027) = .tableDescriptor (f * pageSize) := by
  have hxn : f.testBit 41 = false := Nat.testBit_lt_two_pow (hf.trans (by decide))
  have hframe : outputOf (f * pageSize) = f % 2 ^ 40 := by
    unfold outputOf pageSize
    omega
  rw [tableDescriptor, hframe]
  show ofWord (f * 2 ^ 12 ||| 1027) = _
  rw [ofWord_or f 1027 (by decide), hxn]
  rfl

/-- The word that it writes for a block is what `makeBlockDescriptor` makes. -/
theorem ofWord_block (hf : f < 2 ^ 40) (hc : c = 1025 ∨ c = 1029) :
    ofWord (f * pageSize ||| c) = .blockDescriptor (f * pageSize) 5 := by
  have hxn : f.testBit 41 = false := Nat.testBit_lt_two_pow (hf.trans (by decide))
  have hframe : outputOf (f * pageSize) = f % 2 ^ 40 := by
    unfold outputOf pageSize
    omega
  rw [blockDescriptor, hframe]
  show ofWord (f * 2 ^ 12 ||| c) = _
  obtain rfl | rfl := hc
  · rw [ofWord_or f 1025 (by decide), hxn]
    rfl
  · rw [ofWord_or f 1029 (by decide), hxn]
    rfl

/-! ## The tables -/

theorem entriesOf_storeWord (hi : i < 512) (hx : x < 512) :
    entriesOf (storeWord words (g * pageSize) i value) f x =
      if f = g ∧ x = i then ofWord value else entriesOf words f x := by
  have haddr : f * pageSize + 8 * x = g * pageSize + 8 * i ↔ f = g ∧ x = i := by
    unfold pageSize
    omega
  rw [entriesOf, storeWord, Function.update_apply]
  simp only [haddr]
  split <;> rfl

/-- The loop stores a block for every index. -/
theorem entriesOf_fillBlocks (hns : ∀ n ∈ ns, n < 512) (hx : x < 512) :
    entriesOf (fillBlocks (g * pageSize) (ns.map (· * blockSize)) words) f x =
      if f = g ∧ x ∈ ns then .blockDescriptor (x * blockSize) 5 else entriesOf words f x := by
  induction ns generalizing words with
  | nil => simp [fillBlocks]
  | cons n rest ih =>
      have hn := hns n List.mem_cons_self
      have hindex : n * blockSize / blockSize = n := Nat.mul_div_cancel n (by decide)
      rw [List.map_cons, fillBlocks, hindex,
        ih fun k hk => hns k (List.mem_cons_of_mem n hk), entriesOf_storeWord hn hx]
      by_cases hrest : f = g ∧ x ∈ rest
      · rw [if_pos hrest, if_pos ⟨hrest.1, List.mem_cons_of_mem n hrest.2⟩]
      · rw [if_neg hrest]
        by_cases hfirst : f = g ∧ x = n
        · obtain ⟨rfl, rfl⟩ := hfirst
          have hword : x * blockSize = x * 512 * pageSize := by
            unfold blockSize pageSize
            omega
          rw [if_pos ⟨rfl, rfl⟩, if_pos ⟨rfl, List.mem_cons_self⟩, hword]
          exact ofWord_block (by omega) (.inl rfl)
        · have hnot : ¬ (f = g ∧ x ∈ n :: rest) := by
            rintro ⟨hf, hmem⟩
            exact (List.mem_cons.1 hmem).elim (fun hx => hfirst ⟨hf, hx⟩) fun hx => hrest ⟨hf, hx⟩
          rw [if_neg hfirst, if_neg hnot]

/-- The tables lie in page frames of their own, and nothing was written to the last two. -/
structure BootTables (words : Nat → Nat) (f₀ f₁ f₂ : Nat) : Prop where
  first : f₀ ≠ f₁ ∧ f₀ ≠ f₂
  second : f₁ ≠ f₂
  lt : f₁ < 2 ^ 31 ∧ f₂ < 2 ^ 31
  clear₁ : ∀ x < 512, words (f₁ * pageSize + 8 * x) = 0
  clear₂ : ∀ x < 512, words (f₂ * pageSize + 8 * x) = 0

/-- The entry of `level2` is one of a block. -/
def IsBlock (kernelSize x : Nat) : Prop := x * blockSize < kernelSize ∨ x = 504 ∨ x = 505

instance (kernelSize x : Nat) : Decidable (IsBlock kernelSize x) :=
  inferInstanceAs (Decidable (_ ∨ _))

/-- The machine after `mmu_init` with tables in these page frames. -/
def booted (words : Nat → Nat) (kernelSize f₀ f₁ f₂ : Nat) (a : PageAllocator) : Mmu :=
  bootMachine words kernelSize (f₀ * pageSize) (f₁ * pageSize) (f₂ * pageSize) a

theorem ofWord_zero : ofWord 0 = .cleared := by decide

/-- What is in the memory after `mmu_init`. -/
theorem booted_memory (h : BootTables words f₀ f₁ f₂) (hsize : kernelSize ≤ 512 * blockSize)
    (hf : f ≠ f₀) (hx : x < 512) :
    (booted words kernelSize f₀ f₁ f₂ a).memory f x =
      if f = f₁ then if x = 511 then .tableDescriptor (f₁ * pageSize)
        else if x = 0 then .tableDescriptor (f₂ * pageSize) else .cleared
      else if f = f₂ then if IsBlock kernelSize x then .blockDescriptor (x * blockSize) 5 else .cleared
      else entriesOf words f x := by
  have hmem : ∀ n, n ∈ List.range ((kernelSize + blockSize - 1) / blockSize) ↔
      n * blockSize < kernelSize := by
    intro n
    rw [List.mem_range]
    unfold blockSize
    omega
  have hns : ∀ n ∈ List.range ((kernelSize + blockSize - 1) / blockSize), n < 512 := by
    intro n hn
    have hlt := (hmem n).1 hn
    unfold blockSize at *
    omega
  show entriesOf (storeWord (storeWord (storeWord (fillBlocks (f₂ * pageSize)
    ((List.range ((kernelSize + blockSize - 1) / blockSize)).map (· * blockSize)) (storeWord
      (storeWord words (f₀ * pageSize) 0 (f₁ * pageSize ||| 1027)) (f₁ * pageSize) 0
      (f₂ * pageSize ||| 1027))) (f₂ * pageSize) 504 (0x3f000 * pageSize ||| 1029))
    (f₂ * pageSize) 505 (0x3f200 * pageSize ||| 1029)) (f₁ * pageSize) 511
    (f₁ * pageSize ||| 1027)) f x = _
  rw [entriesOf_storeWord (by decide) hx, entriesOf_storeWord (by decide) hx,
    entriesOf_storeWord (by decide) hx, entriesOf_fillBlocks hns hx,
    entriesOf_storeWord (by decide) hx, entriesOf_storeWord (by decide) hx,
    ofWord_table (h.lt.1.trans (by decide)), ofWord_table (h.lt.2.trans (by decide)),
    ofWord_block (by decide) (.inr rfl), ofWord_block (by decide) (.inr rfl)]
  simp only [hmem, hf, false_and, if_false]
  have hclear₁ : entriesOf words f₁ x = .cleared := by
    rw [entriesOf, h.clear₁ x hx, ofWord_zero]
  have hclear₂ : entriesOf words f₂ x = .cleared := by
    rw [entriesOf, h.clear₂ x hx, ofWord_zero]
  by_cases hf₁ : f = f₁
  · subst hf₁
    simp only [h.second, true_and, false_and, if_false, if_true, hclear₁]
  · by_cases hf₂ : f = f₂
    · subst hf₂
      simp only [hf₁, true_and, false_and, if_false, if_true, hclear₂, IsBlock]
      by_cases h505 : x = 505
      · subst h505
        simp only [if_true, or_true]
        rfl
      · by_cases h504 : x = 504
        · subst h504
          simp only [if_neg h505, if_true, or_true, true_or]
          rfl
        · simp only [h505, h504, if_false, or_false]
    · simp only [hf₁, hf₂, false_and, if_false]

/-! ## The translations -/

/-- The address is mapped. -/
def Mapped (kernelSize linear : Nat) : Prop :=
  linear < 2 ^ 30 ∧ IsBlock kernelSize (linear / blockSize)

instance (kernelSize linear : Nat) : Decidable (Mapped kernelSize linear) :=
  inferInstanceAs (Decidable (_ ∧ _))

theorem booted_top (h : BootTables words f₀ f₁ f₂) (half : Half) :
    (booted words kernelSize f₀ f₁ f₂ a).top half = f₁ := by
  have hbase : tableBase (f₁ * pageSize + 8) = f₁ := by
    have hlt := h.lt.1
    unfold tableBase pageSize
    omega
  cases half <;> exact hbase

theorem booted_selfMapped (h : BootTables words f₀ f₁ f₂) (hsize : kernelSize ≤ 512 * blockSize)
    (half : Half) : (booted words kernelSize f₀ f₁ f₂ a).SelfMapped half := by
  have hentry : (booted words kernelSize f₀ f₁ f₂ a).topEntry half 511 =
      .tableDescriptor (f₁ * pageSize) := by
    rw [topEntry, booted_top h, booted_memory h hsize h.first.1.symm (by decide), if_pos rfl,
      if_pos rfl]
  refine ⟨hentry ▸ ⟨rfl, rfl⟩, hentry ▸ ⟨rfl, rfl⟩, ?_⟩
  rw [hentry, booted_top h]
  exact PageAllocator.outputOf_page h.lt.1

/-- The walk through the table of blocks that the first entry of the top table refers to. -/
theorem walk_blocks {m : Mmu} (htop : m.top half = f₁) (hlt : f₂ < 2 ^ 31)
    (hfirst : m.memory f₁ 0 = .tableDescriptor (f₂ * pageSize))
    (hblocks : ∀ x < 512, m.memory f₂ x =
      if IsBlock kernelSize x then .blockDescriptor (x * blockSize) 5 else .cleared)
    (hlinear : linear < 2 ^ 30) :
    m.walk (half.base + linear) = if Mapped kernelSize linear then
        .ok (.blockDescriptor (linear / blockSize * blockSize) 5, linear)
      else .error (.translation 2) := by
  have hindex : linear / 2 ^ 21 % 512 = linear / blockSize := by
    unfold blockSize
    omega
  have hframe : (tableDescriptor (f₂ * pageSize)).outputAddress = f₂ := PageAllocator.outputOf_page hlt
  obtain ⟨hpresent, htype⟩ : (tableDescriptor (f₂ * pageSize)).present = true ∧
      (tableDescriptor (f₂ * pageSize)).type = true := ⟨rfl, rfl⟩
  rw [walk_base half (by omega), walkFrom, htop, Nat.div_eq_of_lt hlinear, hfirst, hpresent, htype]
  simp only [Bool.not_true, Bool.false_eq_true, if_false]
  rw [hframe, hindex, hblocks _ (by unfold blockSize; omega)]
  by_cases hblock : IsBlock kernelSize (linear / blockSize)
  · have hphysical : (blockDescriptor (linear / blockSize * blockSize) 5).physicalAddress /
        2 ^ 21 * 2 ^ 21 + linear % 2 ^ 21 = linear := by
      show outputOf (linear / blockSize * blockSize) * 2 ^ 12 / 2 ^ 21 * 2 ^ 21 +
        linear % 2 ^ 21 = linear
      unfold outputOf blockSize
      omega
    have hmapped : Mapped kernelSize linear := ⟨hlinear, hblock⟩
    rw [if_pos hblock, if_pos hmapped, hphysical]
    rfl
  · have hmapped : ¬ Mapped kernelSize linear := fun hmapped => hblock hmapped.2
    rw [if_neg hblock, if_neg hmapped]
    rfl

/-- The two tables after `mmu_init`. -/
theorem booted_memory_first (h : BootTables words f₀ f₁ f₂) (hsize : kernelSize ≤ 512 * blockSize)
    (hx : x < 512) : (booted words kernelSize f₀ f₁ f₂ a).memory f₁ x =
      if x = 511 then .tableDescriptor (f₁ * pageSize)
      else if x = 0 then .tableDescriptor (f₂ * pageSize) else .cleared :=
  (booted_memory h hsize h.first.1.symm hx).trans (if_pos rfl)

theorem booted_memory_second (h : BootTables words f₀ f₁ f₂) (hsize : kernelSize ≤ 512 * blockSize)
    (hx : x < 512) : (booted words kernelSize f₀ f₁ f₂ a).memory f₂ x =
      if IsBlock kernelSize x then .blockDescriptor (x * blockSize) 5 else .cleared :=
  (booted_memory h hsize h.first.2.symm hx).trans ((if_neg h.second.symm).trans (if_pos rfl))

/-- After `mmu_init` the kernel finds the memory of its image and the devices in both halves, at the
physical addresses, and nothing else outside the windows. -/
theorem mmuInit_identity (h : BootTables words f₀ f₁ f₂) (hsize : kernelSize ≤ 512 * blockSize)
    (half : Half) :
    (booted words kernelSize f₀ f₁ f₂ a).SelfMapped half ∧
      ∀ linear < 511 * 2 ^ 30, (booted words kernelSize f₀ f₁ f₂ a).walk (half.base + linear) =
        if Mapped kernelSize linear then
          .ok (.blockDescriptor (linear / blockSize * blockSize) 5, linear)
        else .error (.translation (if linear < 2 ^ 30 then 2 else 1)) := by
  refine ⟨booted_selfMapped h hsize half, fun linear hlinear => ?_⟩
  by_cases hzero : linear < 2 ^ 30
  · rw [if_pos hzero]
    exact walk_blocks (booted_top h half) h.lt.2 (booted_memory_first h hsize (by decide))
      (fun x hx => booted_memory_second h hsize hx) hzero
  · have hfirst : ¬ linear / 2 ^ 30 = 0 := by omega
    have hlast : ¬ linear / 2 ^ 30 = 511 := by omega
    have hmapped : ¬ Mapped kernelSize linear := fun hmapped => hzero hmapped.1
    rw [if_neg hzero, if_neg hmapped, walk_base half (by omega), walkFrom, booted_top h,
      booted_memory_first h hsize (by omega), if_neg hlast, if_neg hfirst]
    rfl

/-- The address of the serial port, with the whole memory of the kernel mapped below it. -/
theorem mmuInit_identity_uart :
    (booted (fun _ => 0) 0x2000000 0x81 0x82 0x83 (.blank (fun _ => unwritten) 0 pageSize)).walk
      (highMem + 0x3f201000) = .ok (.blockDescriptor 0x3f200000 5, 0x3f201000) :=
  (mmuInit_identity ⟨by decide, by decide, by decide, fun _ _ => rfl, fun _ _ => rfl⟩ (by decide)
    .kernel).2 0x3f201000 (by decide)

end CrosKernel.Aarch64
