import CrosKernel.Memory.Mmu

/-!
# The windows onto the tables

When the last entry of a top table refers to the table itself, an access to one of the three windows
walks through the tables of the half to an entry of them. `write_window` and `load_window` say which
entry that is, and `getPageFrame_eq` that `getPageFrame` looks a page up in the tables.
-/

namespace CrosKernel.Memory

/-- Where a half begins. -/
def Half.base : Half → Nat
  | .user => 0
  | .kernel => highMem

/-- The offset in its half of the address that the walk takes to the entry `k` of a table: through
the last entry of the top table, and through the entries `i` and `j` of the next two. -/
def windowOffset (i j k : Nat) : Nat := 511 * 2 ^ 30 + i * 2 ^ 21 + j * 2 ^ 12 + 8 * k

theorem tables_two (half : Half) (n : Nat) :
    tables half 2 + 8 * n =
      half.base + windowOffset (n / 2 ^ 18) (n / 2 ^ 9 % 512) (n % 512) := by
  cases half <;> simp only [tables, Half.base, windowOffset, highMem] <;> omega

theorem tables_one (half : Half) (n : Nat) :
    tables half 1 + 8 * n = half.base + windowOffset 511 (n / 512) (n % 512) := by
  cases half <;> simp only [tables, Half.base, windowOffset, highMem] <;> omega

theorem tables_zero (half : Half) (n : Nat) :
    tables half 0 + 8 * n = half.base + windowOffset 511 511 n := by
  cases half <;> simp only [tables, Half.base, windowOffset, highMem] <;> omega

namespace PageTableEntry

/-- A descriptor of a table, at a level that has tables below it. -/
def IsTable (e : PageTableEntry) : Prop := e.present = true ∧ e.type = true

instance (e : PageTableEntry) : Decidable e.IsTable := inferInstanceAs (Decidable (_ ∧ _))

/-- The kernel can write through the descriptor. -/
def Writable (e : PageTableEntry) : Prop := e.af = true ∧ e.apReadOnly = false

instance (e : PageTableEntry) : Decidable e.Writable := inferInstanceAs (Decidable (_ ∧ _))

/-- What `getPageFrame` returns for the entry of a page. -/
def frame (e : PageTableEntry) : Nat := if e.present then e.physicalAddress else 0

end PageTableEntry

namespace Mmu

variable {m : Mmu} {half : Half} {i j k : Nat} {e : PageTableEntry}

/-- The frame of the top table of a half. -/
def top (m : Mmu) : Half → Nat
  | .user => m.ttbr0
  | .kernel => m.ttbr1

/-- An entry of the top table of a half. -/
def topEntry (m : Mmu) (half : Half) (i : Nat) : PageTableEntry := m.memory (m.top half) i

/-- An entry of the table that the entry `i` of the top table refers to. -/
def midEntry (m : Mmu) (half : Half) (i j : Nat) : PageTableEntry :=
  m.memory (m.topEntry half i).outputAddress j

/-- An entry of the table that the entry `j` of that table refers to. -/
def lastEntry (m : Mmu) (half : Half) (i j k : Nat) : PageTableEntry :=
  m.memory (m.midEntry half i j).outputAddress k

/-- The last entry of the top table of a half refers to the table itself. -/
structure SelfMapped (m : Mmu) (half : Half) : Prop where
  isTable : (m.topEntry half 511).IsTable
  writable : (m.topEntry half 511).Writable
  outputAddress_eq : (m.topEntry half 511).outputAddress = m.top half

theorem SelfMapped.midEntry (h : m.SelfMapped half) (j : Nat) :
    m.midEntry half 511 j = m.topEntry half j := by
  rw [Mmu.midEntry, h.outputAddress_eq]
  rfl

theorem walk_base (half : Half) {linear : Nat} (h : linear < 2 ^ 39) :
    m.walk (half.base + linear) = walkFrom m.memory (m.top half) linear := by
  cases half with
  | user =>
      have hlow : 0 + linear < lowEnd := by
        unfold lowEnd
        omega
      rw [walk, Half.base, if_pos hlow, Nat.zero_add, top]
  | kernel =>
      have hlow : ¬ highMem + linear < lowEnd := by
        unfold lowEnd highMem
        omega
      have hhigh : highMem ≤ highMem + linear ∧ highMem + linear < 2 ^ 64 := by
        unfold highMem
        omega
      rw [walk, Half.base, if_neg hlow, if_pos hhigh, Nat.add_sub_cancel_left, top]

/-- The walk to an address in the windows, from the second step on. -/
def walkWindow (m : Mmu) (half : Half) (i j k : Nat) : Except Abort (PageTableEntry × Nat) :=
  if !(m.topEntry half i).present then .error (.translation 2)
  else if !(m.topEntry half i).type then
    .ok (m.topEntry half i,
      (m.topEntry half i).physicalAddress / 2 ^ 21 * 2 ^ 21 + (j * 2 ^ 12 + 8 * k))
  else if (m.midEntry half i j).present && (m.midEntry half i j).type then
    .ok (m.midEntry half i j, (m.midEntry half i j).physicalAddress + 8 * k)
  else .error (.translation 3)

theorem walk_window (h : m.SelfMapped half) (hi : i < 512) (hj : j < 512) (hk : k < 512) :
    m.walk (half.base + windowOffset i j k) = m.walkWindow half i j k := by
  have hlinear : windowOffset i j k < 2 ^ 39 := by
    unfold windowOffset
    omega
  have hfirst : windowOffset i j k / 2 ^ 30 = 511 := by
    unfold windowOffset
    omega
  have hsecond : windowOffset i j k / 2 ^ 21 % 512 = i := by
    unfold windowOffset
    omega
  have hthird : windowOffset i j k / 2 ^ 12 % 512 = j := by
    unfold windowOffset
    omega
  have hblock : windowOffset i j k % 2 ^ 21 = j * 2 ^ 12 + 8 * k := by
    unfold windowOffset
    omega
  have hpage : windowOffset i j k % 2 ^ 12 = 8 * k := by
    unfold windowOffset
    omega
  have hself : m.memory (m.top half) 511 = m.topEntry half 511 := rfl
  obtain ⟨hpresent, htype⟩ := h.isTable
  rw [walk_base half hlinear, walkFrom, walkWindow, hfirst, hsecond, hthird, hblock, hpage, hself,
    hpresent, htype, h.outputAddress_eq]
  rfl

/-- The entry `k` of a page frame. -/
theorem entry_of_page (frame : Nat) (hk : k < 512) :
    (frame * 2 ^ 12 + 8 * k) / 2 ^ 12 = frame ∧ (frame * 2 ^ 12 + 8 * k) % 2 ^ 12 / 8 = k := by
  omega

/-- Where the first two steps find tables, the walk ends at an entry of the second one. -/
theorem walk_window_ok (h : m.SelfMapped half) (hi : i < 512) (hj : j < 512) (hk : k < 512)
    (h₁ : (m.topEntry half i).IsTable) (h₂ : (m.midEntry half i j).IsTable) :
    m.walk (half.base + windowOffset i j k) =
      .ok (m.midEntry half i j, (m.midEntry half i j).outputAddress * 2 ^ 12 + 8 * k) := by
  rw [walk_window h hi hj hk, walkWindow, h₁.1, h₁.2, h₂.1, h₂.2]
  rfl

/-- The kernel writes that entry when the descriptor of its table allows it. -/
theorem write_window (h : m.SelfMapped half) (hi : i < 512) (hj : j < 512) (hk : k < 512)
    (h₁ : (m.topEntry half i).IsTable) (h₂ : (m.midEntry half i j).IsTable) :
    m.write (half.base + windowOffset i j k) e =
      if (m.midEntry half i j).Writable then .ok (m.set (m.midEntry half i j).outputAddress k e)
      else .error .other := by
  obtain ⟨hpage, hentry⟩ := entry_of_page (m.midEntry half i j).outputAddress hk
  rw [write, walk_window_ok h hi hj hk h₁ h₂]
  show (if _ then Except.ok (m.set (_ / 2 ^ 12) (_ % 2 ^ 12 / 8) e) else _) = _
  rw [hpage, hentry]
  by_cases hwritable : (m.midEntry half i j).Writable
  · rw [if_pos hwritable, hwritable.1, hwritable.2]
    rfl
  · rw [if_neg hwritable, if_neg]
    rwa [Bool.and_eq_true, Bool.not_eq_true']

/-- The write of an entry of the top table. -/
theorem write_top (h : m.SelfMapped half) (hi : i < 512) :
    m.write (half.base + windowOffset 511 511 i) e = .ok (m.set (m.top half) i e) := by
  have hmid := h.midEntry 511
  rw [write_window h (by decide) (by decide) hi h.isTable (hmid ▸ h.isTable), hmid,
    if_pos h.writable, h.outputAddress_eq]

/-- The write of an entry of a table of the second level. -/
theorem write_mid (h : m.SelfMapped half) (hi : i < 512) (hj : j < 512)
    (h₁ : (m.topEntry half i).IsTable) :
    m.write (half.base + windowOffset 511 i j) e =
      if (m.topEntry half i).Writable then .ok (m.set (m.topEntry half i).outputAddress j e)
      else .error .other := by
  have hmid := h.midEntry i
  rw [write_window h (by decide) hi hj h.isTable (hmid ▸ h₁), hmid]

/-- Where the first step finds nothing, the write faults at the second level. -/
theorem write_window_second (h : m.SelfMapped half) (hi : i < 512) (hj : j < 512) (hk : k < 512)
    (h₁ : (m.topEntry half i).present = false) :
    m.write (half.base + windowOffset i j k) e = .error (.translation 2) := by
  rw [write, walk_window h hi hj hk, walkWindow, h₁]
  rfl

/-- Where the second step finds no table, the write faults at the third level. -/
theorem write_window_third (h : m.SelfMapped half) (hi : i < 512) (hj : j < 512) (hk : k < 512)
    (h₁ : (m.topEntry half i).IsTable) (h₂ : ¬ (m.midEntry half i j).IsTable) :
    m.write (half.base + windowOffset i j k) e = .error (.translation 3) := by
  have hcond : ((m.midEntry half i j).present && (m.midEntry half i j).type) = false := by
    rw [← Bool.not_eq_true, Bool.and_eq_true]
    exact h₂
  rw [write, walk_window h hi hj hk, walkWindow, h₁.1, h₁.2, hcond]
  rfl

/-- The kernel reads the entry when the access flag of the descriptor of its table is set. -/
theorem load_window (h : m.SelfMapped half) (hi : i < 512) (hj : j < 512) (hk : k < 512)
    (h₁ : (m.topEntry half i).IsTable) (h₂ : (m.midEntry half i j).IsTable) :
    m.load (half.base + windowOffset i j k) =
      if (m.midEntry half i j).af then some (m.lastEntry half i j k) else none := by
  obtain ⟨hpage, hentry⟩ := entry_of_page (m.midEntry half i j).outputAddress hk
  rw [load, walk_window_ok h hi hj hk h₁ h₂]
  show (if _ then some (m.memory (_ / 2 ^ 12) (_ % 2 ^ 12 / 8)) else _) = _
  rw [hpage, hentry]
  rfl

theorem set_memory (f k : Nat) (e : PageTableEntry) (g j : Nat) :
    (m.set f k e).memory g j = if g = f ∧ j = k then e else m.memory g j := by
  by_cases hg : g = f
  · subst hg
    by_cases hj : j = k
    · subst hj
      simp [set]
    · simp [set, hj]
  · simp [set, hg]

/-! ## Looking a page up -/

/-- The offset in its half of the page with the indices `i`, `j` and `k` in the three tables. -/
def pageOffset (i j k : Nat) : Nat := i * 2 ^ 30 + j * 2 ^ 21 + k * 2 ^ 12

/-- The frame that a table of the second level leads to. -/
def frameBelow (memory : Nat → Nat → PageTableEntry) (table j k : Nat) : Option Nat :=
  if !(memory table j).present then some 0
  else if !(memory table j).type then some (memory table j).physicalAddress
  else if (memory table j).af then some (memory (memory table j).outputAddress k).frame
  else none

/-- The frame that a top table leads to. -/
def frameFrom (memory : Nat → Nat → PageTableEntry) (top i j k : Nat) : Option Nat :=
  if !(memory top i).present then some 0
  else if !(memory top i).type then some (memory top i).physicalAddress
  else if (memory top i).af then frameBelow memory (memory top i).outputAddress j k
  else none

/-- `getPageFrame` looks the page of an address up in the tables of a half. -/
theorem getPageFrame_lookup (h : m.SelfMapped half) (hi : i < 512) (hj : j < 512) (hk : k < 512)
    {page : Nat} (hhalf : (if highMem < page then Half.kernel else .user) = half)
    (hpage : page % 2 ^ 39 / 2 ^ 12 = (i * 512 + j) * 512 + k) :
    m.getPageFrame page = frameFrom m.memory (m.top half) i j k := by
  have hfirst : page % 2 ^ 39 / 2 ^ 30 = i := by omega
  have hsecond : page % 2 ^ 39 / 2 ^ 21 = i * 512 + j := by omega
  have hmid := h.midEntry
  have htop : m.load (tables half 0 + 8 * i) = some (m.topEntry half i) := by
    rw [tables_zero, load_window h (by decide) (by decide) (by omega) h.isTable
      (hmid 511 ▸ h.isTable), hmid, h.writable.1, lastEntry, hmid, h.outputAddress_eq]
    rfl
  have hsecondLoad : (m.topEntry half i).IsTable → m.load (tables half 1 + 8 * (i * 512 + j)) =
      if (m.topEntry half i).af then some (m.midEntry half i j) else none := by
    intro htable
    have hindex : (i * 512 + j) / 512 = i ∧ (i * 512 + j) % 512 = j := by omega
    rw [tables_one, hindex.1, hindex.2, load_window h (by decide) (by omega) hj h.isTable
      (hmid i ▸ htable), hmid, lastEntry, hmid]
    rfl
  have hthirdLoad : (m.topEntry half i).IsTable → (m.midEntry half i j).IsTable →
      m.load (tables half 2 + 8 * ((i * 512 + j) * 512 + k)) =
        if (m.midEntry half i j).af then some (m.lastEntry half i j k) else none := by
    intro htable htable'
    have hindex : ((i * 512 + j) * 512 + k) / 2 ^ 18 = i ∧
        ((i * 512 + j) * 512 + k) / 2 ^ 9 % 512 = j ∧ ((i * 512 + j) * 512 + k) % 512 = k := by
      omega
    rw [tables_two, hindex.1, hindex.2.1, hindex.2.2,
      load_window h (by omega) hj hk htable htable']
  have hentry : m.memory (m.top half) i = m.topEntry half i := rfl
  have hentry' : m.memory (m.topEntry half i).outputAddress j = m.midEntry half i j := rfl
  rw [getPageFrame, hhalf]
  rw [hfirst, hsecond, hpage, htop, frameFrom, hentry]
  simp only [Option.bind_eq_bind, Option.bind_some]
  -- the walk goes on while it finds tables
  cases hpresent : (m.topEntry half i).present with
  | false => rfl
  | true =>
      cases htype : (m.topEntry half i).type with
      | false => rfl
      | true =>
          rw [hsecondLoad ⟨hpresent, htype⟩]
          cases (m.topEntry half i).af with
          | false => rfl
          | true =>
              rw [frameBelow, hentry']
              cases hpresent' : (m.midEntry half i j).present with
              | false => simp [hpresent']
              | true =>
                  cases htype' : (m.midEntry half i j).type with
                  | false => simp [hpresent', htype']
                  | true =>
                      rw [hthirdLoad ⟨hpresent, htype⟩ ⟨hpresent', htype'⟩]
                      cases haf : (m.midEntry half i j).af with
                      | false => simp [hpresent', htype']
                      | true =>
                          have hlast : m.memory (m.midEntry half i j).outputAddress k =
                              m.lastEntry half i j k := rfl
                          rw [hlast]
                          cases hlast : (m.lastEntry half i j k).present <;>
                            simp [hpresent', htype', hlast, PageTableEntry.frame]

/-- The same for the address of the page. -/
theorem getPageFrame_eq (h : m.SelfMapped half) (hi : i < 511) (hj : j < 512) (hk : k < 512)
    {page : Nat} (hhalf : (if highMem < page then Half.kernel else .user) = half)
    (hpage : page % 2 ^ 39 = pageOffset i j k) :
    m.getPageFrame page = frameFrom m.memory (m.top half) i j k := by
  refine getPageFrame_lookup h (by omega) hj hk hhalf ?_
  rw [hpage]
  unfold pageOffset
  omega

/-! ## The tables that the page fault handler adds -/

/-- The state after a page frame was reserved for a table. -/
def reserved (m : Mmu) (a : PageAllocator) (tableFrame : Nat) : Mmu :=
  { m with pageAllocator := a, tableFrames := tableFrame :: m.tableFrames }

/-- One round of the loop of `fillTranslationTable`. -/
def addTable (store : Mmu → Nat → PageTableEntry → Option Mmu) (m : Mmu) (va : Nat) :
    Option Mmu := do
  let (a, tableFrame) ← m.pageAllocator.reserve pageSize
  if tableFrame = NOMEM then none
  else makeDescriptor store (m.reserved a tableFrame) va (.tableDescriptor tableFrame)

variable {store : Mmu → Nat → PageTableEntry → Option Mmu}

theorem fillLoop_succ (half : Half) (targetLevel farOffset remaining i : Nat) (m : Mmu) :
    fillLoop store half targetLevel farOffset (remaining + 1) i m =
      (addTable store m
        (tables half i + 8 * (farOffset / 2 ^ (12 + 9 * (targetLevel - i - 1))))).bind
        (fillLoop store half targetLevel farOffset remaining (i + 1)) := by
  rw [fillLoop, addTable]
  cases m.pageAllocator.reserve pageSize with
  | none => rfl
  | some reserved =>
      obtain ⟨a, tableFrame⟩ := reserved
      dsimp only [Option.bind_eq_bind, Option.bind_some]
      split <;> rfl

theorem window_lt_tables_zero (half : Half) (hi : i < 512) (hj : j < 512) (hk : k < 512)
    (hne : ¬ (i = 511 ∧ j = 511)) : half.base + windowOffset i j k < tables half 0 := by
  cases half <;> simp only [tables, Half.base, highMem, windowOffset] <;> omega

theorem tables_one_le_window (half : Half) (hi : i < 512) (hj : j < 512) (hk : k < 512) :
    tables half 1 ≤ half.base + windowOffset i j k ↔ i = 511 := by
  cases half <;> simp only [tables, Half.base, highMem, windowOffset] <;> omega

theorem tables_two_le_window (half : Half) (i j k : Nat) :
    tables half 2 ≤ half.base + windowOffset i j k := by
  cases half <;> simp only [tables, Half.base, highMem, windowOffset] <;> omega

theorem window_user_lt (hi : i < 512) (hj : j < 512) (hk : k < 512) :
    Half.user.base + windowOffset i j k < highMem := by
  simp only [Half.base, highMem, windowOffset]
  omega

/-- The handler goes by the window that the address is in. -/
theorem handlePageFault_window (half : Half) {level : Nat} (hlevel : level ≠ 0) (hi : i < 512)
    (hj : j < 512) (hk : k < 512) (hne : ¬ (i = 511 ∧ j = 511)) :
    handlePageFault store m level (half.base + windowOffset i j k) =
      fillTranslationTable store m level (if i = 511 then 1 else 2)
        (half.base + windowOffset i j k) := by
  have hzero := (window_lt_tables_zero half hi hj hk hne).not_ge
  have hone := tables_one_le_window half hi hj hk
  have htwo := tables_two_le_window half i j k
  rw [handlePageFault, if_neg hlevel]
  cases half with
  | kernel =>
      rw [if_neg hzero]
      by_cases hlast : i = 511
      · rw [if_pos (hone.2 hlast), if_pos hlast]
      · rw [if_neg (mt hone.1 hlast), if_pos htwo, if_neg hlast]
  | user =>
      have hlow := window_user_lt hi hj hk
      have hkernel₀ : highMem ≤ tables .kernel 0 := by decide
      have hkernel₁ : highMem ≤ tables .kernel 1 := by decide
      have hkernel₂ : highMem ≤ tables .kernel 2 := by decide
      rw [if_neg (hlow.trans_le hkernel₀).not_ge, if_neg (hlow.trans_le hkernel₁).not_ge,
        if_neg (hlow.trans_le hkernel₂).not_ge, if_neg hzero]
      by_cases hlast : i = 511
      · rw [if_pos (hone.2 hlast), if_pos hlast]
      · rw [if_neg (mt hone.1 hlast), if_pos htwo, if_neg hlast]

/-- The half that `fillTranslationTable` takes the address to be in. -/
theorem half_of_window (half : Half) (hi : i < 512) (hj : j < 512) (hk : k < 512) :
    (if highMem ≤ half.base + windowOffset i j k then Half.kernel else .user) = half := by
  cases half with
  | kernel => exact if_pos (Nat.le_add_right _ _)
  | user => rw [if_neg (window_user_lt hi hj hk).not_ge]

/-- When the third step of the walk found no table, one is added. -/
theorem handlePageFault_third (half : Half) (hi : i < 512) (hj : j < 512) (hk : k < 512)
    (hne : ¬ (i = 511 ∧ j = 511)) :
    handlePageFault store m 3 (half.base + windowOffset i j k) =
      addTable store m (half.base + windowOffset 511 i j) := by
  rw [handlePageFault_window half (by decide) hi hj hk hne, fillTranslationTable,
    half_of_window half hi hj hk]
  split
  next hlast =>
    subst hlast
    have hindex : tables half 0 +
        8 * ((half.base + windowOffset 511 j k - tables half 1) / 2 ^ (12 + 9 * (1 - 0 - 1))) =
        half.base + windowOffset 511 511 j := by
      cases half <;> simp only [tables, Half.base, highMem, windowOffset] <;> omega
    show fillLoop store half 1 _ (0 + 1) 0 m = _
    rw [fillLoop_succ, hindex]
    exact Option.bind_fun_some _
  next =>
    have hindex : tables half 1 +
        8 * ((half.base + windowOffset i j k - tables half 2) / 2 ^ (12 + 9 * (2 - 1 - 1))) =
        half.base + windowOffset 511 i j := by
      cases half <;> simp only [tables, Half.base, highMem, windowOffset] <;> omega
    show fillLoop store half 2 _ (0 + 1) 1 m = _
    rw [fillLoop_succ, hindex]
    exact Option.bind_fun_some _

/-- When the second step found nothing, two tables are added. -/
theorem handlePageFault_second (half : Half) (hi : i < 511) (hj : j < 512) (hk : k < 512) :
    handlePageFault store m 2 (half.base + windowOffset i j k) =
      (addTable store m (half.base + windowOffset 511 511 i)).bind
        fun m => addTable store m (half.base + windowOffset 511 i j) := by
  rw [handlePageFault_window half (by decide) (by omega) hj hk (by omega), fillTranslationTable,
    half_of_window half (by omega) hj hk, if_neg (by omega : ¬ i = 511)]
  have hfirst : tables half 0 +
      8 * ((half.base + windowOffset i j k - tables half 2) / 2 ^ (12 + 9 * (2 - 0 - 1))) =
      half.base + windowOffset 511 511 i := by
    cases half <;> simp only [tables, Half.base, highMem, windowOffset] <;> omega
  have hsecond : tables half 1 +
      8 * ((half.base + windowOffset i j k - tables half 2) / 2 ^ (12 + 9 * (2 - 1 - 1))) =
      half.base + windowOffset 511 i j := by
    cases half <;> simp only [tables, Half.base, highMem, windowOffset] <;> omega
  show fillLoop store half 2 _ (1 + 1) 0 m = _
  rw [fillLoop_succ, hfirst]
  refine Option.bind_congr fun m' _ => ?_
  show fillLoop store half 2 _ (0 + 1) 1 m' = _
  rw [fillLoop_succ, hsecond]
  exact Option.bind_fun_some _

end Mmu

end CrosKernel.Memory
