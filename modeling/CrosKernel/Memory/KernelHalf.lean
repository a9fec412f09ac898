import CrosKernel.Memory.PageFrames
import CrosKernel.Memory.TableWindows

/-!
# The kernel half under `mmap` and `munmap`

The system calls take any address. While the pages of the region are in the lower half, and the
tables of the two halves are kept apart, they write no table of the kernel half. The invariant is
`Separate`: nothing in the tables of the user half or in the spare page frames leads to a table of
the kernel half.
-/

namespace CrosKernel.Memory

open PageTableEntry

namespace Mmu

variable {m m' m'' : Mmu} {K S : Set Nat} {e : PageTableEntry} {f i j k fuel : Nat}

/-! ## The tables of the kernel half -/

/-- The page frames with the tables of the kernel half. -/
def kernelFrames (m : Mmu) : Set Nat :=
  {f | f = m.ttbr1 ∨ ∃ i < 512, (m.topEntry .kernel i).IsTable ∧
    (f = (m.topEntry .kernel i).outputAddress ∨
      ∃ j < 512, (m.midEntry .kernel i j).IsTable ∧ f = (m.midEntry .kernel i j).outputAddress)}

/-- The base registers and the page frames of `K` are the same in both states. -/
structure Keeps (K : Set Nat) (m m' : Mmu) : Prop where
  ttbr0_eq : m'.ttbr0 = m.ttbr0
  ttbr1_eq : m'.ttbr1 = m.ttbr1
  memory_eq : ∀ f ∈ K, m'.memory f = m.memory f

theorem Keeps.refl (K : Set Nat) (m : Mmu) : Keeps K m m := ⟨rfl, rfl, fun _ _ => rfl⟩

theorem Keeps.trans (h : Keeps K m m') (h' : Keeps K m' m'') : Keeps K m m'' :=
  ⟨h'.ttbr0_eq.trans h.ttbr0_eq, h'.ttbr1_eq.trans h.ttbr1_eq,
    fun f hf => (h'.memory_eq f hf).trans (h.memory_eq f hf)⟩

/-- A walk looks at three page frames at most. -/
theorem walkFrom_congr {memory memory' : Nat → Nat → PageTableEntry} {top linear : Nat}
    (h₁ : memory' top = memory top)
    (h₂ : (memory top (linear / 2 ^ 30)).IsTable →
      memory' (memory top (linear / 2 ^ 30)).outputAddress =
        memory (memory top (linear / 2 ^ 30)).outputAddress)
    (h₃ : ∀ e₂, (memory top (linear / 2 ^ 30)).IsTable →
      e₂ = memory (memory top (linear / 2 ^ 30)).outputAddress (linear / 2 ^ 21 % 512) →
      e₂.IsTable → memory' e₂.outputAddress = memory e₂.outputAddress) :
    walkFrom memory' top linear = walkFrom memory top linear := by
  rw [walkFrom, walkFrom, h₁]
  by_cases htable : (memory top (linear / 2 ^ 30)).IsTable
  · rw [h₂ htable]
    dsimp only
    by_cases htable₂ :
        (memory (memory top (linear / 2 ^ 30)).outputAddress (linear / 2 ^ 21 % 512)).IsTable
    · rw [h₃ _ htable rfl htable₂]
    · -- the walk ends at a block or at nothing
      generalize memory (memory top (linear / 2 ^ 30)).outputAddress (linear / 2 ^ 21 % 512) = e₂
        at htable₂
      cases hpresent : e₂.present with
      | false => simp
      | true =>
          have htype : e₂.type = false := by
            simpa [IsTable, hpresent] using htable₂
          simp [htype]
  · generalize memory top (linear / 2 ^ 30) = e₁ at htable
    cases hpresent : e₁.present with
    | false => simp
    | true =>
        have htype : e₁.type = false := by
          simpa [IsTable, hpresent] using htable
        simp [htype]

/-- With the same tables the kernel half has the same translations. -/
theorem walk_kernel (h : Keeps m.kernelFrames m m') {va : Nat} (hva : highMem ≤ va) :
    m'.walk va = m.walk va := by
  have hlow : ¬ va < lowEnd := by
    unfold highMem at hva
    unfold lowEnd
    omega
  rw [walk, walk, if_neg hlow, if_neg hlow, h.ttbr1_eq]
  split
  next hrange =>
    have hi : (va - highMem) / 2 ^ 30 < 512 := by
      unfold highMem
      omega
    have hj : (va - highMem) / 2 ^ 21 % 512 < 512 := Nat.mod_lt _ (by decide)
    refine walkFrom_congr (h.memory_eq _ (.inl rfl)) (fun h₁ => ?_) fun e₂ h₁ he₂ h₂ => ?_
    · exact h.memory_eq _ (.inr ⟨_, hi, h₁, .inl rfl⟩)
    · subst he₂
      exact h.memory_eq _ (.inr ⟨_, hi, h₁, .inr ⟨_, hj, h₂, rfl⟩⟩)
  next => rfl

/-! ## Tables that are kept apart -/

/-- The page frame `f` is no table of the kernel half and not the top table of the user half, and
neither is any frame that it refers to. -/
structure Outside (K : Set Nat) (m : Mmu) (f : Nat) : Prop where
  not_kernel : f ∉ K
  ne_top : f ≠ m.ttbr0
  entries : ∀ j < 512, (m.memory f j).IsTable →
    (m.memory f j).outputAddress ∉ K ∧ (m.memory f j).outputAddress ≠ m.ttbr0

/-- The tables of the user half and the spare page frames `S` are outside. -/
structure Separate (K S : Set Nat) (m : Mmu) : Prop where
  top_not : m.ttbr0 ∉ K
  self : m.SelfMapped .user
  tables : ∀ i < 511, (m.topEntry .user i).present →
    (m.topEntry .user i).IsTable ∧ Outside K m (m.topEntry .user i).outputAddress
  spare : ∀ f ∈ S, Outside K m f
  free : m.pageAllocator.freePages ⊆ S
  managed : m.pageAllocator.Managed

/-- An entry that is not present, or refers to a spare page frame. -/
def Spare (S : Set Nat) (e : PageTableEntry) : Prop := e.present → e.IsTable ∧ e.outputAddress ∈ S

theorem spare_cleared : Spare S .cleared := fun h => absurd h Bool.false_ne_true

theorem spare_tableDescriptor (hf : f ∈ S) (hlt : f < 2 ^ 31) :
    Spare S (.tableDescriptor (f * pageSize)) := by
  refine fun _ => ⟨⟨rfl, rfl⟩, ?_⟩
  show outputOf (f * pageSize) ∈ S
  rwa [PageAllocator.outputOf_page hlt]

theorem Outside.set {g : Nat} (h : Outside K m g) (hS : ∀ f ∈ S, Outside K m f) (he : Spare S e) :
    Outside K (m.set f k e) g where
  not_kernel := h.not_kernel
  ne_top := h.ne_top
  entries := by
    intro j hj
    rw [set_memory]
    split
    next =>
      intro htable
      have hspare := hS _ (he htable.1).2
      exact ⟨hspare.not_kernel, hspare.ne_top⟩
    next => exact h.entries j hj

/-- Storing an entry outside the kernel half keeps the tables apart, unless it replaces the entry
that refers to its own table. -/
theorem Separate.set (h : Separate K S m) (he : Spare S e) (htop : f = m.ttbr0 → k ≠ 511) :
    Separate K S (m.set f k e) where
  top_not := h.top_not
  self := by
    have hentry : (m.set f k e).topEntry .user 511 = m.topEntry .user 511 := by
      show (m.set f k e).memory m.ttbr0 511 = _
      rw [set_memory, if_neg]
      · rfl
      · rintro ⟨rfl, rfl⟩
        exact htop rfl rfl
    exact ⟨hentry ▸ h.self.isTable, hentry ▸ h.self.writable, hentry ▸ h.self.outputAddress_eq⟩
  tables := by
    intro i hi
    have hentry : (m.set f k e).topEntry .user i =
        if m.ttbr0 = f ∧ i = k then e else m.topEntry .user i := set_memory f k e _ _
    rw [hentry]
    split
    next =>
      intro hpresent
      obtain ⟨htable, hmem⟩ := he hpresent
      exact ⟨htable, (h.spare _ hmem).set h.spare he⟩
    next =>
      intro hpresent
      obtain ⟨htable, houtside⟩ := h.tables i hi hpresent
      exact ⟨htable, houtside.set h.spare he⟩
  spare := fun g hg => (h.spare g hg).set h.spare he
  free := h.free
  managed := h.managed

theorem Keeps.set (hf : f ∉ K) : Keeps K m (m.set f k e) where
  ttbr0_eq := rfl
  ttbr1_eq := rfl
  memory_eq := by
    intro g hg
    have hne : g ≠ f := fun heq => hf (heq ▸ hg)
    exact Function.update_of_ne hne ..

/-! ## The store instruction -/

/-- An entry of the tables of a half, but not the one that refers to its own table. -/
structure Below (i j k : Nat) : Prop where
  first : i < 512
  second : j < 512
  third : k < 512
  not_self : ¬ (i = 511 ∧ j = 511 ∧ k = 511)

/-- A write to an entry of the user half goes through, faults in a window, or stops the kernel. -/
theorem Separate.write_cases (h : Separate K S m) (he : Spare S e) (hb : Below i j k) :
    (∃ m', m.write (Half.user.base + windowOffset i j k) e = .ok m' ∧ Separate K S m' ∧
      Keeps K m m') ∨
    m.write (Half.user.base + windowOffset i j k) e = .error .other ∨
    i < 511 ∧ m.write (Half.user.base + windowOffset i j k) e = .error (.translation 2) ∨
    ¬ (i = 511 ∧ j = 511) ∧
      m.write (Half.user.base + windowOffset i j k) e = .error (.translation 3) := by
  obtain ⟨hi, hj, hk, hself⟩ := hb
  -- the table that the second step finds
  have hok : (m.topEntry .user i).IsTable → (m.midEntry .user i j).IsTable →
      (m.midEntry .user i j).outputAddress ∉ K →
      ((m.midEntry .user i j).outputAddress = m.ttbr0 → k ≠ 511) →
      (∃ m', m.write (Half.user.base + windowOffset i j k) e = .ok m' ∧ Separate K S m' ∧
        Keeps K m m') ∨ m.write (Half.user.base + windowOffset i j k) e = .error .other := by
    intro h₁ h₂ hnot htop
    rw [write_window h.self hi hj hk h₁ h₂]
    split
    next => exact .inl ⟨_, rfl, h.set he htop, .set hnot⟩
    next => exact .inr rfl
  by_cases hlast : i = 511
  · subst hlast
    have hmid := h.self.midEntry j
    by_cases hlast : j = 511
    · subst hlast
      have hframe : (m.midEntry .user 511 511).outputAddress = m.ttbr0 := by
        rw [hmid, h.self.outputAddress_eq]
        rfl
      have hcases := hok h.self.isTable (hmid ▸ h.self.isTable) (hframe ▸ h.top_not)
        fun _ hk => hself ⟨rfl, rfl, hk⟩
      exact hcases.imp id .inl
    · by_cases h₂ : (m.midEntry .user 511 j).IsTable
      · have houtside := (h.tables j (by omega) (hmid ▸ h₂.1)).2
        rw [← hmid] at houtside
        have hcases := hok h.self.isTable h₂ houtside.not_kernel fun heq =>
          absurd heq houtside.ne_top
        exact hcases.imp id .inl
      · exact .inr (.inr (.inr ⟨fun hand => hlast hand.2,
          write_window_third h.self hi hj hk h.self.isTable h₂⟩))
  · cases hpresent : (m.topEntry .user i).present with
    | false =>
        exact .inr (.inr (.inl ⟨by omega, write_window_second h.self hi hj hk hpresent⟩))
    | true =>
        obtain ⟨h₁, houtside⟩ := h.tables i (by omega) hpresent
        by_cases h₂ : (m.midEntry .user i j).IsTable
        · obtain ⟨hnot, hne⟩ := houtside.entries j hj h₂
          have hcases := hok h₁ h₂ hnot fun heq => absurd heq hne
          exact hcases.imp id .inl
        · exact .inr (.inr (.inr ⟨fun hand => hlast hand.1,
            write_window_third h.self hi hj hk h₁ h₂⟩))

/-- A store instruction that keeps the tables apart and the kernel half as it is. -/
def KeepsApart (K S : Set Nat) (store : Mmu → Nat → PageTableEntry → Option Mmu) : Prop :=
  ∀ {m m' : Mmu} {i j k : Nat} {e : PageTableEntry}, Separate K S m → Spare S e → Below i j k →
    store m (Half.user.base + windowOffset i j k) e = some m' → Separate K S m' ∧ Keeps K m m'

variable {instruction : Mmu → Nat → PageTableEntry → Option Mmu}

theorem KeepsApart.makeDescriptor (hstore : KeepsApart K S instruction) (h : Separate K S m)
    (he : Spare S e) (hb : Below i j k)
    (hmake : makeDescriptor instruction m (Half.user.base + windowOffset i j k) e = some m') :
    Separate K S m' ∧ Keeps K m m' := by
  obtain ⟨m₁, hclear, hwrite⟩ := Option.bind_eq_some_iff.1 hmake
  obtain ⟨h₁, hkeeps₁⟩ := hstore h spare_cleared hb hclear
  obtain ⟨m₂, hok, h₂, hkeeps₂⟩ | hother | ⟨-, hsecond⟩ | ⟨-, hthird⟩ := h₁.write_cases he hb
  · rw [hok] at hwrite
    cases hwrite
    exact ⟨h₂, hkeeps₁.trans hkeeps₂⟩
  · rw [hother] at hwrite
    cases hwrite
  · rw [hsecond] at hwrite
    cases hwrite
  · rw [hthird] at hwrite
    cases hwrite

/-- The same with other free pages. -/
theorem Separate.with_allocator (h : Separate K S m) {a : PageAllocator} (ha : a.Managed)
    (hsub : a.freePages ⊆ m.pageAllocator.freePages) (frames : List Nat) :
    Separate K S { m with pageAllocator := a, tableFrames := frames } where
  top_not := h.top_not
  self := ⟨h.self.isTable, h.self.writable, h.self.outputAddress_eq⟩
  tables := by
    intro i hi hpresent
    obtain ⟨htable, houtside⟩ := h.tables i hi hpresent
    exact ⟨htable, ⟨houtside.not_kernel, houtside.ne_top, houtside.entries⟩⟩
  spare := fun f hf => ⟨(h.spare f hf).not_kernel, (h.spare f hf).ne_top, (h.spare f hf).entries⟩
  free := hsub.trans h.free
  managed := ha

/-- The table that the handler adds comes from the spare page frames. -/
theorem KeepsApart.addTable (hstore : KeepsApart K S instruction) (h : Separate K S m)
    (hb : Below i j k)
    (hadd : addTable instruction m (Half.user.base + windowOffset i j k) = some m') :
    Separate K S m' ∧ Keeps K m m' := by
  rw [Mmu.addTable] at hadd
  obtain hnone | ⟨a, index, hreserve, hne, hreserved, -⟩ :=
    h.managed.reserve (by decide : pageSize < 2 ^ 64)
  · rw [hnone] at hadd
    cases hadd
  · rw [hreserve] at hadd
    simp only [Option.bind_eq_bind, Option.bind_some, if_neg hne] at hadd
    have hfree := hreserved.subset (Lib.self_mem_block (index, _))
    have hspare : Spare S (.tableDescriptor (index * pageSize)) :=
      spare_tableDescriptor (h.free hfree) (h.managed.lt_of_free hfree)
    have hsub : a.freePages ⊆ m.pageAllocator.freePages := by
      rw [hreserved.freePages_eq]
      exact Set.sdiff_subset
    obtain ⟨h', hkeeps⟩ :=
      hstore.makeDescriptor (h.with_allocator hreserved.managed hsub _) hspare hb hadd
    exact ⟨h', hkeeps.ttbr0_eq, hkeeps.ttbr1_eq, hkeeps.memory_eq⟩

/-- The handler stores only entries of the user half that refer to spare page frames. -/
theorem keepsApart_store (fuel : Nat) : KeepsApart K S (store fuel) := by
  induction fuel with
  | zero =>
      intro m m' i j k e h he hb hstore
      cases hstore
  | succ fuel ih =>
      intro m m' i j k e h he hb hstore
      have hj := hb.second
      have hself : ∀ n < 511, Below 511 511 n := fun n hn =>
        ⟨by omega, by omega, by omega, by omega⟩
      rw [store] at hstore
      obtain ⟨m₁, hok, h₁, hkeeps₁⟩ | hother | ⟨hi, hsecond⟩ | ⟨hne, hthird⟩ := h.write_cases he hb
      · rw [hok] at hstore
        cases hstore
        exact ⟨h₁, hkeeps₁⟩
      · rw [hother] at hstore
        cases hstore
      · -- two tables are added, and the store is executed again
        rw [hsecond] at hstore
        obtain ⟨m₁, hhandle, hagain⟩ := Option.bind_eq_some_iff.1 hstore
        rw [handlePageFault_second .user hi hb.second hb.third] at hhandle
        obtain ⟨m₂, hadd₂, hadd₃⟩ := Option.bind_eq_some_iff.1 hhandle
        obtain ⟨h₂, hkeeps₂⟩ := ih.addTable h (hself i hi) hadd₂
        obtain ⟨h₃, hkeeps₃⟩ := ih.addTable h₂ ⟨by omega, hb.first, hj, by omega⟩ hadd₃
        obtain ⟨h', hkeeps'⟩ := ih h₃ he hb hagain
        exact ⟨h', (hkeeps₂.trans hkeeps₃).trans hkeeps'⟩
      · rw [hthird] at hstore
        obtain ⟨m₁, hhandle, hagain⟩ := Option.bind_eq_some_iff.1 hstore
        rw [handlePageFault_third .user hb.first hb.second hb.third hne] at hhandle
        obtain ⟨h₁, hkeeps₁⟩ := ih.addTable h ⟨by omega, hb.first, hj, by omega⟩ hhandle
        obtain ⟨h', hkeeps'⟩ := ih h₁ he hb hagain
        exact ⟨h', hkeeps₁.trans hkeeps'⟩

/-! ## Page entries of the lower half -/

/-- The window address of the entry of a page in the lower half. -/
theorem entryAddress_low {page : Nat} (h : page < lowEnd) :
    entryAddress 0 page = some (Half.user.base +
      windowOffset (page / 2 ^ 30) (page / 2 ^ 21 % 512) (page / 2 ^ 12 % 512)) := by
  have hlow : ¬ highMem ≤ page := by
    unfold lowEnd at h
    unfold highMem
    omega
  rw [entryAddress, if_neg hlow, if_pos h]
  show some (tables .user 2 + 8 * (page / 2 ^ 12)) = _
  rw [tables_two, Nat.div_div_eq_div_mul, Nat.div_div_eq_div_mul, ← Nat.pow_add, ← Nat.pow_add]

theorem below_page {page : Nat} (h : page + pageSize < lowEnd) :
    Below (page / 2 ^ 30) (page / 2 ^ 21 % 512) (page / 2 ^ 12 % 512) := by
  unfold lowEnd pageSize at h
  exact ⟨by omega, by omega, by omega, by omega⟩

theorem Separate.setPageEntry (h : Separate K S m) {page frame flags : Nat}
    (hpage : page + pageSize < lowEnd) (hframe : outputOf frame ∈ S)
    (hset : setPageEntry fuel m 0 page frame flags = some m') :
    Separate K S m' ∧ Keeps K m m' := by
  rw [Mmu.setPageEntry, if_neg (by decide), entryAddress_low (by omega)] at hset
  have hstore : KeepsApart K S (store fuel) := keepsApart_store fuel
  exact hstore.makeDescriptor h (fun _ => ⟨⟨rfl, rfl⟩, hframe⟩) (below_page hpage) hset

theorem Separate.clearEntry (h : Separate K S m) {page : Nat} (hpage : page + pageSize < lowEnd)
    (hclear : clearEntry fuel m 0 page = some m') : Separate K S m' ∧ Keeps K m m' := by
  rw [Mmu.clearEntry, entryAddress_low (by omega)] at hclear
  exact keepsApart_store fuel h spare_cleared (below_page hpage) hclear

/-! ## The last page of the lower half -/

/-- The entry of the last page is the one that refers to its own table. -/
theorem entryAddress_last {page : Nat} (h : page < lowEnd) (hlast : lowEnd ≤ page + pageSize) :
    entryAddress 0 page = some (Half.user.base + windowOffset 511 511 511) := by
  rw [entryAddress_low h]
  unfold lowEnd pageSize at *
  have hi : page / 2 ^ 30 = 511 := by omega
  have hj : page / 2 ^ 21 % 512 = 511 := by omega
  have hk : page / 2 ^ 12 % 512 = 511 := by omega
  rw [hi, hj, hk]

/-- Without that entry no other entry can be reached. -/
theorem write_unmapped (h : (m.topEntry .user 511).present = false) (hi : i < 512) (hj : j < 512)
    (hk : k < 512) :
    m.write (Half.user.base + windowOffset i j k) e = .error (.translation 1) := by
  have hlinear : windowOffset i j k < 2 ^ 39 := by
    unfold windowOffset
    omega
  have hfirst : windowOffset i j k / 2 ^ 30 = 511 := by
    unfold windowOffset
    omega
  have hentry : m.memory (m.top .user) 511 = m.topEntry .user 511 := rfl
  rw [write, walk_base .user hlinear, walkFrom, hfirst, hentry, h]
  rfl

theorem store_unmapped (h : (m.topEntry .user 511).present = false) (hi : i < 512) (hj : j < 512)
    (hk : k < 512) : store fuel m (Half.user.base + windowOffset i j k) e = none := by
  -- a fault at the first level would need a table before the top table
  have hhandle : ∀ instruction far, handlePageFault instruction m 1 far = none := by
    intro instruction far
    rw [handlePageFault]
    split_ifs <;> rfl
  cases fuel with
  | zero => rfl
  | succ fuel =>
      rw [store, write_unmapped h hi hj hk]
      dsimp only
      rw [hhandle]
      rfl

theorem topEntry_set_last (m : Mmu) (e : PageTableEntry) :
    (m.set m.ttbr0 511 e).topEntry .user 511 = e := by
  show (m.set m.ttbr0 511 e).memory m.ttbr0 511 = e
  rw [set_memory, if_pos ⟨rfl, rfl⟩]

/-- `setPageEntry` stops the kernel between the two stores to that entry. -/
theorem setPageEntry_last (h : Separate K S m) {page frame flags : Nat} (hpage : page < lowEnd)
    (hlast : lowEnd ≤ page + pageSize) : setPageEntry fuel m 0 page frame flags = none := by
  rw [setPageEntry, if_neg (by decide), entryAddress_last hpage hlast]
  show makeDescriptor (store fuel) m _ (.pageDescriptor frame flags) = none
  cases fuel with
  | zero => rfl
  | succ fuel =>
      have hgone := congrArg present (topEntry_set_last m .cleared)
      rw [makeDescriptor, store, write_top h.self (by decide)]
      show ((m.set m.ttbr0 511 .cleared).write _ _).toOption = none
      rw [write_unmapped hgone (by decide) (by decide) (by decide)]
      rfl

/-- `clearEntry` makes all tables of the user half unreachable. -/
theorem clearEntry_last (h : Separate K S m) {page : Nat} (hpage : page < lowEnd)
    (hlast : lowEnd ≤ page + pageSize) (hclear : clearEntry fuel m 0 page = some m') :
    (m'.topEntry .user 511).present = false ∧ Keeps K m m' := by
  rw [clearEntry, entryAddress_last hpage hlast] at hclear
  cases fuel with
  | zero => cases hclear
  | succ fuel =>
      simp only [Option.bind_eq_bind, Option.bind_some] at hclear
      rw [store, write_top h.self (by decide)] at hclear
      cases hclear
      exact ⟨congrArg present (topEntry_set_last m .cleared), .set h.top_not⟩

/-! ## Regions -/

theorem mem_offsets {size p : Nat} (hp : p ∈ offsets size) :
    p < size ∧ p = p / pageSize * pageSize := by
  obtain ⟨n, hn, rfl⟩ := List.mem_map.1 hp
  have hlt := List.mem_range.1 hn
  have hpos : 0 < pageSize := by decide
  refine ⟨?_, by rw [Nat.mul_div_cancel n hpos]⟩
  unfold pageSize at *
  omega

/-- Mapping pages of the lower half to spare page frames changes no table of the kernel half. -/
theorem mapLoop_keeps {addr frame flags : Nat} {ps : List Nat} (h : Separate K S m)
    (hpages : ∀ p ∈ ps, (addr + p) % 2 ^ 64 < lowEnd)
    (hframes : ∀ p ∈ ps, outputOf ((frame + p) % 2 ^ 64) ∈ S)
    (hmap : mapLoop fuel addr frame flags ps m = some m') : Keeps K m m' := by
  induction ps generalizing m with
  | nil =>
      cases hmap
      exact .refl K _
  | cons p rest ih =>
      obtain ⟨m₁, hset, hrest⟩ := Option.bind_eq_some_iff.1 hmap
      have hpage := hpages p List.mem_cons_self
      by_cases hlast : lowEnd ≤ (addr + p) % 2 ^ 64 + pageSize
      · rw [setPageEntry_last h hpage hlast] at hset
        cases hset
      · obtain ⟨h₁, hkeeps₁⟩ :=
          h.setPageEntry (not_le.1 hlast) (hframes p List.mem_cons_self) hset
        have hkeeps := ih h₁ (fun q hq => hpages q (List.mem_cons_of_mem p hq))
          (fun q hq => hframes q (List.mem_cons_of_mem p hq)) hrest
        exact hkeeps₁.trans hkeeps

/-- Once the last page of the lower half was cleared, nothing more can be cleared in it. -/
theorem unmapLoop_unmapped {addr : Nat} {ps : List Nat} (h : (m.topEntry .user 511).present = false)
    (hpages : ∀ p ∈ ps, (addr + p) % 2 ^ 64 < lowEnd)
    (hunmap : unmapLoop fuel addr ps m = some m') : m' = m := by
  cases ps with
  | nil =>
      cases hunmap
      rfl
  | cons p rest =>
      obtain ⟨m₁, hclear, -⟩ := Option.bind_eq_some_iff.1 hunmap
      have hpage := hpages p List.mem_cons_self
      rw [clearEntry, entryAddress_low hpage] at hclear
      have hi : (addr + p) % 2 ^ 64 / 2 ^ 30 < 512 := by
        unfold lowEnd at hpage
        omega
      rw [Option.bind_eq_bind, Option.bind_some, store_unmapped h hi (Nat.mod_lt _ (by decide))
        (Nat.mod_lt _ (by decide))] at hclear
      cases hclear

/-- Unmapping pages of the lower half changes no table of the kernel half. -/
theorem unmapLoop_keeps {addr : Nat} {ps : List Nat} (h : Separate K S m)
    (hpages : ∀ p ∈ ps, (addr + p) % 2 ^ 64 < lowEnd)
    (hunmap : unmapLoop fuel addr ps m = some m') : Keeps K m m' := by
  induction ps generalizing m with
  | nil =>
      cases hunmap
      exact .refl K _
  | cons p rest ih =>
      obtain ⟨m₁, hclear, hrest⟩ := Option.bind_eq_some_iff.1 hunmap
      have hpage := hpages p List.mem_cons_self
      have hpages' : ∀ q ∈ rest, (addr + q) % 2 ^ 64 < lowEnd := fun q hq =>
        hpages q (List.mem_cons_of_mem p hq)
      by_cases hlast : lowEnd ≤ (addr + p) % 2 ^ 64 + pageSize
      · obtain ⟨hgone, hkeeps⟩ := clearEntry_last h hpage hlast hclear
        rw [unmapLoop_unmapped hgone hpages' hrest]
        exact hkeeps
      · obtain ⟨h₁, hkeeps₁⟩ := h.clearEntry (not_le.1 hlast) hclear
        exact hkeeps₁.trans (ih h₁ hpages' hrest)

/-- The tables of the user half and the free page frames are apart from the tables of the kernel
half. -/
def KernelApart (m : Mmu) : Prop := Separate m.kernelFrames m.pageAllocator.freePages m

/-- A kernel half with one table at each level. -/
theorem kernelFrames_of_chain {second third : Nat}
    (htop : ∀ i, (m.memory m.ttbr1 i).IsTable →
      (m.memory m.ttbr1 i).outputAddress = m.ttbr1 ∨ (m.memory m.ttbr1 i).outputAddress = second)
    (hsecond : ∀ j, (m.memory second j).IsTable → (m.memory second j).outputAddress = third) :
    ∀ f ∈ m.kernelFrames, f = m.ttbr1 ∨ f = second ∨ f = third := by
  rintro f (rfl | ⟨i, -, htable, rfl | ⟨j, -, htable', rfl⟩⟩)
  · exact .inl rfl
  · exact (htop i htable).imp_right .inl
  · have hmid : m.midEntry .kernel i j = m.memory (m.memory m.ttbr1 i).outputAddress j := rfl
    rw [hmid] at htable' ⊢
    obtain heq | heq := htop i htable
    · rw [heq] at htable' ⊢
      exact (htop j htable').imp_right .inl
    · rw [heq] at htable' ⊢
      exact .inr (.inr (hsecond j htable'))

private theorem kernelFrames_fewTables (a : PageAllocator) :
    ∀ f ∈ (fewTablesMachine a).kernelFrames, f = 2 ∨ f = 3 ∨ f = 4 := by
  refine kernelFrames_of_chain (fun i => ?_) fun i => ?_
  · show (fewTables 2 i).IsTable → (fewTables 2 i).outputAddress = 2 ∨
      (fewTables 2 i).outputAddress = 3
    unfold fewTables
    split <;> simp_all [IsTable, cleared, tableDescriptor, outputOf]
  · show (fewTables 3 i).IsTable → (fewTables 3 i).outputAddress = 4
    unfold fewTables
    split <;> simp_all [IsTable, cleared, tableDescriptor, outputOf]

private theorem outside_fewTables {a : PageAllocator} {f : Nat} (hf : f = 6 ∨ 8 ≤ f) :
    Outside (fewTablesMachine a).kernelFrames (fewTablesMachine a) f where
  not_kernel := by
    intro hmem
    have hframes := kernelFrames_fewTables a f hmem
    omega
  ne_top := by
    show f ≠ 1
    omega
  entries := by
    intro j _ htable
    change (fewTables f j).IsTable at htable
    show (fewTables f j).outputAddress ∉ _ ∧ (fewTables f j).outputAddress ≠ 1
    have hseven : (fewTables f j).outputAddress = 7 := by
      unfold fewTables at htable ⊢
      split at htable <;> simp_all [IsTable, cleared, tableDescriptor, outputOf]
    rw [hseven]
    exact ⟨fun hmem => absurd (kernelFrames_fewTables a 7 hmem) (by decide), by decide⟩

private theorem kernelApart_fewTables {a : PageAllocator} {mapBase : BlockPtr → Block}
    (ha : PageAllocator.construct upperPages mapBase pageSize = some a) :
    (fewTablesMachine a).KernelApart := by
  obtain ⟨hmanaged, hfree⟩ := PageAllocator.managed_construct upperPages_disjoint ha
  constructor
  · exact fun hmem => absurd (kernelFrames_fewTables a 1 hmem) (by decide)
  · exact ⟨⟨rfl, rfl⟩, ⟨rfl, rfl⟩, rfl⟩
  · intro i hi hpresent
    have hzero : i = 0 := by
      change (fewTables 1 i).present = true at hpresent
      unfold fewTables at hpresent
      split at hpresent <;> simp_all [cleared]
    subst hzero
    exact ⟨⟨rfl, rfl⟩, outside_fewTables (.inl rfl)⟩
  · intro f hf
    obtain ⟨r, hr, -, hpage, -⟩ := (hfree f).1 hf
    rw [List.mem_singleton.1 hr] at hpage
    change 0x10000 ≤ f * 4096 at hpage
    exact outside_fewTables (.inr (by omega))
  · exact Set.Subset.rfl
  · exact hmanaged

end Mmu

end CrosKernel.Memory
