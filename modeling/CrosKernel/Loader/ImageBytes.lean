import CrosKernel.Loader.ProgramImage
import CrosKernel.Memory.UserSpace

/-!
# The bytes of an address space

What `memset` and `memcpy` leave in the pages of the user half, while the file is read through the
kernel half. A `ByteView` is lawful when a byte that is stored is read back, and changes nothing but
its own page frame.
-/

namespace CrosKernel.Loader

open Memory Mmu UserNode

/-- The bytes of the physical memory are stored one by one, each in its page frame. -/
structure ByteView.Lawful (v : ByteView) : Prop where
  peek_poke : ∀ memory pa byte, v.peek (v.poke memory pa byte) pa = byte
  peek_poke_of_ne : ∀ memory pa byte pa', pa' ≠ pa →
    v.peek (v.poke memory pa byte) pa' = v.peek memory pa'
  poke_of_ne : ∀ memory pa byte f, f ≠ pa / pageSize → v.poke memory pa byte f = memory f
  peek_congr : ∀ memory memory' pa, memory (pa / pageSize) = memory' (pa / pageSize) →
    v.peek memory pa = v.peek memory' pa

variable {v : ByteView} {K : Set Nat} {m m' m'' : Mmu} {s : UserNode → Option Nat}
  {va fuel f : Nat} {byte : UInt8}

/-! ## Mapped addresses -/

/-- The address lies in a page that is mapped. -/
def Mapped (s : UserNode → Option Nat) (va : Nat) : Prop :=
  ∃ f, s (pageOf (va / pageSize)) = some f

/-- The physical address of an address in a page with this page frame. -/
theorem physical_div (f va : Nat) : (f * pageSize + va % pageSize) / pageSize = f := by
  unfold pageSize
  omega

theorem walk_mapped (h : UserSpace K m s) (hpage : s (pageOf (va / pageSize)) = some f) :
    ∃ leaf, m.walk va = .ok (leaf, f * pageSize + va % pageSize) ∧ leaf.Writable := by
  have hwalk := h.walk hpage (Nat.mod_lt va (by decide))
  rwa [Nat.div_add_mod'] at hwalk

theorem loadByte_mapped (h : UserSpace K m s) (hpage : s (pageOf (va / pageSize)) = some f) :
    loadByte v m va = some (v.peek m.memory (f * pageSize + va % pageSize)) := by
  obtain ⟨leaf, hwalk, hwritable⟩ := walk_mapped h hpage
  simp only [loadByte, hwalk, hwritable.1, if_true]

theorem storeByte_mapped (h : UserSpace K m s) (hpage : s (pageOf (va / pageSize)) = some f)
    (hstore : storeByte v fuel m va byte = some m') :
    m' = { m with memory := v.poke m.memory (f * pageSize + va % pageSize) byte } := by
  cases fuel with
  | zero => cases hstore
  | succ fuel =>
      obtain ⟨leaf, hwalk, haf, hro⟩ := walk_mapped h hpage
      rw [storeByte, hwalk] at hstore
      simp only [haf, hro, Bool.not_false, Bool.and_true, if_true] at hstore
      exact (Option.some.inj hstore).symm

/-! ## Bytes that are stored -/

/-- The bytes `data` at the `n` addresses from `start` on. -/
def bytesAt (start n : Nat) (data : Nat → UInt8) (va : Nat) : Option UInt8 :=
  if start ≤ va ∧ va < start + n then some (data (va - start)) else none

theorem bytesAt_add {start n o : Nat} (ho : o < n) (data : Nat → UInt8) :
    bytesAt start n data (start + o) = some (data o) := by
  rw [bytesAt, if_pos (by omega), Nat.add_sub_cancel_left]

theorem bytesAt_eq_none {start n va : Nat} (h : va < start ∨ start + n ≤ va)
    (data : Nat → UInt8) : bytesAt start n data va = none :=
  if_neg (by omega)

/-- Between the two states the bytes `written` were stored to mapped addresses. -/
structure Stored (v : ByteView) (K : Set Nat) (s : UserNode → Option Nat) (m m' : Mmu)
    (written : Nat → Option UInt8) : Prop where
  space : UserSpace K m' s
  keeps : Keeps K m m'
  loadByte_eq : ∀ va, Mapped s va → loadByte v m' va = (written va).or (loadByte v m va)

theorem Stored.nothing (h : UserSpace K m s) (start : Nat) (data : Nat → UInt8) :
    Stored v K s m m (bytesAt start 0 data) := by
  refine ⟨h, .refl K m, fun va _ => ?_⟩
  rw [bytesAt, if_neg (by omega)]
  rfl

/-- The first byte, and then the others. -/
theorem Stored.first (hv : v.Lawful) (h : UserSpace K m s) {start n : Nat} {data : Nat → UInt8}
    (hmapped : Mapped s start) (hstore : storeByte v fuel m start (data 0) = some m')
    (hrest : UserSpace K m' s → Keeps K m m' →
      Stored v K s m' m'' (bytesAt (start + 1) n fun o => data (o + 1))) :
    Stored v K s m m'' (bytesAt start (n + 1) data) := by
  obtain ⟨f, hpage⟩ := hmapped
  have hm' := storeByte_mapped h hpage hstore
  have hother : ∀ g, g ≠ f →
      v.poke m.memory (f * pageSize + start % pageSize) (data 0) g = m.memory g := by
    intro g hg
    refine hv.poke_of_ne _ _ _ g ?_
    rwa [physical_div]
  obtain ⟨h', hkeeps⟩ := h.with_memory hpage hother
  rw [← hm'] at h' hkeeps
  obtain ⟨hspace, hkeeps', hbytes⟩ := hrest h' hkeeps
  refine ⟨hspace, hkeeps.trans hkeeps', fun va hva => ?_⟩
  have hva' := hva
  obtain ⟨g, hg⟩ := hva'
  rw [hbytes va hva, loadByte_mapped h' hg, loadByte_mapped h hg, hm']
  by_cases heq : va = start
  · subst heq
    rw [hpage] at hg
    cases hg
    rw [hv.peek_poke, bytesAt, bytesAt, if_neg (by omega), if_pos (by omega), Nat.sub_self]
    rfl
  · rw [hv.peek_poke_of_ne]
    · by_cases hin : start + 1 ≤ va ∧ va < start + 1 + n
      · have hindex : va - (start + 1) + 1 = va - start := by omega
        rw [bytesAt, bytesAt, if_pos hin, if_pos (by omega), hindex]
      · rw [bytesAt, bytesAt, if_neg hin, if_neg (by omega)]
    · -- another page, or another byte of the same page
      intro hphysical
      have hframe : g = f := by
        rw [← physical_div g va, hphysical, physical_div]
      subst hframe
      have hsame := pageOf_inj.1 (h.injective hg hpage)
      have hoffset : va % pageSize = start % pageSize := Nat.add_left_cancel hphysical
      exact heq (by rw [← Nat.div_add_mod va pageSize, hsame, hoffset, Nat.div_add_mod])

/-- `memset` of a range that is mapped. -/
theorem memset_stored (hv : v.Lawful) (h : UserSpace K m s) {start size : Nat}
    (hsize : size < 2 ^ 31) (hstart : start + size ≤ 2 ^ 64)
    (hmapped : ∀ o < size, Mapped s (start + o))
    (hset : memset v fuel m start size byte = some m') :
    Stored v K s m m' (bytesAt start size fun _ => byte) := by
  rw [memset, Nat.mod_eq_of_lt (by omega), if_pos hsize] at hset
  clear hsize
  induction size generalizing m start with
  | zero =>
      cases hset
      exact .nothing h ..
  | succ size ih =>
      obtain ⟨m₁, hstore, hrest⟩ := Option.bind_eq_some_iff.1 hset
      rw [Nat.mod_eq_of_lt (by omega)] at hstore
      refine .first hv h (hmapped 0 (by omega)) hstore fun h₁ _ => ?_
      refine ih h₁ (by omega) (fun o ho => ?_) hrest
      rw [Nat.add_assoc, Nat.add_comm 1 o]
      exact hmapped (o + 1) (by omega)

/-- `memcpy` to a range that is mapped, from addresses that read the same in all states with the
same page frames `K`. -/
theorem memcpy_stored (hv : v.Lawful) (h : UserSpace K m s) {dest src count : Nat}
    {data : Nat → UInt8} (hdest : dest + count ≤ 2 ^ 64) (hsrc : src + count ≤ 2 ^ 64)
    (hmapped : ∀ o < count, Mapped s (dest + o))
    (hdata : ∀ m', Keeps K m m' → ∀ o < count, loadByte v m' (src + o) = some (data o))
    (hcopy : memcpy v fuel m dest src count = some m') :
    Stored v K s m m' (bytesAt dest count data) := by
  rw [memcpy] at hcopy
  split at hcopy
  next =>
    induction count generalizing m dest src data with
    | zero =>
        cases hcopy
        exact .nothing h ..
    | succ count ih =>
        rw [memcpyLoop, Nat.mod_eq_of_lt (by omega : src < 2 ^ 64),
          Nat.mod_eq_of_lt (by omega : dest < 2 ^ 64)] at hcopy
        have hbyte := hdata m (.refl K m) 0 (by omega)
        rw [Nat.add_zero] at hbyte
        rw [hbyte, Option.bind_eq_bind, Option.bind_some] at hcopy
        obtain ⟨m₁, hstore, hrest⟩ := Option.bind_eq_some_iff.1 hcopy
        refine .first hv h (hmapped 0 (by omega)) hstore fun h₁ hkeeps => ?_
        refine ih h₁ (by omega) (by omega) (fun o ho => ?_) (fun m₂ hkeeps₂ o ho => ?_) (by omega)
          hrest
        · rw [Nat.add_assoc, Nat.add_comm 1 o]
          exact hmapped (o + 1) (by omega)
        · rw [Nat.add_assoc, Nat.add_comm 1 o]
          exact hdata m₂ (hkeeps.trans hkeeps₂) (o + 1) (by omega)
  next => cases hcopy

/-! ## The file -/

/-- The page frames that these addresses lead to. -/
def framesAt (m : Mmu) (start n : Nat) : Set Nat :=
  {f | ∃ o < n, ∃ leaf pa, m.walk (start + o) = .ok (leaf, pa) ∧ f = pa / pageSize}

/-- The file of `n` bytes lies in the kernel half, in page frames of `K`. -/
structure FileAt (v : ByteView) (K : Set Nat) (m : Mmu) (start n : Nat) (file : Nat → UInt8) :
    Prop where
  high : highMem ≤ start
  below : start + n ≤ 2 ^ 64
  tables : m.kernelFrames ⊆ K
  frames : framesAt m start n ⊆ K
  loadByte_eq : ∀ o < n, loadByte v m (start + o) = some (file o)

variable {start n o size : Nat} {file : Nat → UInt8}

/-- It is read the same while the page frames of `K` are kept. -/
theorem FileAt.loadByte (h : FileAt v K m start n file) (hv : v.Lawful) (hkeeps : Keeps K m m')
    (ho : o < n) : loadByte v m' (start + o) = some (file o) := by
  have hkernel : Keeps m.kernelFrames m m' :=
    ⟨hkeeps.ttbr0_eq, hkeeps.ttbr1_eq, fun f hf => hkeeps.memory_eq f (h.tables hf)⟩
  have hhigh : highMem ≤ start + o := h.high.trans (Nat.le_add_right _ _)
  rw [← h.loadByte_eq o ho, Loader.loadByte, Loader.loadByte, walk_kernel hkernel hhigh]
  cases hwalk : m.walk (start + o) with
  | error abort => rfl
  | ok target =>
      obtain ⟨leaf, pa⟩ := target
      have hframe := hkeeps.memory_eq _ (h.frames ⟨o, ho, leaf, pa, hwalk, rfl⟩)
      dsimp only
      rw [hv.peek_congr m'.memory m.memory pa hframe]

/-- The value of the field of `size` bytes at the offset `o` of a file. -/
def fieldAt (file : Nat → UInt8) (o : Nat) : Nat → Nat
  | 0 => 0
  | size + 1 => (file o).toNat + 256 * fieldAt file (o + 1) size

theorem FileAt.loadWord (h : FileAt v K m start n file) (hv : v.Lawful) (hkeeps : Keeps K m m')
    (ho : o + size ≤ n) : loadWord v m' (start + o) size = some (fieldAt file o size) := by
  have hbelow := h.below
  induction size generalizing o with
  | zero => rfl
  | succ size ih =>
      rw [Loader.loadWord, Nat.mod_eq_of_lt (by omega), h.loadByte hv hkeeps (by omega),
        Nat.add_assoc, ih (by omega)]
      rfl

end CrosKernel.Loader
