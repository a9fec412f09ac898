import CrosKernel.Memory.PageFrames
import CrosKernel.Memory.TableWindows

/-!
# Tables that are added after a page fault

A store to an entry whose table is missing adds up to two tables. They are page frames as the
allocator gives them, with whatever is in them, so every entry that was left in them becomes a
translation. `fault_adds_no_mapping_iff` says which contents change nothing.
-/

namespace CrosKernel.Memory

open Lib PageTableEntry

namespace Mmu

variable {m m' : Mmu} {half g : Half} {a b c f i j k fuel frame : Nat} {e : PageTableEntry}
  {al al' : PageAllocator}

/-! ## The stores to the tables -/

theorem set_set (e' : PageTableEntry) : (m.set f k e').set f k e = m.set f k e := by
  simp [set]

theorem topEntry_set (g : Half) (a : Nat) :
    (m.set f k e).topEntry g a = if m.top g = f ∧ a = k then e else m.topEntry g a :=
  set_memory ..

/-- A store elsewhere leaves the entry that refers to its own table. -/
theorem SelfMapped.set (h : m.SelfMapped g) (hne : ¬ (m.top g = f ∧ 511 = k)) :
    (m.set f k e).SelfMapped g := by
  have hentry : (m.set f k e).topEntry g 511 = m.topEntry g 511 := by
    rw [topEntry_set, if_neg hne]
  exact ⟨hentry ▸ h.isTable, hentry ▸ h.writable, hentry ▸ h.outputAddress_eq⟩

theorem SelfMapped.reserved (h : m.SelfMapped g) : (m.reserved al frame).SelfMapped g :=
  ⟨h.isTable, h.writable, h.outputAddress_eq⟩

/-- A store that goes through at once. -/
theorem store_ok {va : Nat} (h : m.write va e = .ok m') (fuel : Nat) :
    store (fuel + 1) m va e = some m' := by
  rw [store, h]

theorem isTable_tableDescriptor (frame : Nat) : (tableDescriptor frame).IsTable := ⟨rfl, rfl⟩

theorem writable_tableDescriptor (frame : Nat) : (tableDescriptor frame).Writable := ⟨rfl, rfl⟩

/-- Where both stores of `makeDescriptor` go through, the table is linked. -/
theorem addTable_ok {va : Nat}
    (hclear : ∀ al frame, (m.reserved al frame).write va .cleared =
      .ok ((m.reserved al frame).set f k .cleared))
    (hwrite : ∀ al frame e, ((m.reserved al frame).set f k .cleared).write va e =
      .ok (((m.reserved al frame).set f k .cleared).set f k e))
    (hadd : addTable (store fuel) m va = some m') :
    ∃ al frame, m.pageAllocator.reserve pageSize = some (al, frame) ∧ frame ≠ NOMEM ∧
      m' = (m.reserved al frame).set f k (.tableDescriptor frame) := by
  obtain ⟨⟨al, frame⟩, hreserve, hadd⟩ := Option.bind_eq_some_iff.1 hadd
  dsimp only at hadd
  split at hadd
  next => cases hadd
  next hne =>
    refine ⟨al, frame, hreserve, hne, ?_⟩
    cases fuel with
    | zero => cases hadd
    | succ fuel =>
        rw [makeDescriptor, store_ok (hclear al frame) fuel] at hadd
        simp only [Option.bind_eq_bind, Option.bind_some, hwrite, set_set] at hadd
        exact (Option.some.inj hadd).symm

/-- A table of the second level is linked to the top table. -/
theorem addTable_top (h : m.SelfMapped half) (hi : i < 511)
    (hadd : addTable (store fuel) m (half.base + windowOffset 511 511 i) = some m') :
    ∃ al frame, m.pageAllocator.reserve pageSize = some (al, frame) ∧ frame ≠ NOMEM ∧
      m' = (m.reserved al frame).set (m.top half) i (.tableDescriptor frame) := by
  refine addTable_ok (fun al frame => ?_) (fun al frame e => ?_) hadd
  · exact write_top h.reserved (by omega)
  · exact write_top (h.reserved.set (by omega)) (by omega)

/-- A table of the last level is linked to a table of the second level. -/
theorem addTable_mid (h : m.SelfMapped half) (hi : i < 511) (hj : j < 512)
    (h₁ : (m.topEntry half i).IsTable) (hne : (m.topEntry half i).outputAddress ≠ m.top half)
    (hadd : addTable (store fuel) m (half.base + windowOffset 511 i j) = some m') :
    (m.topEntry half i).Writable ∧
    ∃ al frame, m.pageAllocator.reserve pageSize = some (al, frame) ∧ frame ≠ NOMEM ∧
      m' = (m.reserved al frame).set (m.topEntry half i).outputAddress j
        (.tableDescriptor frame) := by
  have hreserved : ∀ al frame e, (m.reserved al frame).write (half.base + windowOffset 511 i j) e =
      if (m.topEntry half i).Writable then
        .ok ((m.reserved al frame).set (m.topEntry half i).outputAddress j e)
      else .error .other :=
    fun al frame e => write_mid h.reserved (by omega) hj h₁
  by_cases hwritable : (m.topEntry half i).Writable
  · refine ⟨hwritable, addTable_ok (fun al frame => ?_) (fun al frame e => ?_) hadd⟩
    · rw [hreserved, if_pos hwritable]
    · generalize hm : (m.reserved al frame).set (m.topEntry half i).outputAddress j .cleared = m₁
      have hself : m₁.SelfMapped half := hm ▸ h.reserved.set fun hand => hne hand.1.symm
      have hentry : m₁.topEntry half i = m.topEntry half i := by
        rw [← hm, topEntry_set, if_neg fun hand => hne hand.1.symm]
        rfl
      have hwrite := write_mid (e := e) hself (by omega) hj (hentry ▸ h₁)
      rwa [hentry, if_pos hwritable] at hwrite
  · -- the first store of `makeDescriptor` is aborted
    obtain ⟨⟨al, frame⟩, -, hadd⟩ := Option.bind_eq_some_iff.1 hadd
    dsimp only at hadd
    split at hadd
    next => cases hadd
    next =>
      cases fuel with
      | zero => cases hadd
      | succ fuel =>
          rw [makeDescriptor, store, hreserved, if_neg hwritable] at hadd
          cases hadd

/-! ## What a store with a fault leaves -/

/-- After a fault at the third level the memory has one more table, and the entry in it. -/
theorem store_third (h : m.SelfMapped half) (hi : i < 511) (hj : j < 512) (hk : k < 512)
    (h₁ : (m.topEntry half i).IsTable) (h₂ : ¬ (m.midEntry half i j).IsTable)
    (hne : (m.topEntry half i).outputAddress ≠ m.top half)
    (hstore : store fuel m (half.base + windowOffset i j k) e = some m') :
    (m.topEntry half i).Writable ∧
    ∃ al frame, m.pageAllocator.reserve pageSize = some (al, frame) ∧ frame ≠ NOMEM ∧
      m' = ((m.reserved al frame).set (m.topEntry half i).outputAddress j
        (.tableDescriptor frame)).set (outputOf frame) k e := by
  cases fuel with
  | zero => cases hstore
  | succ fuel =>
      rw [store, write_window_third h (by omega) hj hk h₁ h₂] at hstore
      obtain ⟨m₁, hhandle, hagain⟩ := Option.bind_eq_some_iff.1 hstore
      rw [handlePageFault_third half (by omega) hj hk (by omega)] at hhandle
      obtain ⟨hwritable, al, frame, hreserve, hnomem, hm₁⟩ := addTable_mid h hi hj h₁ hne hhandle
      refine ⟨hwritable, al, frame, hreserve, hnomem, ?_⟩
      have hself : m₁.SelfMapped half := hm₁ ▸ h.reserved.set fun hand => hne hand.1.symm
      have htop : m₁.topEntry half i = m.topEntry half i := by
        rw [hm₁, topEntry_set, if_neg fun hand => hne hand.1.symm]
        rfl
      have hmid : m₁.midEntry half i j = .tableDescriptor frame := by
        rw [midEntry, htop, hm₁, set_memory, if_pos ⟨rfl, rfl⟩]
      have hwrite := write_window (e := e) hself (by omega) hj hk (htop ▸ h₁)
        (hmid ▸ isTable_tableDescriptor frame)
      rw [hmid, if_pos (writable_tableDescriptor frame)] at hwrite
      cases fuel with
      | zero => cases hagain
      | succ fuel =>
          rw [store_ok hwrite] at hagain
          rw [← hm₁]
          exact (Option.some.inj hagain).symm

/-- The same for an entry of the second level, whose table is linked to the top table. -/
theorem store_third_last (h : m.SelfMapped half) (hj : j < 511) (hk : k < 512)
    (h₂ : ¬ (m.topEntry half j).IsTable)
    (hstore : store fuel m (half.base + windowOffset 511 j k) e = some m') :
    ∃ al frame, m.pageAllocator.reserve pageSize = some (al, frame) ∧ frame ≠ NOMEM ∧
      m' = ((m.reserved al frame).set (m.top half) j (.tableDescriptor frame)).set
        (outputOf frame) k e := by
  cases fuel with
  | zero => cases hstore
  | succ fuel =>
      have hmid := h.midEntry j
      rw [store, write_window_third h (by omega) (by omega) hk h.isTable (hmid ▸ h₂)] at hstore
      obtain ⟨m₁, hhandle, hagain⟩ := Option.bind_eq_some_iff.1 hstore
      rw [handlePageFault_third half (by omega) (by omega) hk (by omega)] at hhandle
      obtain ⟨al, frame, hreserve, hnomem, hm₁⟩ := addTable_top h hj hhandle
      refine ⟨al, frame, hreserve, hnomem, ?_⟩
      have hself : m₁.SelfMapped half := hm₁ ▸ h.reserved.set (by omega)
      have htop : m₁.topEntry half j = .tableDescriptor frame := by
        rw [hm₁, topEntry_set, if_pos ⟨rfl, rfl⟩]
      have hwrite := write_mid (e := e) hself (by omega) hk
        (htop ▸ isTable_tableDescriptor frame)
      rw [htop, if_pos (writable_tableDescriptor frame)] at hwrite
      cases fuel with
      | zero => cases hagain
      | succ fuel =>
          rw [store_ok hwrite] at hagain
          rw [← hm₁]
          exact (Option.some.inj hagain).symm

/-- After a fault at the second level the memory has two more tables. -/
theorem store_second (h : m.SelfMapped half) (hi : i < 511) (hj : j < 512) (hk : k < 512)
    (h₁ : (m.topEntry half i).present = false)
    (hne : ∀ al frame, m.pageAllocator.reserve pageSize = some (al, frame) → frame ≠ NOMEM →
      outputOf frame ≠ m.top half)
    (hstore : store fuel m (half.base + windowOffset i j k) e = some m') :
    ∃ al frame al' frame', m.pageAllocator.reserve pageSize = some (al, frame) ∧ frame ≠ NOMEM ∧
      al.reserve pageSize = some (al', frame') ∧ frame' ≠ NOMEM ∧
      m' = ((((m.reserved al frame).set (m.top half) i (.tableDescriptor frame)).reserved al'
        frame').set (outputOf frame) j (.tableDescriptor frame')).set (outputOf frame') k e := by
  cases fuel with
  | zero => cases hstore
  | succ fuel =>
      rw [store, write_window_second h (by omega) hj hk h₁] at hstore
      obtain ⟨m₂, hhandle, hagain⟩ := Option.bind_eq_some_iff.1 hstore
      rw [handlePageFault_second half hi hj hk] at hhandle
      obtain ⟨m₁, hadd, hadd'⟩ := Option.bind_eq_some_iff.1 hhandle
      obtain ⟨al, frame, hreserve, hnomem, hm₁⟩ := addTable_top h hi hadd
      have hself₁ : m₁.SelfMapped half := hm₁ ▸ h.reserved.set (by omega)
      have htop₁ : m₁.topEntry half i = .tableDescriptor frame := by
        rw [hm₁, topEntry_set, if_pos ⟨rfl, rfl⟩]
      have hnot : (m₁.topEntry half i).outputAddress ≠ m₁.top half := by
        rw [htop₁, hm₁]
        exact hne al frame hreserve hnomem
      obtain ⟨-, al', frame', hreserve', hnomem', hm₂⟩ :=
        addTable_mid hself₁ hi hj (htop₁ ▸ isTable_tableDescriptor frame) hnot hadd'
      have halloc : m₁.pageAllocator = al := by rw [hm₁]; rfl
      refine ⟨al, frame, al', frame', hreserve, hnomem, halloc ▸ hreserve', hnomem', ?_⟩
      have hself₂ : m₂.SelfMapped half := hm₂ ▸ hself₁.reserved.set fun hand => hnot hand.1.symm
      have htop₂ : m₂.topEntry half i = .tableDescriptor frame := by
        rw [hm₂, topEntry_set, if_neg fun hand => hnot hand.1.symm]
        exact htop₁
      have hmid₂ : m₂.midEntry half i j = .tableDescriptor frame' := by
        rw [midEntry, htop₂, hm₂, htop₁, set_memory, if_pos ⟨rfl, rfl⟩]
      have hwrite := write_window (e := e) hself₂ (by omega) hj hk
        (htop₂ ▸ isTable_tableDescriptor frame) (hmid₂ ▸ isTable_tableDescriptor frame')
      rw [hmid₂, if_pos (writable_tableDescriptor frame')] at hwrite
      cases fuel with
      | zero => cases hagain
      | succ fuel =>
          rw [store_ok hwrite] at hagain
          rw [htop₁, hm₁] at hm₂
          rw [← Option.some.inj hagain, hm₂]
          rfl

/-! ## Tables in use -/

/-- Where a table stands: at the top of a half, or below the entries with these indices. -/
inductive TablePath where
  | top (half : Half)
  | mid (half : Half) (i : Nat)
  | last (half : Half) (i j : Nat)
  deriving DecidableEq

/-- There is a table. -/
def HasTable (m : Mmu) : TablePath → Prop
  | .top _ => True
  | .mid half i => i < 511 ∧ (m.topEntry half i).IsTable
  | .last half i j =>
    i < 511 ∧ j < 512 ∧ (m.topEntry half i).IsTable ∧ (m.midEntry half i j).IsTable

/-- The page frame of the table. -/
def frameOf (m : Mmu) : TablePath → Nat
  | .top half => m.top half
  | .mid half i => (m.topEntry half i).outputAddress
  | .last half i j => (m.midEntry half i j).outputAddress

/-- The tables in use are page frames of their own, and none of them is free. -/
structure Tidy (m : Mmu) : Prop where
  self : ∀ half, m.SelfMapped half
  injective : ∀ p q, m.HasTable p → m.HasTable q → m.frameOf p = m.frameOf q → p = q
  not_free : ∀ p, m.HasTable p → m.frameOf p ∉ m.pageAllocator.freePages
  managed : m.pageAllocator.Managed

/-- The lookup of the page with these indices reads the entry `k` of the table. -/
def Reads (g : Half) (a b c : Nat) : TablePath → Nat → Prop
  | .top half, k => half = g ∧ k = a
  | .mid half i, k => half = g ∧ i = a ∧ k = b
  | .last half i j, k => half = g ∧ i = a ∧ j = b ∧ k = c

/-- The frame of the page with these indices. -/
def frameAt (m : Mmu) (g : Half) (a b c : Nat) : Option Nat := frameFrom m.memory (m.top g) a b c

/-- A lookup depends on the entries that it reads. -/
theorem frameAt_congr (ha : a < 511) (hb : b < 512) (htop : m'.top g = m.top g)
    (h : ∀ p k, m.HasTable p → Reads g a b c p k →
      m'.memory (m.frameOf p) k = m.memory (m.frameOf p) k) :
    m'.frameAt g a b c = m.frameAt g a b c := by
  have h₁ : m'.memory (m.top g) a = m.memory (m.top g) a := h (.top g) a trivial ⟨rfl, rfl⟩
  rw [frameAt, frameAt, htop, frameFrom, frameFrom, h₁]
  cases hpresent : (m.memory (m.top g) a).present with
  | false => rfl
  | true =>
      cases htype : (m.memory (m.top g) a).type with
      | false => rfl
      | true =>
          have htable : (m.topEntry g a).IsTable := ⟨hpresent, htype⟩
          have h₂ : m'.memory (m.topEntry g a).outputAddress b = m.midEntry g a b :=
            h (.mid g a) b ⟨ha, htable⟩ ⟨rfl, rfl, rfl⟩
          show (if (m.topEntry g a).af then frameBelow m'.memory (m.topEntry g a).outputAddress b c
            else none) = if (m.topEntry g a).af then
              frameBelow m.memory (m.topEntry g a).outputAddress b c else none
          have hentry : m.memory (m.topEntry g a).outputAddress b = m.midEntry g a b := rfl
          rw [frameBelow, frameBelow, h₂, hentry]
          cases hpresent' : (m.midEntry g a b).present with
          | false => rfl
          | true =>
              cases htype' : (m.midEntry g a b).type with
              | false => rfl
              | true =>
                  have h₃ := h (.last g a b) c ⟨ha, hb, htable, hpresent', htype'⟩
                    ⟨rfl, rfl, rfl, rfl⟩
                  show (if _ then if _ then some (m'.memory (m.frameOf (.last g a b)) c).frame
                    else none else none) = _
                  rw [h₃]
                  rfl

theorem Tidy.ne_frameOf (h : m.Tidy) (hf : f ∈ m.pageAllocator.freePages) {p : TablePath}
    (hp : m.HasTable p) : m.frameOf p ≠ f :=
  fun heq => h.not_free p hp (heq ▸ hf)

/-- Between the two states only free pages and the entry `k` of one table were written. -/
structure Links (m m' : Mmu) (p : TablePath) (k : Nat) : Prop where
  hasTable : m.HasTable p
  not_self : ∀ g, p = .top g → k ≠ 511
  top_eq : ∀ g, m'.top g = m.top g
  memory_eq : ∀ f ∉ m.pageAllocator.freePages, ∀ x, ¬ (f = m.frameOf p ∧ x = k) →
    m'.memory f x = m.memory f x

/-- Lookups that do not read this entry stay as they are. -/
theorem Links.frameAt_eq {p : TablePath} (hlinks : Links m m' p k) (h : m.Tidy) (ha : a < 511)
    (hb : b < 512) (hreads : ¬ Reads g a b c p k) : m'.frameAt g a b c = m.frameAt g a b c := by
  refine frameAt_congr ha hb (hlinks.top_eq g) fun q x hq hreads' => ?_
  refine hlinks.memory_eq _ (h.not_free q hq) x ?_
  rintro ⟨heq, rfl⟩
  obtain rfl := h.injective q p hq hlinks.hasTable heq
  exact hreads hreads'

theorem Links.self {p : TablePath} (hlinks : Links m m' p k) (h : m.Tidy) (g : Half) :
    m'.SelfMapped g := by
  have hentry : m'.topEntry g 511 = m.topEntry g 511 := by
    show m'.memory (m'.top g) 511 = m.memory (m.top g) 511
    rw [hlinks.top_eq g]
    refine hlinks.memory_eq _ (h.not_free (.top g) trivial) _ ?_
    rintro ⟨heq, hk⟩
    exact hlinks.not_self g (h.injective (.top g) p trivial hlinks.hasTable heq).symm hk.symm
  have hself := h.self g
  refine ⟨hentry ▸ hself.isTable, hentry ▸ hself.writable, ?_⟩
  rw [hentry, hself.outputAddress_eq, hlinks.top_eq g]

/-! ## Virtual pages -/

/-- A virtual page outside the windows. -/
def OutsideWindows (v : Nat) : Prop :=
  pageSize ∣ v ∧ (v < tables .user 2 ∨ highMem ≤ v ∧ v < tables .kernel 2)

/-- The page at `&__high_mem`, which `getPageFrame` looks up in the lower half. -/
def AtHighMem (g : Half) (a b c : Nat) : Prop := g = .kernel ∧ a = 0 ∧ b = 0 ∧ c = 0

/-- The pages whose entry the store to a window writes: one page, or those of a block. -/
def writtenPages (half : Half) (i j k : Nat) : Set Nat :=
  if i = 511 then {v | ∃ c < 512, v = half.base + pageOffset j k c}
  else {half.base + pageOffset i j k}

theorem base_pageOffset_inj {a' b' c' : Nat} {g' : Half} (ha : a < 511) (hb : b < 512)
    (hc : c < 512) (ha' : a' < 511) (hb' : b' < 512) (hc' : c' < 512) :
    g.base + pageOffset a b c = g'.base + pageOffset a' b' c' ↔
      g = g' ∧ a = a' ∧ b = b' ∧ c = c' := by
  unfold pageOffset
  constructor
  · intro heq
    cases g <;> cases g' <;> simp only [Half.base, highMem, reduceCtorEq, false_and, true_and] at *
      <;> omega
  · rintro ⟨rfl, rfl, rfl, rfl⟩
    rfl

theorem getPageFrame_base (h : m.SelfMapped g) (ha : a < 511) (hb : b < 512) (hc : c < 512)
    (hne : ¬ AtHighMem g a b c) :
    m.getPageFrame (g.base + pageOffset a b c) = m.frameAt g a b c := by
  refine getPageFrame_eq h ha hb hc ?_ ?_
  · cases g with
    | user =>
        refine if_neg ?_
        simp only [pageOffset, Half.base, highMem]
        omega
    | kernel =>
        refine if_pos ?_
        have hpos : 0 < pageOffset a b c := by
          by_contra hzero
          unfold pageOffset at hzero
          exact hne ⟨rfl, by omega, by omega, by omega⟩
        exact Nat.lt_add_of_pos_right hpos
  · unfold pageOffset
    cases g <;> simp only [Half.base, highMem] <;> omega

theorem getPageFrame_highMem (h : m.SelfMapped .user) :
    m.getPageFrame highMem = m.frameAt .user 0 0 0 :=
  getPageFrame_eq h (by decide) (by decide) (by decide) (if_neg (lt_irrefl _)) rfl

/-- The pages outside the windows by their indices. -/
theorem outsideWindows_iff {v : Nat} : OutsideWindows v ↔ v = highMem ∨
    ∃ g a b c, a < 511 ∧ b < 512 ∧ c < 512 ∧ ¬ AtHighMem g a b c ∧
      v = g.base + pageOffset a b c := by
  constructor
  · rintro ⟨⟨n, rfl⟩, hlow | ⟨hge, hlt⟩⟩
    · refine .inr ⟨.user, n / 2 ^ 18, n / 2 ^ 9 % 512, n % 512, ?_, by omega, by omega,
        fun hand => Half.noConfusion hand.1, ?_⟩
      · simp only [tables, pageSize] at hlow
        omega
      · simp only [Half.base, pageOffset, pageSize]
        omega
    · by_cases heq : pageSize * n = highMem
      · exact .inl heq
      · simp only [tables, pageSize, highMem] at hge hlt heq
        refine .inr ⟨.kernel, (n - highMem / 4096) / 2 ^ 18, (n - highMem / 4096) / 2 ^ 9 % 512,
          (n - highMem / 4096) % 512, ?_, by omega, by omega, ?_, ?_⟩
        · simp only [highMem]
          omega
        · rintro ⟨-, ha, hb, hc⟩
          simp only [highMem] at ha hb hc
          omega
        · simp only [Half.base, pageOffset, highMem, pageSize]
          omega
  · rintro (rfl | ⟨g, a, b, c, ha, hb, hc, -, rfl⟩)
    · exact ⟨by decide, by decide⟩
    · refine ⟨?_, ?_⟩
      · cases g <;> simp only [Half.base, pageOffset, highMem, pageSize] <;> omega
      · cases g <;> simp only [Half.base, pageOffset, highMem, tables] <;> omega

/-- `getPageFrame` returns the same for all pages but those in `W`, in terms of the lookups. -/
theorem forall_pages_iff (h : ∀ g, m.SelfMapped g) (h' : ∀ g, m'.SelfMapped g) (W : Set Nat) :
    (∀ v, OutsideWindows v → v ∉ W → m'.getPageFrame v = m.getPageFrame v) ↔
      (∀ g a b c, a < 511 → b < 512 → c < 512 → ¬ AtHighMem g a b c →
        g.base + pageOffset a b c ∉ W → m'.frameAt g a b c = m.frameAt g a b c) ∧
      (highMem ∉ W → m'.frameAt .user 0 0 0 = m.frameAt .user 0 0 0) := by
  constructor
  · intro hall
    refine ⟨fun g a b c ha hb hc hne hW => ?_, fun hW => ?_⟩
    · have hsame := hall _ (outsideWindows_iff.2 (.inr ⟨g, a, b, c, ha, hb, hc, hne, rfl⟩)) hW
      rwa [getPageFrame_base (h g) ha hb hc hne, getPageFrame_base (h' g) ha hb hc hne] at hsame
    · have hsame := hall _ (outsideWindows_iff.2 (.inl rfl)) hW
      rwa [getPageFrame_highMem (h .user), getPageFrame_highMem (h' .user)] at hsame
  · rintro ⟨hpages, hhighMem⟩ v hv hW
    obtain rfl | ⟨g, a, b, c, ha, hb, hc, hne, rfl⟩ := outsideWindows_iff.1 hv
    · rw [getPageFrame_highMem (h .user), getPageFrame_highMem (h' .user), hhighMem hW]
    · rw [getPageFrame_base (h g) ha hb hc hne, getPageFrame_base (h' g) ha hb hc hne,
        hpages g a b c ha hb hc hne hW]

/-- It is enough to look at the pages below the new tables. -/
theorem affected_pages_iff (h : ∀ g, m.SelfMapped g) (h' : ∀ g, m'.SelfMapped g) (W : Set Nat)
    (P : Half → Nat → Nat → Prop)
    (hsame : ∀ g a b c, a < 511 → b < 512 → ¬ P g a b → m'.frameAt g a b c = m.frameAt g a b c) :
    (∀ v, OutsideWindows v → v ∉ W → m'.getPageFrame v = m.getPageFrame v) ↔
      (∀ g a b c, P g a b → a < 511 → b < 512 → c < 512 → ¬ AtHighMem g a b c →
        g.base + pageOffset a b c ∉ W → m'.frameAt g a b c = m.frameAt g a b c) ∧
      (P .user 0 0 → highMem ∉ W → m'.frameAt .user 0 0 0 = m.frameAt .user 0 0 0) := by
  rw [forall_pages_iff h h' W]
  constructor
  · rintro ⟨hpages, hhighMem⟩
    exact ⟨fun g a b c _ => hpages g a b c, fun _ => hhighMem⟩
  · rintro ⟨hpages, hhighMem⟩
    constructor
    · intro g a b c ha hb hc hne hW
      by_cases hP : P g a b
      · exact hpages g a b c hP ha hb hc hne hW
      · exact hsame g a b c ha hb hP
    · intro hW
      by_cases hP : P .user 0 0
      · exact hhighMem hP hW
      · exact hsame .user 0 0 0 (by decide) (by decide) hP

/-! ## What was left in the new tables -/

/-- The entries of the page frame `table` but `k`, as the last level below the entries `i` and `j`,
give the frame `x`. For the first page of the lower half the entry `k` itself has to. -/
def EntriesGive (memory : Nat → Nat → PageTableEntry) (half : Half) (i j table k : Nat)
    (e : PageTableEntry) (x : Nat) : Prop :=
  (∀ c < 512, c ≠ k → ¬ AtHighMem half i j c → (memory table c).frame = x) ∧
    (half = .user → i = 0 → j = 0 → k = 0 → e.frame = x)

/-- The entries of the page frame `table` but `j`, as the second level below the entry `i`, lead to
the frame `x`. -/
def TablesGive (memory : Nat → Nat → PageTableEntry) (half : Half) (i table j x : Nat) : Prop :=
  ∀ b < 512, b ≠ j → ∀ c < 512, ¬ AtHighMem half i b c → frameBelow memory table b c = some x

/-- What is left in the page frames that the allocator gives for tables changes nothing, when `e` is
stored to an entry whose table is missing. -/
def NewTablesHarmless (m : Mmu) (half : Half) (i j k : Nat) (e : PageTableEntry) : Prop :=
  ∃ al frame, m.pageAllocator.reserve pageSize = some (al, frame) ∧
    if i = 511 then
      -- a table of the second level, in which `e` is stored
      let memory :=
        ((m.set (m.top half) j (.tableDescriptor frame)).set (outputOf frame) k e).memory
      TablesGive memory half j (outputOf frame) k (m.topEntry half j).frame ∧
        (half = .user → j = 0 → k = 0 →
          frameBelow memory (outputOf frame) 0 0 = some (m.topEntry half j).frame)
    else if (m.topEntry half i).present then
      -- a table of the last level
      EntriesGive m.memory half i j (outputOf frame) k e (m.midEntry half i j).frame
    else
      -- both of them
      ∃ al' frame', al.reserve pageSize = some (al', frame') ∧
        EntriesGive m.memory half i j (outputOf frame') k e 0 ∧
        TablesGive (((m.set (m.top half) i (.tableDescriptor frame)).set (outputOf frame) j
          (.tableDescriptor frame')).set (outputOf frame') k e).memory half i (outputOf frame) j 0

/-- Where the second step of a lookup finds no table. -/
theorem frameAt_no_table (h₁ : (m.topEntry g a).IsTable) (haf : (m.topEntry g a).af = true)
    (h₂ : ¬ (m.midEntry g a b).IsTable) : m.frameAt g a b c = some (m.midEntry g a b).frame := by
  show frameFrom _ _ _ _ _ = _
  have hentry : m.memory (m.top g) a = m.topEntry g a := rfl
  have hentry' : m.memory (m.topEntry g a).outputAddress b = m.midEntry g a b := rfl
  rw [frameFrom, hentry, h₁.1, h₁.2, haf, frameBelow, hentry']
  cases hpresent : (m.midEntry g a b).present with
  | false => simp [frame, hpresent]
  | true =>
      have htype : (m.midEntry g a b).type = false := by
        simpa [IsTable, hpresent] using h₂
      simp [frame, hpresent, htype]

/-- Where the first step finds none. -/
theorem frameAt_no_tables (h₁ : ¬ (m.topEntry g a).IsTable) :
    m.frameAt g a b c = some (m.topEntry g a).frame := by
  show frameFrom _ _ _ _ _ = _
  have hentry : m.memory (m.top g) a = m.topEntry g a := rfl
  rw [frameFrom, hentry]
  cases hpresent : (m.topEntry g a).present with
  | false => simp [frame, hpresent]
  | true =>
      have htype : (m.topEntry g a).type = false := by
        simpa [IsTable, hpresent] using h₁
      simp [frame, hpresent, htype]

/-- Below a descriptor that was made for a table. -/
theorem frameAt_table (h₁ : m.topEntry g a = .tableDescriptor frame) :
    m.frameAt g a b c = frameBelow m.memory (outputOf frame) b c := by
  show frameFrom _ _ _ _ _ = _
  have hentry : m.memory (m.top g) a = m.topEntry g a := rfl
  rw [frameFrom, hentry, h₁]
  rfl

theorem frameBelow_table {memory : Nat → Nat → PageTableEntry} {table : Nat}
    (h : memory table b = .tableDescriptor frame) :
    frameBelow memory table b c = some (memory (outputOf frame) c).frame := by
  rw [frameBelow, h]
  rfl

/-- A fault at the third level, when a table of the last level is added. -/
theorem third_iff (h : m.Tidy) (hi : i < 511) (hj : j < 512) (hk : k < 512)
    (h₁ : (m.topEntry half i).IsTable) (h₂ : ¬ (m.midEntry half i j).IsTable)
    (hwritable : (m.topEntry half i).Writable) (hfree : outputOf frame ∈ m.pageAllocator.freePages)
    (hm' : m' = ((m.reserved al frame).set (m.topEntry half i).outputAddress j
      (.tableDescriptor frame)).set (outputOf frame) k e) :
    (∀ v, OutsideWindows v → v ∉ writtenPages half i j k → m'.getPageFrame v = m.getPageFrame v) ↔
      EntriesGive m.memory half i j (outputOf frame) k e (m.midEntry half i j).frame := by
  have hmid : m.HasTable (.mid half i) := ⟨hi, h₁⟩
  have hne : (m.topEntry half i).outputAddress ≠ outputOf frame := h.ne_frameOf hfree hmid
  have htop : ∀ g, m.top g ≠ outputOf frame := fun g => h.ne_frameOf (p := .top g) hfree trivial
  have hmidTop : m.top half ≠ (m.topEntry half i).outputAddress := fun heq =>
    TablePath.noConfusion (h.injective (.top half) (.mid half i) trivial hmid heq)
  have hmemory : ∀ f x, m'.memory f x = if f = outputOf frame ∧ x = k then e
      else if f = (m.topEntry half i).outputAddress ∧ x = j then .tableDescriptor frame
      else m.memory f x := by
    intro f x
    rw [hm', set_memory, set_memory]
    rfl
  have hlinks : Links m m' (.mid half i) j := by
    refine ⟨hmid, fun _ heq => TablePath.noConfusion heq, fun g => hm' ▸ rfl, fun f hf x hne => ?_⟩
    have hf' : f ≠ outputOf frame := fun heq => hf (heq ▸ hfree)
    rw [hmemory, if_neg fun hand => hf' hand.1]
    exact if_neg hne
  have hbefore : ∀ c, m.frameAt half i j c = some (m.midEntry half i j).frame := fun c =>
    frameAt_no_table h₁ hwritable.1 h₂
  have hafter : ∀ c, m'.frameAt half i j c =
      some (if c = k then e else m.memory (outputOf frame) c).frame := by
    intro c
    have htopEntry : m'.topEntry half i = m.topEntry half i := by
      show m'.memory (m'.top half) i = _
      have heq : m'.top half = m.top half := hm' ▸ rfl
      rw [heq, hmemory, if_neg fun hand => htop half hand.1, if_neg fun hand => hmidTop hand.1]
      rfl
    have hmidEntry : m'.memory (m.topEntry half i).outputAddress j = .tableDescriptor frame := by
      rw [hmemory, if_neg fun hand => hne hand.1, if_pos ⟨rfl, rfl⟩]
    have hentry : m'.memory (outputOf frame) c =
        if c = k then e else m.memory (outputOf frame) c := by
      rw [hmemory]
      by_cases hc : c = k
      · rw [if_pos ⟨rfl, hc⟩, if_pos hc]
      · rw [if_neg fun hand => hc hand.2, if_neg fun hand => hne hand.1.symm, if_neg hc]
    show frameFrom m'.memory (m'.top half) i j c = _
    have htopEntry' : m'.memory (m'.top half) i = m.topEntry half i := htopEntry
    rw [frameFrom, htopEntry', h₁.1, h₁.2, hwritable.1]
    show frameBelow m'.memory (m.topEntry half i).outputAddress j c = _
    rw [frameBelow_table hmidEntry, hentry]
  have hwritten : writtenPages half i j k = {half.base + pageOffset i j k} := by
    rw [writtenPages, if_neg (by omega)]
  rw [affected_pages_iff h.self (hlinks.self h) _ (fun g a b => g = half ∧ a = i ∧ b = j)
    fun g a b c ha hb hother => hlinks.frameAt_eq h ha hb fun hreads =>
      hother ⟨hreads.1.symm, hreads.2.1.symm, hreads.2.2.symm⟩, hwritten]
  constructor
  · rintro ⟨hpages, hhighMem⟩
    constructor
    · intro c hc hck hne
      have hpage := hpages half i j c ⟨rfl, rfl, rfl⟩ hi hj hc hne fun hmem =>
        hck ((base_pageOffset_inj hi hj hc hi hj hk).1 hmem).2.2.2
      rw [hbefore, hafter, if_neg hck] at hpage
      exact Option.some.inj hpage
    · rintro rfl rfl rfl rfl
      have hpage := hhighMem ⟨rfl, rfl, rfl⟩ (by decide)
      rw [hbefore, hafter, if_pos rfl] at hpage
      exact Option.some.inj hpage
  · rintro ⟨hentries, hfirst⟩
    constructor
    · rintro g a b c ⟨rfl, rfl, rfl⟩ ha hb hc hne hW
      have hck : c ≠ k := fun heq => hW (heq ▸ rfl)
      rw [hbefore, hafter, if_neg hck, hentries c hc hck hne]
    · rintro ⟨rfl, rfl, rfl⟩ -
      rw [hbefore, hafter]
      by_cases hck : 0 = k
      · rw [if_pos hck, hfirst rfl rfl rfl hck.symm]
      · rw [if_neg hck, hentries 0 (by decide) hck fun hand => Half.noConfusion hand.1]

/-- A fault at the third level, when a table of the second level is added. -/
theorem third_last_iff (h : m.Tidy) (hj : j < 511) (hk : k < 512)
    (h₁ : ¬ (m.topEntry half j).IsTable) (hfree : outputOf frame ∈ m.pageAllocator.freePages)
    (hm' : m' = ((m.reserved al frame).set (m.top half) j (.tableDescriptor frame)).set
      (outputOf frame) k e) :
    (∀ v, OutsideWindows v → v ∉ writtenPages half 511 j k →
      m'.getPageFrame v = m.getPageFrame v) ↔
      TablesGive m'.memory half j (outputOf frame) k (m.topEntry half j).frame ∧
        (half = .user → j = 0 → k = 0 →
          frameBelow m'.memory (outputOf frame) 0 0 = some (m.topEntry half j).frame) := by
  have htop : ∀ g, m.top g ≠ outputOf frame := fun g => h.ne_frameOf (p := .top g) hfree trivial
  have hmemory : ∀ f x, m'.memory f x = if f = outputOf frame ∧ x = k then e
      else if f = m.top half ∧ x = j then .tableDescriptor frame else m.memory f x := by
    intro f x
    rw [hm', set_memory, set_memory]
    rfl
  have hlinks : Links m m' (.top half) j := by
    refine ⟨trivial, fun _ _ => by omega, fun g => hm' ▸ rfl, fun f hf x hne => ?_⟩
    have hf' : f ≠ outputOf frame := fun heq => hf (heq ▸ hfree)
    rw [hmemory, if_neg fun hand => hf' hand.1]
    exact if_neg hne
  have hbefore : ∀ b c, m.frameAt half j b c = some (m.topEntry half j).frame := fun b c =>
    frameAt_no_tables h₁
  have hafter : ∀ b c, m'.frameAt half j b c = frameBelow m'.memory (outputOf frame) b c := by
    intro b c
    refine frameAt_table ?_
    show m'.memory (m'.top half) j = _
    have heq : m'.top half = m.top half := hm' ▸ rfl
    rw [heq, hmemory, if_neg fun hand => htop half hand.1, if_pos ⟨rfl, rfl⟩]
  have hwritten : writtenPages half 511 j k =
      {v | ∃ c < 512, v = half.base + pageOffset j k c} := by
    rw [writtenPages, if_pos rfl]
  rw [affected_pages_iff h.self (hlinks.self h) _ (fun g a _ => g = half ∧ a = j)
    fun g a b c ha hb hother => hlinks.frameAt_eq h ha hb fun hreads =>
      hother ⟨hreads.1.symm, hreads.2.symm⟩, hwritten]
  constructor
  · rintro ⟨hpages, hhighMem⟩
    constructor
    · intro b hb hbk c hc hne
      have hpage := hpages half j b c ⟨rfl, rfl⟩ hj hb hc hne fun ⟨c', hc', hmem⟩ =>
        hbk ((base_pageOffset_inj hj hb hc hj hk hc').1 hmem).2.2.1
      rwa [hbefore, hafter] at hpage
    · rintro rfl rfl rfl
      have hpage := hhighMem ⟨rfl, rfl⟩ fun ⟨c, hc, heq⟩ => by
        simp only [highMem, Half.base, pageOffset] at heq
        omega
      rwa [hbefore, hafter] at hpage
  · rintro ⟨htables, hfirst⟩
    constructor
    · rintro g a b c ⟨rfl, rfl⟩ ha hb hc hne hW
      have hbk : b ≠ k := fun heq => hW ⟨c, hc, heq ▸ rfl⟩
      rw [hbefore, hafter, htables b hb hbk c hc hne]
    · rintro ⟨rfl, rfl⟩ -
      rw [hbefore, hafter]
      by_cases hk₀ : k = 0
      · exact hfirst rfl rfl hk₀
      · exact htables 0 (by decide) (Ne.symm hk₀) 0 (by decide) fun hand => Half.noConfusion hand.1

/-- A fault at the second level, when both are added. -/
theorem second_iff {frame' : Nat} (h : m.Tidy) (hi : i < 511) (hj : j < 512) (hk : k < 512)
    (h₁ : (m.topEntry half i).present = false)
    (hfree : outputOf frame ∈ m.pageAllocator.freePages)
    (hfree' : outputOf frame' ∈ m.pageAllocator.freePages) (hne : outputOf frame' ≠ outputOf frame)
    (hm' : m' = ((((m.reserved al frame).set (m.top half) i (.tableDescriptor frame)).reserved al'
      frame').set (outputOf frame) j (.tableDescriptor frame')).set (outputOf frame') k e) :
    (∀ v, OutsideWindows v → v ∉ writtenPages half i j k → m'.getPageFrame v = m.getPageFrame v) ↔
      EntriesGive m.memory half i j (outputOf frame') k e 0 ∧
        TablesGive m'.memory half i (outputOf frame) j 0 := by
  have htop : ∀ g, m.top g ≠ outputOf frame := fun g => h.ne_frameOf (p := .top g) hfree trivial
  have htop' : ∀ g, m.top g ≠ outputOf frame' := fun g =>
    h.ne_frameOf (p := .top g) hfree' trivial
  have hmemory : ∀ f x, m'.memory f x = if f = outputOf frame' ∧ x = k then e
      else if f = outputOf frame ∧ x = j then .tableDescriptor frame'
      else if f = m.top half ∧ x = i then .tableDescriptor frame else m.memory f x := by
    intro f x
    have hlog : ∀ (m : Mmu) al frame, (m.reserved al frame).memory = m.memory := fun _ _ _ => rfl
    rw [hm', set_memory, set_memory, hlog, set_memory, hlog]
  have hlinks : Links m m' (.top half) i := by
    refine ⟨trivial, fun _ _ => by omega, fun g => hm' ▸ rfl, fun f hf x hne => ?_⟩
    have hf₁ : f ≠ outputOf frame := fun heq => hf (heq ▸ hfree)
    have hf₂ : f ≠ outputOf frame' := fun heq => hf (heq ▸ hfree')
    rw [hmemory, if_neg fun hand => hf₂ hand.1, if_neg fun hand => hf₁ hand.1]
    exact if_neg hne
  have hbefore : ∀ b c, m.frameAt half i b c = some 0 := by
    intro b c
    have hnot : ¬ (m.topEntry half i).IsTable := fun htable =>
      Bool.false_ne_true (h₁.symm.trans htable.1)
    rw [frameAt_no_tables hnot, PageTableEntry.frame, h₁]
    rfl
  have hafter : ∀ b c, m'.frameAt half i b c = frameBelow m'.memory (outputOf frame) b c := by
    intro b c
    refine frameAt_table ?_
    show m'.memory (m'.top half) i = _
    have heq : m'.top half = m.top half := hm' ▸ rfl
    rw [heq, hmemory, if_neg fun hand => htop' half hand.1, if_neg fun hand => htop half hand.1,
      if_pos ⟨rfl, rfl⟩]
  -- below the entry `j` of the first table is the second one
  have hbelow : ∀ c, frameBelow m'.memory (outputOf frame) j c =
      some (if c = k then e else m.memory (outputOf frame') c).frame := by
    intro c
    have hentry : m'.memory (outputOf frame) j = .tableDescriptor frame' := by
      rw [hmemory, if_neg fun hand => hne hand.1.symm, if_pos ⟨rfl, rfl⟩]
    rw [frameBelow_table hentry, hmemory]
    by_cases hc : c = k
    · rw [if_pos ⟨rfl, hc⟩, if_pos hc]
    · rw [if_neg fun hand => hc hand.2, if_neg fun hand => hne hand.1,
        if_neg fun hand => htop' half hand.1.symm, if_neg hc]
  have hwritten : writtenPages half i j k = {half.base + pageOffset i j k} := by
    rw [writtenPages, if_neg (by omega)]
  rw [affected_pages_iff h.self (hlinks.self h) _ (fun g a _ => g = half ∧ a = i)
    fun g a b c ha hb hother => hlinks.frameAt_eq h ha hb fun hreads =>
      hother ⟨hreads.1.symm, hreads.2.symm⟩, hwritten]
  constructor
  · rintro ⟨hpages, hhighMem⟩
    refine ⟨⟨?_, ?_⟩, ?_⟩
    · intro c hc hck hne
      have hpage := hpages half i j c ⟨rfl, rfl⟩ hi hj hc hne fun hmem =>
        hck ((base_pageOffset_inj hi hj hc hi hj hk).1 hmem).2.2.2
      rw [hbefore, hafter, hbelow, if_neg hck] at hpage
      exact Option.some.inj hpage
    · rintro rfl rfl rfl rfl
      have hpage := hhighMem ⟨rfl, rfl⟩ (by decide)
      rw [hbefore, hafter, hbelow, if_pos rfl] at hpage
      exact Option.some.inj hpage
    · intro b hb hbj c hc hne
      have hpage := hpages half i b c ⟨rfl, rfl⟩ hi hb hc hne fun hmem =>
        hbj ((base_pageOffset_inj hi hb hc hi hj hk).1 hmem).2.2.1
      rwa [hbefore, hafter] at hpage
  · rintro ⟨⟨hentries, hfirst⟩, htables⟩
    constructor
    · rintro g a b c ⟨rfl, rfl⟩ ha hb hc hne hW
      rw [hbefore, hafter]
      by_cases hbj : b = j
      · subst hbj
        have hck : c ≠ k := fun heq => hW (heq ▸ rfl)
        rw [hbelow, if_neg hck, hentries c hc hck hne]
      · exact htables b hb hbj c hc hne
    · rintro ⟨rfl, rfl⟩ -
      rw [hbefore, hafter]
      by_cases hj₀ : 0 = j
      · subst hj₀
        rw [hbelow]
        by_cases hck : 0 = k
        · rw [if_pos hck, hfirst rfl rfl rfl hck.symm]
        · rw [if_neg hck, hentries 0 (by decide) hck fun hand => Half.noConfusion hand.1]
      · exact htables 0 (by decide) hj₀ 0 (by decide) fun hand => Half.noConfusion hand.1

/-- A store to a window that faults has not found a table at the second or third step. -/
theorem no_table_of_fault {level : Nat} (h : m.SelfMapped half) (hi : i < 512) (hj : j < 512)
    (hk : k < 512)
    (hfault : m.write (half.base + windowOffset i j k) e = .error (.translation level)) :
    (m.topEntry half i).present = false ∨
      (m.topEntry half i).IsTable ∧ ¬ (m.midEntry half i j).IsTable := by
  cases hpresent : (m.topEntry half i).present with
  | false => exact .inl rfl
  | true =>
      cases htype : (m.topEntry half i).type with
      | false =>
          -- a block is written like any other memory
          rw [write, walk_window h hi hj hk, walkWindow, hpresent, htype] at hfault
          simp only [Bool.not_true, Bool.false_eq_true, if_false, Bool.not_false, if_true] at hfault
          split at hfault <;> cases hfault
      | true =>
          refine .inr ⟨⟨hpresent, htype⟩, fun htable => ?_⟩
          rw [write_window h hi hj hk ⟨hpresent, htype⟩ htable] at hfault
          split at hfault <;> cases hfault

/-- A store to an entry whose table is missing changes the frames of no other page if and only if
what is left in the new tables is harmless. -/
theorem fault_adds_no_mapping_iff {level : Nat} (h : m.Tidy) (hi : i < 512) (hj : j < 512)
    (hk : k < 512) (hne : ¬ (i = 511 ∧ j = 511))
    (hfault : m.write (half.base + windowOffset i j k) e = .error (.translation level))
    (hstore : store fuel m (half.base + windowOffset i j k) e = some m') :
    (∀ v, OutsideWindows v → v ∉ writtenPages half i j k → m'.getPageFrame v = m.getPageFrame v) ↔
      m.NewTablesHarmless half i j k e := by
  have hcases := no_table_of_fault (h.self half) hi hj hk hfault
  -- the allocator gives one page frame, so the existential is about that one
  have hunique : ∀ {a al : PageAllocator} {frame}, a.reserve pageSize = some (al, frame) →
      ∀ {P : PageAllocator → Nat → Prop}, (∃ al frame,
        a.reserve pageSize = some (al, frame) ∧ P al frame) ↔ P al frame := by
    intro a al frame hreserve P
    constructor
    · rintro ⟨al', frame', hreserve', hP⟩
      obtain ⟨rfl, rfl⟩ := Prod.mk.inj (Option.some.inj (hreserve.symm.trans hreserve'))
      exact hP
    · exact fun hP => ⟨al, frame, hreserve, hP⟩
  by_cases hlast : i = 511
  · subst hlast
    have hself := (h.self half).midEntry j
    obtain habsent | ⟨-, h₂⟩ := hcases
    · rw [(h.self half).isTable.1] at habsent
      cases habsent
    · rw [hself] at h₂
      obtain ⟨al, frame, hreserve, hnomem, hm'⟩ :=
        store_third_last (h.self half) (by omega) hk h₂ hstore
      rw [third_last_iff h (by omega) hk h₂ (h.managed.reserve_outputOf hreserve hnomem).2.1 hm',
        NewTablesHarmless,
        hunique hreserve, if_pos rfl, hm']
      rfl
  · have hi' : i < 511 := by omega
    obtain habsent | ⟨h₁, h₂⟩ := hcases
    · have hnot : ∀ al frame, m.pageAllocator.reserve pageSize = some (al, frame) → frame ≠ NOMEM →
          outputOf frame ≠ m.top half := fun al frame hreserve hnomem =>
        (h.ne_frameOf (p := .top half)
          (h.managed.reserve_outputOf hreserve hnomem).2.1 trivial).symm
      obtain ⟨al, frame, al', frame', hreserve, hnomem, hreserve', hnomem', hm'⟩ :=
        store_second (h.self half) hi' hj hk habsent hnot hstore
      obtain ⟨hmanaged, hfree, hpages⟩ := h.managed.reserve_outputOf hreserve hnomem
      obtain ⟨-, hfree', -⟩ := hmanaged.reserve_outputOf hreserve' hnomem'
      rw [hpages] at hfree'
      have hpresent : ¬ (m.topEntry half i).present = true := by
        rw [habsent]
        exact Bool.false_ne_true
      rw [second_iff h hi' hj hk habsent hfree hfree'.1 hfree'.2 hm', NewTablesHarmless,
        hunique hreserve, if_neg hlast, if_neg hpresent, hunique hreserve', hm']
      rfl
    · have hnot : (m.topEntry half i).outputAddress ≠ m.top half := fun heq =>
        TablePath.noConfusion (h.injective (.mid half i) (.top half) ⟨hi', h₁⟩ trivial heq)
      obtain ⟨hwritable, al, frame, hreserve, hnomem, hm'⟩ :=
        store_third (h.self half) hi' hj hk h₁ h₂ hnot hstore
      rw [third_iff h hi' hj hk h₁ h₂ hwritable
        (h.managed.reserve_outputOf hreserve hnomem).2.1 hm',
        NewTablesHarmless, hunique hreserve, if_neg hlast, if_pos h₁.1]

/-- The small machine, with `stale` in all entries of the page frames from 16 on. -/
def staleMachine (stale : PageTableEntry) (a : PageAllocator) : Mmu :=
  ⟨fun f k => if f < 16 then fewTables f k else stale, 1, 2, a, []⟩

/-- The table that a page frame of the small machine is. -/
private def pathOf : Nat → Option TablePath
  | 1 => some (.top .user)
  | 2 => some (.top .kernel)
  | 3 => some (.mid .kernel 0)
  | 4 => some (.last .kernel 0 0)
  | 6 => some (.mid .user 0)
  | 7 => some (.last .user 0 0)
  | _ => none

private theorem isTable_fewTables {f x : Nat} (hf : f < 4 ∨ f = 6) (hx : x = 511 → 3 ≤ f)
    (h : (fewTables f x).IsTable) : x = 0 := by
  unfold fewTables at h
  split at h <;> simp_all [IsTable, cleared]

private theorem pathOf_frameOf {stale : PageTableEntry} {al : PageAllocator} {p : TablePath}
    (hp : (staleMachine stale al).HasTable p) :
    pathOf ((staleMachine stale al).frameOf p) = some p := by
  have htop : ∀ half i, i < 511 → ((staleMachine stale al).topEntry half i).IsTable → i = 0 := by
    intro half i hi htable
    cases half with
    | user => exact isTable_fewTables (f := 1) (by decide) (by omega) htable
    | kernel => exact isTable_fewTables (f := 2) (by decide) (by omega) htable
  cases p with
  | top half => cases half <;> rfl
  | mid half i =>
      obtain ⟨hi, htable⟩ := hp
      obtain rfl := htop half i hi htable
      cases half <;> rfl
  | last half i j =>
      obtain ⟨hi, hj, htable, htable'⟩ := hp
      obtain rfl := htop half i hi htable
      cases half with
      | user =>
          obtain rfl : j = 0 := isTable_fewTables (f := 6) (by decide) (by omega) htable'
          rfl
      | kernel =>
          obtain rfl : j = 0 := isTable_fewTables (f := 3) (by decide) (by omega) htable'
          rfl

theorem tidy_staleMachine {stale : PageTableEntry} {al : PageAllocator}
    {mapBase : BlockPtr → Block}
    (hal : PageAllocator.construct upperPages mapBase pageSize = some al) :
    (staleMachine stale al).Tidy := by
  obtain ⟨hmanaged, hfree⟩ := PageAllocator.managed_construct upperPages_disjoint hal
  constructor
  · intro half
    cases half <;> exact ⟨⟨rfl, rfl⟩, ⟨rfl, rfl⟩, rfl⟩
  · intro p q hp hq heq
    have hpath := pathOf_frameOf hp
    rw [heq, pathOf_frameOf hq] at hpath
    exact (Option.some.inj hpath).symm
  · intro p hp hmem
    obtain ⟨r, hr, -, hpage, -⟩ := (hfree _).1 hmem
    rw [List.mem_singleton.1 hr] at hpage
    change 0x10000 ≤ (staleMachine stale al).frameOf p * 4096 at hpage
    have hpath := pathOf_frameOf hp
    unfold pathOf at hpath
    split at hpath <;> first | omega | cases hpath
  · exact hmanaged

/-- A page entry is stored below an entry of the second level that is absent. -/
private theorem stale_fault {stale e : PageTableEntry} {al : PageAllocator}
    {mapBase : BlockPtr → Block}
    (hal : PageAllocator.construct upperPages mapBase pageSize = some al) :
    (staleMachine stale al).write (Half.user.base + windowOffset 0 1 0) e =
      .error (.translation 3) := by
  refine write_window_third ((tidy_staleMachine hal).self .user) (by decide) (by decide) (by decide)
    ⟨rfl, rfl⟩ fun htable => ?_
  exact Bool.false_ne_true htable.1

theorem fault_adds_no_mapping_cleared :
    ∃ m m' : Mmu, store 4 m (Half.user.base + windowOffset 0 1 0) (.pageDescriptor 0x9000 3) =
      some m' ∧ ∀ v, OutsideWindows v → v ∉ writtenPages .user 0 1 0 →
        m'.getPageFrame v = m.getPageFrame v := by
  have hrun : (PageAllocator.construct upperPages (fun _ => unwritten) pageSize).any (fun a =>
      let m := staleMachine .cleared a
      (store 4 m (Half.user.base + windowOffset 0 1 0) (.pageDescriptor 0x9000 3)).isSome &&
        (m.pageAllocator.reserve pageSize).any fun r => 16 ≤ outputOf r.2) = true := by
    decide +kernel
  obtain ⟨a, ha, hrun⟩ := (Option.any_eq_true ..).1 hrun
  obtain ⟨hstore, hreserve⟩ := Bool.and_eq_true_iff.1 hrun
  obtain ⟨m', hstore⟩ := Option.isSome_iff_exists.1 hstore
  obtain ⟨⟨al, frame⟩, hreserve, hlarge⟩ := (Option.any_eq_true ..).1 hreserve
  have hnot : ¬ outputOf frame < 16 := (of_decide_eq_true hlarge).not_gt
  refine ⟨staleMachine .cleared a, m', hstore, ?_⟩
  rw [fault_adds_no_mapping_iff (tidy_staleMachine ha) (by decide) (by decide) (by decide)
    (by decide) (stale_fault ha) hstore]
  have hpresent : ((staleMachine .cleared a).topEntry .user 0).present = true := rfl
  refine ⟨al, frame, hreserve, ?_⟩
  rw [if_neg (by decide), if_pos hpresent]
  refine ⟨fun c _ _ _ => ?_, fun _ _ hj => absurd hj (by decide)⟩
  have hcleared : (staleMachine .cleared a).memory (outputOf frame) c = .cleared := if_neg hnot
  rw [hcleared]
  rfl

/-- An entry that was left in a page frame becomes the translation of another page. -/
theorem fault_adds_mapping :
    ¬ ∀ (m m' : Mmu) (half : Half) (i j k level fuel : Nat) (e : PageTableEntry), m.Tidy →
      i < 512 → j < 512 → k < 512 → ¬ (i = 511 ∧ j = 511) →
      m.write (half.base + windowOffset i j k) e = .error (.translation level) →
      store fuel m (half.base + windowOffset i j k) e = some m' →
      ∀ v, OutsideWindows v → v ∉ writtenPages half i j k →
        m'.getPageFrame v = m.getPageFrame v := by
  intro h
  have hrun : (PageAllocator.construct upperPages (fun _ => unwritten) pageSize).any (fun a =>
      let m := staleMachine (.pageDescriptor 0xA000 3) a
      (store 4 m (Half.user.base + windowOffset 0 1 0) .cleared).any fun m' =>
        m'.getPageFrame (pageOffset 0 1 5) != m.getPageFrame (pageOffset 0 1 5)) = true := by
    decide +kernel
  obtain ⟨a, ha, hrun⟩ := (Option.any_eq_true ..).1 hrun
  obtain ⟨m', hstore, hframe⟩ := (Option.any_eq_true ..).1 hrun
  have hsame := h _ m' .user 0 1 0 3 4 .cleared (tidy_staleMachine ha) (by decide) (by decide)
    (by decide) (by decide) (stale_fault ha) hstore (pageOffset 0 1 5) ⟨by decide, by decide⟩
    (by simp [writtenPages, pageOffset, Half.base])
  rw [hsame, bne_self_eq_false] at hframe
  cases hframe

end Mmu

end CrosKernel.Memory
