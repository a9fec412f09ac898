import CrosKernel.Memory.PageFaults

/-!
# Entries that are written and looked up

`setPageEntry` goes to an entry by the offset of the page in its half, `getPageFrame` by the lowest
39 bits of the address. `setPageEntry_roundTrip_iff` says when the second one finds what the first
one has written, and nothing else has changed.
-/

namespace CrosKernel.Memory

open PageTableEntry

/-- The bytes that an entry of a level maps. -/
def blockBytes (level : Nat) : Nat := pageSize * 512 ^ level

/-- The half that `setPageEntry` takes a page to be in. -/
def halfOf (page : Nat) : Half := if highMem ≤ page then .kernel else .user

/-- The half that `getPageFrame` takes it to be in. -/
def lookupHalf (page : Nat) : Half := if highMem < page then .kernel else .user

/-- The indices of an address in the tables of the three levels. -/
def topIndex (a : Nat) : Nat := a / 2 ^ 30 % 512

def midIndex (a : Nat) : Nat := a / 2 ^ 21 % 512

def lastIndex (a : Nat) : Nat := a / 2 ^ 12 % 512

/-- An address in one of the halves. -/
def InHalf (a : Nat) : Prop := a < lowEnd ∨ highMem ≤ a ∧ a < 2 ^ 64

/-- The page and the indices of an address determine each other. -/
theorem page_eq_iff {a b : Nat} (ha : InHalf a) (hb : InHalf b) :
    a / pageSize = b / pageSize ↔ halfOf a = halfOf b ∧ topIndex a = topIndex b ∧
      midIndex a = midIndex b ∧ lastIndex a = lastIndex b := by
  have hhalf : halfOf a = halfOf b ↔ (highMem ≤ a ↔ highMem ≤ b) := by
    by_cases hle : highMem ≤ a <;> by_cases hle' : highMem ≤ b <;> simp [halfOf, hle, hle']
  rw [hhalf]
  unfold InHalf lowEnd highMem at *
  unfold topIndex midIndex lastIndex pageSize
  constructor
  · intro h
    refine ⟨?_, ?_, ?_, ?_⟩ <;> omega
  · rintro ⟨h, htop, hmid, hlast⟩
    omega

/-- The two functions disagree about one address. -/
theorem lookupHalf_eq {a : Nat} (h : a ≠ highMem) : lookupHalf a = halfOf a := by
  have hle : highMem < a ↔ highMem ≤ a := by omega
  simp only [lookupHalf, halfOf, hle]

/-- The bounds of the windows. -/
theorem Mmu.OutsideWindows.bounds {p : Nat} (h : Mmu.OutsideWindows p) :
    p < 511 * 2 ^ 30 ∨ highMem ≤ p ∧ p < highMem + 511 * 2 ^ 30 := h.2

theorem Mmu.OutsideWindows.inHalf {p : Nat} (h : Mmu.OutsideWindows p) : InHalf p := by
  have hbounds := h.bounds
  unfold InHalf lowEnd
  unfold highMem at *
  omega

theorem Mmu.OutsideWindows.topIndex_lt {p : Nat} (h : Mmu.OutsideWindows p) : topIndex p < 511 := by
  have hbounds := h.bounds
  unfold topIndex
  unfold highMem at hbounds
  omega

/-- The address of a page by its indices. -/
theorem Mmu.OutsideWindows.eq_base {p : Nat} (h : Mmu.OutsideWindows p) :
    p = (halfOf p).base + Mmu.pageOffset (topIndex p) (midIndex p) (lastIndex p) := by
  have hbounds := h.bounds
  obtain ⟨n, rfl⟩ := h.1
  unfold Mmu.pageOffset topIndex midIndex lastIndex halfOf
  split
  next hge =>
    simp only [Half.base, highMem, pageSize] at *
    omega
  next hlt =>
    simp only [Half.base, highMem, pageSize] at *
    omega

namespace Mmu

variable {m m' : Mmu} {half g : Half} {f i j k x y z fuel frame flags level page : Nat}
  {e : PageTableEntry}

/-! ## The entry that is written -/

/-- A table is there, and the kernel can write to it. Tables are linked in this way. -/
def WritableTable (e : PageTableEntry) : Prop := e.IsTable ∧ e.Writable

theorem writableTable_tableDescriptor (frame : Nat) : WritableTable (.tableDescriptor frame) :=
  ⟨isTable_tableDescriptor frame, writable_tableDescriptor frame⟩

/-- The tables above the entry of a level for a page. -/
def UpperTables (m : Mmu) (level page : Nat) : Prop :=
  (level < 2 → WritableTable (m.topEntry (halfOf page) (topIndex page))) ∧
    (level < 1 → WritableTable (m.midEntry (halfOf page) (topIndex page) (midIndex page)))

theorem entryAddress_base (half : Half) (level : Nat) (hi : i < 511) (hj : j < 512)
    (hk : k < 512) : entryAddress level (half.base + pageOffset i j k) =
      some (tables half (2 - level) + 8 * (pageOffset i j k / 2 ^ (12 + 9 * level))) := by
  unfold entryAddress
  cases half with
  | kernel => rw [Half.base, if_pos (Nat.le_add_right _ _), Nat.add_sub_cancel_left]
  | user =>
      have hlow : pageOffset i j k < lowEnd := by
        unfold pageOffset lowEnd
        omega
      have hnot : ¬ highMem ≤ pageOffset i j k := by
        unfold lowEnd at hlow
        unfold highMem
        omega
      rw [Half.base, Nat.zero_add, if_neg hnot, if_pos hlow]

/-- Where both stores of `makeDescriptor` go through, the entry is written. -/
theorem makeDescriptor_ok {va : Nat} (hclear : m.write va .cleared = .ok (m.set f k .cleared))
    (hwrite : (m.set f k .cleared).write va e = .ok ((m.set f k .cleared).set f k e)) :
    makeDescriptor (store (fuel + 1)) m va e = some (m.set f k e) := by
  rw [makeDescriptor, store_ok hclear]
  simp only [Option.bind_eq_bind, Option.bind_some, hwrite, set_set]
  rfl

theorem setPageEntry_zero (h : m.Tidy) (hi : i < 511) (hj : j < 512) (hk : k < 512)
    (h₁ : WritableTable (m.topEntry half i)) (h₂ : WritableTable (m.midEntry half i j)) :
    setPageEntry (fuel + 1) m 0 (half.base + pageOffset i j k) frame flags =
      some (m.set (m.frameOf (.last half i j)) k (.pageDescriptor frame flags)) := by
  have hva : tables half (2 - 0) + 8 * (pageOffset i j k / 2 ^ (12 + 9 * 0)) =
      half.base + windowOffset i j k := by
    have hindex : pageOffset i j k / 2 ^ (12 + 9 * 0) / 2 ^ 18 = i ∧
        pageOffset i j k / 2 ^ (12 + 9 * 0) / 2 ^ 9 % 512 = j ∧
        pageOffset i j k / 2 ^ (12 + 9 * 0) % 512 = k := by
      unfold pageOffset
      omega
    rw [tables_two, hindex.1, hindex.2.1, hindex.2.2]
  rw [setPageEntry, if_neg (by decide), entryAddress_base half 0 hi hj hk, hva,
    Option.bind_eq_bind, Option.bind_some, if_pos rfl]
  have htop : ∀ g, m.top g ≠ m.frameOf (.last half i j) := fun g heq =>
    TablePath.noConfusion
      (h.injective (.top g) (.last half i j) trivial ⟨hi, hj, h₁.1, h₂.1⟩ heq)
  have hmid : m.frameOf (.mid half i) ≠ m.frameOf (.last half i j) := fun heq =>
    TablePath.noConfusion
      (h.injective (.mid half i) (.last half i j) ⟨hi, h₁.1⟩ ⟨hi, hj, h₁.1, h₂.1⟩ heq)
  refine makeDescriptor_ok ?_ ?_
  · rw [write_window (h.self half) (by omega) hj hk h₁.1 h₂.1, if_pos h₂.2]
    rfl
  · -- clearing the entry leaves the way to it
    generalize hm₁ : m.set (m.frameOf (.last half i j)) k .cleared = m₁
    have hself : m₁.SelfMapped half := hm₁ ▸ (h.self half).set fun hand => htop half hand.1
    have htopEntry : m₁.topEntry half i = m.topEntry half i := by
      rw [← hm₁, topEntry_set, if_neg fun hand => htop half hand.1]
    have hmidEntry : m₁.midEntry half i j = m.midEntry half i j := by
      rw [midEntry, htopEntry, ← hm₁, set_memory, if_neg fun hand => hmid hand.1]
      rfl
    rw [write_window hself (by omega) hj hk (htopEntry ▸ h₁.1) (hmidEntry ▸ h₂.1), hmidEntry,
      if_pos h₂.2]
    rfl

theorem setPageEntry_one (h : m.Tidy) (hi : i < 511) (hj : j < 512) (hk : k < 512)
    (h₁ : WritableTable (m.topEntry half i)) :
    setPageEntry (fuel + 1) m 1 (half.base + pageOffset i j k) frame flags =
      some (m.set (m.frameOf (.mid half i)) j (.blockDescriptor frame flags)) := by
  have hva : tables half (2 - 1) + 8 * (pageOffset i j k / 2 ^ (12 + 9 * 1)) =
      half.base + windowOffset 511 i j := by
    have hindex : pageOffset i j k / 2 ^ (12 + 9 * 1) / 512 = i ∧
        pageOffset i j k / 2 ^ (12 + 9 * 1) % 512 = j := by
      unfold pageOffset
      omega
    rw [tables_one, hindex.1, hindex.2]
  rw [setPageEntry, if_neg (by decide), entryAddress_base half 1 hi hj hk, hva,
    Option.bind_eq_bind, Option.bind_some, if_neg (by decide)]
  have htop : m.top half ≠ m.frameOf (.mid half i) := fun heq =>
    TablePath.noConfusion (h.injective (.top half) (.mid half i) trivial ⟨hi, h₁.1⟩ heq)
  refine makeDescriptor_ok ?_ ?_
  · rw [write_mid (h.self half) (by omega) hj h₁.1, if_pos h₁.2]
    rfl
  · generalize hm₁ : m.set (m.frameOf (.mid half i)) j .cleared = m₁
    have hself : m₁.SelfMapped half := hm₁ ▸ (h.self half).set fun hand => htop hand.1
    have htopEntry : m₁.topEntry half i = m.topEntry half i := by
      rw [← hm₁, topEntry_set, if_neg fun hand => htop hand.1]
    rw [write_mid hself (by omega) hj (htopEntry ▸ h₁.1), htopEntry, if_pos h₁.2]
    rfl

theorem setPageEntry_two (h : m.Tidy) (hi : i < 511) (hj : j < 512) (hk : k < 512) :
    setPageEntry (fuel + 1) m 2 (half.base + pageOffset i j k) frame flags =
      some (m.set (m.top half) i (.blockDescriptor frame flags)) := by
  have hva : tables half (2 - 2) + 8 * (pageOffset i j k / 2 ^ (12 + 9 * 2)) =
      half.base + windowOffset 511 511 i := by
    have hindex : pageOffset i j k / 2 ^ (12 + 9 * 2) = i := by
      unfold pageOffset
      omega
    rw [tables_zero, hindex]
  rw [setPageEntry, if_neg (by decide), entryAddress_base half 2 hi hj hk, hva,
    Option.bind_eq_bind, Option.bind_some, if_neg (by decide)]
  refine makeDescriptor_ok (write_top (h.self half) (by omega)) ?_
  exact write_top ((h.self half).set (by omega)) (by omega)

/-! ## The entries that are looked up -/

/-- `getPageFrame` goes by the half and the indices of the address. -/
theorem getPageFrame_frameAt (h : ∀ g, m.SelfMapped g) (a : Nat) :
    m.getPageFrame a = m.frameAt (lookupHalf a) (topIndex a) (midIndex a) (lastIndex a) := by
  refine getPageFrame_lookup (h (lookupHalf a)) (Nat.mod_lt _ (by decide))
    (Nat.mod_lt _ (by decide)) (Nat.mod_lt _ (by decide)) rfl ?_
  show _ = (a / 2 ^ 30 % 512 * 512 + a / 2 ^ 21 % 512) * 512 + a / 2 ^ 12 % 512
  omega

/-- In the windows a lookup reads the tables of the first two levels. -/
theorem frameAt_window_congr (h : m.SelfMapped g) (hy : y < 512) (htop : m'.top g = m.top g)
    (h₁ : ∀ x, m'.memory (m.top g) x = m.memory (m.top g) x)
    (h₂ : y < 511 → (m.topEntry g y).IsTable →
      m'.memory (m.topEntry g y).outputAddress z = m.midEntry g y z) :
    m'.frameAt g 511 y z = m.frameAt g 511 y z := by
  have hself : m.memory (m.top g) 511 = m.topEntry g 511 := rfl
  have hentry : m.memory (m.top g) y = m.topEntry g y := rfl
  rw [frameAt, frameAt, htop, frameFrom, frameFrom, h₁, hself, h.isTable.1, h.isTable.2,
    h.writable.1, h.outputAddress_eq]
  show frameBelow m'.memory (m.top g) y z = frameBelow m.memory (m.top g) y z
  rw [frameBelow, frameBelow, h₁, hentry]
  cases hpresent : (m.topEntry g y).present with
  | false => rfl
  | true =>
      cases htype : (m.topEntry g y).type with
      | false => rfl
      | true =>
          by_cases hlast : y = 511
          · rw [hlast, h.outputAddress_eq, h₁]
          · rw [h₂ (by omega) ⟨hpresent, htype⟩]
            rfl

/-- After an entry of a table of the last level was written, one lookup has another result. -/
theorem frameAt_set_last (h : m.Tidy) (hi : i < 511) (hj : j < 512)
    (h₁ : WritableTable (m.topEntry half i)) (h₂ : WritableTable (m.midEntry half i j))
    (hm' : m' = m.set (m.frameOf (.last half i j)) k e) (hx : x < 512) (hy : y < 512) :
    m'.frameAt g x y z =
      if g = half ∧ x = i ∧ y = j ∧ z = k then some e.frame else m.frameAt g x y z := by
  have hlast : m.HasTable (.last half i j) := ⟨hi, hj, h₁.1, h₂.1⟩
  have hmemory : ∀ f x, m'.memory f x =
      if f = m.frameOf (.last half i j) ∧ x = k then e else m.memory f x := fun f x =>
    hm' ▸ set_memory ..
  have hother : ∀ p, m.HasTable p → p ≠ .last half i j → ∀ x,
      m'.memory (m.frameOf p) x = m.memory (m.frameOf p) x := by
    intro p hp hne x
    rw [hmemory, if_neg fun hand => hne (h.injective p _ hp hlast hand.1)]
  have htop : ∀ g, m'.top g = m.top g := fun g => hm' ▸ rfl
  by_cases hwindow : x = 511
  · subst hwindow
    rw [if_neg (by omega)]
    refine frameAt_window_congr (h.self g) hy (htop g) ?_ fun hy' htable => ?_
    · exact hother (.top g) trivial fun heq => TablePath.noConfusion heq
    · exact hother (.mid g y) ⟨hy', htable⟩ (fun heq => TablePath.noConfusion heq) z
  · split
    next hsame =>
      obtain ⟨rfl, rfl, rfl, rfl⟩ := hsame
      have htopEntry : m'.memory (m.top g) x = m.topEntry g x :=
        hother (.top g) trivial (fun heq => TablePath.noConfusion heq) x
      have hmidEntry : m'.memory (m.topEntry g x).outputAddress y = m.midEntry g x y :=
        hother (.mid g x) ⟨hi, h₁.1⟩ (fun heq => TablePath.noConfusion heq) y
      have hentry : m'.memory (m.midEntry g x y).outputAddress z = e := by
        rw [hmemory, if_pos ⟨rfl, rfl⟩]
      rw [frameAt, htop, frameFrom, htopEntry, h₁.1.1, h₁.1.2, h₁.2.1]
      show frameBelow m'.memory (m.topEntry g x).outputAddress y z = _
      rw [frameBelow, hmidEntry, h₂.1.1, h₂.1.2, h₂.2.1, hentry]
      rfl
    next hne =>
      refine frameAt_congr (by omega) hy (htop g) fun p c hp hreads => ?_
      by_cases heq : p = .last half i j
      · subst heq
        obtain ⟨rfl, rfl, rfl, rfl⟩ := hreads
        refine if_neg ?_ |> (hmemory _ _).trans
        exact fun hand => hne ⟨rfl, rfl, rfl, hand.2⟩
      · exact hother p hp heq c

/-! ## The round trip -/

/-- After the entry of a level for a page was written, its block leads to the frames of the block
`frame`, and no other address leads anywhere else than before. -/
structure RoundTrip (m m' : Mmu) (level page frame : Nat) : Prop where
  inside : ∀ a, a / blockBytes level = page / blockBytes level →
    m'.getPageFrame a = some (frame + a % blockBytes level / pageSize * pageSize)
  outside : ∀ a, InHalf a → a / blockBytes level ≠ page / blockBytes level →
    m'.getPageFrame a = m.getPageFrame a

/-- The frame is one that the field of a descriptor can hold, and of the two pages that
`getPageFrame` takes for one another none is written, or the lower one has that frame already. -/
def Retrievable (m : Mmu) (page frame : Nat) : Prop :=
  frame < 2 ^ 52 ∧ (page = 0 ∨ page = highMem → m.frameAt .user 0 0 0 = some frame)

/-- The frame that an entry for it leads to. -/
theorem frame_pageDescriptor (frame flags : Nat) :
    (pageDescriptor frame flags).frame = frame / 2 ^ 12 % 2 ^ 40 * 2 ^ 12 := rfl

theorem frameAt_highMem (h : ∀ g, m.SelfMapped g) :
    m.getPageFrame highMem = m.frameAt .user 0 0 0 :=
  getPageFrame_frameAt h highMem

section LastLevel

variable (h : m.Tidy) (hp : OutsideWindows page) (hupper : m.UpperTables 0 page)
  (hm' : m' = m.set (m.frameOf (.last (halfOf page) (topIndex page) (midIndex page)))
    (lastIndex page) (.pageDescriptor frame flags))

include h hp hupper hm'

/-- What a lookup finds after the entry was written. -/
theorem getPageFrame_set_last (a : Nat) : m'.getPageFrame a =
    if lookupHalf a = halfOf page ∧ topIndex a = topIndex page ∧ midIndex a = midIndex page ∧
      lastIndex a = lastIndex page then some (frame / 2 ^ 12 % 2 ^ 40 * 2 ^ 12)
    else m.getPageFrame a := by
  have hi := hp.topIndex_lt
  have hj : midIndex page < 512 := Nat.mod_lt _ (by decide)
  have h₁ := hupper.1 (by decide)
  have h₂ := hupper.2 (by decide)
  have hself' : ∀ g, m'.SelfMapped g := by
    intro g
    rw [hm']
    exact (h.self g).set fun hand => TablePath.noConfusion
      (h.injective (.top g) (.last (halfOf page) (topIndex page) (midIndex page)) trivial
        ⟨hi, hj, h₁.1, h₂.1⟩ hand.1)
  rw [getPageFrame_frameAt hself', getPageFrame_frameAt h.self, ← frame_pageDescriptor]
  exact frameAt_set_last h hi hj h₁ h₂ hm' (Nat.mod_lt _ (by decide)) (Nat.mod_lt _ (by decide))

/-- Where the two halves agree, only the page itself is looked up differently. -/
theorem getPageFrame_set_last_of_ne {a : Nat} (ha : InHalf a) (hne : a ≠ highMem) :
    m'.getPageFrame a = if a / pageSize = page / pageSize
      then some (frame / 2 ^ 12 % 2 ^ 40 * 2 ^ 12) else m.getPageFrame a := by
  rw [getPageFrame_set_last h hp hupper hm', lookupHalf_eq hne,
    if_congr (page_eq_iff ha hp.inHalf).symm rfl rfl]

theorem RoundTrip.retrievable (haligned : pageSize ∣ frame) (hround : RoundTrip m m' 0 page frame) :
    m.Retrievable page frame := by
  have hlookup := getPageFrame_set_last h hp hupper hm'
  have hpage : InHalf page := hp.inHalf
  have hpageSize := hp.1
  have hblock : blockBytes 0 = pageSize := rfl
  obtain ⟨n, rfl⟩ := haligned
  have hinside := hround.inside (page + 1) (by
    rw [hblock]
    unfold pageSize at *
    omega)
  rw [hblock, getPageFrame_set_last_of_ne h hp hupper hm' ?_ ?_, if_pos ?_] at hinside
  · have hframe := Option.some.inj hinside
    refine ⟨?_, ?_⟩
    · unfold pageSize at *
      omega
    · rintro (rfl | rfl)
      · -- the entry of the first page is found for the other one too
        have houtside := hround.outside highMem (.inr ⟨le_rfl, by decide⟩) (by decide)
        rw [hlookup, if_pos (by decide), frameAt_highMem h.self] at houtside
        rw [← houtside]
        unfold pageSize at *
        congr 1
      · have hinside' := hround.inside highMem rfl
        rw [hlookup, if_neg (by decide), frameAt_highMem h.self] at hinside'
        rw [hinside']
        rfl
  all_goals
    unfold pageSize InHalf lowEnd highMem at *
    omega

theorem Retrievable.roundTrip (haligned : pageSize ∣ frame)
    (hretrievable : m.Retrievable page frame) : RoundTrip m m' 0 page frame := by
  obtain ⟨hlt, hshared⟩ := hretrievable
  have hlookup := getPageFrame_set_last h hp hupper hm'
  have hpageSize := hp.1
  have hpage : InHalf page := hp.inHalf
  have hblock : blockBytes 0 = pageSize := rfl
  have hframe : frame / 2 ^ 12 % 2 ^ 40 * 2 ^ 12 = frame := by
    obtain ⟨n, rfl⟩ := haligned
    unfold pageSize at *
    omega
  rw [hframe] at hlookup
  constructor
  · intro a hsamePage
    rw [hblock] at hsamePage ⊢
    rw [Nat.div_eq_of_lt (Nat.mod_lt _ (by decide)), Nat.zero_mul, Nat.add_zero]
    by_cases hne : a = highMem
    · have hpageEq : page = highMem := by
        unfold pageSize at hpageSize hsamePage
        unfold highMem at *
        omega
      have hnot : ¬ lookupHalf highMem = halfOf page := by
        rw [hpageEq]
        decide
      rw [hne, hlookup, if_neg fun hand => hnot hand.1, frameAt_highMem h.self,
        hshared (.inr hpageEq)]
    · have ha : InHalf a := by
        unfold pageSize InHalf lowEnd highMem at *
        omega
      rw [getPageFrame_set_last_of_ne h hp hupper hm' ha hne, if_pos hsamePage, hframe]
  · intro a ha hother
    rw [hblock] at hother
    by_cases hne : a = highMem
    · subst hne
      rw [hlookup]
      split
      next heq =>
        have hzero : page = 0 := by
          have hhalf : halfOf page = .user := heq.1.symm
          have heqs := (page_eq_iff (a := 0) (.inl (by decide)) hpage).2
            ⟨hhalf.symm, heq.2.1, heq.2.2.1, heq.2.2.2⟩
          unfold pageSize at *
          omega
        rw [frameAt_highMem h.self, hshared (.inl hzero)]
      next => rfl
    · rw [getPageFrame_set_last_of_ne h hp hupper hm' ha hne, if_neg hother]

/-- At the last level. -/
theorem roundTrip_zero_iff (haligned : pageSize ∣ frame) :
    RoundTrip m m' 0 page frame ↔ m.Retrievable page frame :=
  ⟨RoundTrip.retrievable h hp hupper hm' haligned, Retrievable.roundTrip h hp hupper hm' haligned⟩

end LastLevel

/-- A page of the block of a higher level, `z` pages after its start. -/
theorem exists_block_page (hp : OutsideWindows page) (hlevel : level = 1 ∨ level = 2)
    (hpos : 0 < z) (hz : z < 512) : ∃ a, a / blockBytes level = page / blockBytes level ∧
      lookupHalf a = halfOf page ∧ topIndex a = topIndex page ∧
      (level = 1 → midIndex a = midIndex page) ∧
      a % blockBytes level / pageSize * pageSize = z * pageSize := by
  have hbounds := hp.bounds
  have haddress : ∀ a, page / 2 ^ 30 = a / 2 ^ 30 → a ≠ highMem →
      lookupHalf a = halfOf page ∧ topIndex a = topIndex page := by
    intro a ha hne
    have hle : highMem ≤ a ↔ highMem ≤ page := by
      unfold highMem at *
      omega
    rw [lookupHalf_eq hne]
    unfold halfOf topIndex
    exact ⟨if_congr hle rfl rfl, by omega⟩
  obtain rfl | rfl := hlevel
  · have hblock : blockBytes 1 = 2 ^ 21 := rfl
    obtain ⟨hhalf, htop⟩ := haddress (page / 2 ^ 21 * 2 ^ 21 + z * pageSize)
      (by unfold pageSize; omega) (by unfold pageSize highMem; omega)
    refine ⟨_, ?_, hhalf, htop, fun _ => ?_, ?_⟩
    · rw [hblock]
      unfold pageSize
      omega
    · unfold midIndex pageSize
      omega
    · rw [hblock]
      unfold pageSize
      omega
  · have hblock : blockBytes 2 = 2 ^ 30 := rfl
    obtain ⟨hhalf, htop⟩ := haddress (page / 2 ^ 30 * 2 ^ 30 + z * pageSize)
      (by unfold pageSize; omega) (by unfold pageSize highMem; omega)
    refine ⟨_, ?_, hhalf, htop, fun hlevel => by omega, ?_⟩
    · rw [hblock]
      unfold pageSize
      omega
    · rw [hblock]
      unfold pageSize
      omega

/-- A block descriptor leads all pages of the block to one frame. -/
theorem not_roundTrip_of_block (h' : ∀ g, m'.SelfMapped g) (hp : OutsideWindows page)
    (hlevel : level = 1 ∨ level = 2)
    (hblock : ∀ y z, (level = 1 → y = midIndex page) →
      m'.frameAt (halfOf page) (topIndex page) y z = some f) :
    ¬ RoundTrip m m' level page frame := by
  intro hround
  have hat : ∀ z, 0 < z → z < 512 → f = frame + z * pageSize := by
    intro z hpos hz
    obtain ⟨a, hsame, hhalf, htop, hmid, hoffset⟩ := exists_block_page hp hlevel hpos hz
    have hinside := hround.inside a hsame
    rw [getPageFrame_frameAt h', hhalf, htop, hblock _ _ hmid, hoffset] at hinside
    exact Option.some.inj hinside
  -- the second and the third page are different
  have hone := hat 1 (by decide) (by decide)
  have htwo := hat 2 (by decide) (by decide)
  unfold pageSize at *
  omega

/-- What `setPageEntry` writes for a page is what `getPageFrame` finds, and all that it changes, if
and only if the level is the last one and the page and the frame are no special ones. -/
theorem setPageEntry_roundTrip_iff (h : m.Tidy) (hp : OutsideWindows page) (hlevel : level ≤ 2)
    (hupper : m.UpperTables level page) (haligned : blockBytes level ∣ frame) :
    ∃ m', setPageEntry (fuel + 1) m level page frame flags = some m' ∧
      (RoundTrip m m' level page frame ↔ level = 0 ∧ m.Retrievable page frame) := by
  have hi := hp.topIndex_lt
  have hj : midIndex page < 512 := Nat.mod_lt _ (by decide)
  have hk : lastIndex page < 512 := Nat.mod_lt _ (by decide)
  have hbase := hp.eq_base
  obtain rfl | rfl | rfl : level = 0 ∨ level = 1 ∨ level = 2 := by omega
  · have hset := @setPageEntry_zero m (halfOf page) _ _ _ fuel frame flags h hi hj hk
      (hupper.1 (by decide)) (hupper.2 (by decide))
    rw [← hbase] at hset
    refine ⟨_, hset, ?_⟩
    rw [roundTrip_zero_iff h hp hupper rfl haligned]
    exact ⟨fun hround => ⟨rfl, hround⟩, And.right⟩
  · have h₁ := hupper.1 (by decide)
    have hset := @setPageEntry_one m (halfOf page) _ _ _ fuel frame flags h hi hj hk h₁
    rw [← hbase] at hset
    refine ⟨_, hset, iff_of_false ?_ fun hand => absurd hand.1 (by decide)⟩
    generalize hm' : m.set _ _ _ = m'
    have htop : ∀ g, m.top g ≠ m.frameOf (.mid (halfOf page) (topIndex page)) := fun g heq =>
      TablePath.noConfusion (h.injective (.top g) (.mid (halfOf page) (topIndex page)) trivial
        ⟨hi, h₁.1⟩ heq)
    have hself' : ∀ g, m'.SelfMapped g := fun g =>
      hm' ▸ (h.self g).set fun hand => htop g hand.1
    have htopEntry : m'.topEntry (halfOf page) (topIndex page) =
        m.topEntry (halfOf page) (topIndex page) := by
      rw [← hm', topEntry_set, if_neg fun hand => htop _ hand.1]
    have hmidEntry : m'.midEntry (halfOf page) (topIndex page) (midIndex page) =
        .blockDescriptor frame flags := by
      rw [midEntry, htopEntry, ← hm', set_memory, if_pos ⟨rfl, rfl⟩]
    refine not_roundTrip_of_block (f := (blockDescriptor frame flags).frame) hself' hp (.inl rfl)
      fun y z hy => ?_
    rw [hy rfl, frameAt_no_table (htopEntry ▸ h₁.1) (htopEntry ▸ h₁.2.1), hmidEntry]
    rw [hmidEntry]
    exact fun htable => Bool.false_ne_true htable.2
  · have hset := @setPageEntry_two m (halfOf page) _ _ _ fuel frame flags h hi hj hk
    rw [← hbase] at hset
    refine ⟨_, hset, iff_of_false ?_ fun hand => absurd hand.1 (by decide)⟩
    generalize hm' : m.set _ _ _ = m'
    have hself' : ∀ g, m'.SelfMapped g := fun g => hm' ▸ (h.self g).set (by omega)
    have htopEntry : m'.topEntry (halfOf page) (topIndex page) =
        .blockDescriptor frame flags := by
      rw [← hm', topEntry_set]
      exact if_pos ⟨rfl, rfl⟩
    refine not_roundTrip_of_block (f := (blockDescriptor frame flags).frame) hself' hp (.inr rfl)
      fun y z _ => ?_
    rw [frameAt_no_tables, htopEntry]
    rw [htopEntry]
    exact fun htable => Bool.false_ne_true htable.2

theorem setPageEntry_roundTrip_second :
    ∃ m m' : Mmu, setPageEntry 1 m 0 0x1000 0x9000 3 = some m' ∧
      RoundTrip m m' 0 0x1000 0x9000 := by
  have hrun : (PageAllocator.construct upperPages (fun _ => unwritten) pageSize).isSome := by
    decide +kernel
  obtain ⟨a, ha⟩ := Option.isSome_iff_exists.1 hrun
  have hpage : OutsideWindows 0x1000 := ⟨by decide, by decide⟩
  have hupper : (staleMachine .cleared a).UpperTables 0 0x1000 :=
    ⟨fun _ => ⟨⟨rfl, rfl⟩, rfl, rfl⟩, fun _ => ⟨⟨rfl, rfl⟩, rfl, rfl⟩⟩
  obtain ⟨m', hset, hround⟩ := @setPageEntry_roundTrip_iff _ 0 0x9000 3 0 0x1000
    (tidy_staleMachine ha) hpage (by decide) hupper (by decide)
  exact ⟨_, m', hset, hround.2 ⟨rfl, by decide, fun hpage => absurd hpage (by decide)⟩⟩

/-- The second page of a block is looked up as the first one. -/
theorem setPageEntry_no_round_trip :
    ¬ ∀ (m m' : Mmu) (level page frame flags fuel : Nat), m.Tidy → OutsideWindows page →
      level ≤ 2 → m.UpperTables level page → blockBytes level ∣ frame →
      setPageEntry (fuel + 1) m level page frame flags = some m' →
      RoundTrip m m' level page frame := by
  intro h
  have hrun : (PageAllocator.construct upperPages (fun _ => unwritten) pageSize).any (fun a =>
      (setPageEntry 1 (staleMachine .cleared a) 1 0x200000 0x200000 3).any fun m' =>
        m'.getPageFrame 0x201000 == some 0x200000) = true := by
    decide +kernel
  obtain ⟨a, ha, hrun⟩ := (Option.any_eq_true ..).1 hrun
  obtain ⟨m', hset, hframe⟩ := (Option.any_eq_true ..).1 hrun
  have hupper : (staleMachine .cleared a).UpperTables 1 0x200000 :=
    ⟨fun _ => ⟨⟨rfl, rfl⟩, rfl, rfl⟩, fun hlevel => absurd hlevel (by decide)⟩
  have hround := h _ m' 1 0x200000 0x200000 3 0 (tidy_staleMachine ha)
    ⟨by decide, by decide⟩ (by decide) hupper (by decide) hset
  rw [hround.inside 0x201000 (by decide)] at hframe
  exact absurd hframe (by decide)

end Mmu

end CrosKernel.Memory
