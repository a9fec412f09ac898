import CrosKernel.Memory.EntryRoundTrip

/-!
# The entries that the page fault handler writes

An access to a window walks through the tables one level higher than an access to a page, so the
entries that the walk misses are entries of the tables which the windows before it show.
`fault_fills_walk_iff` says that `fillTranslationTable` writes those that the walk uses, and when
none of them was in use before.
-/

namespace CrosKernel.Memory

open PageTableEntry

namespace Mmu

variable {m m' : Mmu} {half g : Half} {f k far fuel frame level : Nat} {e : PageTableEntry}
  {store' : Mmu → Nat → PageTableEntry → Option Mmu}

/-! ## Entries of a walk -/

/-- The entry that the walk of an address uses at a level: the page frame of the table and the
index in it. -/
def walkEntry (m : Mmu) (half : Half) (va : Nat) : Nat → Nat × Nat
  | 0 | 1 => (m.top half, topIndex va)
  | 2 => ((m.topEntry half (topIndex va)).outputAddress, midIndex va)
  | _ => ((m.midEntry half (topIndex va) (midIndex va)).outputAddress, lastIndex va)

/-- The descriptor there. -/
def entryAt (m : Mmu) (entry : Nat × Nat) : PageTableEntry := m.memory entry.1 entry.2

/-- The entry that the kernel reaches at an address. -/
def location (m : Mmu) (va : Nat) : Option (Nat × Nat) :=
  match m.walk va with
  | .ok (_, pa) => some (pa / 2 ^ 12, pa % 2 ^ 12 / 8)
  | .error _ => none

/-- An address in the windows onto the tables of the last two levels. -/
structure InWindows (half : Half) (far : Nat) : Prop where
  le : tables half 2 ≤ far
  lt : far < tables half 0

theorem InWindows.indices (h : InWindows half far) : topIndex far = 511 ∧
    (midIndex far = 511 → lastIndex far < 511) ∧ ∃ r, r < 2 ^ 12 ∧
      far = half.base + (511 * 2 ^ 30 + midIndex far * 2 ^ 21 + lastIndex far * 2 ^ 12 + r) := by
  obtain ⟨hle, hlt⟩ := h
  unfold topIndex midIndex lastIndex
  refine ⟨?_, ?_, far % 2 ^ 12, Nat.mod_lt _ (by decide), ?_⟩ <;>
    cases half <;> simp only [tables, Half.base, highMem] at * <;> omega

theorem midIndex_lt (va : Nat) : midIndex va < 512 := Nat.mod_lt _ (by decide)

theorem lastIndex_lt (va : Nat) : lastIndex va < 512 := Nat.mod_lt _ (by decide)

/-- The self-map shifts the walk by one level. -/
theorem walkEntry_two (h : m.SelfMapped half) (hfar : InWindows half far) :
    m.walkEntry half far 2 = (m.top half, midIndex far) := by
  rw [walkEntry, hfar.indices.1, h.outputAddress_eq]

theorem walkEntry_three (h : m.SelfMapped half) (hfar : InWindows half far) :
    m.walkEntry half far 3 = ((m.topEntry half (midIndex far)).outputAddress, lastIndex far) := by
  rw [walkEntry, hfar.indices.1, h.midEntry] <;> decide

/-- The levels at which the walk of an address in the windows can stop. -/
theorem walk_fault (h : m.SelfMapped half) (hfar : InWindows half far)
    (hwalk : m.walk far = .error (.translation level)) :
    level = 2 ∧ (m.topEntry half (midIndex far)).present = false ∨
      level = 3 ∧ (m.topEntry half (midIndex far)).IsTable ∧
        ¬ (m.midEntry half (midIndex far) (lastIndex far)).IsTable := by
  obtain ⟨-, -, r, hr, heq⟩ := hfar.indices
  have hi := midIndex_lt far
  have hj := lastIndex_lt far
  generalize midIndex far = i at *
  generalize lastIndex far = j at *
  subst heq
  have hfirst : (511 * 2 ^ 30 + i * 2 ^ 21 + j * 2 ^ 12 + r) / 2 ^ 30 = 511 := by omega
  have hsecond : (511 * 2 ^ 30 + i * 2 ^ 21 + j * 2 ^ 12 + r) / 2 ^ 21 % 512 = i := by omega
  have hthird : (511 * 2 ^ 30 + i * 2 ^ 21 + j * 2 ^ 12 + r) / 2 ^ 12 % 512 = j := by omega
  have hself : m.memory (m.top half) 511 = m.topEntry half 511 := rfl
  have hentry : m.memory (m.top half) i = m.topEntry half i := rfl
  have hentry' : m.memory (m.topEntry half i).outputAddress j = m.midEntry half i j := rfl
  rw [walk_base half (by omega), walkFrom, hfirst, hsecond, hthird, hself, h.isTable.1,
    h.isTable.2, h.outputAddress_eq, hentry] at hwalk
  simp only [Bool.not_true, Bool.false_eq_true, if_false, hentry'] at hwalk
  split at hwalk
  next hpresent =>
    left
    cases hwalk
    exact ⟨rfl, by simpa using hpresent⟩
  next hpresent =>
    split at hwalk
    next => cases hwalk
    next htype =>
      split at hwalk
      next => cases hwalk
      next hnone =>
        right
        cases hwalk
        refine ⟨rfl, ⟨by simpa using hpresent, by simpa using htype⟩, fun htable => hnone ?_⟩
        rw [htable.1, htable.2]
        rfl

/-! ## Entries that are written -/

/-- The entries that the loop of `fillTranslationTable` writes, in their order. Each is the one that
its address leads to when it is written. -/
def fillEntries (store : Mmu → Nat → PageTableEntry → Option Mmu) (half : Half)
    (targetLevel farOffset : Nat) : Nat → Nat → Mmu → Option (List (Nat × Nat))
  | 0, _, _ => some []
  | remaining + 1, i, m => do
      let va := tables half i + 8 * (farOffset / 2 ^ (12 + 9 * (targetLevel - i - 1)))
      let entry ← m.location va
      let m ← addTable store m va
      let rest ← fillEntries store half targetLevel farOffset remaining (i + 1) m
      pure (entry :: rest)

/-- The entries that `fillTranslationTable` writes. -/
def writtenEntries (store : Mmu → Nat → PageTableEntry → Option Mmu) (m : Mmu)
    (faultLevel targetLevel far : Nat) : Option (List (Nat × Nat)) :=
  let half := if highMem ≤ far then Half.kernel else .user
  if targetLevel + faultLevel < 4 then none
  else fillEntries store half targetLevel (far - tables half targetLevel) (4 - faultLevel)
    (targetLevel + faultLevel - 4) m

/-- The window that the handler takes the address to be in. -/
def targetLevelOf (half : Half) (far : Nat) : Nat := if tables half 1 ≤ far then 1 else 2

theorem handlePageFault_far (hfar : InWindows half far) (hlevel : level ≠ 0) :
    handlePageFault store' m level far =
      fillTranslationTable store' m level (targetLevelOf half far) far := by
  obtain ⟨hle, hlt⟩ := hfar
  rw [handlePageFault, if_neg hlevel, targetLevelOf]
  cases half with
  | kernel =>
      rw [if_neg hlt.not_ge]
      by_cases hone : tables .kernel 1 ≤ far
      · rw [if_pos hone, if_pos hone]
      · rw [if_neg hone, if_pos hle, if_neg hone]
  | user =>
      have hkernel₀ : tables .user 0 ≤ tables .kernel 0 := by decide
      have hkernel₁ : tables .user 0 ≤ tables .kernel 1 := by decide
      have hkernel₂ : tables .user 0 ≤ tables .kernel 2 := by decide
      rw [if_neg (hlt.trans_le hkernel₀).not_ge, if_neg (hlt.trans_le hkernel₁).not_ge,
        if_neg (hlt.trans_le hkernel₂).not_ge, if_neg hlt.not_ge]
      by_cases hone : tables .user 1 ≤ far
      · rw [if_pos hone, if_pos hone]
      · rw [if_neg hone, if_pos hle, if_neg hone]

theorem half_of_far (hfar : InWindows half far) :
    (if highMem ≤ far then Half.kernel else .user) = half := by
  obtain ⟨hle, hlt⟩ := hfar
  cases half <;> simp only [tables, highMem] at *
  · exact if_neg (by omega)
  · exact if_pos (by omega)

/-- The addresses that the loop computes, for the window of the address. -/
theorem fill_addresses (hfar : InWindows half far) :
    (midIndex far = 511 → tables half 0 +
        8 * ((far - tables half 1) / 2 ^ (12 + 9 * (1 - 0 - 1))) =
      half.base + windowOffset 511 511 (lastIndex far)) ∧
    tables half 0 + 8 * ((far - tables half 2) / 2 ^ (12 + 9 * (2 - 0 - 1))) =
      half.base + windowOffset 511 511 (midIndex far) ∧
    tables half 1 + 8 * ((far - tables half 2) / 2 ^ (12 + 9 * (2 - 1 - 1))) =
      half.base + windowOffset 511 (midIndex far) (lastIndex far) := by
  obtain ⟨-, -, r, hr, heq⟩ := hfar.indices
  have hj := lastIndex_lt far
  generalize midIndex far = i at *
  generalize lastIndex far = j at *
  subst heq
  refine ⟨fun hlast => ?_, ?_, ?_⟩ <;>
    cases half <;> simp only [tables, Half.base, highMem, windowOffset] <;> omega

theorem targetLevelOf_eq (hfar : InWindows half far) :
    targetLevelOf half far = if midIndex far = 511 then 1 else 2 := by
  obtain ⟨-, -, r, hr, heq⟩ := hfar.indices
  have hi := midIndex_lt far
  have hj := lastIndex_lt far
  refine if_congr ?_ rfl rfl
  generalize midIndex far = i at *
  generalize lastIndex far = j at *
  subst heq
  cases half <;> simp only [tables, Half.base, highMem] <;> omega

/-- After a fault at the third level, one entry is written. -/
theorem fill_third (hfar : InWindows half far) :
    fillTranslationTable store' m 3 (targetLevelOf half far) far =
        addTable store' m (half.base + windowOffset 511 (midIndex far) (lastIndex far)) ∧
      writtenEntries store' m 3 (targetLevelOf half far) far = (do
        let entry ← m.location (half.base + windowOffset 511 (midIndex far) (lastIndex far))
        let _ ← addTable store' m (half.base + windowOffset 511 (midIndex far) (lastIndex far))
        pure [entry]) := by
  obtain ⟨hone, -, htwo⟩ := fill_addresses hfar
  rw [fillTranslationTable, writtenEntries, half_of_far hfar, targetLevelOf_eq hfar]
  split
  next hlast =>
    have haddress := hone hlast
    rw [hlast]
    constructor
    · show fillLoop store' half 1 _ (0 + 1) 0 m = _
      rw [fillLoop_succ, haddress]
      exact Option.bind_fun_some _
    · show fillEntries store' half 1 _ (0 + 1) 0 m = _
      rw [fillEntries, haddress]
      rfl
  next =>
    constructor
    · show fillLoop store' half 2 _ (0 + 1) 1 m = _
      rw [fillLoop_succ, htwo]
      exact Option.bind_fun_some _
    · show fillEntries store' half 2 _ (0 + 1) 1 m = _
      rw [fillEntries, htwo]
      rfl

/-- After a fault at the second level, two entries are written. -/
theorem fill_second (hfar : InWindows half far) (hwindow : midIndex far ≠ 511) :
    fillTranslationTable store' m 2 (targetLevelOf half far) far =
        (addTable store' m (half.base + windowOffset 511 511 (midIndex far))).bind (fun m =>
          addTable store' m (half.base + windowOffset 511 (midIndex far) (lastIndex far))) ∧
      writtenEntries store' m 2 (targetLevelOf half far) far = (do
        let entry ← m.location (half.base + windowOffset 511 511 (midIndex far))
        let m ← addTable store' m (half.base + windowOffset 511 511 (midIndex far))
        let entry' ← m.location (half.base + windowOffset 511 (midIndex far) (lastIndex far))
        let _ ← addTable store' m (half.base + windowOffset 511 (midIndex far) (lastIndex far))
        pure [entry, entry']) := by
  obtain ⟨-, htop, hmid⟩ := fill_addresses hfar
  rw [fillTranslationTable, writtenEntries, half_of_far hfar, targetLevelOf_eq hfar,
    if_neg hwindow]
  constructor
  · show fillLoop store' half 2 _ (1 + 1) 0 m = _
    rw [fillLoop_succ, htop]
    refine Option.bind_congr fun m' _ => ?_
    show fillLoop store' half 2 _ (0 + 1) 1 m' = _
    rw [fillLoop_succ, hmid]
    exact Option.bind_fun_some _
  · show fillEntries store' half 2 _ (0 + 1 + 1) 0 m = _
    rw [fillEntries, htop]
    refine Option.bind_congr fun entry _ => Option.bind_congr fun m' _ => ?_
    rw [fillEntries, Nat.zero_add, hmid]
    simp only [Option.bind_eq_bind, Option.bind_assoc]
    rfl

/-! ## The entries of the walk are filled -/

/-- The entries that were written for a fault at the level are those that the walk of the address
uses from there on, each once and from the top down. Nothing else is written, and no entry that was
present in a table. -/
structure FillsWalk (m m' : Mmu) (half : Half) (far level : Nat) (entries : List (Nat × Nat)) :
    Prop where
  entries_eq : entries = (List.range' level (4 - level)).map (m'.walkEntry half far)
  nodup : entries.Nodup
  memory_eq : ∀ f k, (f, k) ∉ entries → m'.memory f k = m.memory f k
  not_present : ∀ p k, m.HasTable p → (m.frameOf p, k) ∈ entries →
    (m.entryAt (m.frameOf p, k)).present = false

/-- The addresses of entries in the second window lead to them. -/
theorem location_top (h : m.SelfMapped half) {i : Nat} (hi : i < 512) :
    m.location (half.base + windowOffset 511 511 i) = some (m.top half, i) := by
  have hmid := h.midEntry 511
  rw [location, walk_window_ok h (by decide) (by decide) hi h.isTable (hmid ▸ h.isTable), hmid,
    h.outputAddress_eq]
  obtain ⟨hpage, hentry⟩ := entry_of_page (m.top half) hi
  exact congrArg some (Prod.ext hpage hentry)

theorem location_mid (h : m.SelfMapped half) {i j : Nat} (hi : i < 512) (hj : j < 512)
    (h₁ : (m.topEntry half i).IsTable) :
    m.location (half.base + windowOffset 511 i j) =
      some ((m.topEntry half i).outputAddress, j) := by
  have hmid := h.midEntry i
  rw [location, walk_window_ok h (by decide) hi hj h.isTable (hmid ▸ h₁), hmid]
  obtain ⟨hpage, hentry⟩ := entry_of_page (m.topEntry half i).outputAddress hj
  exact congrArg some (Prod.ext hpage hentry)

/-- After a fault at the third level. -/
theorem fillsWalk_third_iff (h : m.Tidy) (hfar : InWindows half far)
    (h₁ : (m.topEntry half (midIndex far)).IsTable)
    (hfill : fillTranslationTable (store fuel) m 3 (targetLevelOf half far) far = some m') :
    ∃ entries, writtenEntries (store fuel) m 3 (targetLevelOf half far) far = some entries ∧
      (FillsWalk m m' half far 3 entries ↔
        (m.entryAt (m.walkEntry half far 3)).present = false) := by
  have hi := midIndex_lt far
  have hj := lastIndex_lt far
  obtain ⟨hadd, hentries⟩ := @fill_third m half far (store fuel) hfar
  rw [hadd] at hfill
  rw [hentries, location_mid (h.self half) hi hj h₁, hfill]
  refine ⟨_, rfl, ?_⟩
  rw [walkEntry_three (h.self half) hfar]
  generalize hF : (m.topEntry half (midIndex far)).outputAddress = table at *
  -- the entry is one of the top table in the second window, and below it in the third
  have htop : m.top half = table → midIndex far = 511 := by
    intro heq
    by_contra hlast
    exact TablePath.noConfusion (h.injective (.top half) (.mid half (midIndex far)) trivial
      ⟨by omega, h₁⟩ (heq.trans hF.symm))
  obtain ⟨p, hp, hframe⟩ : ∃ p, m.HasTable p ∧ m.frameOf p = table := by
    by_cases hlast : midIndex far = 511
    · rw [hlast, (h.self half).outputAddress_eq] at hF
      exact ⟨.top half, trivial, hF⟩
    · exact ⟨.mid half (midIndex far), ⟨by omega, h₁⟩, hF⟩
  obtain ⟨al, frame, hm'⟩ : ∃ al frame, m' =
      (m.reserved al frame).set table (lastIndex far) (.tableDescriptor frame) := by
    by_cases hlast : midIndex far = 511
    · rw [hlast, (h.self half).outputAddress_eq] at hF
      rw [hlast] at hfill
      obtain ⟨al, frame, -, -, hm'⟩ :=
        addTable_top (h.self half) (hfar.indices.2.1 hlast) hfill
      exact ⟨al, frame, hF ▸ hm'⟩
    · have hne : (m.topEntry half (midIndex far)).outputAddress ≠ m.top half := fun heq =>
        hlast (htop (heq.symm.trans hF))
      obtain ⟨-, al, frame, -, -, hm'⟩ :=
        addTable_mid (h.self half) (by omega) hj h₁ hne hfill
      exact ⟨al, frame, hF ▸ hm'⟩
  have hself' : m'.SelfMapped half := by
    rw [hm']
    refine (h.self half).reserved.set fun hand => ?_
    exact (hfar.indices.2.1 (htop hand.1)).ne hand.2.symm
  have hentry : (m'.topEntry half (midIndex far)).outputAddress = table := by
    rw [hm', topEntry_set, if_neg]
    · exact hF
    · intro hand
      have hlast := htop hand.1
      exact (hfar.indices.2.1 hlast).ne (hand.2.symm.trans hlast)
  constructor
  · intro hfills
    have hnone := hfills.not_present p (lastIndex far) hp (hframe ▸ List.mem_singleton_self _)
    rwa [hframe] at hnone
  · intro hnone
    refine ⟨?_, List.nodup_singleton _, fun f k hmem => ?_, fun q k _ hmem => ?_⟩
    · show _ = [m'.walkEntry half far 3]
      rw [walkEntry_three hself' hfar, hentry]
    · rw [hm', set_memory, if_neg fun hand => hmem (List.mem_singleton.2 (Prod.ext hand.1 hand.2))]
      rfl
    · rwa [List.mem_singleton.1 hmem]

/-- After a fault at the second level. -/
theorem fillsWalk_second (h : m.Tidy) (hfar : InWindows half far)
    (h₁ : (m.topEntry half (midIndex far)).present = false)
    (hfill : fillTranslationTable (store fuel) m 2 (targetLevelOf half far) far = some m') :
    ∃ entries, writtenEntries (store fuel) m 2 (targetLevelOf half far) far = some entries ∧
      FillsWalk m m' half far 2 entries := by
  have hwindow : midIndex far ≠ 511 := by
    intro hlast
    rw [hlast, (h.self half).isTable.1] at h₁
    cases h₁
  have hi : midIndex far < 511 := by
    have hlt := midIndex_lt far
    omega
  have hj := lastIndex_lt far
  obtain ⟨hadd, hentries⟩ := @fill_second m half far (store fuel) hfar hwindow
  rw [hadd] at hfill
  obtain ⟨m₁, hadd₁, hadd₂⟩ := Option.bind_eq_some_iff.1 hfill
  obtain ⟨al, frame, hreserve, hnomem, hm₁⟩ := addTable_top (h.self half) hi hadd₁
  -- the new table is no table in use
  have hfree := (h.managed.reserve_outputOf hreserve hnomem).2.1
  have hnew : ∀ p, m.HasTable p → m.frameOf p ≠ outputOf frame := fun p hp =>
    h.ne_frameOf hfree hp
  have hself₁ : m₁.SelfMapped half := hm₁ ▸ (h.self half).reserved.set (by omega)
  have hentry₁ : m₁.topEntry half (midIndex far) = .tableDescriptor frame := by
    rw [hm₁, topEntry_set, if_pos ⟨rfl, rfl⟩]
  have hnot : (m₁.topEntry half (midIndex far)).outputAddress ≠ m₁.top half := by
    rw [hentry₁, hm₁]
    exact (hnew (.top half) trivial).symm
  have htable₁ := hentry₁ ▸ isTable_tableDescriptor frame
  obtain ⟨-, al', frame', -, -, hm'⟩ := addTable_mid hself₁ hi hj htable₁ hnot hadd₂
  have hself' : m'.SelfMapped half := hm' ▸ hself₁.reserved.set fun hand => hnot hand.1.symm
  have hentry' : m'.topEntry half (midIndex far) = .tableDescriptor frame := by
    rw [hm', topEntry_set, if_neg fun hand => hnot hand.1.symm]
    exact hentry₁
  rw [hentries, location_top (h.self half) (by omega), hadd₁]
  simp only [Option.bind_eq_bind, Option.bind_some]
  rw [location_mid hself₁ (by omega) hj htable₁, hadd₂, hentry₁]
  rw [hentry₁] at hm'
  refine ⟨_, rfl, ?_, ?_, fun f k hmem => ?_, fun p k hp hmem => ?_⟩
  · show _ = [m'.walkEntry half far 2, m'.walkEntry half far 3]
    rw [walkEntry_two hself' hfar, walkEntry_three hself' hfar, hentry', hm', hm₁]
    rfl
  · refine List.nodup_cons.2 ⟨fun hmem => ?_, List.nodup_singleton _⟩
    exact hnew (.top half) trivial (congrArg Prod.fst (List.mem_singleton.1 hmem))
  · have hmem₁ : ¬ (f = m.top half ∧ k = midIndex far) := fun hand =>
      hmem (hand.1 ▸ hand.2 ▸ List.mem_cons_self)
    have hmem₂ : ¬ (f = (tableDescriptor frame).outputAddress ∧ k = lastIndex far) := fun hand =>
      hmem (hand.1 ▸ hand.2 ▸ List.mem_cons_of_mem _ (List.mem_singleton_self _))
    have hlog : ∀ (m : Mmu) al frame, (m.reserved al frame).memory = m.memory := fun _ _ _ => rfl
    rw [hm', set_memory, if_neg hmem₂, hlog, hm₁, set_memory, if_neg hmem₁, hlog]
  · obtain heq | hmem := List.mem_cons.1 hmem
    · rw [heq]
      exact h₁
    · exact absurd (congrArg Prod.fst (List.mem_singleton.1 hmem)) (hnew p hp)

/-- The handler of a fault in the windows fills the entries that the walk of the address misses, and
it overwrites no entry in use if and only if the entry at which the walk stopped is not present. -/
theorem fault_fills_walk_iff (h : m.Tidy) (hfar : InWindows half far)
    (hwalk : m.walk far = .error (.translation level))
    (hhandle : handlePageFault (store fuel) m level far = some m') :
    ∃ entries, writtenEntries (store fuel) m level (targetLevelOf half far) far = some entries ∧
      (FillsWalk m m' half far level entries ↔
        (m.entryAt (m.walkEntry half far level)).present = false) := by
  obtain ⟨rfl, h₁⟩ | ⟨rfl, h₁, -⟩ := walk_fault (h.self half) hfar hwalk
  · rw [handlePageFault_far hfar (by decide)] at hhandle
    obtain ⟨entries, hentries, hfills⟩ := fillsWalk_second h hfar h₁ hhandle
    refine ⟨entries, hentries, iff_of_true hfills ?_⟩
    rw [walkEntry_two (h.self half) hfar]
    exact h₁
  · rw [handlePageFault_far hfar (by decide)] at hhandle
    exact fillsWalk_third_iff h hfar h₁ hhandle

theorem fault_fills_walk_cleared : ∃ (m m' : Mmu) (entries : List (Nat × Nat)),
    handlePageFault (store 3) m 3 0x0000007FC0001000 = some m' ∧
      FillsWalk m m' .user 0x0000007FC0001000 3 entries := by
  have hrun : (PageAllocator.construct upperPages (fun _ => unwritten) pageSize).any (fun a =>
      (handlePageFault (store 3) (staleMachine .cleared a) 3 0x0000007FC0001000).isSome) =
        true := by
    decide +kernel
  obtain ⟨a, ha, hrun⟩ := (Option.any_eq_true ..).1 hrun
  obtain ⟨m', hhandle⟩ := Option.isSome_iff_exists.1 hrun
  have hfar : InWindows .user 0x0000007FC0001000 := ⟨by decide, by decide⟩
  obtain ⟨entries, -, hfills⟩ :=
    fault_fills_walk_iff (tidy_staleMachine ha) hfar rfl hhandle
  exact ⟨_, m', entries, hhandle, hfills.2 rfl⟩

/-- An entry that refers to no table does not change which tables there are. -/
theorem Tidy.set (h : m.Tidy) (he : ¬ e.IsTable) (hne : ∀ g, ¬ (m.top g = f ∧ 511 = k)) :
    (m.set f k e).Tidy := by
  have hmemory : ∀ g x, ((m.set f k e).memory g x).IsTable →
      (m.set f k e).memory g x = m.memory g x := by
    intro g x htable
    rw [set_memory] at *
    split at htable
    next => exact absurd htable he
    next hother => exact if_neg hother
  have htable : ∀ p, (m.set f k e).HasTable p →
      m.HasTable p ∧ (m.set f k e).frameOf p = m.frameOf p := by
    intro p hp
    have htopEntry : ∀ half i, ((m.set f k e).topEntry half i).IsTable →
        (m.set f k e).topEntry half i = m.topEntry half i := fun half i => hmemory _ _
    cases p with
    | top half => exact ⟨trivial, rfl⟩
    | mid half i =>
        obtain ⟨hi, htable⟩ := hp
        have hentry := htopEntry half i htable
        exact ⟨⟨hi, hentry ▸ htable⟩, congrArg PageTableEntry.outputAddress hentry⟩
    | last half i j =>
        obtain ⟨hi, hj, htable, htable'⟩ := hp
        have hentry := htopEntry half i htable
        have hentry' : (m.set f k e).midEntry half i j = m.midEntry half i j := by
          refine (hmemory _ _ htable').trans ?_
          rw [hentry]
          rfl
        exact ⟨⟨hi, hj, hentry ▸ htable, hentry' ▸ htable'⟩,
          congrArg PageTableEntry.outputAddress hentry'⟩
  refine ⟨fun g => (h.self g).set (hne g), fun p q hp hq heq => ?_, fun p hp => ?_, h.managed⟩
  · obtain ⟨hp, hframe⟩ := htable p hp
    obtain ⟨hq, hframe'⟩ := htable q hq
    exact h.injective p q hp hq (hframe ▸ hframe' ▸ heq)
  · obtain ⟨hp, hframe⟩ := htable p hp
    rw [hframe]
    exact h.not_free p hp

/-- A block that is mapped is lost when an entry of a page in it is written. -/
theorem fault_overwrites_block :
    ¬ ∀ (m m' : Mmu) (half : Half) (far fuel level : Nat) (entries : List (Nat × Nat)), m.Tidy →
      InWindows half far → m.walk far = .error (.translation level) →
      handlePageFault (store fuel) m level far = some m' →
      writtenEntries (store fuel) m level (targetLevelOf half far) far = some entries →
      FillsWalk m m' half far level entries := by
  intro h
  have hrun : (PageAllocator.construct upperPages (fun _ => unwritten) pageSize).any (fun a =>
      let m := (staleMachine .cleared a).set 6 1 (.blockDescriptor 0x200000 3)
      (handlePageFault (store 3) m 3 0x0000007FC0001000).isSome &&
        writtenEntries (store 3) m 3 2 0x0000007FC0001000 == some [(6, 1)]) = true := by
    decide +kernel
  obtain ⟨a, ha, hrun⟩ := (Option.any_eq_true ..).1 hrun
  obtain ⟨hhandle, hentries⟩ := Bool.and_eq_true_iff.1 hrun
  obtain ⟨m', hhandle⟩ := Option.isSome_iff_exists.1 hhandle
  have htidy : ((staleMachine .cleared a).set 6 1 (.blockDescriptor 0x200000 3)).Tidy :=
    (tidy_staleMachine ha).set (fun htable => Bool.false_ne_true htable.2) fun g => by omega
  have hfills := h _ m' .user _ 3 3 [(6, 1)] htidy ⟨by decide, by decide⟩ rfl hhandle
    (eq_of_beq hentries)
  have hnone := hfills.not_present (.mid .user 0) 1 ⟨by decide, rfl, rfl⟩ List.mem_cons_self
  exact Bool.false_ne_true hnone.symm

end Mmu

end CrosKernel.Memory
