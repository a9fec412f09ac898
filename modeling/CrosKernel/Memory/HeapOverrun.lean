import CrosKernel.Memory.HeapRuns
import Mathlib.Data.Set.Function

/-!
# Words behind the headers of blocks in use

`find_fit` and `rebuild_list` read the headers of the blocks only. What lies behind the header of a
block in use, its data and the tags behind them, makes no difference to them, also when the tags do
not fit the block any more.
-/

namespace CrosKernel.Memory

open Lib Set

namespace Heap

variable {h h' : Heap} {tiles : List Tile} {t : Tile} {D : Set Nat} {mem : Nat → Nat}
  {fuel size ptr a : Nat}

/-- The heap with other words in its memory. -/
def withMem (h : Heap) (mem : Nat → Nat) : Heap := { h with mem := mem }

/-- The addresses lie behind the headers of blocks in use. -/
def BehindUsed (tiles : List Tile) (D : Set Nat) : Prop :=
  ∀ a ∈ D, ∃ u ∈ usedTiles tiles, u.addr + 24 ≤ a ∧ a < u.addr + 8 * (u.words + 5)

theorem Laid.header_notMem (hl : Laid h tiles) (hD : BehindUsed tiles D) (ht : t ∈ tiles)
    (hlow : t.addr ≤ a) (hhigh : a < t.addr + 24) : a ∉ D := by
  intro ha
  obtain ⟨u, hu, hulow, huhigh⟩ := hD a ha
  obtain rfl | hapart := hl.apart (mem_usedTiles.1 hu).1 ht
  · omega
  · omega

/-- The words of the header of a block are the same in both memories. -/
theorem Laid.header_eq (hl : Laid h tiles) (hD : BehindUsed tiles D) (hmem : EqOn mem h.mem Dᶜ)
    (ht : t ∈ tiles) {i : Nat} (hi : i < 3) : (h.withMem mem).word t.addr i = h.word t.addr i :=
  hmem (hl.header_notMem hD ht (by omega) (by omega))

/-! ## Writes -/

theorem eqOn_update {mem' : Nat → Nat} (hmem : EqOn mem mem' Dᶜ) (a v : Nat) :
    EqOn (Function.update mem a v) (Function.update mem' a v) Dᶜ := by
  intro b hb
  by_cases heq : b = a
  · rw [heq, Function.update_self, Function.update_self]
  · rw [Function.update_of_ne heq, Function.update_of_ne heq, hmem hb]

theorem writeBlk_withMem (hmem : EqOn mem h.mem Dᶜ) (blk n next flag : Nat) :
    ∃ mem', (h.withMem mem).writeBlk blk n next flag = (h.writeBlk blk n next flag).withMem mem' ∧
      EqOn mem' (h.writeBlk blk n next flag).mem Dᶜ := by
  refine ⟨((h.withMem mem).writeBlk blk n next flag).mem, rfl, fun b hb => ?_⟩
  have hb' : (h.withMem mem).mem b = h.mem b := hmem hb
  rw [writeBlk_mem, writeBlk_mem, hb']

/-- `split_blk` of a block whose header is the same in both memories. -/
theorem splitBlk_withMem (size : Nat) {blk : Nat} (hmem : EqOn mem h.mem Dᶜ) (hsize : blk ∉ D)
    (hlink : blk + 8 ∉ D) (hprevious : h.searchPrevious ≠ 0 → h.searchPrevious + 8 ∉ D) :
    ∃ mem', (h.withMem mem).splitBlk size blk =
        ((h.splitBlk size blk).1.withMem mem', (h.splitBlk size blk).2) ∧
      EqOn mem' (h.splitBlk size blk).1.mem Dᶜ := by
  have hsize' : (h.withMem mem).word blk 0 = h.word blk 0 := hmem hsize
  have hlink' : (h.withMem mem).word blk 1 = h.word blk 1 := hmem hlink
  simp only [splitBlk, hsize', hlink']
  generalize blk + 8 * (size / 8) + 8 * OVERHEAD = split
  generalize sub64 (sub64 (h.word blk 0) (size / 8)) OVERHEAD = rest
  obtain ⟨mem₁, hrest, hmem₁⟩ := writeBlk_withMem hmem split rest (h.word blk 1) 0
  rw [hrest]
  generalize hh₁ : h.writeBlk split rest (h.word blk 1) 0 = h₁ at hmem₁
  have hpointer : h₁.searchPrevious = h.searchPrevious := by
    rw [← hh₁]
    rfl
  obtain ⟨mem₂, hcond, hmem₂⟩ : ∃ mem₂,
      (if (h₁.withMem mem₁).searchPrevious ≠ 0 ∧
          (h₁.withMem mem₁).word (h₁.withMem mem₁).searchPrevious 1 ≠ 0 then
        (h₁.withMem mem₁).setWord (h₁.withMem mem₁).searchPrevious 1 split else h₁.withMem mem₁) =
      (if h₁.searchPrevious ≠ 0 ∧ h₁.word h₁.searchPrevious 1 ≠ 0 then
        h₁.setWord h₁.searchPrevious 1 split else h₁).withMem mem₂ ∧
      EqOn mem₂ (if h₁.searchPrevious ≠ 0 ∧ h₁.word h₁.searchPrevious 1 ≠ 0 then
        h₁.setWord h₁.searchPrevious 1 split else h₁).mem Dᶜ := by
    have hword : h₁.searchPrevious ≠ 0 →
        (h₁.withMem mem₁).word h₁.searchPrevious 1 = h₁.word h₁.searchPrevious 1 := fun hne =>
      hmem₁ (hpointer ▸ hprevious (hpointer ▸ hne))
    by_cases hne : h₁.searchPrevious ≠ 0
    · have hword := hword hne
      show ∃ mem₂, (if h₁.searchPrevious ≠ 0 ∧ (h₁.withMem mem₁).word h₁.searchPrevious 1 ≠ 0 then
        (h₁.withMem mem₁).setWord h₁.searchPrevious 1 split else h₁.withMem mem₁) = _ ∧ _
      rw [hword]
      split
      next => exact ⟨_, rfl, eqOn_update hmem₁ _ _⟩
      next => exact ⟨mem₁, rfl, hmem₁⟩
    · rw [if_neg fun hboth => hne hboth.1, if_neg fun hboth => hne hboth.1]
      exact ⟨mem₁, rfl, hmem₁⟩
  rw [hcond]
  generalize (if h₁.searchPrevious ≠ 0 ∧ h₁.word h₁.searchPrevious 1 ≠ 0 then
    h₁.setWord h₁.searchPrevious 1 split else h₁) = h₂ at hmem₂
  obtain ⟨mem₃, hused, hmem₃⟩ := writeBlk_withMem
    (h := { h₂ with linkedListStart := redirect blk split h₂.linkedListStart,
                    searchPrevious := redirect blk split h₂.searchPrevious,
                    searchCurrent := redirect blk split h₂.searchCurrent })
    hmem₂ blk (size / 8) 0 1
  exact ⟨mem₃, congrArg (·, blk + 8 * 3) hused, hmem₃⟩

/-! ## The search -/

theorem Laid.not_exact (hl : Laid h tiles) (hcurrent : h.searchCurrent ∈ freeAddrs tiles)
    (hsize : size + 104 ≤ 2 ^ 64) (hexact : NoneExact tiles size) :
    ¬h.word h.searchCurrent 0 * 8 % 2 ^ 64 = (size + OVERHEAD) % 2 ^ 64 := by
  obtain ⟨t, ht, hfree, haddr⟩ := mem_freeAddrs.1 hcurrent
  have hwords : h.word h.searchCurrent 0 = t.words := haddr ▸ (hl.tagged t ht).size
  have hne := hexact t ht hfree
  have hbounds := hl.bounds ht
  have hend := hl.end_lt
  unfold OVERHEAD at hne ⊢
  omega

/-- `find_fit` finds the same block, unless it takes one as it is. -/
theorem Ordered.findFitLoop_withMem (hordered : Ordered h tiles)
    (hcurrent : h.searchCurrent ∈ freeAddrs tiles)
    (hprevious : h.searchPrevious = 0 ∨ h.searchPrevious ∈ freeAddrs tiles)
    (hsize : size + 104 ≤ 2 ^ 64) (hexact : NoneExact tiles size) (hD : BehindUsed tiles D)
    (hmem : EqOn mem h.mem Dᶜ) (hfind : Heap.findFitLoop size fuel h = some (h', ptr)) :
    ∃ mem', Heap.findFitLoop size fuel (h.withMem mem) = some (h'.withMem mem', ptr) ∧
      EqOn mem' h'.mem Dᶜ := by
  induction fuel generalizing h with
  | zero => cases hfind
  | succ fuel ih =>
      have hadvance := hordered.advance hcurrent
      have hl := hordered.1
      obtain ⟨t, ht, hfree, haddr⟩ := mem_freeAddrs.1 hcurrent
      have hword : ∀ i < 3, (h.withMem mem).word h.searchCurrent i = h.word h.searchCurrent i :=
        fun i hi => haddr ▸ hl.header_eq hD hmem ht hi
      have hnext : (h.withMem mem).nextSearch = h.nextSearch := by
        show (if (h.withMem mem).word h.searchCurrent 1 ≠ 0 then
          (h.withMem mem).word h.searchCurrent 1 else h.linkedListStart) = _
        rw [hword 1 (by decide)]
        rfl
      have hmove : (h.withMem mem).advance = h.advance.withMem mem := by
        rw [Heap.advance, hnext]
        rfl
      have hne := hl.not_exact hcurrent hsize hexact
      have hcur : (h.withMem mem).searchCurrent = h.searchCurrent := rfl
      have hbegin : (h.withMem mem).searchStart = h.searchStart := rfl
      have hend : (h.withMem mem).heapEnd = h.heapEnd := rfl
      rw [findFitLoop_succ, if_neg hne] at hfind
      rw [findFitLoop_succ, hcur, hword 0 (by decide), if_neg hne, hnext, hmove, hbegin, hend]
      split at hfind
      next hfits =>
        rw [if_pos hfits]
        cases hfind
        refine (splitBlk_withMem size hmem ?_ ?_ fun hzero => ?_).imp fun mem' h' =>
          ⟨congrArg some h'.1, h'.2⟩
        · exact hl.header_notMem hD ht haddr.le (by omega)
        · exact hl.header_notMem hD ht (by omega) (by omega)
        · obtain ⟨u, hu, -, huaddr⟩ := mem_freeAddrs.1 (hprevious.resolve_left hzero)
          exact hl.header_notMem hD hu (by omega) (by omega)
      next hfits =>
        rw [if_neg hfits]
        split at hfind
        next hgo =>
          rw [if_pos hgo]
          exact ih hadvance.ordered hadvance.current (.inr hcurrent) hmem hfind
        next hstop =>
          rw [if_neg hstop]
          cases hfind
          exact ⟨mem, rfl, hmem⟩

theorem Ordered.findFit_withMem (hordered : Ordered h tiles)
    (hcurrent : h.searchCurrent ∈ freeAddrs tiles)
    (hprevious : h.searchPrevious = 0 ∨ h.searchPrevious ∈ freeAddrs tiles)
    (hsize : size + 104 ≤ 2 ^ 64) (hexact : NoneExact tiles size) (hD : BehindUsed tiles D)
    (hmem : EqOn mem h.mem Dᶜ) (hfind : h.findFit fuel size = some (h', ptr)) :
    ∃ mem', (h.withMem mem).findFit fuel size = some (h'.withMem mem', ptr) ∧
      EqOn mem' h'.mem Dᶜ :=
  (hordered.startAt h.searchCurrent).findFitLoop_withMem hcurrent hprevious hsize hexact hD hmem
    hfind

/-! ## The list -/

theorem skipUsed_withMem {cur e : Nat} {us : List Tile} {z : Tile}
    (htiling : Tiling Tile.addr Tile.len cur (us ++ [z]) e)
    (htags : ∀ t ∈ us ++ [z], t.Tagged h.mem) (hz : z.used = false)
    (hheader : ∀ t ∈ us ++ [z], ∀ i < 3, (h.withMem mem).word t.addr i = h.word t.addr i) :
    (h.withMem mem).skipUsed fuel cur = h.skipUsed fuel cur := by
  induction us generalizing fuel cur with
  | nil =>
      cases fuel with
      | zero => rfl
      | succ fuel =>
          obtain ⟨rfl, -⟩ := htiling
          have hflag : h.word z.addr 2 = z.flag := (htags z (by simp)).flag
          have hzero : h.word z.addr 2 = 0 := by rw [hflag, Tile.flag, hz, if_neg (by simp)]
          rw [skipUsed, skipUsed, hheader z (by simp) 2 (by decide), hzero]
          rfl
  | cons t us ih =>
      cases fuel with
      | zero => rfl
      | succ fuel =>
          obtain ⟨rfl, htiling⟩ := htiling
          have hsize : h.word t.addr 0 = t.words := (htags t (by simp)).size
          have hlen : t.addr + 8 * t.words + 8 * OVERHEAD = t.addr + t.len := by
            unfold OVERHEAD Tile.len
            omega
          rw [skipUsed, skipUsed, hheader t (by simp) 2 (by decide),
            hheader t (by simp) 0 (by decide), hsize, hlen]
          rw [ih htiling (fun s hs => htags s (List.mem_cons_of_mem t hs))
            fun s hs => hheader s (List.mem_cons_of_mem t hs)]

theorem passBlock_withMem (current prev a : Nat) :
    (h.withMem mem).passBlock current prev a =
      (h.passBlock current prev a).withMem (Function.update mem (prev + 8 * 1) a) := by
  unfold passBlock
  split
  · rfl
  · rfl

/-- One pass of the loop of `rebuild_list`. -/
theorem rebuildLoop_succ (h : Heap) (current fuel prev cur : Nat) :
    rebuildLoop current (fuel + 1) h prev cur =
      if cur < h.heapEnd then (h.skipUsed fuel cur).bind fun a =>
        if a ≠ h.linkedListStart then
          rebuildLoop current fuel (h.passBlock current prev a) a
            (a + 8 * (h.passBlock current prev a).word a 0 + 8 * OVERHEAD)
        else some (h, prev)
      else some (h, prev) := rfl

theorem rebuildLoop_places {current prev cur last : Nat}
    (hrun : rebuildLoop current fuel h prev cur = some (h', last)) :
    h'.heap = h.heap ∧ h'.heapEnd = h.heapEnd ∧ h'.linkedListStart = h.linkedListStart := by
  induction fuel generalizing h prev cur with
  | zero => cases hrun
  | succ fuel ih =>
      rw [rebuildLoop_succ] at hrun
      split at hrun
      next =>
        obtain ⟨a, -, hrun⟩ := Option.bind_eq_some_iff.1 hrun
        split at hrun
        next =>
          obtain ⟨hheap, hend, hstart⟩ := h.passBlock_places current prev a
          obtain ⟨hheap', hend', hstart'⟩ := ih hrun
          exact ⟨hheap'.trans hheap, hend'.trans hend, hstart'.trans hstart⟩
        next =>
          cases hrun
          exact ⟨rfl, rfl, rfl⟩
      next =>
        cases hrun
        exact ⟨rfl, rfl, rfl⟩

theorem Laid.rebuildLoop_withMem {current cur e last : Nat} {ds us : List Tile} {p z : Tile}
    (hl : Laid h (ds ++ (us ++ [z]))) (hz : z.used = false)
    (htiling : Tiling Tile.addr Tile.len cur (us ++ [z]) e) (he : e ≤ h.heapEnd)
    (hp : p ∈ ds ++ (us ++ [z])) (hpfree : p.used = false)
    (hD : BehindUsed (ds ++ (us ++ [z])) D) (hmem : EqOn mem h.mem Dᶜ)
    (hrun : Heap.rebuildLoop current fuel h p.addr cur = some (h', last)) :
    ∃ mem', Heap.rebuildLoop current fuel (h.withMem mem) p.addr cur =
        some (h'.withMem mem', last) ∧
      EqOn mem' h'.mem Dᶜ := by
  induction fuel generalizing h cur ds us p mem with
  | zero => cases hrun
  | succ fuel ih =>
      have hlt : cur < h.heapEnd := by
        have hbounds : cur ≤ z.addr ∧ z.addr + 8 * (z.words + 5) ≤ e :=
          htiling.bounds (by simp : z ∈ us ++ [z])
        omega
      rw [rebuildLoop_succ, if_pos hlt] at hrun
      obtain ⟨a, hskip, hrun⟩ := Option.bind_eq_some_iff.1 hrun
      have hskip' : (h.withMem mem).skipUsed fuel cur = some a := by
        rw [skipUsed_withMem htiling (fun t ht => hl.tagged t (List.mem_append_right ds ht)) hz
          fun t ht i hi => hl.header_eq hD hmem (List.mem_append_right ds ht) hi, hskip]
      have hlt' : cur < (h.withMem mem).heapEnd := hlt
      rw [rebuildLoop_succ, if_pos hlt', hskip', Option.bind_some]
      obtain ⟨-, hstart, -⟩ | ⟨vs, t, rs, rfl, -, hfree, rfl, hne, hl', htail, -⟩ :=
        hl.rebuildLoop_pass hz htiling he hp hpfree hskip current
      · rw [if_neg (not_not.2 hstart)] at hrun
        cases hrun
        exact ⟨mem, if_neg (not_not.2 hstart), hmem⟩
      · have hne' : t.addr ≠ (h.withMem mem).linkedListStart := hne
        have hupdate : EqOn (Function.update mem (p.addr + 8 * 1) t.addr)
            (h.passBlock current p.addr t.addr).mem Dᶜ := by
          intro b hb
          rw [passBlock_mem, Function.update_apply]
          split_ifs with heq
          · rfl
          · exact hmem hb
        have hin : ds ++ (vs ++ t :: rs ++ [z]) = ds ++ vs ++ [t] ++ (rs ++ [z]) := by simp
        have hsize : (h.passBlock current p.addr t.addr).word t.addr 0 = t.words :=
          (hl'.tagged t (by simp)).size
        have hlen : t.addr + 8 * t.words + 8 * OVERHEAD = t.addr + t.len := by
          unfold OVERHEAD Tile.len
          omega
        rw [if_pos hne, hsize, hlen] at hrun
        rw [if_pos hne', passBlock_withMem,
          hl'.header_eq (hin ▸ hD) hupdate (t := t) (by simp) (by decide), hsize, hlen]
        have hend := (h.passBlock_places current p.addr t.addr).2.1
        exact ih hl' htail (hend ▸ he) (by simp) hfree (hin ▸ hD) hupdate hrun

/-- `rebuild_list` links the same blocks. -/
theorem Laid.rebuildList_withMem {current : Nat} (hl : Laid h tiles) (hD : BehindUsed tiles D)
    (hmem : EqOn mem h.mem Dᶜ) (hrun : Heap.rebuildList fuel h current = some h') :
    ∃ mem', Heap.rebuildList fuel (h.withMem mem) current = some (h'.withMem mem') ∧
      EqOn mem' h'.mem Dᶜ := by
  obtain ⟨us, z, rfl, hz, hstart⟩ := hl.last
  obtain ⟨e, htiling, he⟩ := hl.tiling
  obtain ⟨⟨h₁, last⟩, hloop, hrest⟩ := Option.bind_eq_some_iff.1 hrun
  change some ((h₁.startRovers current).setWord last 1 0) = some h' at hrest
  cases hrest
  have hall : Laid h ([] ++ (us ++ [z])) := hl
  rw [← hstart] at hloop
  obtain ⟨mem₁, hloop₁, hmem₁⟩ :=
    hall.rebuildLoop_withMem hz htiling he (by simp) hz hD hmem hloop
  have hplace := (rebuildLoop_places hloop).2.2
  have hfirst : (h₁.withMem mem₁).word h₁.linkedListStart 1 = h₁.word h₁.linkedListStart 1 := by
    refine hmem₁ ?_
    rw [hplace, ← hstart]
    exact hl.header_notMem hD (t := z) (by simp) (by omega) (by omega)
  have hrovers : (h₁.withMem mem₁).startRovers current =
      (h₁.startRovers current).withMem mem₁ := by
    unfold startRovers
    rw [show (h₁.withMem mem₁).linkedListStart = h₁.linkedListStart from rfl, hfirst]
    split
    next => rfl
    next => rfl
  refine ⟨Function.update mem₁ (last + 8 * 1) 0, ?_, ?_⟩
  · rw [Heap.rebuildList, show (h.withMem mem).linkedListStart = z.addr from hstart.symm,
      show (h.withMem mem).heap = h.heap from rfl, hloop₁]
    show some (((h₁.withMem mem₁).startRovers current).setWord last 1 0) = _
    rw [hrovers]
    rfl
  · obtain ⟨hsame, -⟩ := h₁.startRovers_same current
    exact eqOn_update (by rwa [hsame]) _ _

end Heap

end CrosKernel.Memory
