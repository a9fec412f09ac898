import CrosKernel.Memory.HeapBlocks

/-!
# Freeing blocks of the heap

`rfree` puts the block behind `search_previous`, and `merge` joins it with the free blocks beside
it. `rebuild_list` then links all free blocks anew in the order of their addresses, whatever their
links were before.
-/

namespace CrosKernel.Memory

open Lib

namespace Heap

variable {h h' : Heap} {tiles l r : List Tile} {chain : List Nat} {s t : Tile} {a : Nat}

/-! ## Merging blocks -/

theorem absorb_mem (h : Heap) {s t : Nat} (hst : s < t) (a : Nat) :
    (h.absorb s t).mem a =
      if a = s + 8 * (h.mem s + h.mem t + 8) then h.mem s + h.mem t + 5
      else if a = t + 8 then 0 else if a = s then h.mem s + h.mem t + 5 else h.mem a := by
  have hread : ((h.setWord s 0 (h.mem s + h.mem t + 5)).setWord t 1 0).mem s =
      h.mem s + h.mem t + 5 := by
    rw [mem_setWord, if_neg (by omega), mem_setWord, if_pos (by omega)]
  generalize hboth : (h.setWord s 0 (h.mem s + h.mem t + 5)).setWord t 1 0 = both at hread
  have habsorb : (h.absorb s t).mem a =
      (both.setWord s (both.mem s + 5 - 2) (both.mem s)).mem a := by
    rw [← hboth]
    rfl
  rw [habsorb, hread, mem_setWord, ← hboth, mem_setWord, mem_setWord]
  rfl

/-- Two blocks that follow each other take as much room as the one that `merge` makes of them. -/
theorem absorb_fill {c d : Nat} (hfill : Tiling Tile.addr Tile.len c [s, t] d) :
    Tiling Tile.addr Tile.len c [⟨s.addr, s.words + t.words + 5, false⟩] d := by
  obtain ⟨rfl, -, hd⟩ := hfill
  refine ⟨rfl, Eq.trans ?_ hd⟩
  show s.addr + 8 * (s.words + t.words + 5 + 5) =
    s.addr + 8 * (s.words + 5) + 8 * (t.words + 5)
  omega

/-- `merge` makes one block of two free ones. -/
theorem Laid.absorb (hl : Laid h (l ++ [s, t] ++ r)) (hs : s.used = false) (ht : t.used = false) :
    Laid (h.absorb s.addr t.addr) (l ++ [⟨s.addr, s.words + t.words + 5, false⟩] ++ r) ∧
      Keeps (l ++ r) h (h.absorb s.addr t.addr) := by
  have htagsS := hl.tagged s (by simp)
  have htagsT := hl.tagged t (by simp)
  have hfirst : Laid h (l ++ s :: t :: r) := by simpa using hl
  have hsecond : Laid h (l ++ [s] ++ t :: r) := by simpa using hl
  have hnext := hfirst.next_addr
  have hmem := h.absorb_mem (s := s.addr) (t := t.addr) (by omega)
  rw [htagsS.size, htagsT.size] at hmem
  generalize hh' : h.absorb s.addr t.addr = h' at hmem
  have hkeep : Keeps (l ++ r) h h' := by
    refine ⟨by rw [← hh']; rfl, by rw [← hh']; rfl, ?_⟩
    intro u hu a howns
    have hrange := Tile.owns_iff.1 howns
    have hmemu : u ∈ l ++ t :: r ∧ u ∈ l ++ [s] ++ r := by
      simp only [List.mem_append, List.mem_cons] at hu ⊢
      tauto
    have hside := hfirst.beside hmemu.1
    have hside' := hsecond.beside hmemu.2
    rw [hmem, if_neg (by omega), if_neg (by omega), if_neg (by omega)]
  have hstart : h'.linkedListStart = redirect t.addr s.addr h.linkedListStart := by
    rw [← hh']
    rfl
  refine ⟨hl.edit (fun c d => absorb_fill) ?_ hkeep ?_ ?_, hkeep⟩
  · intro u hu
    obtain rfl := List.mem_singleton.1 hu
    constructor <;> dsimp only [Tile.flag]
    · rw [hmem, if_neg (by omega), if_neg (by omega), if_pos rfl]
    · rw [hmem, if_neg (by omega), if_neg (by omega), if_neg (by omega), htagsS.flag, Tile.flag, hs]
    · rw [hmem, if_pos (by omega)]
    · have hplace : s.addr + 8 * (s.words + t.words + 5 + 4) = t.addr + 8 * (t.words + 4) := by
        omega
      rw [hplace, hmem, if_neg (by omega), if_neg (by omega), if_neg (by omega),
        htagsT.footerFlag, Tile.flag, ht]
  · intro hr
    have hne : t.addr ≠ h.linkedListStart := fun heq => hr (hsecond.start_eq_iff.1 heq)
    rw [hstart, redirect, if_neg hne]
  · intro hr
    rw [hstart, redirect, if_pos (hsecond.start_eq_iff.2 hr)]
    exact ⟨[], _, rfl, rfl, rfl⟩

/-- The block in front is the last one of `l`. -/
theorem Laid.previousFree_eq (hl : Laid h (l ++ [t] ++ r)) :
    h.previousFree t.addr = (l.getLast?.filter fun s => !s.used).map Tile.addr := by
  obtain rfl | ⟨l, s, rfl⟩ := List.eq_nil_or_concat' l
  · obtain ⟨e, htiling, -⟩ := hl.tiling
    rw [previousFree, if_neg fun hboth => hboth.1 htiling.1]
    rfl
  · have htags := hl.tagged s (by simp)
    have hfirst : Laid h (l ++ s :: t :: r) := by simpa using hl
    have hnext := hfirst.next_addr
    have hbounds := hfirst.bounds (t := s) (by simp)
    have hflag : t.addr - 8 = s.addr + 8 * (s.words + 4) := by omega
    have hsize : t.addr - 16 = s.addr + 8 * (s.words + 3) := by omega
    have haddr : t.addr - 8 * (s.words + OVERHEAD) = s.addr := by
      unfold OVERHEAD
      omega
    rw [previousFree, hflag, hsize, htags.footerFlag, htags.footerSize, haddr, Tile.flag,
      List.getLast?_append_of_ne_nil _ (by simp)]
    cases hused : s.used with
    | true => simp [Option.filter, hused]
    | false =>
        rw [if_pos ⟨by omega, rfl⟩]
        simp [Option.filter, hused]

/-- The block behind one that is not the last is the first one of `r`. -/
theorem Laid.nextFree_eq (hl : Laid h (l ++ [t] ++ r)) (hr : r ≠ []) :
    h.nextFree t.addr = (r.head?.filter fun s => !s.used).map Tile.addr := by
  have hsize : h.word t.addr 0 = t.words := (hl.tagged t (by simp)).size
  have hbehind : t.addr + 8 * t.words + 8 * OVERHEAD = t.addr + 8 * (t.words + 5) := by
    unfold OVERHEAD
    omega
  rw [nextFree, hsize, hbehind]
  cases r with
  | nil => exact absurd rfl hr
  | cons s r =>
      have hs : s ∈ l ++ [t] ++ s :: r := by simp
      have hfirst : Laid h (l ++ t :: s :: r) := by simpa using hl
      have hbounds := hl.bounds hs
      have hflag : h.word s.addr 2 = s.flag := (hl.tagged s hs).flag
      rw [← hfirst.next_addr, hflag, Tile.flag]
      cases hused : s.used with
      | true => simp [Option.filter, hused]
      | false =>
          rw [if_pos ⟨rfl, by omega⟩]
          simp [Option.filter, hused]

/-! ## Rebuilding the list -/

/-- The next free block from the start of a tile on. -/
theorem skipUsed_spec {fuel cur e : Nat} {us : List Tile} {z : Tile}
    (htiling : Tiling Tile.addr Tile.len cur (us ++ [z]) e)
    (htags : ∀ t ∈ us ++ [z], t.Tagged h.mem) (hz : z.used = false)
    (hskip : h.skipUsed fuel cur = some a) :
    (a = z.addr ∧ freeAddrs us = []) ∨
      ∃ vs t rs, us = vs ++ t :: rs ∧ freeAddrs vs = [] ∧ t.used = false ∧ t.addr = a := by
  induction fuel generalizing cur us with
  | zero => cases hskip
  | succ fuel ih =>
      rw [skipUsed] at hskip
      cases us with
      | nil =>
          obtain ⟨rfl, -⟩ := htiling
          have hflag : h.word z.addr 2 = z.flag := (htags z (by simp)).flag
          rw [hflag, Tile.flag, hz, if_neg (by simp)] at hskip
          cases hskip
          exact .inl ⟨rfl, rfl⟩
      | cons t us =>
          obtain ⟨rfl, htiling⟩ := htiling
          have htag := htags t (by simp)
          have hflag : h.word t.addr 2 = t.flag := htag.flag
          have hsize : h.word t.addr 0 = t.words := htag.size
          rw [hflag, Tile.flag, hsize] at hskip
          cases hused : t.used with
          | false =>
              rw [hused, if_neg (by simp)] at hskip
              cases hskip
              exact .inr ⟨[], t, us, rfl, rfl, hused, rfl⟩
          | true =>
              have hlen : t.addr + 8 * t.words + 8 * OVERHEAD = t.addr + t.len := by
                unfold OVERHEAD Tile.len
                omega
              rw [hused, if_pos (by simp), hlen] at hskip
              have hdrop : ∀ vs, freeAddrs (t :: vs) = freeAddrs vs := fun vs => by
                simp [freeAddrs, hused]
              obtain hz | ⟨vs, s, rs, rfl, hvs, hs, haddr⟩ :=
                ih htiling (fun s hs => htags s (List.mem_cons_of_mem t hs)) hskip
              · exact .inl ⟨hz.1, (hdrop us).trans hz.2⟩
              · exact .inr ⟨t :: vs, s, rs, rfl, (hdrop vs).trans hvs, hs, haddr⟩

/-- Some block is free from the start of a tile on, at the latest the last one. -/
theorem skipUsed_returns {fuel cur e : Nat} {us : List Tile} {z : Tile}
    (htiling : Tiling Tile.addr Tile.len cur (us ++ [z]) e)
    (htags : ∀ t ∈ us ++ [z], t.Tagged h.mem) (hz : z.used = false) (hfuel : us.length < fuel) :
    ∃ a, h.skipUsed fuel cur = some a := by
  induction us generalizing fuel cur with
  | nil =>
      obtain ⟨fuel, rfl⟩ := Nat.exists_eq_succ_of_ne_zero (Nat.ne_of_gt hfuel)
      obtain ⟨rfl, -⟩ := htiling
      have hflag : h.word z.addr 2 = z.flag := (htags z (by simp)).flag
      rw [skipUsed, hflag, Tile.flag, hz, if_neg (by simp)]
      exact ⟨_, rfl⟩
  | cons t us ih =>
      obtain ⟨fuel, rfl⟩ := Nat.exists_eq_succ_of_ne_zero (Nat.ne_of_gt (Nat.zero_lt_of_lt hfuel))
      obtain ⟨rfl, htiling⟩ := htiling
      have hsize : h.word t.addr 0 = t.words := (htags t (by simp)).size
      have hlen : t.addr + 8 * t.words + 8 * OVERHEAD = t.addr + t.len := by
        unfold OVERHEAD Tile.len
        omega
      rw [skipUsed, hsize, hlen]
      split
      next =>
        exact ih htiling (fun s hs => htags s (List.mem_cons_of_mem t hs))
          (Nat.lt_of_succ_lt_succ hfuel)
      next => exact ⟨_, rfl⟩

/-- What the loop of `rebuild_list` does from the last block that was linked: it links the free
blocks among `us`. The last one of them, which it returns, is not linked yet. -/
structure Relinked (h h' : Heap) (prev : Nat) (us : List Tile) (nodes : List Nat)
    (last current : Nat) : Prop where
  heap : h'.heap = h.heap
  heapEnd : h'.heapEnd = h.heapEnd
  start : h'.linkedListStart = h.linkedListStart
  nodes_eq : prev :: freeAddrs us = nodes ++ [last]
  links : NullList (fun p => h'.mem (p + 8)) last nodes
  others : ∀ a, (∀ x ∈ nodes, a ≠ x + 8) → h'.mem a = h.mem a
  found : current ∈ freeAddrs us →
    h'.searchPrevious ∈ nodes ∧ h'.mem (h'.searchPrevious + 8) = h'.searchCurrent
  rovers : current ∉ freeAddrs us →
    h'.searchPrevious = h.searchPrevious ∧ h'.searchCurrent = h.searchCurrent

/-- The heap after the loop passed the free block at `a`. -/
def passBlock (h : Heap) (current prev a : Nat) : Heap :=
  Heap.setWord (if a = current then { h with searchPrevious := prev, searchCurrent := a } else h)
    prev 1 a

theorem passBlock_mem (h : Heap) (current prev a b : Nat) :
    (h.passBlock current prev a).mem b = if b = prev + 8 then a else h.mem b := by
  rw [passBlock, mem_setWord]
  split_ifs <;> rfl

theorem passBlock_places (h : Heap) (current prev a : Nat) :
    (h.passBlock current prev a).heap = h.heap ∧ (h.passBlock current prev a).heapEnd = h.heapEnd ∧
      (h.passBlock current prev a).linkedListStart = h.linkedListStart := by
  rw [passBlock]
  split_ifs <;> exact ⟨rfl, rfl, rfl⟩

theorem Laid.passBlock {current : Nat} (hl : Laid h tiles) (ht : t ∈ tiles)
    (hfree : t.used = false) : Laid (h.passBlock current t.addr a) tiles := by
  obtain ⟨hheap, hend, hstart⟩ := h.passBlock_places current t.addr a
  refine hl.congr hstart ⟨hheap, hend, fun s hs b howns => ?_⟩
  rw [passBlock_mem, if_neg]
  rintro rfl
  exact hl.not_owns_link hs ht hfree howns

/-- One more block in front of those that the loop links. -/
theorem Relinked.cons {prev a last current : Nat} {us rs : List Tile} {nodes : List Nat}
    (hrest : Relinked (h.passBlock current prev a) h' a rs nodes last current)
    (hfrees : freeAddrs us = a :: freeAddrs rs) (hprev : prev ∉ freeAddrs us) :
    Relinked h h' prev us (prev :: nodes) last current := by
  obtain ⟨hheap, hend, hstart⟩ := h.passBlock_places current prev a
  have hnodes : a :: freeAddrs rs = nodes ++ [last] := hrest.nodes_eq
  have hnot : prev ∉ nodes := fun hmem => by
    refine hprev ?_
    rw [hfrees, hnodes]
    exact List.mem_append_left _ hmem
  have hlink : h'.mem (prev + 8) = a := by
    have hother : ∀ x ∈ nodes, prev + 8 ≠ x + 8 := fun x hx heq => by
      obtain rfl : prev = x := Nat.add_right_cancel heq
      exact hnot hx
    rw [hrest.others _ hother, passBlock_mem, if_pos rfl]
  have hfirst : nodes.headD last = a := by
    cases nodes with
    | nil => exact (List.cons_eq_cons.1 hnodes).1.symm
    | cons x nodes => exact (List.cons_eq_cons.1 hnodes).1.symm
  constructor
  · exact hrest.heap.trans hheap
  · exact hrest.heapEnd.trans hend
  · exact hrest.start.trans hstart
  · rw [hfrees, hnodes]
    rfl
  · exact NullList.cons.2 ⟨hlink.trans hfirst.symm, hrest.links⟩
  · intro b hb
    rw [hrest.others b fun x hx => hb x (List.mem_cons_of_mem prev hx), passBlock_mem,
      if_neg (hb prev List.mem_cons_self)]
  · intro hcurrent
    by_cases hrs : current ∈ freeAddrs rs
    · obtain ⟨hmem, hnext⟩ := hrest.found hrs
      exact ⟨List.mem_cons_of_mem prev hmem, hnext⟩
    · obtain ⟨hprevious, hcur⟩ := hrest.rovers hrs
      rw [hfrees] at hcurrent
      have heq : a = current := ((List.mem_cons.1 hcurrent).resolve_right hrs).symm
      rw [hprevious, hcur, passBlock, if_pos heq]
      exact ⟨List.mem_cons_self, hlink⟩
  · intro hcurrent
    rw [hfrees, List.mem_cons, not_or] at hcurrent
    obtain ⟨hprevious, hcur⟩ := hrest.rovers hcurrent.2
    rw [hprevious, hcur, passBlock, if_neg fun heq => hcurrent.1 heq.symm]
    exact ⟨rfl, rfl⟩

/-- One pass of the loop of `rebuild_list` from the last block `p` that was linked: it ends when
there is no free block but the last one, and otherwise it links the next free block. -/
theorem Laid.rebuildLoop_pass {fuel cur e a : Nat} {ds us : List Tile} {p z : Tile}
    (hl : Laid h (ds ++ (us ++ [z]))) (hz : z.used = false)
    (htiling : Tiling Tile.addr Tile.len cur (us ++ [z]) e) (he : e ≤ h.heapEnd)
    (hp : p ∈ ds ++ (us ++ [z])) (hpfree : p.used = false) (hskip : h.skipUsed fuel cur = some a)
    (current : Nat) :
    (freeAddrs us = [] ∧ a = h.linkedListStart ∧
        rebuildLoop current (fuel + 1) h p.addr cur = some (h, p.addr)) ∨
      ∃ vs t rs, us = vs ++ t :: rs ∧ freeAddrs vs = [] ∧ t.used = false ∧ t.addr = a ∧
        a ≠ h.linkedListStart ∧
        Laid (h.passBlock current p.addr t.addr) (ds ++ vs ++ [t] ++ (rs ++ [z])) ∧
        Tiling Tile.addr Tile.len (t.addr + t.len) (rs ++ [z]) e ∧
        rebuildLoop current (fuel + 1) h p.addr cur =
          rebuildLoop current fuel (h.passBlock current p.addr t.addr) t.addr (t.addr + t.len) := by
  have hstart : z.addr = h.linkedListStart := by
    have hlast : Laid h (ds ++ us ++ z :: []) := by simpa using hl
    exact hlast.start_eq_iff.2 rfl
  have hlt : cur < h.heapEnd := by
    have hbounds : cur ≤ z.addr ∧ z.addr + 8 * (z.words + 5) ≤ e :=
      htiling.bounds (by simp : z ∈ us ++ [z])
    omega
  have htags : ∀ t ∈ us ++ [z], t.Tagged h.mem := fun t ht =>
    hl.tagged t (List.mem_append_right ds ht)
  rw [rebuildLoop, if_pos hlt, hskip]
  obtain ⟨rfl, hnone⟩ | ⟨vs, t, rs, rfl, hvs, hfree, rfl⟩ := skipUsed_spec htiling htags hz hskip
  · -- only the last block of the heap is left
    refine .inl ⟨hnone, hstart, ?_⟩
    show (if z.addr ≠ h.linkedListStart then _ else some (h, p.addr)) = some (h, p.addr)
    rw [if_neg (not_not.2 hstart)]
  · have hmiddle : Laid h (ds ++ vs ++ t :: (rs ++ [z])) := by simpa using hl
    have hne : t.addr ≠ h.linkedListStart := fun heq => by
      simpa using hmiddle.start_eq_iff.1 heq
    have hpass : Laid (h.passBlock current p.addr t.addr) (ds ++ (vs ++ t :: rs ++ [z])) :=
      hl.passBlock hp hpfree
    have hl' : Laid (h.passBlock current p.addr t.addr) (ds ++ vs ++ [t] ++ (rs ++ [z])) := by
      simpa using hpass
    have hword : (h.passBlock current p.addr t.addr).word t.addr 0 = t.words :=
      (hl'.tagged t (by simp)).size
    have hlen : t.addr + 8 * t.words + 8 * OVERHEAD = t.addr + t.len := by
      unfold OVERHEAD Tile.len
      omega
    refine .inr ⟨vs, t, rs, rfl, hvs, hfree, rfl, hne, hl', ?_, ?_⟩
    · rw [List.append_assoc] at htiling
      obtain ⟨c, -, hc⟩ := tiling_append.1 htiling
      exact hc.1 ▸ hc.2
    · show (if t.addr ≠ h.linkedListStart then
          rebuildLoop current fuel (h.passBlock current p.addr t.addr) t.addr
            (t.addr + 8 * (h.passBlock current p.addr t.addr).word t.addr 0 + 8 * OVERHEAD)
        else _) = _
      rw [if_pos hne, hword, hlen]

theorem rebuildLoop_spec {current fuel cur e last : Nat} {ds us : List Tile} {p z : Tile}
    (hl : Laid h (ds ++ (us ++ [z]))) (hz : z.used = false)
    (htiling : Tiling Tile.addr Tile.len cur (us ++ [z]) e) (he : e ≤ h.heapEnd)
    (hp : p ∈ ds ++ (us ++ [z])) (hpfree : p.used = false) (hfresh : p.addr ∉ freeAddrs us)
    (hrun : rebuildLoop current fuel h p.addr cur = some (h', last)) :
    ∃ nodes, Relinked h h' p.addr us nodes last current := by
  induction fuel generalizing h cur ds us p with
  | zero => cases hrun
  | succ fuel ih =>
      obtain ⟨a, hskip⟩ : ∃ a, h.skipUsed fuel cur = some a := by
        rw [rebuildLoop] at hrun
        split at hrun
        next =>
          obtain ⟨a, hskip, -⟩ := Option.bind_eq_some_iff.1 hrun
          exact ⟨a, hskip⟩
        next hge =>
          have hbounds : cur ≤ z.addr ∧ z.addr + 8 * (z.words + 5) ≤ e :=
            htiling.bounds (by simp : z ∈ us ++ [z])
          omega
      obtain ⟨hnone, -, hdone⟩ | ⟨vs, t, rs, rfl, hvs, hfree, -, -, hl', htail, hnext⟩ :=
        hl.rebuildLoop_pass hz htiling he hp hpfree hskip current
      · rw [hdone] at hrun
        cases hrun
        refine ⟨[], rfl, rfl, rfl, ?_, NullList.nil _ _, fun a _ => rfl, fun hmem => ?_,
          fun _ => ⟨rfl, rfl⟩⟩
        · rw [hnone]
          rfl
        · rw [hnone] at hmem
          cases hmem
      · rw [hnext] at hrun
        have hfrees : freeAddrs (vs ++ t :: rs) = t.addr :: freeAddrs rs := by
          rw [freeAddrs_append, hvs]
          simp [freeAddrs, hfree]
        have hnodup := hl.nodup_freeAddrs
        simp only [freeAddrs_append, hfrees] at hnodup
        have hfresh' : t.addr ∉ freeAddrs rs := fun hmem =>
          (List.nodup_cons.1 (List.nodup_append.1 hnodup).2.1).1 (List.mem_append_left _ hmem)
        have hend := (h.passBlock_places current p.addr t.addr).2.1
        obtain ⟨nodes, hnodes⟩ := ih hl' htail (hend ▸ he) (by simp) hfree hfresh' hrun
        exact ⟨_, hnodes.cons hfrees hfresh⟩

/-- The loop ends at the last block. -/
theorem rebuildLoop_returns {current fuel cur e : Nat} {ds us : List Tile} {p z : Tile}
    (hl : Laid h (ds ++ (us ++ [z]))) (hz : z.used = false)
    (htiling : Tiling Tile.addr Tile.len cur (us ++ [z]) e) (he : e ≤ h.heapEnd)
    (hp : p ∈ ds ++ (us ++ [z])) (hpfree : p.used = false) (hfuel : us.length + 1 < fuel) :
    ∃ h' last, rebuildLoop current fuel h p.addr cur = some (h', last) := by
  induction fuel generalizing h cur ds us p with
  | zero => cases hfuel
  | succ fuel ih =>
      have htags : ∀ t ∈ us ++ [z], t.Tagged h.mem := fun t ht =>
        hl.tagged t (List.mem_append_right ds ht)
      obtain ⟨a, hskip⟩ := skipUsed_returns htiling htags hz (show us.length < fuel by omega)
      obtain ⟨-, -, hdone⟩ | ⟨vs, t, rs, rfl, -, hfree, -, -, hl', htail, hnext⟩ :=
        hl.rebuildLoop_pass hz htiling he hp hpfree hskip current
      · exact ⟨_, _, hdone⟩
      · have hend := (h.passBlock_places current p.addr t.addr).2.1
        rw [hnext]
        refine ih hl' htail (hend ▸ he) (by simp) hfree ?_
        rw [List.length_append, List.length_cons] at hfuel
        omega

/-- The rovers that `rebuild_list` sets when `current` is the start of the list. -/
def startRovers (h : Heap) (current : Nat) : Heap :=
  if current = h.linkedListStart ∧ h.word h.linkedListStart 1 ≠ 0 then
    { h with searchPrevious := h.linkedListStart, searchCurrent := h.word h.linkedListStart 1 }
  else h

theorem startRovers_same (h : Heap) (current : Nat) :
    (h.startRovers current).mem = h.mem ∧ (h.startRovers current).heap = h.heap ∧
      (h.startRovers current).heapEnd = h.heapEnd ∧
      (h.startRovers current).linkedListStart = h.linkedListStart := by
  unfold startRovers
  split
  · exact ⟨rfl, rfl, rfl, rfl⟩
  · exact ⟨rfl, rfl, rfl, rfl⟩

/-- When there is more than one free block, the rovers are at two of them that follow each other. -/
theorem Relinked.startRovers {us : List Tile} {nodes : List Nat} {x last current : Nat}
    (hnodes : Relinked h h' h.linkedListStart us (x :: nodes) last current)
    (hpos : ∀ a ∈ freeAddrs us, 0 < a) (hcurrent : current ∈ h.linkedListStart :: freeAddrs us) :
    (h'.startRovers current).searchPrevious ∈ x :: nodes ∧
      h'.mem ((h'.startRovers current).searchPrevious + 8) =
        (h'.startRovers current).searchCurrent := by
  obtain ⟨rfl, hrest⟩ := List.cons_eq_cons.1 hnodes.nodes_eq
  have hnext : h'.mem (h.linkedListStart + 8) = nodes.headD last :=
    (NullList.cons.1 hnodes.links).1
  have hmem : nodes.headD last ∈ freeAddrs us := by
    rw [hrest]
    cases nodes with
    | nil => simp
    | cons y nodes => simp
  have hne : h'.mem (h.linkedListStart + 8) ≠ 0 := by
    rw [hnext]
    exact (hpos _ hmem).ne'
  unfold Heap.startRovers
  rw [hnodes.start]
  split
  next => exact ⟨List.mem_cons_self, rfl⟩
  next hcase =>
    refine hnodes.found ((List.mem_cons.1 hcurrent).resolve_left fun heq => hcase ⟨heq, ?_⟩)
    exact hne

/-- What `rebuild_list` makes of the heap `h`. It leaves the search at a free block, unless there is
only one: then it follows the link that this block had, if that was not null. -/
structure Rebuilt (h h' : Heap) (tiles : List Tile) (current : Nat) : Prop where
  laid : Laid h' tiles
  keeps : Keeps tiles h h'
  linked : current ∈ freeAddrs tiles → Linked h' tiles
  previous : current ∈ freeAddrs tiles →
    h'.searchPrevious = h.searchPrevious ∨ h'.searchPrevious ∈ freeAddrs tiles
  found : current ∈ freeAddrs tiles → h'.searchCurrent ∈ freeAddrs tiles ∨
    freeAddrs tiles = [current] ∧ h'.searchCurrent =
      if h.mem (current + 8) = 0 then h.searchCurrent else h.mem (current + 8)

/-- After the loop the link of the last node is set to null: the nodes are the list of the free
blocks. -/
theorem Relinked.close {h₁ : Heap} {us : List Tile} {z : Tile} {nodes : List Nat}
    {last current : Nat} (hl : Laid h (us ++ [z])) (hz : z.used = false)
    (hstart : z.addr = h.linkedListStart)
    (hnodes : Relinked h h₁ h.linkedListStart us nodes last current)
    (hh' : h' = (h₁.startRovers current).setWord last 1 0) :
    Keeps (us ++ [z]) h h' ∧ Listed h' (us ++ [z]) (nodes ++ [last]) ∧
      ∀ x ∈ nodes, h'.mem (x + 8) = h₁.mem (x + 8) := by
  obtain ⟨hmem, hheap, hend, hlist⟩ := h₁.startRovers_same current
  have hchain := hnodes.nodes_eq
  have hzfree : freeAddrs (us ++ [z]) = freeAddrs us ++ [h.linkedListStart] := by
    rw [freeAddrs_append, freeAddrs_free hz, hstart]
  have hperm : (nodes ++ [last]).Perm (freeAddrs (us ++ [z])) := by
    rw [← hchain, hzfree]
    exact (List.perm_append_singleton _ _).symm
  have hother : ∀ x ∈ nodes, x ≠ last := fun x hx heq => by
    have hnodup := hperm.nodup_iff.2 hl.nodup_freeAddrs
    exact (List.nodup_append.1 hnodup).2.2 x hx last (List.mem_singleton.2 rfl) heq
  have hmem' : ∀ a, h'.mem a = if a = last + 8 then 0 else h₁.mem a := fun a => by
    rw [hh', mem_setWord, hmem]
  have hlink : ∀ x ∈ nodes, h'.mem (x + 8) = h₁.mem (x + 8) := fun x hx => by
    rw [hmem', if_neg fun heq => hother x hx (Nat.add_right_cancel heq)]
  refine ⟨⟨hh' ▸ hheap.trans hnodes.heap, hh' ▸ hend.trans hnodes.heapEnd, ?_⟩,
    ⟨NullList.split.2 ⟨hnodes.links.congr hlink, NullList.cons.2 ⟨?_, NullList.nil _ _⟩⟩, ?_,
      hperm⟩, hlink⟩
  · intro t ht a howns
    have hne : ∀ x ∈ nodes ++ [last], a ≠ x + 8 := by
      rintro x hx rfl
      obtain ⟨s, hs, hfree, rfl⟩ := mem_freeAddrs.1 (hperm.mem_iff.1 hx)
      exact hl.not_owns_link ht hs hfree howns
    rw [hmem', if_neg (hne last (by simp))]
    exact hnodes.others a fun x hx => hne x (List.mem_append_left _ hx)
  · rw [hmem', if_pos rfl]
    rfl
  · rw [← hchain]
    exact congrArg some (hh' ▸ (hlist.trans hnodes.start).symm)

/-- `rebuild_list` orders the free blocks, whatever their links and the rovers are. -/
theorem Laid.rebuildList {fuel current : Nat} (hl : Laid h tiles)
    (hrun : rebuildList fuel h current = some h') : Rebuilt h h' tiles current := by
  obtain ⟨us, z, rfl, hz, hstart⟩ := hl.last
  obtain ⟨e, htiling, he⟩ := hl.tiling
  obtain ⟨⟨h₁, last⟩, hloop, hrest⟩ := Option.bind_eq_some_iff.1 hrun
  change some ((h₁.startRovers current).setWord last 1 0) = some h' at hrest
  cases hrest
  obtain ⟨-, -, -, hlist⟩ := h₁.startRovers_same current
  -- the loop starts at the first block, and the last block is the first node
  have hzfree : freeAddrs (us ++ [z]) = freeAddrs us ++ [h.linkedListStart] := by
    rw [freeAddrs_append, freeAddrs_free hz, hstart]
  have hfresh : h.linkedListStart ∉ freeAddrs us := by
    have hall := hl.nodup_freeAddrs
    rw [hzfree] at hall
    exact (List.nodup_cons.1 ((List.perm_append_singleton _ _).nodup_iff.1 hall)).1
  have hall : Laid h ([] ++ (us ++ [z])) := hl
  rw [← hstart] at hloop
  obtain ⟨nodes, hnodes⟩ := rebuildLoop_spec hall hz htiling he (by simp) hz (hstart ▸ hfresh) hloop
  rw [hstart] at hnodes
  have hchain := hnodes.nodes_eq
  obtain ⟨hkeep, hlisted, hlink⟩ := hnodes.close hl hz hstart rfl
  have hperm := hlisted.perm
  have hpos : ∀ a ∈ freeAddrs us, 0 < a := by
    intro a ha
    obtain ⟨s, hs, -, rfl⟩ := mem_freeAddrs.1 ha
    exact hl.heap_pos.trans_le (hl.bounds (List.mem_append_left _ hs)).1
  have hcurrent' : current ∈ freeAddrs (us ++ [z]) →
      current ∈ h.linkedListStart :: freeAddrs us := fun hcurrent => by
    rw [hzfree] at hcurrent
    exact (List.perm_append_singleton _ _).mem_iff.1 hcurrent
  refine ⟨hl.congr (hlist.trans hnodes.start) hkeep, hkeep, fun hcurrent =>
    ⟨nodes ++ [last], hlisted, ?_⟩, fun hcurrent => ?_, fun hcurrent => ?_⟩
  · have hstart' : (h₁.startRovers current).linkedListStart = h.linkedListStart :=
      hlist.trans hnodes.start
    cases nodes with
    | nil =>
        refine .inr ?_
        rw [← hchain, (List.cons_eq_cons.1 hchain).2]
        exact congrArg (fun x => [x]) hstart'.symm
    | cons x nodes =>
        obtain ⟨hprevious, hnext⟩ := hnodes.startRovers hpos (hcurrent' hcurrent)
        exact .inl ⟨List.mem_append_left _ hprevious, .inl ((hlink _ hprevious).trans hnext)⟩
  · show (h₁.startRovers current).searchPrevious = _ ∨ (h₁.startRovers current).searchPrevious ∈ _
    cases nodes with
    | nil =>
        obtain ⟨-, hnone⟩ := List.cons_eq_cons.1 hchain
        have hrovers := hnodes.rovers (by
          have hcur := hcurrent' hcurrent
          rw [hnone] at hcur ⊢
          exact List.not_mem_nil)
        rw [Heap.startRovers]
        split
        next => exact .inr (mem_freeAddrs.2 ⟨z, by simp, hz, hstart.trans hnodes.start.symm⟩)
        next => exact .inl hrovers.1
    | cons x nodes =>
        exact .inr (hperm.mem_iff.1 (List.mem_append_left _
          (hnodes.startRovers hpos (hcurrent' hcurrent)).1))
  · cases nodes with
    | nil =>
        -- no other block was linked, and the link of the only one is the one it had
        obtain ⟨rfl, hnone⟩ := List.cons_eq_cons.1 hchain
        have hcur := hcurrent' hcurrent
        rw [hnone] at hcur
        obtain rfl := List.mem_singleton.1 hcur
        refine .inr ⟨by rw [hzfree, hnone]; rfl, ?_⟩
        have hword : h₁.word h₁.linkedListStart 1 = h.mem (h.linkedListStart + 8) := by
          rw [hnodes.start]
          exact hnodes.others _ fun x hx => absurd hx List.not_mem_nil
        have hrovers := hnodes.rovers (by rw [hnone]; exact List.not_mem_nil)
        show (h₁.startRovers h.linkedListStart).searchCurrent = _
        rw [Heap.startRovers, hword, hnodes.start]
        by_cases hnull : h.mem (h.linkedListStart + 8) = 0
        · rw [if_neg fun hboth => hboth.2 hnull, if_pos hnull, hrovers.2]
        · rw [if_pos ⟨rfl, hnull⟩, if_neg hnull]
    | cons x nodes =>
        obtain ⟨hprevious, hnext⟩ := hnodes.startRovers hpos (hcurrent' hcurrent)
        refine .inl (hperm.mem_iff.1 ?_)
        show (h₁.startRovers current).searchCurrent ∈ x :: nodes ++ [last]
        rw [← hnext]
        obtain heq | hmem := hnodes.links.next_mem hprevious
        · exact heq ▸ List.mem_append_right _ (List.mem_singleton.2 rfl)
        · exact List.mem_append_left _ hmem

/-- `rebuild_list` returns when it may pass all blocks. -/
theorem Laid.rebuildList_returns {fuel : Nat} (hl : Laid h tiles) (hfuel : tiles.length < fuel)
    (current : Nat) : ∃ h', Heap.rebuildList fuel h current = some h' := by
  obtain ⟨us, z, rfl, hz, hstart⟩ := hl.last
  obtain ⟨e, htiling, he⟩ := hl.tiling
  have hall : Laid h ([] ++ (us ++ [z])) := hl
  have hlength : us.length + 1 < fuel := by simpa using hfuel
  obtain ⟨h₁, last, hloop⟩ :
      ∃ h₁ last, rebuildLoop current fuel h z.addr h.heap = some (h₁, last) :=
    rebuildLoop_returns hall hz htiling he (by simp) hz hlength
  rw [hstart] at hloop
  rw [Heap.rebuildList, hloop]
  exact ⟨_, rfl⟩

/-! ## Merging a block with its neighbours -/

/-- No two blocks that follow each other are free. -/
def NoneAdjacent (tiles : List Tile) : Prop :=
  tiles.IsChain fun s t => s.used = true ∨ t.used = true

/-- The free block `t` among the blocks `m` became `t₁` among `m'`: it took in the one at `p`, if
any. -/
structure Joined (h h' : Heap) (m m' : List Tile) (t t₁ : Tile) (p : Option Nat) : Prop where
  used : usedTiles m' = usedTiles m
  fill : ∀ c d, Tiling Tile.addr Tile.len c m d → Tiling Tile.addr Tile.len c m' d
  same : p = none → m' = m
  free : t₁.used = false
  current : h.searchCurrent = t.addr → h'.searchCurrent = t₁.addr
  link : h'.mem (t₁.addr + 8) = h.mem (t₁.addr + 8)

theorem Joined.refl (h : Heap) (m : List Tile) (p : Option Nat) (ht : t.used = false) :
    Joined h h m m t t p :=
  ⟨rfl, fun _ _ hfill => hfill, fun _ => rfl, ht, id, rfl⟩

theorem absorb_link (h : Heap) {s t : Nat} (hst : s < t) :
    (h.absorb s t).mem (s + 8) = h.mem (s + 8) := by
  rw [h.absorb_mem hst, if_neg (by omega), if_neg (by omega), if_neg (by omega)]

/-- The block is joined with the one in front of it if that is free. -/
theorem Laid.joinPrevious (hl : Laid h (l ++ [t] ++ r)) (ht : t.used = false) :
    ∃ l₁ t₁, t₁.addr = (h.previousFree t.addr).getD t.addr ∧
      Joined h ((h.previousFree t.addr).elim h fun p => h.absorb p t.addr) (l ++ [t]) (l₁ ++ [t₁])
        t t₁ (h.previousFree t.addr) ∧
      (∀ u, NoneAdjacent l → NoneAdjacent (l₁ ++ [u])) ∧
      (∀ s ∈ l, h.previousFree t.addr ≠ some s.addr → s ∈ l₁) ∧
      Laid ((h.previousFree t.addr).elim h fun p => h.absorb p t.addr) (l₁ ++ [t₁] ++ r) ∧
      Keeps (l₁ ++ r) h ((h.previousFree t.addr).elim h fun p => h.absorb p t.addr) := by
  rw [hl.previousFree_eq]
  obtain rfl | ⟨l, s, rfl⟩ := List.eq_nil_or_concat' l
  · exact ⟨[], t, rfl, .refl h _ _ ht, fun u _ => .singleton u, fun s hs _ => hs, hl, .refl _ _⟩
  · rw [List.getLast?_append_of_ne_nil _ (by simp)]
    cases hs : s.used with
    | true =>
        have hnone : (([s].getLast?).filter fun s => !s.used).map Tile.addr = none := by
          simp [Option.filter, hs]
        rw [hnone]
        refine ⟨l ++ [s], t, rfl, .refl h _ _ ht, fun u hchain => ?_, fun s hs _ => hs, hl,
          .refl _ _⟩
        rw [NoneAdjacent, List.append_assoc]
        exact List.isChain_split.2 ⟨hchain, List.isChain_pair.2 (.inl hs)⟩
    | false =>
        have hsome : (([s].getLast?).filter fun s => !s.used).map Tile.addr = some s.addr := by
          simp [Option.filter, hs]
        rw [hsome]
        have hpair : Laid h (l ++ [s, t] ++ r) := by simpa using hl
        have hfirst : Laid h (l ++ s :: t :: r) := by simpa using hl
        have hnext := hfirst.next_addr
        obtain ⟨hlaid, hkeep⟩ := hpair.absorb hs ht
        refine ⟨l, ⟨s.addr, s.words + t.words + 5, false⟩, rfl,
          ⟨?_, fun c d hfill => ?_, fun hnone => ?_, rfl, fun hcurrent => if_pos hcurrent.symm,
            h.absorb_link (by omega)⟩, fun u hchain => ?_, fun u hu hne => ?_, hlaid, hkeep⟩
        · rw [usedTiles_append, usedTiles_append, usedTiles_append, usedTiles_free hs,
            usedTiles_free ht, List.append_nil]
          rfl
        · rw [List.append_assoc] at hfill
          obtain ⟨e, hleft, hright⟩ := tiling_append.1 hfill
          exact tiling_append.2 ⟨e, hleft, absorb_fill hright⟩
        · cases hnone
        · -- the block in front of two free ones is in use
          obtain rfl | ⟨l, v, rfl⟩ := List.eq_nil_or_concat' l
          · exact .singleton _
          · have hsplit : NoneAdjacent (l ++ v :: [s]) := by simpa using hchain
            obtain ⟨hleft, hright⟩ := List.isChain_split.1 hsplit
            have hv : v.used = true := by
              simpa [hs] using List.isChain_pair.1 hright
            rw [NoneAdjacent, List.append_assoc]
            exact List.isChain_split.2 ⟨hleft, List.isChain_pair.2 (.inl hv)⟩
        · refine (List.mem_append.1 hu).resolve_right fun heq => hne ?_
          rw [List.mem_singleton.1 heq]

/-- The block is joined with the one behind it if that is free. -/
theorem Laid.joinNext {next : Option Nat} (hl : Laid h (l ++ [t] ++ r)) (ht : t.used = false)
    (hnext : next = (r.head?.filter fun s => !s.used).map Tile.addr) :
    ∃ t₁ r₁, t₁.addr = t.addr ∧ (∀ s ∈ r₁, s ∈ r) ∧ (∀ s ∈ r, next ≠ some s.addr → s ∈ r₁) ∧
      Joined h (next.elim h fun q => h.absorb t.addr q) (t :: r) (t₁ :: r₁) t t₁ next ∧
      (NoneAdjacent r → NoneAdjacent (t₁ :: r₁)) ∧
      Laid (next.elim h fun q => h.absorb t.addr q) (l ++ [t₁] ++ r₁) ∧
      Keeps (l ++ r₁) h (next.elim h fun q => h.absorb t.addr q) := by
  subst hnext
  cases r with
  | nil =>
      exact ⟨t, [], rfl, fun s hs => hs, fun s hs _ => hs, .refl h _ _ ht,
        fun _ => .singleton t, hl,
        .refl _ _⟩
  | cons s r =>
      cases hs : s.used with
      | true =>
          have hnone : (((s :: r).head?).filter fun s => !s.used).map Tile.addr = none := by
            simp [Option.filter, hs]
          rw [hnone]
          exact ⟨t, s :: r, rfl, fun s hs => hs, fun s hs _ => hs, .refl h _ _ ht,
            fun hchain => List.isChain_cons_cons.2 ⟨.inr hs, hchain⟩, hl, .refl _ _⟩
      | false =>
          have hsome : (((s :: r).head?).filter fun s => !s.used).map Tile.addr = some s.addr := by
            simp [Option.filter, hs]
          rw [hsome]
          have hpair : Laid h (l ++ [t, s] ++ r) := by simpa using hl
          have hfirst : Laid h (l ++ t :: s :: r) := by simpa using hl
          have haddr := hfirst.next_addr
          obtain ⟨hlaid, hkeep⟩ := hpair.absorb ht hs
          refine ⟨⟨t.addr, t.words + s.words + 5, false⟩, r, rfl,
            fun s hs => List.mem_cons_of_mem _ hs, fun u hu hne => ?_,
            ⟨?_, fun c d hfill => ?_, fun hnone => ?_, rfl, fun hcurrent => ?_,
              h.absorb_link (by omega)⟩, fun hchain => ?_, hlaid, hkeep⟩
          · refine (List.mem_cons.1 hu).resolve_left fun heq => hne ?_
            rw [heq]
          · rw [usedTiles_cons_free rfl, usedTiles_cons_free ht, usedTiles_cons_free hs]
          · have hpair : Tiling Tile.addr Tile.len c ([t, s] ++ r) d := hfill
            obtain ⟨e, hleft, hright⟩ := tiling_append.1 hpair
            exact tiling_append.2 ⟨e, absorb_fill hleft, hright⟩
          · cases hnone
          · show redirect s.addr t.addr h.searchCurrent = t.addr
            rw [redirect, if_neg (by omega), hcurrent]
          · -- the block behind two free ones is in use
            cases r with
            | nil => exact .singleton _
            | cons u r =>
                obtain ⟨hor, htail⟩ := List.isChain_cons_cons.1 hchain
                have hu : u.used = true := by simpa [hs] using hor
                exact List.isChain_cons_cons.2 ⟨.inr hu, htail⟩

/-- What `merge` makes of the heap `h` with the free block `t` between the blocks `l` and `r`. -/
structure Merged (h h' : Heap) (l r : List Tile) (t : Tile) (tiles : List Tile) : Prop where
  used : usedTiles tiles = usedTiles (l ++ r)
  fill : ∀ c d, Tiling Tile.addr Tile.len c (l ++ [t] ++ r) d →
    Tiling Tile.addr Tile.len c tiles d
  apart : NoneAdjacent l → NoneAdjacent r → NoneAdjacent tiles
  others : ∀ s ∈ l ++ r, h.previousFree t.addr ≠ some s.addr → h.nextFree t.addr ≠ some s.addr →
    s ∈ tiles
  laid : Laid h' tiles
  keeps : Keeps (usedTiles (l ++ r)) h h'

/-- The search is lost: the only free block is the one at `current`, and the search went on to where
its link led before. -/
def Lost (h h' : Heap) (tiles : List Tile) (current : Nat) : Prop :=
  freeAddrs tiles = [current] ∧ h.mem (current + 8) ≠ 0 ∧
    h'.searchCurrent = h.mem (current + 8)

/-- What `merge` does to a free block: nothing when both neighbours are in use, and otherwise it
leaves the free blocks in order, whatever their links and the rovers are. -/
theorem Laid.merge {fuel : Nat} (hl : Laid h (l ++ [t] ++ r)) (ht : t.used = false) (hr : r ≠ [])
    (hrun : merge fuel h t.addr = some h') :
    ∃ tiles, Merged h h' l r t tiles ∧
      ((h' = h ∧ tiles = l ++ [t] ++ r ∧ h.previousFree t.addr = none ∧
          h.nextFree t.addr = none) ∨
        Linked h' tiles ∧ (h.searchCurrent = t.addr → h'.searchCurrent ∈ freeAddrs tiles ∨
          Lost h h' tiles ((h.previousFree t.addr).getD t.addr))) := by
  obtain ⟨l₁, t₁, haddr₁, hjoin₁, hapart₁, hrest₁, hlaid₁, hkeep₁⟩ := hl.joinPrevious ht
  obtain ⟨t₂, r₂, haddr₂, hsub₂, hrest₂, hjoin₂, hapart₂, hlaid₂, hkeep₂⟩ :=
    hlaid₁.joinNext hjoin₁.free (hl.nextFree_eq hr)
  rw [Heap.merge] at hrun
  rw [haddr₁] at haddr₂ hjoin₂ hlaid₂ hkeep₂
  generalize hcur : (h.previousFree t.addr).getD t.addr = cur at *
  generalize hh₁ : ((h.previousFree t.addr).elim h fun p => h.absorb p t.addr) = h₁ at *
  generalize hh₂ : ((h.nextFree t.addr).elim h₁ fun q => h₁.absorb cur q) = h₂ at *
  have hused : usedTiles (l₁ ++ [t₂] ++ r₂) = usedTiles (l ++ r) := by
    have hleft := hjoin₁.used
    have hright := hjoin₂.used
    rw [usedTiles_append, usedTiles_append, usedTiles_free hjoin₁.free, usedTiles_free ht,
      List.append_nil, List.append_nil] at hleft
    rw [usedTiles_cons_free hjoin₂.free, usedTiles_cons_free hjoin₁.free] at hright
    rw [usedTiles_append, usedTiles_append, usedTiles_append, usedTiles_free hjoin₂.free,
      List.append_nil, hleft, hright]
  have hin : ∀ s ∈ usedTiles (l ++ r), s ∈ l₁ ++ r₂ := fun s hs => by
    rw [← hused, List.append_assoc, usedTiles_append, List.singleton_append,
      usedTiles_cons_free hjoin₂.free, ← usedTiles_append] at hs
    exact (mem_usedTiles.1 hs).1
  have hkept : Keeps (usedTiles (l ++ r)) h h₂ := by
    refine (hkeep₁.mono fun s hs => ?_).trans (hkeep₂.mono hin)
    exact List.mem_append.2 ((List.mem_append.1 (hin s hs)).imp_right (hsub₂ s))
  have hfill : ∀ c d, Tiling Tile.addr Tile.len c (l ++ [t] ++ r) d →
      Tiling Tile.addr Tile.len c (l₁ ++ [t₂] ++ r₂) d := by
    intro c d hall
    obtain ⟨e, hleft, hright⟩ := tiling_append.1 hall
    have hall₁ := tiling_append.2 ⟨e, hjoin₁.fill c e hleft, hright⟩
    rw [List.append_assoc] at hall₁ ⊢
    obtain ⟨e', hleft', hright'⟩ := tiling_append.1 hall₁
    exact tiling_append.2 ⟨e', hleft', hjoin₂.fill e' d hright'⟩
  have hapart : NoneAdjacent l → NoneAdjacent r → NoneAdjacent (l₁ ++ [t₂] ++ r₂) := by
    intro hleft hright
    rw [NoneAdjacent, List.append_assoc]
    exact List.isChain_split.2 ⟨hapart₁ t₂ hleft, hapart₂ hright⟩
  have hothers : ∀ s ∈ l ++ r, h.previousFree t.addr ≠ some s.addr →
      h.nextFree t.addr ≠ some s.addr → s ∈ l₁ ++ [t₂] ++ r₂ := by
    intro s hs hprevious hnext
    rw [List.append_assoc]
    exact List.mem_append.2 ((List.mem_append.1 hs).imp (fun hs => hrest₁ s hs hprevious) fun hs =>
      List.mem_append_right _ (hrest₂ s hs hnext))
  split at hrun
  next =>
    have hrebuilt := hlaid₂.rebuildList hrun
    have hcurrent : cur ∈ freeAddrs (l₁ ++ [t₂] ++ r₂) :=
      mem_freeAddrs.2 ⟨t₂, by simp, hjoin₂.free, haddr₂⟩
    have hkept' := hkept.trans (hrebuilt.keeps.mono fun s hs => ?_)
    · refine ⟨_, ⟨hused, hfill, hapart, hothers, hrebuilt.laid, hkept'⟩,
        .inr ⟨hrebuilt.linked hcurrent, fun hsearch => ?_⟩⟩
      have hlink : h₂.mem (cur + 8) = h.mem (cur + 8) := by
        rw [← haddr₂, hjoin₂.link, haddr₂, ← haddr₁, hjoin₁.link]
      have hsame : h₂.searchCurrent = cur := by
        rw [hjoin₂.current (hjoin₁.current hsearch), haddr₂]
      obtain hmem | ⟨hone, heq⟩ := hrebuilt.found hcurrent
      · exact .inl hmem
      · rw [hlink] at heq
        split at heq
        next =>
          rw [heq, hsame]
          exact .inl hcurrent
        next hne => exact .inr ⟨hone, hne, heq⟩
    · have hmem := hin s hs
      simp only [List.mem_append] at hmem ⊢
      tauto
  next hnone =>
    simp only [not_or, Option.not_isSome_iff_eq_none] at hnone
    have hsame₁ := hjoin₁.same hnone.1
    have hsame₂ := hjoin₂.same hnone.2
    have htiles : l₁ ++ [t₂] ++ r₂ = l ++ [t] ++ r := by
      rw [List.append_assoc, List.singleton_append, hsame₂, List.append_cons, hsame₁]
    rw [hnone.1] at hh₁
    rw [hnone.2] at hh₂
    cases hrun
    obtain rfl : h = h₁ := hh₁
    obtain rfl : h = h' := hh₂
    exact ⟨_, ⟨hused, hfill, hapart, hothers, hlaid₂, hkept⟩, .inl ⟨rfl, htiles, hnone⟩⟩

/-- `merge` returns when `rebuild_list` may pass all blocks. -/
theorem Laid.merge_returns (hl : Laid h (l ++ [t] ++ r)) (ht : t.used = false) (hr : r ≠ []) :
    ∃ n, ∀ fuel, n ≤ fuel → ∃ h', Heap.merge fuel h t.addr = some h' := by
  obtain ⟨l₁, t₁, haddr₁, hjoin₁, -, -, hlaid₁, -⟩ := hl.joinPrevious ht
  obtain ⟨t₂, r₂, -, -, -, -, -, hlaid₂, -⟩ := hlaid₁.joinNext hjoin₁.free (hl.nextFree_eq hr)
  rw [haddr₁] at hlaid₂
  refine ⟨(l₁ ++ [t₂] ++ r₂).length + 1, fun fuel hfuel => ?_⟩
  rw [Heap.merge]
  split
  next => exact hlaid₂.rebuildList_returns hfuel _
  next => exact ⟨_, rfl⟩

/-! ## Freeing a block -/

/-- The block that `rfree` puts the freed block behind. -/
def insertAt (h : Heap) : Nat :=
  if h.searchPrevious = 0 then h.linkedListStart else h.searchPrevious

/-- The link that `rfree` leaves in the freed block, which keeps its own one in an empty list. -/
def freedLink (h : Heap) (t : Tile) : Nat :=
  if h.searchPrevious = 0 then h.mem (t.addr + 8) else h.mem (h.searchPrevious + 8)

/-- `h'` is the heap before `rfree` calls `merge`. -/
structure IsFreed (h h' : Heap) (t : Tile) : Prop where
  heap : h'.heap = h.heap
  heapEnd : h'.heapEnd = h.heapEnd
  start : h'.linkedListStart = h.linkedListStart
  previous : h'.searchPrevious = h.insertAt
  current : h'.searchCurrent = t.addr
  mem : ∀ a, h'.mem a = if a = h.insertAt + 8 then t.addr else
    if a = t.addr + 8 then h.freedLink t else
    if a = t.addr + 16 ∨ a = t.addr + 8 * (t.words + 4) then 0 else h.mem a

/-- The flags of the freed block are cleared. -/
def clearFlags (h : Heap) (t : Tile) : Heap :=
  (h.setWord t.addr 2 0).setWord t.addr (t.words + 4) 0

theorem clearFlags_mem (h : Heap) (t : Tile) (a : Nat) :
    (h.clearFlags t).mem a =
      if a = t.addr + 16 ∨ a = t.addr + 8 * (t.words + 4) then 0 else h.mem a := by
  rw [clearFlags, mem_setWord, mem_setWord]
  split_ifs with hfooter hheader <;> first | rfl | omega

theorem rfree_eq (htags : t.Tagged h.mem)
    (hne : h.searchPrevious ≠ 0 → h.searchPrevious + 8 ≠ t.addr + 16 ∧
      h.searchPrevious + 8 ≠ t.addr + 8 * (t.words + 4)) :
    ∃ h₁, (∀ fuel, h.rfree fuel (t.addr + 24) = merge fuel h₁ t.addr) ∧ IsFreed h h₁ t := by
  have hread : (h.setWord t.addr 2 0).word t.addr 0 = t.words := by
    show (h.setWord t.addr 2 0).mem (t.addr + 8 * 0) = t.words
    rw [mem_setWord, if_neg (by omega)]
    exact htags.size
  have hblk : t.addr + 24 - 8 * 3 = t.addr := by omega
  refine ⟨(h.clearFlags t).insertBlk t.addr, fun fuel => ?_, ?_⟩
  · rw [Heap.rfree, hblk, hread]
    rfl
  by_cases hprevious : h.searchPrevious = 0
  · have hinsert : h.insertAt = h.linkedListStart := if_pos hprevious
    have hcond : ¬(h.clearFlags t).searchPrevious ≠ 0 := not_not.2 hprevious
    rw [insertBlk, if_neg hcond]
    refine ⟨rfl, rfl, rfl, hinsert.symm, rfl, fun a => ?_⟩
    show (Heap.setWord _ h.linkedListStart 1 t.addr).mem a = _
    rw [mem_setWord, hinsert]
    refine if_congr Iff.rfl rfl ?_
    show (h.clearFlags t).mem a = _
    split
    next heq => rw [heq, clearFlags_mem, if_neg (by omega), freedLink, if_pos hprevious]
    next => exact h.clearFlags_mem t a
  · have hinsert : h.insertAt = h.searchPrevious := if_neg hprevious
    have hcond : (h.clearFlags t).searchPrevious ≠ 0 := hprevious
    rw [insertBlk, if_pos hcond]
    refine ⟨rfl, rfl, rfl, hinsert.symm, rfl, fun a => ?_⟩
    have hlink : (h.clearFlags t).word h.searchPrevious 1 = h.freedLink t := by
      show (h.clearFlags t).mem (h.searchPrevious + 8 * 1) = _
      rw [clearFlags_mem, if_neg (by omega), freedLink, if_neg hprevious]
    show (Heap.setWord (Heap.setWord _ t.addr 1 _) h.searchPrevious 1 t.addr).mem a = _
    rw [mem_setWord, mem_setWord, hinsert]
    exact if_congr Iff.rfl rfl (if_congr Iff.rfl hlink (h.clearFlags_mem t a))

/-- The block after it was freed. -/
def freed (t : Tile) : Tile := ⟨t.addr, t.words, false⟩

theorem freed_owns : (freed t).Owns a ↔ t.addr ≤ a ∧ a < t.addr + 8 * (t.words + 5) ∧
    a ≠ t.addr + 8 ∧ (a < t.addr + 24 ∨ t.addr + 8 * (t.words + 3) ≤ a) := by
  simp [Tile.owns_iff, freed]

/-- A block in use is not the last one. -/
theorem Laid.used_not_last (hl : Laid h (l ++ [t] ++ r)) (hused : t.used = true) : r ≠ [] := by
  intro hr
  obtain ⟨init, z, heq, hz, haddr⟩ := hl.last
  have hmiddle : Laid h (l ++ t :: r) := by simpa using hl
  have hzmem : z ∈ l ++ [t] ++ r := by simp [heq]
  have hzt : z = t := hl.eq_of_addr hzmem (by simp) (haddr.trans (hmiddle.start_eq_iff.2 hr).symm)
  rw [hzt, hused] at hz
  cases hz

/-- The freed block is a free one, and the others stay as they are. -/
theorem IsFreed.laid (hfreed : IsFreed h h' t) (hl : Laid h (l ++ [t] ++ r))
    (hused : t.used = true) (hsafe : ∀ s ∈ l ++ [freed t] ++ r, ¬s.Owns (h.insertAt + 8)) :
    Laid h' (l ++ [freed t] ++ r) ∧ Keeps (l ++ r) h h' := by
  have htags := hl.tagged t (by simp)
  have hkeep : Keeps (l ++ r) h h' := by
    refine ⟨hfreed.heap, hfreed.heapEnd, ?_⟩
    intro s hs a howns
    have hrange := Tile.owns_iff.1 howns
    have hmiddle : Laid h (l ++ t :: r) := by simpa using hl
    have hside := hmiddle.beside hs
    have hs' : s ∈ l ++ [freed t] ++ r := by
      simp only [List.mem_append] at hs ⊢
      tauto
    have hne : a ≠ h.insertAt + 8 := fun heq => hsafe s hs' (heq ▸ howns)
    rw [hfreed.mem, if_neg hne, if_neg (by omega), if_neg (by omega)]
  have hmem : ∀ a, (freed t).Owns a → h'.mem a =
      if a = t.addr + 16 ∨ a = t.addr + 8 * (t.words + 4) then 0 else h.mem a := by
    intro a howns
    have hne : a ≠ h.insertAt + 8 := fun heq => hsafe (freed t) (by simp) (heq ▸ howns)
    rw [hfreed.mem, if_neg hne, if_neg (freed_owns.1 howns).2.2.1]
  refine ⟨hl.edit (fun c d hfill => hfill) ?_ hkeep
    (fun _ => hfreed.start) (fun hr => absurd hr (hl.used_not_last hused)), hkeep⟩
  intro s hs
  obtain rfl := List.mem_singleton.1 hs
  constructor
  · show h'.mem t.addr = t.words
    rw [hmem _ (freed_owns.2 (by omega)), if_neg (by omega), htags.size]
  · show h'.mem (t.addr + 16) = 0
    rw [hmem _ (freed_owns.2 (by omega)), if_pos (.inl rfl)]
  · show h'.mem (t.addr + 8 * (t.words + 3)) = t.words
    rw [hmem _ (freed_owns.2 (by omega)), if_neg (by omega), htags.footerSize]
  · show h'.mem (t.addr + 8 * (t.words + 4)) = 0
    rw [hmem _ (freed_owns.2 (by omega)), if_pos (.inr rfl)]

/-- A free block does not touch a block in use. -/
theorem Laid.free_beside (hl : Laid h (l ++ [t] ++ r)) (hused : t.used = true)
    (ha : a ∈ freeAddrs (l ++ [t] ++ r)) :
    a + 40 ≤ t.addr ∨ t.addr + 8 * (t.words + 5) ≤ a := by
  obtain ⟨u, hu, hfree, rfl⟩ := mem_freeAddrs.1 ha
  obtain rfl | hapart | hapart := hl.apart hu (by simp : t ∈ l ++ [t] ++ r)
  · rw [hused] at hfree
    cases hfree
  · exact .inl (by omega)
  · exact .inr hapart

/-- The link of a free block is a safe place to write. -/
theorem Laid.insert_safe (hl : Laid h (l ++ [t] ++ r)) (hused : t.used = true)
    (ha : a ∈ freeAddrs (l ++ [t] ++ r)) : ∀ s ∈ l ++ [freed t] ++ r, ¬s.Owns (a + 8) := by
  intro s hs howns
  obtain ⟨u, hu, hfree, rfl⟩ := mem_freeAddrs.1 ha
  simp only [List.mem_append, List.mem_singleton] at hs
  obtain (hs | rfl) | hs := hs
  · exact hl.not_owns_link (by simp [hs]) hu hfree howns
  · have hside := hl.free_beside hused ha
    have hrange := freed_owns.1 howns
    omega
  · exact hl.not_owns_link (by simp [hs]) hu hfree howns

/-- The freed block is put behind a node of the list. -/
theorem IsFreed.linked (hfreed : IsFreed h h' t) (hl : Laid h (l ++ [t] ++ r))
    (hused : t.used = true) (hlist : Listed h (l ++ [t] ++ r) chain) (hmem : h.insertAt ∈ chain)
    (hown : h.freedLink t = h.mem (h.insertAt + 8)) : Linked h' (l ++ [freed t] ++ r) := by
  have hnodup := hlist.nodup hl
  have hside := hl.free_beside hused (hlist.perm.mem_iff.1 hmem)
  obtain ⟨c₁, c₂, hchain⟩ := List.append_of_mem hmem
  have hlink : h'.mem (h.insertAt + 8) = t.addr := by rw [hfreed.mem, if_pos rfl]
  have hnext : h'.mem (t.addr + 8) = h.mem (h.insertAt + 8) := by
    rw [hfreed.mem, if_neg (by omega), if_pos rfl, hown]
  have hothers : ∀ x ∈ c₁ ++ c₂, h'.mem (x + 8) = h.mem (x + 8) := by
    intro x hx
    have hx' : x ∈ chain := by
      simp only [hchain, List.mem_append, List.mem_cons] at hx ⊢
      tauto
    have hne : x ≠ h.insertAt := by
      rintro rfl
      rw [hchain] at hnodup
      exact (List.nodup_cons.1 (List.nodup_middle.1 hnodup)).1 hx
    have hxside := hl.free_beside hused (hlist.perm.mem_iff.1 hx')
    rw [hfreed.mem, if_neg (by omega), if_neg (by omega), if_neg (by omega)]
  refine ⟨c₁ ++ h.insertAt :: t.addr :: c₂, ⟨?_, ?_, ?_⟩, .inl ⟨?_, .inl ?_⟩⟩
  · exact (hchain ▸ hlist.links).insert hnext hlink hothers
  · rw [hfreed.start, ← hlist.head, hchain]
    cases c₁ with
    | nil => rfl
    | cons x c₁ => rfl
  · have hperm : (c₁ ++ h.insertAt :: t.addr :: c₂).Perm (t.addr :: chain) := by
      rw [hchain, List.append_cons]
      exact List.perm_middle.trans (by rw [← List.append_cons])
    refine hperm.trans ((hlist.perm.cons t.addr).trans ?_)
    rw [freeAddrs_append, freeAddrs_append, freeAddrs_append, freeAddrs_append,
      freeAddrs_used hused, List.append_nil, List.append_assoc]
    exact List.perm_middle.symm
  · rw [hfreed.previous]
    simp
  · rw [hfreed.previous, hfreed.current, hlink]

/-- The place that `rfree` writes its list pointer to does no harm: it is the link of a free block,
or data of a free block when the list is rebuilt afterwards. -/
def InsertSafe (h : Heap) (l r : List Tile) (t : Tile) : Prop :=
  h.searchPrevious = 0 ∨ h.searchPrevious ∈ freeAddrs (l ++ [t] ++ r) ∨
    (∃ s ∈ l ++ [freed t] ++ r, s.used = false ∧ s.addr + 24 ≤ h.searchPrevious + 8 ∧
      h.searchPrevious + 8 < s.addr + 8 * (s.words + 3)) ∧
    ((h.previousFree t.addr).isSome ∨ (h.nextFree t.addr).isSome)

/-- The search starts at no block only when one block is free. -/
theorem Listed.alone (hlist : Listed h tiles chain) (hrovers : Rovers h chain)
    (hprevious : h.searchPrevious ∉ chain) :
    chain = [h.linkedListStart] ∧ h.mem (h.linkedListStart + 8) = 0 := by
  have halone := hrovers.resolve_left fun hmem => hprevious hmem.1
  refine ⟨halone, ?_⟩
  have hlinks := hlist.links
  rw [halone] at hlinks
  exact (NullList.cons.1 hlinks).1

/-- The place is no word that a block owns, and if it is no link then there is a free neighbour. -/
theorem InsertSafe.place (hsafe : InsertSafe h l r t) (hl : Laid h (l ++ [t] ++ r))
    (hused : t.used = true) :
    (∀ s ∈ l ++ [freed t] ++ r, ¬s.Owns (h.insertAt + 8)) ∧
      (h.insertAt ∈ freeAddrs (l ++ [t] ++ r) ∨ (h.previousFree t.addr).isSome ∨
        (h.nextFree t.addr).isSome) := by
  have hfree : h.insertAt ∈ freeAddrs (l ++ [t] ++ r) →
      (∀ s ∈ l ++ [freed t] ++ r, ¬s.Owns (h.insertAt + 8)) ∧
        (h.insertAt ∈ freeAddrs (l ++ [t] ++ r) ∨ (h.previousFree t.addr).isSome ∨
          (h.nextFree t.addr).isSome) := fun hmem =>
    ⟨hl.insert_safe hused hmem, .inl hmem⟩
  by_cases hzero : h.searchPrevious = 0
  · have hinsert : h.insertAt = h.linkedListStart := if_pos hzero
    obtain ⟨init, z, heq, hz, hstart⟩ := hl.last
    exact hfree (hinsert ▸ mem_freeAddrs.2 ⟨z, by simp [heq], hz, hstart⟩)
  · have hinsert : h.insertAt = h.searchPrevious := if_neg hzero
    obtain hzero' | hmem | ⟨⟨s, hs, hfree', hlow, hhigh⟩, hneighbour⟩ := hsafe
    · exact absurd hzero' hzero
    · exact hfree (hinsert ▸ hmem)
    · refine ⟨fun u hu howns => ?_, .inr hneighbour⟩
      rw [hinsert] at howns
      obtain ⟨e, htiling, -⟩ := hl.tiling
      have htiling' : Tiling Tile.addr Tile.len h.heap (l ++ [freed t] ++ r) e :=
        htiling.replace fun c d hfill => hfill
      obtain ⟨hle, hlt, howns⟩ := Tile.owns_iff.1 howns
      obtain rfl | hapart | hapart := htiling'.apart hu hs
      · obtain hused' | hother := howns
        · rw [hfree'] at hused'
          cases hused'
        · omega
      · have hlen : u.len = 8 * (u.words + 5) := rfl
        omega
      · have hlen : s.len = 8 * (s.words + 5) := rfl
        omega

/-- The write through `search_previous` misses the flags of the freed block. -/
theorem insert_ne (hwrite : ∀ s ∈ l ++ [freed t] ++ r, ¬s.Owns (h.insertAt + 8))
    (hne : h.searchPrevious ≠ 0) : h.searchPrevious + 8 ≠ t.addr + 16 ∧
      h.searchPrevious + 8 ≠ t.addr + 8 * (t.words + 4) := by
  have hinsert : h.insertAt = h.searchPrevious := if_neg hne
  have hnot : ¬(freed t).Owns (h.searchPrevious + 8) := hinsert ▸ hwrite (freed t) (by simp)
  rw [freed_owns] at hnot
  omega

/-- The heap before `merge` is called. -/
theorem Laid.insertFreed (hl : Laid h (l ++ [t] ++ r)) (hused : t.used = true)
    (hsafe : InsertSafe h l r t) :
    ∃ h₁, (∀ fuel, h.rfree fuel (t.addr + 24) = Heap.merge fuel h₁ t.addr) ∧ IsFreed h h₁ t ∧
      Laid h₁ (l ++ [freed t] ++ r) ∧ Keeps (l ++ r) h h₁ := by
  obtain ⟨hwrite, -⟩ := hsafe.place hl hused
  obtain ⟨h₁, heq, hfreed⟩ := rfree_eq (hl.tagged t (by simp)) (insert_ne hwrite)
  exact ⟨h₁, heq, hfreed, hfreed.laid hl hused hwrite⟩

/-- `rfree` of a block in use returns. -/
theorem Laid.rfree_returns (hl : Laid h (l ++ [t] ++ r)) (hused : t.used = true)
    (hsafe : InsertSafe h l r t) :
    ∃ n, ∀ fuel, n ≤ fuel → ∃ h', h.rfree fuel (t.addr + 24) = some h' := by
  obtain ⟨h₁, heq, -, hlaid, -⟩ := hl.insertFreed hused hsafe
  obtain ⟨n, hreturns⟩ := hlaid.merge_returns rfl (hl.used_not_last hused)
  refine ⟨n, fun fuel hfuel => ?_⟩
  rw [heq]
  exact hreturns fuel hfuel

/-- What `rfree` does to a block in use: `h₁` is the heap before `merge` is called. -/
theorem Laid.rfree {fuel : Nat} (hl : Laid h (l ++ [t] ++ r)) (hused : t.used = true)
    (hsafe : InsertSafe h l r t) (hrun : h.rfree fuel (t.addr + 24) = some h') :
    ∃ tiles h₁, Merged h h' l r t tiles ∧ IsFreed h h₁ t ∧
      ((h' = h₁ ∧ tiles = l ++ [freed t] ++ r ∧ h.insertAt ∈ freeAddrs (l ++ [t] ++ r)) ∨
        Linked h' tiles ∧ (h'.searchCurrent ∈ freeAddrs tiles ∨
          Lost h₁ h' tiles ((h.previousFree t.addr).getD t.addr))) := by
  obtain ⟨h₁, heq, hfreed, hlaid, hkeep⟩ := hl.insertFreed hused hsafe
  have hr := hl.used_not_last hused
  rw [heq] at hrun
  obtain ⟨tiles, hmerged, hcase⟩ := hlaid.merge rfl hr hrun
  have hprevious : h₁.previousFree t.addr = h.previousFree t.addr :=
    hlaid.previousFree_eq.trans hl.previousFree_eq.symm
  have hnext : h₁.nextFree t.addr = h.nextFree t.addr :=
    (hlaid.nextFree_eq hr).trans (hl.nextFree_eq hr).symm
  have hkeep' : Keeps (usedTiles (l ++ r)) h h₁ := hkeep.mono fun s hs => (mem_usedTiles.1 hs).1
  have hplace : (freed t).addr = t.addr := rfl
  rw [hplace, hprevious, hnext] at hcase
  refine ⟨tiles, h₁, ⟨hmerged.used, fun c d hfill => hmerged.fill c d ?_, hmerged.apart, ?_,
    hmerged.laid, hkeep'.trans hmerged.keeps⟩, hfreed, ?_⟩
  · exact hfill.replace fun a b hone => hone
  · have hothers := hmerged.others
    rw [hplace, hprevious, hnext] at hothers
    exact hothers
  · obtain ⟨rfl, htiles, hnone⟩ | ⟨hlinked, hsearch⟩ := hcase
    · have hinsert := (hsafe.place hl hused).2
      rw [hnone.1, hnone.2] at hinsert
      exact .inl ⟨rfl, htiles, hinsert.resolve_right (by simp)⟩
    · exact .inr ⟨hlinked, hsearch hfreed.current⟩

/-- In a heap whose free blocks are linked `rfree` leaves them linked. -/
theorem Ordered.rfree {fuel : Nat} (hordered : Ordered h (l ++ [t] ++ r)) (hused : t.used = true)
    (hsafe : InsertSafe h l r t) (hrun : h.rfree fuel (t.addr + 24) = some h') :
    ∃ tiles h₁, Merged h h' l r t tiles ∧ IsFreed h h₁ t ∧ Ordered h' tiles ∧
      (h'.searchCurrent ∈ freeAddrs tiles ∨
        Lost h₁ h' tiles ((h.previousFree t.addr).getD t.addr)) := by
  obtain ⟨hl, hunlinked, chain, hlist, hrovers⟩ := hordered
  obtain ⟨tiles, h₁, hmerged, hfreed, hcase⟩ := hl.rfree hused hsafe hrun
  have hunlinked' : Unlinked h' tiles := by
    have hothers : Unlinked h (l ++ r) := fun s hs => by
      refine hunlinked s ?_
      simp only [usedTiles_append, List.mem_append] at hs ⊢
      tauto
    exact hothers.congr hmerged.used hmerged.keeps
  obtain ⟨rfl, rfl, hmem⟩ | ⟨hlinked, hsearch⟩ := hcase
  · have hown : h.freedLink t = h.mem (h.insertAt + 8) := by
      rw [freedLink, insertAt]
      split
      next hzero =>
        -- without a rover the last block is the only free one
        have hnone : h.searchPrevious ∉ chain := fun hmem => by
          obtain ⟨u, hu, -, haddr⟩ := hlist.tile hmem
          have hpos := hl.heap_pos
          have hbounds := hl.bounds hu
          omega
        have htmem : t ∈ usedTiles (l ++ [t] ++ r) := mem_usedTiles.2 ⟨by simp, hused⟩
        rw [hunlinked t htmem, (hlist.alone hrovers hnone).2]
      next => rfl
    have hlinked := hfreed.linked hl hused hlist (hlist.perm.mem_iff.2 hmem) hown
    refine ⟨_, _, hmerged, hfreed, ⟨hmerged.laid, hunlinked', hlinked⟩, .inl ?_⟩
    rw [hfreed.current]
    exact mem_freeAddrs.2 ⟨freed t, by simp, rfl, rfl⟩
  · exact ⟨tiles, h₁, hmerged, hfreed, ⟨hmerged.laid, hunlinked', hlinked⟩, hsearch⟩

end Heap

end CrosKernel.Memory
