import CrosKernel.Lib.Run
import CrosKernel.Memory.NewSpace
import CrosKernel.Memory.NextPowerOf2

/-!
# Address spaces are isolated

What a process finds in its memory follows from what it did itself: `pages_replayed` says that over
any run of the machine, in any order of the steps of all processes and of the kernel, the pages of an
address space are those that its own operations lead to, starting from no pages. `protected_kept`
says that page frames that stand for nothing in any table are never written.
-/

namespace CrosKernel.Memory

open Lib PageTableEntry UserNode

/-- The number of the page frame with the top table. -/
def AddressSpace.top (a : AddressSpace) : Nat := a.getTableFrame / pageSize

namespace Spaces

open Mmu

/-! ## The invariant and the steps -/

/-- The trees of all address spaces that were created stand in memory. -/
def Isolated (K : Set Nat) (blocks : Set UserNode) (s : Spaces) : Prop :=
  ∃ place, Tables K blocks s.mmu place ∧ ∀ a ∈ s.created, a.topLevelTable < 2 ^ 43 ∧
    ∃ e, place (.space a.top, .top) = some e

/-- The pages of a region lie in the lower half, outside the windows. -/
def InUserPages (ptr size : Nat) : Prop :=
  size < 2 ^ 64 ∧ ∀ p ∈ offsets size, pageNumber ((ptr + p) % 2 ^ 64) < userPages

/-- A process maps and unmaps pages outside the windows, and the kernel writes there for it. What a
process writes itself needs no condition. -/
def OpAllowed : SpaceOp → Prop
  | .mmap ptr size _ _ => InUserPages ptr size
  | .munmap ptr size => InUserPages ptr size
  | .store _ _ => True
  | .copy va _ => pageNumber va < userPages

/-- A process is in its own address space, and there is memory for the heap of the kernel when it
grows, outside the windows and `blocks`. -/
def Allowed (blocks : Set UserNode) (s : Spaces) : SpaceEvent → Prop
  | .create => True
  | .enter _ => True
  | .grow heapEnd size => size < 2 ^ 64 ∧ ∀ adjSize, nextPowerOf2 size = some adjSize →
      s.mmu.pageAllocator.reserve (if size ≤ 4096 then 4096 else adjSize) ≠
        some (s.mmu.pageAllocator, NOMEM) ∧
      ∀ p ∈ offsets adjSize, Mappable blocks .kernel ((heapEnd + p) % 2 ^ 64)
  | .op t o => s.mmu.ttbr0 = t ∧ (∃ a ∈ s.created, a.top = t) ∧ OpAllowed o

/-- A step of the machine. -/
def Step (s : Spaces) (e : SpaceEvent) (s' : Spaces) : Prop := ∃ fuel, e.perform fuel s = some s'

/-- The page frame holds a top table, or may hold one later. -/
def Known (s : Spaces) (t : Nat) : Prop :=
  (∃ a ∈ s.created, a.top = t) ∨ t ∈ s.mmu.pageAllocator.freePages

variable {K : Set Nat} {blocks : Set UserNode} {s s' : Spaces} {m m' : Mmu} {e : SpaceEvent}
  {place place' : SpaceNode → Option PageTableEntry} {o : Owner} {d d' : PageTableEntry}
  {t p x fuel : Nat} {a : AddressSpace}

/-! ## Entering an address space -/

/-- The number of the address space is no part of the base of its tables. -/
theorem tableBase_or (frame id : Nat) (h : frame < 2 ^ 48) :
    tableBase ((frame ||| id <<< 48) % 2 ^ 64) = frame / 2 ^ 12 := by
  have hmod : (frame ||| id <<< 48) % 2 ^ 48 = frame := by
    rw [Nat.or_mod_two_pow, Nat.shiftLeft_eq, Nat.mul_mod_left, Nat.or_zero, Nat.mod_eq_of_lt h]
  rw [tableBase, Nat.mod_mod_of_dvd _ (Nat.pow_dvd_pow 2 (by decide)), hmod]

theorem loadAddressSpace_ttbr0 (m : Mmu) (h : a.topLevelTable < 2 ^ 43) :
    (m.loadAddressSpace a).ttbr0 = a.top :=
  tableBase_or _ _ (by rw [AddressSpace.getTableFrame]; omega)

/-- The trees do not depend on the current address space. -/
theorem tables_loadAddressSpace (h : Tables K blocks m place) (a : AddressSpace) :
    Tables K blocks (m.loadAddressSpace a) place :=
  ⟨h.placed, h.reached, h.self, h.kernel, h.space, h.blocked, h.apart, h.managed, h.free_apart,
    h.free_cleared⟩

/-! ## One operation -/

/-- Between the two states no table was taken away and no page frame of `K` was written. -/
structure Stays (K : Set Nat) (m : Mmu) (place : SpaceNode → Option PageTableEntry) (m' : Mmu)
    (place' : SpaceNode → Option PageTableEntry) : Prop where
  free_subset : m'.pageAllocator.freePages ⊆ m.pageAllocator.freePages
  tables : ∀ {n e}, ¬ n.2.IsPage → place n = some e → place' n = some e
  memory_eq : ∀ f ∈ K, m'.memory f = m.memory f

theorem stays_of_extends (h' : Tables K blocks m' place') (hext : Extends m place m' place') :
    Stays K m place m' place' where
  free_subset := hext.free_subset
  tables := hext.tables
  memory_eq := fun f hf => hext.memory_eq f fun _ _ _ hn heq => (h'.apart hn).1 (heq ▸ hf)

/-- An entry is written in a page of an address space. -/
theorem write_page_step (h : Tables K blocks m place) {va : Nat}
    (hpage : place (.space t, pageOf (pageNumber va)) = some d) :
    Tables K blocks (m.set d.outputAddress (va % pageSize / 8) d') place ∧
      Stays K m place (m.set d.outputAddress (va % pageSize / 8) d') place ∧
      Sees place m (m.set d.outputAddress (va % pageSize / 8) d') (.space t) fun pages =>
        Function.update pages (pageNumber va) ((pages (pageNumber va)).map (·.write va d')) := by
  have happart := h.apart hpage
  have hframe : ∀ f, f ≠ d.outputAddress →
      (m.set d.outputAddress (va % pageSize / 8) d').memory f = m.memory f :=
    fun f hf => Function.update_of_ne hf ..
  obtain ⟨h', hsame⟩ := h.with_page hpage hframe
  refine ⟨h', ⟨subset_rfl, fun _ hn => hn, fun f hf => hframe f ?_⟩, fun t' e htop => ?_⟩
  · rintro rfl
    exact happart.1 hf
  · split
    next heq =>
      cases heq
      ext1 q
      dsimp only
      by_cases hq : q = pageNumber va
      · subst hq
        have hafter := h'.pageAt_eq htop (pageNumber va)
        rw [hpage] at hafter
        rw [Function.update_self, h.pageAt_eq htop, hpage]
        refine hafter.trans ?_
        simp only [Option.map_some, pageOfEntry, Page.write, set_memory, true_and]
      · rw [Function.update_of_ne hq]
        exact hsame t e q htop fun hand => hq hand.2
    next hne => exact funext fun q => hsame t' e q htop fun hand => hne (congrArg _ hand.1)

/-- A store of the kernel below the windows goes to a page that is mapped. -/
theorem store_page (h : Tables K blocks m place) (hc : m.Current (.space t))
    (htop : place (.space t, .top) = some d) {va : Nat} (hva : pageNumber va < userPages)
    (hstore : store fuel m va d' = some m') :
    ∃ leaf, place (.space t, pageOf (pageNumber va)) = some leaf ∧
      m' = m.set leaf.outputAddress (va % pageSize / 8) d' := by
  cases fuel with
  | zero => cases hstore
  | succ fuel =>
      rw [store] at hstore
      cases hpage : place (.space t, pageOf (pageNumber va)) with
      | some leaf =>
          rw [h.write_page hc htop hpage] at hstore
          cases hro : leaf.apReadOnly with
          | true =>
              rw [hro] at hstore
              cases hstore
          | false =>
              rw [hro] at hstore
              exact ⟨leaf, rfl, (Option.some.inj hstore).symm⟩
      | none =>
          obtain ⟨abort, hwalk⟩ := h.walk_space_none hc htop hva hpage
          have hwrite : m.write va d' = .error abort := by
            rw [write, hwalk]
          rw [hwrite] at hstore
          cases abort with
          | other => cases hstore
          | translation level =>
              dsimp only at hstore
              rw [handlePageFault_user hva] at hstore
              cases hstore

/-- An operation changes the pages of its own address space, as it would those of a process that has
a memory of its own. -/
theorem op_step {op : SpaceOp} (h : Tables K blocks m place) (hc : m.Current (.space t))
    (htop : place (.space t, .top) = some d) (hallowed : OpAllowed op)
    (hperform : op.perform fuel m = some m') :
    ∃ place', Tables K blocks m' place' ∧ Stays K m place m' place' ∧
      Sees place m m' (.space t) fun pages => op.apply pages := by
  cases op with
  | mmap ptr size flags success =>
      obtain ⟨hsize, hpages⟩ := hallowed
      obtain ⟨⟨m₁, frame⟩, hcall, hperform⟩ := Option.bind_eq_some_iff.1 hperform
      dsimp only at hperform
      split at hperform
      next hsuccess =>
        cases hperform
        rw [syscallMmap] at hcall
        obtain hnone | ⟨al, index, hreserve, hne, hreserved, hlarge⟩ := h.managed.reserve hsize
        · rw [hnone] at hcall
          cases hcall
          cases success with
          | true => cases hsuccess
          | false => exact ⟨place, h, stays_of_extends h (.refl ..), Sees.refl _ _ _⟩
        · rw [hreserve] at hcall
          simp only [Option.bind_eq_bind, Option.bind_some, if_neg hne] at hcall
          obtain ⟨m₂, hmap, hpure⟩ := Option.bind_eq_some_iff.1 hcall
          cases hpure
          cases success with
          | false => cases hsuccess
          | true =>
              have hflags : newPage (flags ||| PAGE_USER) = newPage flags := by
                have hzero : PAGE_USER.testBit 0 = false := by decide
                have htwo : PAGE_USER.testBit 2 = false := by decide
                simp only [newPage, Nat.testBit_or, hzero, htwo, Bool.or_false]
              have huser : (flags ||| PAGE_USER).testBit 1 = true := by
                rw [Nat.testBit_or]
                exact Bool.or_true _
              obtain ⟨place', h', hext, hsees⟩ := h.mapRegion hc htop hreserved hlarge
                (fun p hp => mappable_space (hpages p hp))
                (fun p frame => ⟨rfl, huser⟩) hmap
              rw [hflags] at hsees
              exact ⟨place', h', stays_of_extends h' hext, hsees⟩
      next => cases hperform
  | munmap ptr size =>
      obtain ⟨hsize, hpages⟩ := hallowed
      obtain ⟨place', h', hext, hsees⟩ := h.unmapRegion hc htop
        (fun p hp => mappable_space (hpages p hp)) hperform
      exact ⟨place', h', stays_of_extends h' hext, hsees⟩
  | store va d' =>
      change m.userStore va d' = some m' at hperform
      rw [h.userStore_eq hc htop] at hperform
      cases hpage : place (.space t, pageOf (pageNumber va)) with
      | none =>
          rw [hpage] at hperform
          cases hperform
      | some leaf =>
          rw [hpage] at hperform
          dsimp only at hperform
          split at hperform
          next => cases hperform
          next =>
            cases hperform
            exact ⟨place, write_page_step h hpage⟩
  | copy va d' =>
      obtain ⟨leaf, hpage, rfl⟩ := store_page h hc htop hallowed hperform
      exact ⟨place, write_page_step h hpage⟩

/-- The size that the heap grows by has room in what is reserved for it. -/
theorem adjSize_le {size adjSize : Nat} (hsize : size < 2 ^ 64)
    (hadj : nextPowerOf2 size = some adjSize) :
    adjSize < 2 ^ 64 ∧ adjSize ≤ if size ≤ 4096 then 4096 else adjSize := by
  by_cases hzero : size = 0
  · subst hzero
    cases hadj
    decide
  · by_cases hpower : size.isPowerOfTwo
    · rw [nextPowerOf2_of_isPowerOfTwo hpower] at hadj
      cases hadj
      refine ⟨hsize, ?_⟩
      split <;> omega
    · have hlt : adjSize < 2 ^ 64 := by
        rw [nextPowerOf2_of_not_isPowerOfTwo hpower hsize hzero, shiftOne] at hadj
        split at hadj
        next hcount =>
          cases hadj
          exact Nat.pow_lt_pow_right (by decide) (by omega)
        next =>
          split at hadj <;> cases hadj
          decide
      refine ⟨hlt, ?_⟩
      split
      next hle =>
        -- 4096 is one of the powers of two that are not below the size
        obtain ⟨least, hleast, hbound⟩ := (nextPowerOf2_iff (Nat.pos_of_ne_zero hzero)
          (by omega)).2 (.inr (by omega))
        rw [hadj] at hleast
        cases hleast
        exact hbound.2 ⟨⟨12, rfl⟩, hle⟩
      next => exact le_rfl

/-- The heap of the kernel grows, and no process sees it. -/
theorem grow_step {heapEnd size adjSize : Nat} (h : Tables K blocks m place)
    (hsize : size < 2 ^ 64) (hadj : nextPowerOf2 size = some adjSize)
    (hmemory : m.pageAllocator.reserve (if size ≤ 4096 then 4096 else adjSize) ≠
      some (m.pageAllocator, NOMEM))
    (hpages : ∀ p ∈ offsets adjSize, Mappable blocks .kernel ((heapEnd + p) % 2 ^ 64))
    (hgrow : MappedHeap.mapFrames fuel m heapEnd size = some (x, m')) :
    ∃ place', Tables K blocks m' place' ∧ Stays K m place m' place' ∧
      ∀ t e, place (.space t, .top) = some e → pageAt m'.memory t = pageAt m.memory t := by
  obtain ⟨hlt, hroom⟩ := adjSize_le hsize hadj
  rw [MappedHeap.mapFrames, hadj] at hgrow
  simp only [Option.bind_eq_bind, Option.bind_some] at hgrow
  have hbytes : (if size ≤ 4096 then 4096 else adjSize) < 2 ^ 64 := by split <;> omega
  obtain hnone | ⟨al, index, hreserve, -, hreserved, hlarge⟩ := h.managed.reserve hbytes
  · exact absurd hnone hmemory
  · rw [hreserve, Option.bind_some] at hgrow
    obtain ⟨m₁, hmap, hpure⟩ := Option.bind_eq_some_iff.1 hgrow
    cases hpure
    obtain ⟨e₀, htop, -⟩ := h.kernel
    have hfits : ∀ p frame, Fits (.kernel, pageOf p) (.pageDescriptor frame PAGE_RW) := by
      intro p frame
      show PAGE_RW.testBit 1 = false
      decide
    obtain ⟨place', h', hext, hsees⟩ := h.mapRegion (current_kernel m) htop hreserved
      (hroom.trans hlarge) hpages hfits hmap
    exact ⟨place', h', stays_of_extends h' hext, fun t e htop => hsees t e htop⟩

/-! ## One event -/

/-- In a page frame that was cleared there are no pages to see. -/
theorem pageAt_cleared {memory : Nat → Nat → PageTableEntry}
    (h : ∀ x < 512, memory t x = .cleared) : pageAt memory t = fun _ => none := by
  funext p
  rw [pageAt]
  split
  next hlow =>
    have hindex : p * pageSize / 2 ^ 30 < 512 := by
      unfold lowPages at hlow
      unfold pageSize
      omega
    rw [walkFrom, h _ hindex]
    rfl
  next => rfl

/-- What a step of the machine does: the trees stay in memory, page frames of `K` are not written,
and the pages of every address space change as its own operations say. -/
structure Steps (K : Set Nat) (blocks : Set UserNode) (s : Spaces) (e : SpaceEvent) (s' : Spaces) :
    Prop where
  isolated : s'.Isolated K blocks
  known : ∀ t, s'.Known t → s.Known t
  pages_eq : ∀ t, s'.Known t →
    pageAt s'.mmu.memory t = e.applyFor t (pageAt s.mmu.memory t)
  memory_eq : ∀ f ∈ K, s'.mmu.memory f = s.mmu.memory f

theorem steps_of_stays (h : Tables K blocks s.mmu place) (h' : Tables K blocks s'.mmu place')
    (hstays : Stays K s.mmu place s'.mmu place')
    (hcreated : ∀ a ∈ s'.created, (a.topLevelTable < 2 ^ 43 ∧
      ∃ d, place' (.space a.top, .top) = some d) ∧
      (a ∈ s.created ∨ a.top ∈ s.mmu.pageAllocator.freePages))
    (hpages : ∀ a ∈ s'.created, pageAt s'.mmu.memory a.top =
      e.applyFor a.top (pageAt s.mmu.memory a.top))
    (hfree : ∀ t ∈ s.mmu.pageAllocator.freePages, ∀ pages, e.applyFor t pages = pages) :
    Steps K blocks s e s' where
  isolated := ⟨place', h', fun a ha => (hcreated a ha).1⟩
  known := by
    rintro t (⟨a, ha, rfl⟩ | ht)
    · exact (hcreated a ha).2.imp_left fun ha => ⟨a, ha, rfl⟩
    · exact .inr (hstays.free_subset ht)
  pages_eq := by
    rintro t (⟨a, ha, rfl⟩ | ht)
    · exact hpages a ha
    · have ht' := hstays.free_subset ht
      rw [hfree t ht', pageAt_cleared (h'.free_cleared t ht), pageAt_cleared (h.free_cleared t ht')]
  memory_eq := hstays.memory_eq

/-- A step keeps the address spaces apart. -/
theorem Isolated.step (h : s.Isolated K blocks) (hs : ScratchOpen blocks)
    (hallowed : s.Allowed blocks e) (hstep : Step s e s') : Steps K blocks s e s' := by
  obtain ⟨place, hT, hcreated⟩ := h
  obtain ⟨fuel, hperform⟩ := hstep
  cases e with
  | create =>
      obtain ⟨⟨m, idCounter, space⟩, hcreate, hpure⟩ := Option.bind_eq_some_iff.1 hperform
      cases hpure
      obtain ⟨place', h', hext, hpages, hspace⟩ := hT.createAddressSpace hs hcreate
      have hnew : ∀ a ∈ space, a.topLevelTable < 2 ^ 43 ∧
          a.top ∈ s.mmu.pageAllocator.freePages ∧ ∃ d, place' (.space a.top, .top) = some d := by
        intro a ha
        obtain ⟨t, d, hframe, hfree, htop, -⟩ := hspace a ha
        have hlt := hT.managed.lt_of_free hfree
        have ht : a.top = t := by
          rw [AddressSpace.top, AddressSpace.getTableFrame, hframe]
          exact Nat.mul_div_cancel t (by decide)
        rw [ht, hframe]
        exact ⟨by unfold pageSize; omega, hfree, d, htop⟩
      have hplaced : ∀ a ∈ space.toList ++ s.created, ∃ d,
          place' (.space a.top, .top) = some d := by
        intro a ha
        obtain ha | ha := List.mem_append.1 ha
        · exact (hnew a (Option.mem_toList.1 ha)).2.2
        · obtain ⟨-, d, htop⟩ := hcreated a ha
          exact ⟨d, hext.tables id htop⟩
      refine steps_of_stays hT h' (stays_of_extends h' hext) (fun a ha => ⟨⟨?_, hplaced a ha⟩, ?_⟩)
        (fun a ha => ?_) fun _ _ _ => rfl
      · obtain ha | ha := List.mem_append.1 ha
        · exact (hnew a (Option.mem_toList.1 ha)).1
        · exact (hcreated a ha).1
      · obtain ha | ha := List.mem_append.1 ha
        · exact .inr (hnew a (Option.mem_toList.1 ha)).2.1
        · exact .inl ha
      · obtain ⟨d, htop⟩ := hplaced a ha
        obtain ha | ha := List.mem_append.1 ha
        · -- nothing led to the page frame of the new top table
          have hfree := (hnew a (Option.mem_toList.1 ha)).2.1
          have hroot : place (.space a.top, .top) = none := by
            cases hroot : place (.space a.top, .top) with
            | none => rfl
            | some d =>
                have happart := (hT.apart hroot).2
                rw [hT.space hroot] at happart
                exact absurd hfree happart
          funext p
          show pageAt m.memory a.top p = pageAt s.mmu.memory a.top p
          rw [pageAt_cleared (hT.free_cleared _ hfree), h'.pageAt_eq htop,
            hpages (.space a.top, pageOf p) trivial]
          by_cases hp : p < userPages
          · have hopen : Tables.Open blocks (.space a.top) (p / 2 ^ 18) (p / 2 ^ 9 % 512) :=
              Tables.openSpace hp
            rw [hT.placed.eq_none_of_parent (Tables.edge_pageOf hp)
              (hT.placed.eq_none_of_parent hopen.last
                (hT.placed.eq_none_of_parent hopen.mid hroot))]
            rfl
          · cases hpage : place (.space a.top, pageOf p) with
            | none => rfl
            | some d => exact absurd (hT.lt_of_page hpage) hp
        · obtain ⟨-, d, htop⟩ := hcreated a ha
          exact funext fun p => hT.pageAt_congr h' hext htop (hpages (.space a.top, pageOf p) trivial)
  | enter a =>
      change (if a ∈ s.created then _ else _) = _ at hperform
      split at hperform
      next =>
        cases hperform
        exact steps_of_stays hT (tables_loadAddressSpace hT a)
          ⟨subset_rfl, fun _ hn => hn, fun _ _ => rfl⟩
          (fun b hb => ⟨hcreated b hb, .inl hb⟩) (fun _ _ => rfl) fun _ _ _ => rfl
      next => cases hperform
  | grow heapEnd size =>
      obtain ⟨hsize, hadjSize⟩ := hallowed
      obtain ⟨⟨adj, m⟩, hgrow, hpure⟩ := Option.bind_eq_some_iff.1 hperform
      cases hpure
      obtain ⟨adjSize, hadj, -⟩ := Option.bind_eq_some_iff.1 hgrow
      obtain ⟨hmemory, hpages⟩ := hadjSize adjSize hadj
      obtain ⟨place', h', hstays, hsees⟩ := grow_step hT hsize hadj hmemory hpages hgrow
      refine steps_of_stays hT h' hstays (fun a ha => ?_) (fun a ha => ?_) fun _ _ _ => rfl
      · obtain ⟨hlt, d, htop⟩ := hcreated a ha
        exact ⟨⟨hlt, d, hstays.tables id htop⟩, .inl ha⟩
      · obtain ⟨-, d, htop⟩ := hcreated a ha
        exact hsees _ d htop
  | op t o =>
      obtain ⟨hcurrent, ⟨a, ha, rfl⟩, hop⟩ := hallowed
      obtain ⟨m, hm, hpure⟩ := Option.bind_eq_some_iff.1 hperform
      cases hpure
      obtain ⟨-, d, htop⟩ := hcreated a ha
      obtain ⟨place', h', hstays, hsees⟩ := op_step hT hcurrent htop hop hm
      refine steps_of_stays hT h' hstays (fun b hb => ?_) (fun b hb => ?_) fun t ht pages => ?_
      · obtain ⟨hlt, d', htop'⟩ := hcreated b hb
        exact ⟨⟨hlt, d', hstays.tables id htop'⟩, .inl hb⟩
      · obtain ⟨-, d', htop'⟩ := hcreated b hb
        rw [hsees _ d' htop', SpaceEvent.applyFor]
        simp only [Owner.space.injEq]
      · refine if_neg ?_
        rintro rfl
        have happart := (hT.apart htop).2
        rw [hT.space htop] at happart
        exact happart ht

/-! ## Runs -/

/-- The steps that are allowed. -/
def Runs (blocks : Set UserNode) (s : Spaces) (es : List SpaceEvent) (s' : Spaces) : Prop :=
  Run (Guarded (Allowed blocks) Step) s es s'

theorem Isolated.run {es : List SpaceEvent} (h : s.Isolated K blocks) (hs : ScratchOpen blocks)
    (hrun : s.Runs blocks es s') :
    s'.Isolated K blocks ∧ (∀ t, s'.Known t → s.Known t) ∧
      (∀ t, s'.Known t → pageAt s'.mmu.memory t = replay t es (pageAt s.mmu.memory t)) ∧
      ∀ f ∈ K, s'.mmu.memory f = s.mmu.memory f := by
  unfold Runs at hrun
  induction hrun with
  | nil => exact ⟨h, fun _ ht => ht, fun _ _ => rfl, fun _ _ => rfl⟩
  | cons hstep _ ih =>
      have hsteps := h.step hs hstep.1 hstep.2
      obtain ⟨h', hknown, hpages, hmemory⟩ := ih hsteps.isolated
      refine ⟨h', fun t ht => hsteps.known t (hknown t ht), fun t ht => ?_,
        fun f hf => (hmemory f hf).trans (hsteps.memory_eq f hf)⟩
      rw [hpages t ht, hsteps.pages_eq t (hknown t ht)]
      rfl

/-! ## What a process finds in its memory -/

/-- A process reads and writes the pages of its address space. -/
theorem Isolated.access (h : s.Isolated K blocks) (ha : a ∈ s.created) (va : Nat) :
    let page := pageAt s.mmu.memory a.top (pageNumber va)
    (s.mmu.loadAddressSpace a).userLoad va =
        page.map (·.contents ⟨va % pageSize / 8, entryIndex_lt va⟩) ∧
      ∀ e, ((s.mmu.loadAddressSpace a).userStore va e).isSome ↔ ∃ pg ∈ page, pg.writable := by
  obtain ⟨place, hT, hcreated⟩ := h
  obtain ⟨hlt, d, htop⟩ := hcreated a ha
  have hT' := tables_loadAddressSpace hT a
  have hc : (s.mmu.loadAddressSpace a).Current (.space a.top) := loadAddressSpace_ttbr0 _ hlt
  refine ⟨hT'.userLoad_eq hc htop va, fun e => ?_⟩
  rw [hT'.userStore_eq hc htop, hT.pageAt_eq htop]
  cases place (.space a.top, pageOf (pageNumber va)) with
  | none => simp
  | some leaf => cases hro : leaf.apReadOnly <;> simp [pageOfEntry, hro]

/-- It has no pages in the windows and in the half of the kernel. -/
theorem Isolated.pageAt_none (h : s.Isolated K blocks) (ha : a ∈ s.created) (hp : userPages ≤ p) :
    pageAt s.mmu.memory a.top p = none := by
  obtain ⟨place, hT, hcreated⟩ := h
  obtain ⟨-, d, htop⟩ := hcreated a ha
  rw [hT.pageAt_eq htop]
  cases hpage : place (.space a.top, pageOf p) with
  | none => rfl
  | some leaf => exact absurd (hT.lt_of_page hpage) (Nat.not_lt_of_le hp)

/-- The top tables of the kernel half and of one address space. -/
def twoTops (a : PageAllocator) : Mmu :=
  ⟨fun frame index => match frame, index with
    | 1, 511 => .tableDescriptor 0x1000
    | 2, 511 => .tableDescriptor 0x2000
    | _, _ => .cleared, 1, 1, a, []⟩

theorem tables_twoTops {al : PageAllocator} (hmanaged : al.Managed)
    (hge : ∀ f ∈ al.freePages, 16 ≤ f) :
    ∃ place, Tables ({f | f ∉ al.freePages ∧ f ≠ 1} \ {2}) blocks (twoTops al) place ∧
      place (.kernel, .top) = some (.tableDescriptor (1 * pageSize)) ∧
      ∃ e, place (.space 2, .top) = some e := by
  have hcleared : ∀ f x, ¬ (x = 511 ∧ (f = 1 ∨ f = 2)) → (twoTops al).memory f x = .cleared := by
    intro f x hne
    unfold twoTops
    dsimp only
    split <;> simp_all
  have hfree : ∀ f ∈ al.freePages, f ≠ 1 ∧ ∀ x < 512, (twoTops al).memory f x = .cleared := by
    intro f hf
    have hle := hge f hf
    exact ⟨by omega, fun x _ => hcleared f x (by omega)⟩
  have hT : Tables _ blocks (twoTops al) _ := Tables.kernel_root (m := twoTops al)
    (by decide : 1 < 2 ^ 31) (by simp [twoTops, pageSize]) (fun x hx => hcleared _ x (by omega))
    hmanaged hfree
  have htwo : 2 ∉ al.freePages := fun hmem => by
    have hle := hge 2 hmem
    omega
  have hT' := hT.add_root (t := 2) ⟨htwo, (by decide : 2 ≠ 1)⟩ (by decide)
    (by simp [twoTops, pageSize]) fun x hx => hcleared 2 x (by omega)
  exact ⟨_, hT', (Function.update_of_ne (by simp) ..).trans (Function.update_self ..), _,
    Function.update_self ..⟩

/-- The page that `initializeTopTable` uses is no part of the tree. -/
private def scratchPage : Set UserNode := {.page 510 511 511}

private theorem scratchOpen_scratchPage : ScratchOpen scratchPage where
  mid := by simp [scratchPage]
  last := by simp [scratchPage]
  page := rfl

private theorem isolated_twoTops {al : PageAllocator} {mapBase : BlockPtr → Block}
    (hal : PageAllocator.construct upperPages mapBase pageSize = some al) :
    ∃ K, 3 ∈ K ∧ Isolated K scratchPage ⟨twoTops al, 2, [⟨0x2000, 1⟩]⟩ := by
  obtain ⟨hmanaged, hpages⟩ := PageAllocator.managed_construct upperPages_disjoint hal
  have hge : ∀ f ∈ al.freePages, 16 ≤ f := by
    intro f hf
    obtain ⟨r, hr, -, hpage, -⟩ := (hpages f).1 hf
    rw [List.mem_singleton.1 hr] at hpage
    change 0x10000 ≤ f * 4096 at hpage
    omega
  obtain ⟨place, hT, -, htop⟩ := tables_twoTops hmanaged hge
  have hthree : 3 ∉ al.freePages := fun hmem => by
    have hle := hge 3 hmem
    omega
  refine ⟨{f | f ∉ al.freePages ∧ f ≠ 1} \ {2}, ⟨⟨hthree, by decide⟩, by decide⟩, place, hT,
    fun a ha => ?_⟩
  obtain rfl := List.mem_singleton.1 ha
  exact ⟨by decide, htop⟩

/-- A process maps two pages and stores an entry. -/
private def mapAndStore : List SpaceEvent :=
  [.enter ⟨0x2000, 1⟩, .op 2 (.mmap 0x1000 0x2000 3 true), .op 2 (.store 0x1008 (.tableDescriptor 0))]

private theorem runs_mapAndStore :
    ∃ (K : Set Nat) (s s' : Spaces), 3 ∈ K ∧ s.Isolated K scratchPage ∧
      s.Runs scratchPage mapAndStore s' ∧ (⟨0x2000, 1⟩ : AddressSpace) ∈ s'.created := by
  have hrun : (PageAllocator.construct upperPages (fun _ => unwritten) pageSize).any fun al =>
      ((mapAndStore.getD 0 .create).perform 4 ⟨twoTops al, 2, [⟨0x2000, 1⟩]⟩).any fun s₁ =>
        ((mapAndStore.getD 1 .create).perform 4 s₁).any fun s₂ =>
          ((mapAndStore.getD 2 .create).perform 4 s₂).any fun s₃ =>
            decide (s₁.mmu.ttbr0 = 2 ∧ s₂.mmu.ttbr0 = 2 ∧ ⟨0x2000, 1⟩ ∈ s₁.created ∧
              ⟨0x2000, 1⟩ ∈ s₂.created ∧ ⟨0x2000, 1⟩ ∈ s₃.created) := by
    decide +kernel
  obtain ⟨al, hal, hrun⟩ := (Option.any_eq_true ..).1 hrun
  obtain ⟨s₁, hs₁, hrun⟩ := (Option.any_eq_true ..).1 hrun
  obtain ⟨s₂, hs₂, hrun⟩ := (Option.any_eq_true ..).1 hrun
  obtain ⟨s₃, hs₃, hrun⟩ := (Option.any_eq_true ..).1 hrun
  obtain ⟨hcurrent₁, hcurrent₂, hmem₁, hmem₂, hmem₃⟩ := of_decide_eq_true hrun
  obtain ⟨K, hK, hisolated⟩ := isolated_twoTops hal
  have hpages : InUserPages 0x1000 0x2000 := ⟨by decide, by decide⟩
  refine ⟨K, _, s₃, hK, hisolated, .cons ⟨trivial, 4, hs₁⟩ (.cons ⟨?_, 4, hs₂⟩
    (.cons ⟨?_, 4, hs₃⟩ (.nil _))), hmem₃⟩
  · exact ⟨hcurrent₁, ⟨_, hmem₁, rfl⟩, hpages⟩
  · exact ⟨hcurrent₂, ⟨_, hmem₂, rfl⟩, trivial⟩

end Spaces

end CrosKernel.Memory
