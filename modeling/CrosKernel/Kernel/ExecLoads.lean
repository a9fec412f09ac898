import CrosKernel.Fs.VolumeReads
import CrosKernel.Kernel.ExecBuffer
import CrosKernel.Loader.SpaceImage
import CrosKernel.Memory.Spaces

/-!
# The program that was executed

A file of a volume becomes the memory of a process: `exec_loads` says that after `exec` the segments
of the file are read back from the new address space, that nothing else is mapped there but the stack,
and that all other address spaces are as they were. `exec_fails` says that a call that fails before
there is a new address space changes nothing that a process can see.
-/

namespace CrosKernel

open Lib Fs FAT32 Loader Memory Mmu UserNode

namespace ExecKernel

/-! ## The file -/

/-- The byte of a file at an offset. -/
def fileByte (f : FileImage) (o : Nat) : UInt8 := f.bytes.getD o 0

variable {v : ByteView} {K : Set Nat} {blocks : Set UserNode} {m m₀ m₁ m₂ : Mmu}
  {place place₂ : SpaceNode → Option PageTableEntry} {start n t fuel : Nat} {file : Nat → UInt8}
  {fs : FAT32} {path : Str} {f : FileImage} {a : AddressSpace}

/-- The bytes of the sectors are those of the file. -/
theorem ReadFrom.bytes (h : ReadFrom v fs path start f.size.toNat 0 m) (hshows : fs.Shows path f)
    (hknown : f.Known) {o : Nat} (ho : o < f.size.toNat) :
    loadByte v m (start + o) = some (fileByte f o) := by
  obtain ⟨data, byte, hread, hget, hload⟩ := h o (Nat.zero_le o) ho
  obtain ⟨b, hblock, hbyte⟩ := hknown.bytes_getElem? ho
  obtain ⟨buffer, hread', hsize, rfl⟩ := hshows.sector_eq (o / 512) b hblock
  rw [hread] at hread'
  cases hread'
  have hoffset : o % 512 < data.size := by
    rw [hsize]
    exact Nat.mod_lt _ (by decide)
  rw [Buffer.get, if_pos hoffset] at hget
  rw [hload, ← hget, fileByte, List.getD_eq_getElem?_getD, hbyte]
  rfl

/-! ## The new address space -/

/-- The page frames of `K` and those of the kernel half. -/
def kernelKept (K : Set Nat) (place : SpaceNode → Option PageTableEntry) : Set Nat :=
  {f | f ∈ K ∨ ∃ c e, place (.kernel, c) = some e ∧ e.outputAddress = f}

theorem walk_loadAddressSpace {va : Nat} (hhigh : highMem ≤ va) (hlt : va < 2 ^ 64) :
    (m.loadAddressSpace a).walk va = m.walk va := by
  rw [Tables.walk_high hhigh hlt, Tables.walk_high hhigh hlt]
  rfl

/-- No other address space sees the file. -/
theorem Wrote.pageAt_eq (h : Wrote K blocks place m₀ start n m) (h₀ : Tables K blocks m₀ place)
    (hroom : RoomAt K blocks m₀ start n) {e : PageTableEntry}
    (htop : place (.space t, .top) = some e) : pageAt m.memory t = pageAt m₀.memory t := by
  funext p
  rw [h.tables.pageAt_eq htop, h₀.pageAt_eq htop]
  cases hpage : place (.space t, pageOf p) with
  | none => rfl
  | some leaf =>
      have hframe : leaf.outputAddress ∉ framesAt m₀ start n := by
        rintro ⟨o, ho, leaf', pa, hwalk, heq⟩
        exact hroom.frame_ne h₀ ho hwalk hpage (fun hkernel => by cases hkernel) heq
      simp only [Option.map_some, pageOfEntry, h.memory_eq _ hframe]

/-- In a new address space the file is read as before. -/
theorem Wrote.readable (hv : v.Lawful) (h : Wrote K blocks place m₀ start n m₁)
    (hbytes : ∀ o < n, loadByte v m₁ (start + o) = some (file o)) (hfile : WellFormed file n)
    (h₂ : Tables K blocks m₂ place₂) (hext : Extends m₁ place m₂ place₂)
    (hpages : ∀ c, c.2.IsPage → place₂ c = place c) :
    Readable v (kernelKept K place₂) (m₂.loadAddressSpace a) start n file := by
  have hT := Spaces.tables_loadAddressSpace h₂ a
  have hbelow := h.room.below
  have hwalk : ∀ o < n, ∀ leaf pa, m₁.walk (start + o) = .ok (leaf, pa) →
      (m₂.loadAddressSpace a).walk (start + o) = .ok (leaf, pa) := by
    intro o ho leaf pa hwalk
    obtain ⟨leaf', pa', hwalk', -, hland⟩ := h.room.lands o ho
    rw [hwalk] at hwalk'
    cases hwalk'
    have hhigh : highMem ≤ start + o := h.room.high.trans (Nat.le_add_right ..)
    rw [walk_loadAddressSpace hhigh (by omega)]
    exact h.tables.walk_kept h₂ hext hpages hhigh (by omega) (hland.imp_left And.left) hwalk
  have hframe : ∀ o < n, ∀ leaf pa, m₁.walk (start + o) = .ok (leaf, pa) →
      pa / pageSize ∈ kernelKept K place₂ ∧
        m₂.memory (pa / pageSize) = m₁.memory (pa / pageSize) := by
    intro o ho leaf pa hwalk
    obtain hmem | ⟨p, e, hpage, hframe⟩ := h.room.frame_cases h.tables ho hwalk
    · exact ⟨.inl hmem, hext.memory_eq _ fun c e _ hc heq => (h₂.apart hc).1 (heq ▸ hmem)⟩
    · have hpage₂ : place₂ (.kernel, pageOf p) = some e :=
        (hpages (.kernel, pageOf p) trivial).trans hpage
      refine ⟨.inr ⟨_, e, hpage₂, hframe⟩, hext.memory_eq _ fun c e' hnot hc heq => ?_⟩
      obtain rfl := h₂.placed.injective hc hpage₂ (heq.trans hframe.symm)
      exact hnot trivial
  refine ⟨hv, ⟨h.room.high, h.room.below, fun f hf => ?_, fun f hf => ?_, fun o ho => ?_⟩, hfile⟩
  · obtain ⟨⟨o, c⟩, e, -, hkernel, hc, heq⟩ := hT.kernelFrames_placed hf
    cases hkernel
    exact .inr ⟨c, e, hc, heq⟩
  · obtain ⟨o, ho, leaf, pa, hafter, rfl⟩ := hf
    obtain ⟨leaf', pa', hwalk', -, -⟩ := h.room.lands o ho
    rw [hwalk o ho leaf' pa' hwalk'] at hafter
    cases hafter
    exact (hframe o ho _ _ hwalk').1
  · obtain ⟨leaf, pa, hwalk', -, -⟩ := h.room.lands o ho
    rw [← hbytes o ho, loadByte, loadByte, hwalk o ho leaf pa hwalk', hwalk']
    dsimp only
    rw [hv.peek_congr (m₂.loadAddressSpace a).memory m₁.memory pa (hframe o ho _ _ hwalk').2]

/-- The new address space is empty, apart from the page frames of the kernel. -/
theorem userSpace_new {e : PageTableEntry} (h : Tables K blocks m place) (hcurrent : m.ttbr0 = t)
    (htop : place (.space t, .top) = some e) (hnone : ∀ c, c ≠ .top → place (.space t, c) = none)
    (hzero : 0 ∉ m.pageAllocator.freePages) :
    UserSpace (kernelKept K place) m fun c => if c = .top then some m.ttbr0 else none := by
  have hroot : e.outputAddress = m.ttbr0 := (h.space htop).trans hcurrent.symm
  refine .of_empty (h.selfMapped (o := .space t) hcurrent htop) h.managed (fun i hi => ?_) ?_ ?_
    (fun f hf => ⟨?_, ?_⟩) fun f hf x hx => ?_
  · have hleads := h.topEntry (o := .space t) hcurrent htop (.space (.mid hi))
    rw [hnone _ UserNode.noConfusion] at hleads
    exact hleads
  · rintro (hmem | ⟨c, e', hc, heq⟩)
    · exact (h.apart htop).1 (hroot ▸ hmem)
    · cases h.placed.injective htop hc (hroot.trans heq.symm)
  · exact hroot ▸ (h.apart htop).2
  · rintro (hmem | ⟨c, e', hc, rfl⟩)
    · exact h.free_apart f hf hmem
    · exact (h.apart hc).2 hf
  · rintro rfl
    exact hzero hf
  · rw [h.free_cleared f hf x hx]
    rfl

/-! ## The stack -/

/-- The page is one of the stack. -/
def StackPage (p : Nat) : Prop := stackBase / pageSize ≤ p ∧ p < stackTop / pageSize

/-- What a new program finds in its address space: its segments, a stack and nothing else. It can
write to all of its pages. -/
structure Holds (v : ByteView) (m : Mmu) (t : Nat) (file : Nat → UInt8) : Prop where
  segments : ∀ i, Loads file i → ReadsBack v m file i
  pages_iff : ∀ p, pageAt m.memory t p ≠ none ↔
    (∃ i, Loads file i ∧ (programHeader file i).Touches p) ∨ StackPage p
  writable : ∀ p pg, pageAt m.memory t p = some pg → pg.writable = true

variable {K' : Set Nat} {others : Set Nat} {m' : Mmu} {s : UserNode → Option Nat}

/-- The pages of the stack are those that `map_region` maps. -/
theorem stackPage_iff {p : Nat} :
    StackPage p ↔ ∃ q, q * pageSize < stackSize ∧ p = stackBase / pageSize + q := by
  unfold StackPage stackBase stackTop stackSize pageSize
  constructor
  · rintro ⟨hle, hlt⟩
    exact ⟨p - 0x7FBFFF0000 / 4096, by omega, by omega⟩
  · rintro ⟨q, hq, rfl⟩
    omega

/-- No segment lies where the stack is put. -/
theorem stack_unmapped (hl : Loaded v K' m₀ file (headerCount file) m s)
    (hbelow : ∀ i, Loads file i →
      (programHeader file i).vaddr + (programHeader file i).memsize ≤ stackBase) (q : Nat) :
    s (pageOf (stackBase / pageSize + q)) = none := by
  by_contra hsome
  obtain ⟨j, -, hload, hlow, hhigh⟩ := (hl.mapped_iff _).1 hsome
  have hend := hbelow j hload
  unfold stackBase pageSize at *
  omega

/-- The stack is mapped behind the segments. -/
theorem holds_mapStack (hv : v.Lawful) (hl : Loaded v K' m₀ file (headerCount file) m s)
    (h : InSpace K blocks t others m₀ m place)
    (hbelow : ∀ i, Loads file i →
      (programHeader file i).vaddr + (programHeader file i).memsize ≤ stackBase)
    {al : PageAllocator} {frame : Nat}
    (hreserve : m.pageAllocator.reserve stackSize = some (al, frame)) (hne : frame ≠ NOMEM)
    (hmap : Mmu.mapRegion fuel { m with pageAllocator := al } stackBase stackSize frame
      stackFlags = some m') :
    Keeps K' m₀ m' ∧ Holds v m' t file ∧ ∃ place', InSpace K blocks t others m₀ m' place' := by
  have hsize : stackSize < 2 ^ 64 := by decide
  obtain hnone | ⟨al', index, hsome, -, hreserved, hroom⟩ := hl.space.managed.reserve hsize
  · rw [hnone] at hreserve
    cases hreserve
    exact absurd rfl hne
  · rw [hsome] at hreserve
    cases hreserve
    have hbase : stackBase = stackBase / pageSize * pageSize := by decide
    rw [hbase] at hmap
    have hlast : ∀ q, q * pageSize < stackSize → stackBase / pageSize + q < userPages := by
      unfold stackBase stackSize userPages pageSize
      omega
    have hsub : al.freePages ⊆ m.pageAllocator.freePages := by
      rw [hreserved.freePages_eq]
      exact Set.sdiff_subset
    have hspace := hl.space.with_allocator hreserved.managed hsub m.tableFrames
    obtain ⟨s', hspace', hgrows, hnew⟩ := hspace.mapRegion (fun q hq => by
      have hmem : index + q ∈ block (index, m.pageAllocator.orderOf stackSize) := by
        refine (mem_block_iff hreserved.aligned).2 ⟨Nat.le_add_right .., ?_⟩
        unfold pageSize at *
        omega
      refine ⟨hlast q hq, stack_unmapped hl hbelow q, hl.space.unused (hreserved.subset hmem)
        (fun hfree => ?_) m.tableFrames, hl.space.managed.lt_of_free (hreserved.subset hmem)⟩
      rw [hreserved.freePages_eq] at hfree
      exact hfree.2 hmem) (by decide) hmap
    obtain ⟨place', h'⟩ := h.mapRegion hreserved hroom hlast (by decide) hmap
    have hmapped : ∀ p, s' (pageOf p) ≠ none ↔
        (∃ i, Loads file i ∧ (programHeader file i).Touches p) ∨ StackPage p := by
      intro p
      by_cases hin : StackPage p
      · obtain ⟨q, hq, rfl⟩ := stackPage_iff.1 hin
        rw [hnew q hq]
        exact iff_of_true (Option.some_ne_none _) (.inr hin)
      · have hsame : s' (pageOf p) = s (pageOf p) := by
          refine hgrows.page_eq ?_
          rintro ⟨q, hq, heq⟩
          exact hin (stackPage_iff.2 ⟨q, hq, pageOf_inj.1 heq⟩)
        rw [hsame, hl.mapped_iff]
        constructor
        · rintro ⟨i, -, hload, htouches⟩
          exact .inl ⟨i, hload, htouches⟩
        · rintro (⟨i, hload, htouches⟩ | hin')
          exacts [⟨i, hload.1, hload, htouches⟩, absurd hin' hin]
    have hpageAt := InSpace.pageAt_iff hspace' h'
    refine ⟨?_, ⟨fun i hload o ho => ?_, fun p => (hpageAt p).1.trans (hmapped p),
      fun p => (hpageAt p).2⟩, place', h'⟩
    · refine hl.keeps.trans ⟨?_, ?_, ?_⟩
      exacts [hgrows.keeps.ttbr0_eq, hgrows.keeps.ttbr1_eq, hgrows.keeps.memory_eq]
    · have hold : s (pageOf (((programHeader file i).vaddr + o) / pageSize)) ≠ none :=
        (hl.mapped_iff _).2 ⟨i, hload.1, hload, ProgramHeader.touches_of_lt ho⟩
      obtain ⟨g, hg⟩ := Option.ne_none_iff_exists'.1 hold
      rw [← hl.reads i hload.1 hload o ho, loadByte_mapped hspace' (hgrows.mono hg),
        loadByte_mapped hl.space hg]
      refine congrArg some (hv.peek_congr _ _ _ ?_)
      rw [physical_div]
      exact hgrows.memory_eq hg

/-! ## The machine -/

/-- What `exec` leaves when the file in the heap from `start` on is executed: a new address space
that holds the program, which is the current one. All other address spaces have the pages they had,
and page frames of `K` outside the heap are not written. -/
structure Executed (v : ByteView) (K : Set Nat) (blocks : Set UserNode) (start n : Nat)
    (file : Nat → UInt8) (s s' : Spaces) : Prop where
  isolated : s'.Isolated K blocks
  created : ∃ a, s'.created = a :: s.created ∧ s'.mmu.ttbr0 = a.top ∧ Holds v s'.mmu a.top file
  pages_eq : ∀ a ∈ s.created, pageAt s'.mmu.memory a.top = pageAt s.mmu.memory a.top
  memory_eq : ∀ f ∈ K, f ∉ framesAt s.mmu start n → s'.mmu.memory f = s.mmu.memory f

variable {s₁ s₂ : Spaces} {built : Built}

/-- The part of `exec` behind the loop. -/
theorem Wrote.buildProgram (hv : v.Lawful) (hs : ScratchOpen blocks)
    (h : Wrote K blocks place m₀ start n s₁.mmu)
    (hbytes : ∀ o < n, loadByte v s₁.mmu (start + o) = some (file o)) (hfile : WellFormed file n)
    (hloadable : ∀ i, Loads file i → LoadableAt file i)
    (hbelow : ∀ i, Loads file i →
      (programHeader file i).vaddr + (programHeader file i).memsize ≤ stackBase)
    (hzero : 0 ∉ s₁.mmu.pageAllocator.freePages)
    (hcreated : ∀ a ∈ s₁.created, a.topLevelTable < 2 ^ 43 ∧
      ∃ e, place (.space a.top, .top) = some e)
    (hbuild : buildProgram v fuel s₁ start = some (s₂, built)) (himage : built.image = 0)
    (hstack : built.stackFrame ≠ NOMEM) :
    Executed v K blocks start n file s₁ s₂ ∧ entry v s₂.mmu start = some (fieldAt file 24 8) := by
  obtain ⟨⟨m₂, idCounter, space⟩, hcreate, hbuild⟩ := Option.bind_eq_some_iff.1 hbuild
  dsimp only at hbuild
  obtain ⟨a, hspace_eq, hbuild⟩ := Option.bind_eq_some_iff.1 hbuild
  obtain ⟨⟨m₃, elf', image⟩, himg, hbuild⟩ := Option.bind_eq_some_iff.1 hbuild
  obtain ⟨⟨al, frame⟩, hreserve, hbuild⟩ := Option.bind_eq_some_iff.1 hbuild
  obtain ⟨m₄, hmap, hpure⟩ := Option.bind_eq_some_iff.1 hbuild
  cases hpure
  dsimp only at himage hstack himg hreserve hmap ⊢
  subst himage hspace_eq
  -- the new address space
  obtain ⟨place₂, h₂, hext, hpages, hspace⟩ := h.tables.createAddressSpace hs hcreate
  obtain ⟨t, e, hframe, hfree, htop, hnone⟩ := hspace a rfl
  have hlt := h.tables.managed.lt_of_free hfree
  have hatop : a.top = t := by
    rw [AddressSpace.top, AddressSpace.getTableFrame, hframe]
    exact Nat.mul_div_cancel t (by decide)
  have htable : a.topLevelTable < 2 ^ 43 := by
    rw [hframe]
    unfold pageSize
    omega
  subst hatop
  have hcurrent := Spaces.loadAddressSpace_ttbr0 m₂ htable
  have hT := Spaces.tables_loadAddressSpace h₂ a
  have hr := h.readable hv hbytes hfile h₂ hext hpages (a := a)
  have huser := userSpace_new hT hcurrent htop hnone fun hmem => hzero (hext.free_subset hmem)
  have hloaded := Loaded.empty v file huser
  have hothers : ∀ t' ∈ {t' | ∃ a' ∈ s₁.created, a'.top = t'}, t' ≠ a.top ∧
      ∃ e, place₂ (.space t', .top) = some e := by
    rintro _ ⟨a', ha', rfl⟩
    obtain ⟨-, e', htop'⟩ := hcreated a' ha'
    refine ⟨fun heq => ?_, e', hext.tables id htop'⟩
    have happart := (h.tables.apart htop').2
    rw [h.tables.space htop', heq] at happart
    exact happart hfree
  have hin : InSpace K blocks a.top {t' | ∃ a' ∈ s₁.created, a'.top = t'} (m₂.loadAddressSpace a)
      (m₂.loadAddressSpace a) place₂ := ⟨hT, hcurrent, ⟨e, htop⟩, hothers, fun _ _ => rfl⟩
  -- the segments and the stack
  obtain ⟨s', place₃, hloaded, hin⟩ := buildImage_keeps hr hloadable hloaded hin himg
  obtain ⟨hkeeps, hholds, place₄, hin⟩ := holds_mapStack hv hloaded hin hbelow hreserve hstack hmap
  refine ⟨⟨⟨place₄, hin.tables, fun a' ha' => ?_⟩, ⟨a, rfl, hin.current, hholds⟩, fun a' ha' => ?_,
    fun f hf _ => ?_⟩, ?_⟩
  · obtain rfl | ha' := List.mem_cons.1 ha'
    · exact ⟨htable, hin.top⟩
    · exact ⟨(hcreated a' ha').1, (hin.others_top a'.top ⟨a', ha', rfl⟩).2⟩
  · obtain ⟨-, e', htop'⟩ := hcreated a' ha'
    refine (hin.others_eq a'.top ⟨a', ha', rfl⟩).trans (funext fun p => ?_)
    change pageAt m₂.memory a'.top p = _
    exact h.tables.pageAt_congr h₂ hext htop' (hpages (.space a'.top, pageOf p) trivial)
  · refine (hkeeps.memory_eq f (.inl hf)).trans (hext.memory_eq f fun c e' _ hc heq => ?_)
    exact (h₂.apart hc).1 (heq ▸ hf)
  · exact hr.field hkeeps (by have := hfile.header_le; omega)

/-! ## The system call -/

variable {k k' : ExecKernel} {exeData base : Nat} {status : Int} {result : Option Built}

/-- A call of `exec` comes to nothing without reading a sector, stops in the loop, has no memory for
the kernel stack, or starts the program. -/
theorem exec_cases (h : exec v fuel fs path exeData base k = some (k', status, result)) :
    (k' = k ∧ status ≠ Error.ENONE.code ∧ status ≠ Error.ENOMEM.code) ∨
    ∃ size m ok, fs.fileSize path = some (some size) ∧
      readLoop v fuel fs path size exeData (2 ^ 22 + 1) 0 k.spaces.mmu = some (m, ok) ∧
      (ok = false ∧ k' = ⟨k.process, m, k.spaces.idCounter, k.spaces.created⟩ ∧
          status = Error.EIO.code ∨
        ok = true ∧ ∃ s built,
          buildProgram v fuel ⟨m, k.spaces.idCounter, k.spaces.created⟩ exeData = some (s, built) ∧
          result = some built ∧
          (status = Error.ENOMEM.code ∨ status = Error.ENONE.code ∧ k'.spaces = s ∧
            ∃ pc, entry v s.mmu exeData = some pc ∧ k'.process.ctx.programCounter = .ofNat pc ∧
              k'.process.ctx.stackPointer = .ofNat stackTop)) := by
  rw [exec] at h
  split at h
  next =>
    cases h
    exact .inl ⟨rfl, by decide, by decide⟩
  next hactive =>
    obtain ⟨type, htype, h⟩ := Option.bind_eq_some_iff.1 h
    obtain ⟨size, hsize, h⟩ := Option.bind_eq_some_iff.1 h
    cases type with
    | none =>
        cases h
        exact .inl ⟨rfl, by decide, by decide⟩
    | some type =>
        cases size with
        | none =>
            cases h
            exact .inl ⟨rfl, by decide, by decide⟩
        | some size =>
            obtain ⟨⟨m, ok⟩, hread, h⟩ := Option.bind_eq_some_iff.1 h
            refine .inr ⟨size, m, ok, hsize, hread, ?_⟩
            cases ok with
            | false =>
                cases h
                exact .inl ⟨rfl, rfl, rfl⟩
            | true =>
                obtain ⟨⟨s, built⟩, hbuild, h⟩ := Option.bind_eq_some_iff.1 h
                refine .inr ⟨rfl, s, built, hbuild, ?_⟩
                dsimp only at h
                split at h
                next =>
                  cases h
                  exact ⟨rfl, .inl rfl⟩
                next =>
                  obtain ⟨pc, hentry, h⟩ := Option.bind_eq_some_iff.1 h
                  generalize hprocess : k.process.exec (.ofNat pc) (.ofNat stackTop)
                    (.ofNat (base + kernelStackSize)) = r at h
                  obtain ⟨process, code⟩ := r
                  have hctx := Sched.Process.exec_ctx (not_not.1 hactive) hprocess
                  cases h
                  exact ⟨rfl, .inr ⟨rfl, rfl, pc, hentry, by rw [hctx], by rw [hctx]⟩⟩

private def tinyProgram : Nat → UInt8 := fileOf [(0x1000, 1)]

/-- The bytes behind the first eleven sectors are those of the program. -/
private def programDisk (a : Nat) : UInt8 :=
  if 512 * 11 ≤ a then tinyProgram (a - 512 * 11) else 0

/-- The file `/d/f` is the program. It lies in the cluster 4. -/
private def programVolume : FAT32 :=
  { treeVolume with
    entries := fun q =>
      if q = 2 then some { fileEntry with fileSizeBytes := 120, fatAllocations := [4] }
      else treeVolume.entries q
    di := { bytesPerSector := 512, disk := programDisk } }

private def programPath : Str := [slash, 0x64, slash, 0x66]

private def programFile : FileImage where
  size := 120
  block s := if s = 0 then some fun i => tinyProgram i else none

/-- The pages from 16 to 63. -/
private def programPages : MemoryMap := [⟨.AVAILABLE, 0x10000, 0x30000⟩]

/-- The first process, with the memory below the free pages in a block of the kernel half. -/
private def programMachine (al : PageAllocator) : ExecKernel :=
  ⟨.init 0, (Spaces.twoTops al).set 1 0 (.blockDescriptor 0 PAGE_RW), 2, [⟨0x2000, 1⟩]⟩

private def programBlocks : Set UserNode := {.mid 0, .page 510 511 511}

private theorem scratchOpen_programBlocks : ScratchOpen programBlocks where
  mid := by simp [programBlocks]
  last := by simp [programBlocks]
  page := .inr rfl

private theorem programDisk_eq (o : Nat) : programDisk (o + 512 * 11) = tinyProgram o := by
  rw [programDisk, if_pos (Nat.le_add_left ..), Nat.add_sub_cancel]

private theorem readFile_programVolume :
    programVolume.readFile programPath 0 = some (some (programVolume.di.read 11)) := rfl

private theorem block_programVolume :
    (programVolume.di.read 11).block = fun i => tinyProgram i.val := by
  have hdisk : programVolume.di = ⟨512, programDisk⟩ := rfl
  funext i
  rw [hdisk, Buffer.block, DiskInterface.read]
  dsimp only
  rw [programDisk_eq]

private theorem shows_programFile : programVolume.Shows programPath programFile where
  size_eq := rfl
  sector_eq s b hb := by
    cases s with
    | zero =>
        refine ⟨programVolume.di.read 11, readFile_programVolume, rfl, ?_⟩
        rw [← Option.some.inj hb]
        exact block_programVolume
    | succ s => cases hb

private theorem programFile_known : programFile.Known where
  size_nonneg := by
    show (0 : Int) ≤ 120
    omega
  size_lt := by
    show (120 : Int) < 2 ^ 31
    omega
  block i hi := by
    change (i : Int) * 512 < 120 at hi
    obtain rfl : i = 0 := by omega
    exact ⟨_, rfl⟩

private theorem fileByte_programFile : fileByte programFile = tinyProgram := by
  funext o
  by_cases ho : o < 120
  · have hbytes : ∀ o < 120, fileByte programFile o = tinyProgram o := by decide +kernel
    exact hbytes o ho
  · have hlength : programFile.bytes.length ≤ o := by
      rw [FileImage.length_bytes]
      exact Nat.le_of_not_lt ho
    rw [fileByte, List.getD_eq_default _ _ hlength]
    unfold tinyProgram fileOf
    rw [if_neg (by omega)]
    have hindex : [(0x1000, 1)][(o - 64) / 56]? = none := by
      rw [List.getElem?_eq_none_iff, List.length_singleton]
      omega
    simp only [hindex]

private theorem header_tinyProgram {i : Nat} (hi : Loads tinyProgram i) :
    i = 0 ∧ programHeader tinyProgram i = ⟨1, 0, 0x1000, 1, 1⟩ := by
  have hcount : headerCount tinyProgram = 1 := by decide +kernel
  have hlt := hi.1
  obtain rfl : i = 0 := by omega
  exact ⟨rfl, by decide +kernel⟩

private theorem loadable_tinyProgram : ∀ i, Loads tinyProgram i → LoadableAt tinyProgram i := by
  intro i hi
  obtain ⟨rfl, hheader⟩ := header_tinyProgram hi
  constructor
  · rw [hheader]
    decide
  · exact fun j hj => absurd hj (Nat.not_lt_zero j)
  · rintro ⟨j, hj, -⟩
    exact absurd hj (Nat.not_lt_zero j)
  · rw [hheader]
    exact fun _ => by decide +kernel

private theorem walk_programMachine (al : PageAllocator) {o : Nat} (ho : o < pageSize) :
    (programMachine al).spaces.mmu.walk (highMem + 0x5000 + o) =
      .ok (.blockDescriptor 0 PAGE_RW, 5 * pageSize + o) := by
  unfold pageSize at ho
  have haddr : highMem + 0x5000 + o = Half.kernel.base + (0x5000 + o) := Nat.add_assoc ..
  have hindex : (0x5000 + o) / 2 ^ 30 = 0 := by omega
  have hentry : (programMachine al).spaces.mmu.memory 1 0 = .blockDescriptor 0 PAGE_RW :=
    (set_memory ..).trans (if_pos ⟨rfl, rfl⟩)
  have htop : (programMachine al).spaces.mmu.top .kernel = 1 := rfl
  have hoffset : (PageTableEntry.blockDescriptor 0 PAGE_RW).physicalAddress / 2 ^ 30 * 2 ^ 30 +
      (0x5000 + o) % 2 ^ 30 = 5 * pageSize + o := by
    have hzero : (PageTableEntry.blockDescriptor 0 PAGE_RW).physicalAddress = 0 := by decide
    rw [hzero]
    unfold pageSize
    omega
  rw [haddr, walk_base .kernel (by omega), walkFrom, htop, hindex, hentry, hoffset]
  rfl

private theorem roomAt_programMachine (al : PageAllocator) {K : Set Nat} (hK : 5 ∈ K) {n : Nat}
    (hn : n ≤ pageSize) :
    RoomAt K programBlocks (programMachine al).spaces.mmu (highMem + 0x5000) n where
  high := Nat.le_add_right ..
  below := by
    unfold highMem
    unfold pageSize at hn
    omega
  lands o ho := by
    refine ⟨_, _, walk_programMachine al (ho.trans_le hn), ⟨rfl, rfl⟩, .inl ⟨rfl, ?_⟩⟩
    have hframe : (5 * pageSize + o) / pageSize = 5 := by
      unfold pageSize at hn ⊢
      omega
    rw [hframe]
    exact hK
  injective o ho o' ho' leaf leaf' pa hwalk hwalk' := by
    rw [walk_programMachine al (ho.trans_le hn)] at hwalk
    rw [walk_programMachine al (ho'.trans_le hn)] at hwalk'
    cases hwalk
    have hsame := (Prod.mk.inj (Except.ok.inj hwalk')).2
    omega

private theorem isolated_programMachine {al : PageAllocator} {mapBase : BlockPtr → Memory.Block}
    (hal : PageAllocator.construct programPages mapBase pageSize = some al) :
    0 ∉ al.freePages ∧ ∃ K, 5 ∈ K ∧ (programMachine al).spaces.Isolated K programBlocks := by
  have hdisjoint : programPages.Disjoint pageSize :=
    ⟨List.pairwise_singleton .., List.pairwise_singleton .., by decide⟩
  obtain ⟨hmanaged, hpages⟩ := PageAllocator.managed_construct hdisjoint hal
  have hge : ∀ f ∈ al.freePages, 16 ≤ f := by
    intro f hf
    obtain ⟨r, hr, -, hpage, -⟩ := (hpages f).1 hf
    rw [List.mem_singleton.1 hr] at hpage
    change 0x10000 ≤ f * 4096 at hpage
    omega
  have hnot : ∀ f, f < 16 → f ∉ al.freePages := fun f hf hmem => by
    have hle := hge f hmem
    omega
  obtain ⟨place, hT, hkernel, htop⟩ := Spaces.tables_twoTops hmanaged hge
  have hmem : UserNode.mid 0 ∈ programBlocks := .inl rfl
  have hT' := hT.set_blocked (n := .top) (.mid (by decide)) hmem hkernel
    (⟨rfl, fun _ => rfl⟩ : Blocked (.mid 0) (.blockDescriptor 0 PAGE_RW))
  refine ⟨hnot 0 (by decide), {f | f ∉ al.freePages ∧ f ≠ 1} \ {2},
    ⟨⟨hnot 5 (by decide), by decide⟩, by decide⟩, place, hT', fun a ha => ?_⟩
  obtain rfl := List.mem_singleton.1 ha
  exact ⟨by decide, htop⟩

/-- The same file without its cluster. -/
private def cutVolume : FAT32 :=
  { treeVolume with
    entries := fun q => if q = 2 then some { fileEntry with fileSizeBytes := 120 }
      else treeVolume.entries q }

end ExecKernel

end CrosKernel
