import CrosKernel.Loader.LoadSegments
import CrosKernel.Memory.NewSpace

/-!
# A program image among other address spaces

`buildProgramImage` maps and writes the pages of the current address space only: `InSpace` says that
the trees of all address spaces stand in memory while one of them is filled, and that the others have
the pages they had. `buildImage_keeps` adds this to what `Loaded` says of the segments.
-/

namespace CrosKernel.Loader

open Lib Memory Mmu UserNode PageTableEntry PageAllocator

/-- The machine is in the address space of the top table `t`. The address spaces of the top tables
`others` have the pages that they had in the state `m₀`. -/
structure InSpace (K : Set Nat) (blocks : Set UserNode) (t : Nat) (others : Set Nat) (m₀ m : Mmu)
    (place : SpaceNode → Option PageTableEntry) : Prop where
  tables : Tables K blocks m place
  current : m.ttbr0 = t
  top : ∃ e, place (.space t, .top) = some e
  others_top : ∀ t' ∈ others, t' ≠ t ∧ ∃ e, place (.space t', .top) = some e
  others_eq : ∀ t' ∈ others, pageAt m.memory t' = pageAt m₀.memory t'

variable {v : ByteView} {K K' : Set Nat} {blocks : Set UserNode} {others : Set Nat}
  {m m' m₀ m₁ m₂ : Mmu} {place : SpaceNode → Option PageTableEntry} {s : UserNode → Option Nat}
  {t start n fuel i va : Nat} {file : Nat → UInt8} {seg : Segment} {byte : UInt8}

namespace InSpace

/-- A byte below the windows is stored in a page of the address space. -/
theorem storeByte (hv : v.Lawful) (h : InSpace K blocks t others m₀ m place)
    (hva : pageNumber va < userPages) (hstore : storeByte v fuel m va byte = some m') :
    InSpace K blocks t others m₀ m' place := by
  obtain ⟨e, htop⟩ := h.top
  cases fuel with
  | zero => cases hstore
  | succ fuel =>
      rw [Loader.storeByte] at hstore
      cases hpage : place (.space t, pageOf (pageNumber va)) with
      | none =>
          obtain ⟨abort, hwalk⟩ := h.tables.walk_space_none h.current htop hva hpage
          rw [hwalk] at hstore
          cases abort with
          | other => cases hstore
          | translation level =>
              dsimp only at hstore
              rw [handlePageFault_user hva] at hstore
              cases hstore
      | some leaf =>
          have hframe : (leaf.outputAddress * 2 ^ 12 + va % pageSize) / pageSize =
              leaf.outputAddress := by
            unfold pageSize
            omega
          rw [h.tables.walk_space h.current htop hpage] at hstore
          dsimp only at hstore
          split at hstore
          next =>
            cases hstore
            obtain ⟨hT, hsame⟩ := h.tables.with_page hpage fun f hf =>
              hv.poke_of_ne m.memory (leaf.outputAddress * 2 ^ 12 + va % pageSize) byte f
                (hframe.symm ▸ hf)
            refine ⟨hT, h.current, h.top, h.others_top, fun t' ht' => ?_⟩
            obtain ⟨hne, e', htop'⟩ := h.others_top t' ht'
            rw [← h.others_eq t' ht']
            exact funext fun q => hsame t' e' q htop' fun hand => hne hand.1.symm
          next => cases hstore

theorem memset (hv : v.Lawful) (h : InSpace K blocks t others m₀ m place) {size : Nat}
    (hstart : start + size ≤ userPages * pageSize)
    (hset : memset v fuel m start size byte = some m') :
    InSpace K blocks t others m₀ m' place := by
  rw [Loader.memset] at hset
  split at hset
  next hlt =>
    have hmod : size % 2 ^ 32 ≤ size := Nat.mod_le ..
    generalize size % 2 ^ 32 = remaining at hset hmod
    replace hstart : start + remaining ≤ userPages * pageSize := by omega
    clear hmod hlt
    induction remaining generalizing m start with
    | zero =>
        cases hset
        exact h
    | succ remaining ih =>
        obtain ⟨m₁, hstore, hrest⟩ := Option.bind_eq_some_iff.1 hset
        unfold userPages pageSize at hstart
        rw [Nat.mod_eq_of_lt (by omega)] at hstore
        refine ih (h.storeByte hv ?_ hstore) hrest ?_
        · unfold pageNumber userPages pageSize
          omega
        · unfold userPages pageSize
          omega
  next =>
    cases hset
    exact h

theorem memcpy (hv : v.Lawful) (h : InSpace K blocks t others m₀ m place) {dest src count : Nat}
    (hdest : dest + count ≤ userPages * pageSize)
    (hcopy : memcpy v fuel m dest src count = some m') :
    InSpace K blocks t others m₀ m' place := by
  rw [Loader.memcpy] at hcopy
  split at hcopy
  next =>
    induction count generalizing m dest src with
    | zero =>
        cases hcopy
        exact h
    | succ count ih =>
        obtain ⟨byte, -, hcopy⟩ := Option.bind_eq_some_iff.1 hcopy
        obtain ⟨m₁, hstore, hrest⟩ := Option.bind_eq_some_iff.1 hcopy
        unfold userPages pageSize at hdest
        rw [Nat.mod_eq_of_lt (by omega)] at hstore
        refine ih (h.storeByte hv ?_ hstore) ?_ (by omega) hrest
        · unfold pageNumber userPages pageSize
          omega
        · unfold userPages pageSize
          omega
  next => cases hcopy

/-- A region below the windows is mapped to a block that was reserved for it. -/
theorem mapRegion (h : InSpace K blocks t others m₀ m place) {al : PageAllocator}
    {index k p size flags : Nat} (hreserved : Reserved m.pageAllocator al index k)
    (hroom : size ≤ 2 ^ k * pageSize)
    (hpages : ∀ q, q * pageSize < size → p + q < userPages) (huser : flags.testBit 1 = true)
    (hmap : Mmu.mapRegion fuel { m with pageAllocator := al } (p * pageSize) size
      (index * pageSize) flags = some m') :
    ∃ place', InSpace K blocks t others m₀ m' place' := by
  obtain ⟨e, htop⟩ := h.top
  have hcurrent : m.Current (.space t) := h.current
  have hmappable : ∀ q ∈ offsets size,
      Mappable blocks (.space t) ((p * pageSize + q) % 2 ^ 64) := by
    intro q hq
    obtain ⟨r, hr, rfl⟩ := List.mem_map.1 hq
    have hlt := List.mem_range.1 hr
    have hpage := hpages r (by unfold pageSize at hlt ⊢; omega)
    refine mappable_space ?_
    have hlow : (p + r) * pageSize < 2 ^ 64 := by
      unfold userPages at hpage
      unfold pageSize
      omega
    rwa [← Nat.add_mul, Nat.mod_eq_of_lt hlow, pageNumber, Nat.mul_div_cancel _ (by decide)]
  obtain ⟨place', hT, hext, hsees⟩ := h.tables.mapRegion hcurrent htop hreserved hroom hmappable
    (fun _ _ => ⟨rfl, huser⟩) hmap
  have htops : ∀ {t' e'}, place (.space t', .top) = some e' →
      place' (.space t', .top) = some e' := fun htop' => hext.tables id htop'
  refine ⟨place', hT, hext.current hcurrent, ⟨e, htops htop⟩, fun t' ht' => ?_, fun t' ht' => ?_⟩
  · obtain ⟨hne, e', htop'⟩ := h.others_top t' ht'
    exact ⟨hne, e', htops htop'⟩
  · obtain ⟨hne, e', htop'⟩ := h.others_top t' ht'
    rw [← h.others_eq t' ht', hsees t' e' htop', if_neg fun heq => hne (Owner.space.inj heq).symm]

/-- A pass that maps a segment. -/
theorem mapSegment (hr : Readable v K' m₀ start n file) (hl : Loaded v K' m₀ file i m s)
    (h : InSpace K blocks t others m₀ m place) (hi : Loads file i) (hloadable : LoadableAt file i)
    (hb : Begins m m₁ (programHeader file i) start seg)
    (hmap : mapSegment v fuel m₁ seg = some m₂) :
    ∃ place', InSpace K blocks t others m₀ m₂ place' := by
  obtain ⟨index, hplanned⟩ := hb.planned
  obtain ⟨first, hregion⟩ := hl.region hr hi hloadable hb hplanned
  obtain ⟨hfilesize, hbytes, huser⟩ := hr.wellFormed.within i hi
  obtain ⟨m₃, hmapRegion, hmap⟩ := Option.bind_eq_some_iff.1 hmap
  obtain ⟨m₄, hset, hcopy⟩ := Option.bind_eq_some_iff.1 hmap
  rw [hb.state_eq, hregion.mapPtr_eq, hplanned.frame_eq] at hmapRegion
  rw [hb.dest_eq, hb.sectionSize_eq] at hset
  rw [hb.dest_eq, hb.fileSize_eq] at hcopy
  have hroom : seg.mapSize ≤ 2 ^ m.pageAllocator.orderOf seg.sectionSize * pageSize :=
    Nat.le_of_not_lt fun hlt => Nat.lt_irrefl _ (hregion.room _ hlt)
  have hpages : ∀ q, q * pageSize < seg.mapSize → first + q < userPages := by
    intro q hq
    have hhigh := ((hregion.page_iff (first + q)).1 ⟨q, hq, rfl⟩).1.2
    unfold pageSize at hhigh huser
    omega
  obtain ⟨place', h'⟩ := h.mapRegion hplanned.reserved hroom hpages (by decide) hmapRegion
  exact ⟨place', (h'.memset hr.lawful huser hset).memcpy hr.lawful (by omega) hcopy⟩

/-- A page that is not mapped is not found. -/
theorem walk_unmapped (hspace : UserSpace K' m s) {p o : Nat} (hp : p < userPages)
    (ho : o < pageSize) (hnone : s (pageOf p) = none) : ∃ a, m.walk (p * pageSize + o) = .error a := by
  unfold userPages at hp
  unfold pageSize at ho ⊢
  have hi : p / 2 ^ 18 < 511 := by omega
  have hj : p / 2 ^ 9 % 512 < 512 := by omega
  have hk : p % 512 < 512 := by omega
  have hfirst : (p * 4096 + o) / 2 ^ 30 = p / 2 ^ 18 := by omega
  have hsecond : (p * 4096 + o) / 2 ^ 21 % 512 = p / 2 ^ 9 % 512 := by omega
  have hthird : (p * 4096 + o) / 2 ^ 12 % 512 = p % 512 := by omega
  have hlow : p * 4096 + o < lowEnd := by
    unfold lowEnd
    omega
  have htop := hspace.leads (.mid hi) hspace.top_eq
  rw [walk, if_pos hlow, walkFrom, hfirst, hsecond, hthird]
  dsimp only
  cases hmid : s (.mid (p / 2 ^ 18)) with
  | none =>
      rw [hmid] at htop
      exact ⟨.translation 1, by rw [htop]; rfl⟩
  | some f =>
      rw [hmid] at htop
      rw [htop.1.1, htop.1.2, htop.2.2]
      have hmid' := hspace.leads (.last hi hj) hmid
      cases hlast : s (.last (p / 2 ^ 18) (p / 2 ^ 9 % 512)) with
      | none =>
          rw [hlast] at hmid'
          exact ⟨.translation 2, by rw [hmid']; rfl⟩
      | some g =>
          rw [hlast] at hmid'
          have hlast' : Leads _ (s (pageOf p)) := hspace.leads (.page hi hj hk) hlast
          rw [hnone] at hlast'
          rw [hmid'.1.1, hmid'.1.2, hmid'.2.2]
          exact ⟨.translation 3, by rw [hlast']; rfl⟩

/-- The pages that a process sees are those that are mapped, and it can write to them. -/
theorem pageAt_iff (hspace : UserSpace K' m s) (h : InSpace K blocks t others m₀ m place)
    (p : Nat) :
    (pageAt m.memory t p ≠ none ↔ s (pageOf p) ≠ none) ∧
      ∀ pg, pageAt m.memory t p = some pg → pg.writable = true := by
  obtain ⟨e, htop⟩ := h.top
  have hnumber : pageNumber (p * pageSize) = p := Nat.mul_div_cancel p (by decide)
  rw [h.tables.pageAt_eq htop]
  cases hpage : place (.space t, pageOf p) with
  | none =>
      refine ⟨iff_of_false (fun hne => hne rfl) fun hne => ?_, fun pg heq => (by cases heq)⟩
      obtain ⟨f, hf⟩ := Option.ne_none_iff_exists'.1 hne
      obtain ⟨leaf, hwalk, -⟩ := hspace.walk hf (by decide : 0 < pageSize)
      have hp : pageNumber (p * pageSize) < userPages := by
        rw [hnumber]
        exact hspace.lt_of_page hf
      rw [← hnumber] at hpage
      obtain ⟨a, herror⟩ := h.tables.walk_space_none h.current htop hp hpage
      rw [Nat.add_zero, herror] at hwalk
      cases hwalk
  | some leaf =>
      have hpage' := hpage
      rw [← hnumber] at hpage'
      have hwalk := h.tables.walk_space h.current htop hpage'
      have hmapped : s (pageOf p) ≠ none := by
        intro hnone
        obtain ⟨a, herror⟩ := walk_unmapped hspace (h.tables.lt_of_page hpage)
          (by decide : 0 < pageSize) hnone
        rw [Nat.add_zero, hwalk] at herror
        cases herror
      refine ⟨iff_of_true (by simp) hmapped, fun pg heq => ?_⟩
      obtain ⟨f, hf⟩ := Option.ne_none_iff_exists'.1 hmapped
      obtain ⟨leaf', hwalk', hwritable⟩ := hspace.walk hf (by decide : 0 < pageSize)
      rw [Nat.add_zero, hwalk] at hwalk'
      obtain rfl : leaf = leaf' := (Prod.mk.inj (Except.ok.inj hwalk')).1
      rw [← Option.some.inj heq, pageOfEntry, hwritable.2]
      rfl

end InSpace

/-! ## The loop -/

variable {m' : Mmu} {elf' : ELF} {motive : Nat → Mmu → Prop}

/-- What every pass of the loop keeps holds when it ends. -/
theorem buildLoop_invariant (hr : Readable v K' m₀ start n file)
    (hkeeps : ∀ i m, motive i m → Keeps K' m₀ m ∧ m.pageAllocator.Managed)
    (hskip : ∀ i m, motive i m → ¬ Loads file i → motive (i + 1) m)
    (hpass : ∀ i m m₁ m₂ seg, motive i m → Loads file i →
      Begins m m₁ (programHeader file i) start seg → mapSegment v fuel m₁ seg = some m₂ →
      motive (i + 1) m₂) {remaining : Nat} (h : motive i m) (hi : i < headerCount file)
    (hresult : (buildLoop v fuel remaining m ⟨start, i⟩).result = some (m', elf', 0)) :
    motive (headerCount file) m' := by
  induction remaining generalizing i m with
  | zero => cases hresult
  | succ remaining ih =>
      obtain ⟨hkept, hmanaged⟩ := hkeeps i m h
      have hheader : ∀ al, ReadsHeader v { m with pageAllocator := al }
          (start + headerOffset file i) (programHeader file i) := fun al =>
        hr.readsHeader (m := { m with pageAllocator := al })
          ⟨hkept.ttbr0_eq, hkept.ttbr1_eq, hkept.memory_eq⟩ hi
      have hnext : ∀ {m₂}, motive (i + 1) m₂ →
          (Image.next v (buildLoop v fuel remaining) m₂ ⟨start, i⟩).result = some (m', elf', 0) →
          motive (headerCount file) m' := by
        intro m₂ h₂ hresult
        rw [Image.next, ELF.nextSection, hr.phcount (hkeeps _ _ h₂).1 i, Option.bind_eq_bind,
          Option.bind_some] at hresult
        by_cases hlast : i + 1 ≥ headerCount file
        · have hcount : headerCount file = i + 1 := by omega
          simp only [hlast, if_true, Nat.lt_irrefl, gt_iff_lt, decide_false] at hresult
          cases hresult
          exact hcount ▸ h₂
        · simp only [hlast, if_false, gt_iff_lt, Nat.succ_pos, decide_true] at hresult
          exact ih h₂ (Nat.lt_of_not_le hlast) hresult
      rw [Loader.buildLoop, hr.currentSection hkept rfl, Option.bind_eq_bind, Option.bind_some]
        at hresult
      split at hresult
      next => cases hresult
      next hbegin =>
        exact hnext (hskip i m h fun hload =>
          (hheader m.pageAllocator).continues hbegin hload.2) hresult
      next => cases hresult
      next m₁ seg hbegin =>
        obtain ⟨htype, hb⟩ := ReadsHeader.begins hheader hmanaged (fieldAt_lt file _ 8) hbegin
        split at hresult
        next => cases hresult
        next m₂ hmap => exact hnext (hpass i m m₁ m₂ seg h ⟨hi, htype⟩ hb hmap) hresult

/-- The segments are loaded, and the trees of all address spaces stand in memory. -/
theorem buildImage_keeps (hr : Readable v K' m₀ start n file)
    (hloadable : ∀ i, Loads file i → LoadableAt file i) (hl : Loaded v K' m₀ file 0 m s)
    (h : InSpace K blocks t others m₀ m place)
    (hresult : (buildProgramImage v fuel m (.new start)).result = some (m', elf', 0)) :
    ∃ s' place', Loaded v K' m₀ file (headerCount file) m' s' ∧
      InSpace K blocks t others m₀ m' place' := by
  rw [buildProgramImage] at hresult
  split at hresult
  next => cases hresult
  next => cases hresult
  next =>
    refine buildLoop_invariant hr (motive := fun i m => ∃ s place, Loaded v K' m₀ file i m s ∧
        InSpace K blocks t others m₀ m place) ?_ ?_ ?_ ⟨s, place, hl, h⟩ hr.wellFormed.nonempty
      hresult
    · intro i m hinv
      obtain ⟨s, place, hl, -⟩ := hinv
      exact ⟨hl.keeps, hl.space.managed⟩
    · intro i m hinv hnot
      obtain ⟨s, place, hl, h⟩ := hinv
      exact ⟨s, place, hl.skip hnot, h⟩
    · intro i m m₁ m₂ seg hinv hload hb hmap
      obtain ⟨s, place, hl, h⟩ := hinv
      obtain ⟨s', hl'⟩ := hl.mapSegment hr hload (hloadable i hload) hb hmap
      obtain ⟨place', h'⟩ := h.mapSegment hr hl hload (hloadable i hload) hb hmap
      exact ⟨s', place', hl', h'⟩

end CrosKernel.Loader
