import CrosKernel.Memory.SpaceRegions

/-!
# A new address space

`initializeTopTable` maps a page of the kernel half to the page frame of the new table, writes the
entries through it and maps the page back. The new address space has no pages, and the others stay as
they are: `Tables.createAddressSpace`.
-/

namespace CrosKernel.Memory

open Lib PageTableEntry UserNode

namespace Mmu

/-- The tables that lead to the page at `scratchAddr` are not in `blocks`, and the page is: it stands
for whatever page frame it was mapped to last. -/
structure ScratchOpen (blocks : Set UserNode) : Prop where
  mid : .mid 510 ∉ blocks
  last : .last 510 511 ∉ blocks
  page : .page 510 511 511 ∈ blocks

variable {K : Set Nat} {blocks : Set UserNode} {m m' : Mmu}
  {place place' : SpaceNode → Option PageTableEntry}
  {e e' : PageTableEntry} {f i t fuel flags frame : Nat} {is : List Nat}

theorem current_kernel (m : Mmu) : m.Current .kernel := trivial

/-- Where `scratchAddr` lies in the kernel half. -/
theorem pageIn_scratchAddr : pageIn .kernel scratchAddr = 510 * 2 ^ 18 + 511 * 2 ^ 9 + 511 := by
  decide

theorem inPages_scratchAddr (hs : ScratchOpen blocks) : InPages blocks .kernel scratchAddr where
  base_le := by decide
  lt := by decide
  opened := by
    rw [pageIn_scratchAddr]
    exact ⟨.kernel (.mid (by decide)) hs.mid, .kernel (.last (by decide) (by decide)) hs.last⟩

namespace Tables

/-- The page at `scratchAddr` is mapped to a page frame. -/
theorem setScratch (h : Tables K blocks m place) (hs : ScratchOpen blocks)
    (hset : Mmu.setPageEntry fuel m 0 scratchAddr frame PAGE_RW = some m') :
    ∃ place' e, Tables K blocks m' place' ∧ Extends m place m' place' ∧
      place' (.kernel, .last 510 511) = some e ∧ (∀ n, n.2.IsPage → place' n = place n) ∧
      m'.memory e.outputAddress 511 = .pageDescriptor frame PAGE_RW := by
  obtain ⟨e₀, htop, -⟩ := h.kernel
  obtain ⟨m₁, place₁, e₂, h₁, hext, hlast, hpages, rfl⟩ :=
    h.setPageEntry (current_kernel m) htop (inPages_scratchAddr hs) hset
  rw [pageIn_scratchAddr] at hlast ⊢
  refine ⟨place₁, e₂, ?_, ?_, hlast, hpages, ?_⟩
  · refine h₁.set_blocked ?_ hs.page hlast ⟨rfl, fun hpage => absurd trivial hpage⟩
    exact .page (by decide) (by decide) (by decide)
  · have hentry : Entry (.last 510 511) 511 (.page 510 511 511) :=
      .page (by decide) (by decide) (by decide)
    exact hext.trans (extends_set h₁ hlast hentry trivial fun _ _ => rfl)
  · exact (set_memory ..).trans (if_pos ⟨rfl, rfl⟩)

/-- A write through the page at `scratchAddr`. -/
theorem write_scratch (h : Tables K blocks m place) (hs : ScratchOpen blocks)
    (hlast : place (.kernel, .last 510 511) = some e)
    (hentry : m.memory e.outputAddress 511 = .pageDescriptor (t * pageSize) PAGE_RW)
    (ht : t < 2 ^ 31) (hi : i < 512) :
    m.write (scratchAddr + 8 * i) e' = .ok (m.set t i e') := by
  have hopen := (inPages_scratchAddr hs).opened
  rw [pageIn_scratchAddr] at hopen
  change Open blocks .kernel 510 511 at hopen
  obtain ⟨e₁, hmid⟩ := h.placed.parent hopen.last hlast
  obtain ⟨e₀, htop⟩ := h.placed.parent hopen.mid hmid
  have hleads : LeadsTo _ (m.topEntry .kernel 510) _ :=
    h.topEntry (current_kernel m) htop hopen.mid
  have hleads' : LeadsTo _ (m.midEntry .kernel 510 511) _ :=
    h.midEntry (current_kernel m) htop hopen hmid
  have htopEntry : m.memory (m.top .kernel) 510 = m.topEntry .kernel 510 := rfl
  have hmidEntry : m.memory (m.topEntry .kernel 510).outputAddress 511 =
    m.midEntry .kernel 510 511 := rfl
  rw [hmid] at hleads
  rw [hlast] at hleads'
  have hva : scratchAddr + 8 * i = Half.kernel.base + (0x7FBFFFF000 + 8 * i) := by
    have hbase : scratchAddr = Half.kernel.base + 0x7FBFFFF000 := by decide
    omega
  have hfirst : (0x7FBFFFF000 + 8 * i) / 2 ^ 30 = 510 := by omega
  have hsecond : (0x7FBFFFF000 + 8 * i) / 2 ^ 21 % 512 = 511 := by omega
  have hthird : (0x7FBFFFF000 + 8 * i) / 2 ^ 12 % 512 = 511 := by omega
  have hoffset : (0x7FBFFFF000 + 8 * i) % 2 ^ 12 = 8 * i := by omega
  have hphysical : (pageDescriptor (t * pageSize) PAGE_RW).physicalAddress = t * 2 ^ 12 :=
    congrArg (· * 2 ^ 12) (PageAllocator.outputOf_page ht)
  obtain ⟨hframe, hindex⟩ := entry_of_page t hi
  have hwalk : m.walk (scratchAddr + 8 * i) =
      .ok (pageDescriptor (t * pageSize) PAGE_RW, t * 2 ^ 12 + 8 * i) := by
    rw [hva, walk_base .kernel (by omega), walkFrom, hfirst, hsecond, hthird, hoffset, htopEntry,
      hleads.2.1.1, hleads.2.1.2]
    dsimp only
    rw [hmidEntry, hleads'.2.1.1, hleads'.2.1.2, hleads'.1, hentry, hphysical]
    rfl
  rw [write, hwalk]
  dsimp only
  rw [hframe, hindex]
  rfl

/-- A page frame of `K` is written. -/
theorem with_kept (h : Tables K blocks m place) (ht : t ∈ K) (entries : Nat → PageTableEntry) :
    Tables K blocks { m with memory := Function.update m.memory t entries } place := by
  refine h.with_memory (fun n e' _ hn => Function.update_of_ne ?_ ..)
    fun f hf => Function.update_of_ne ?_ ..
  · exact fun heq => (h.apart hn).1 (heq ▸ ht)
  · rintro rfl
    exact h.free_apart f hf ht

/-- The loop of `initializeTopTable` clears entries of the page frame behind `scratchAddr`. -/
theorem clearLoop (h : Tables K blocks m place) (hs : ScratchOpen blocks)
    (hlast : place (.kernel, .last 510 511) = some e)
    (hentry : m.memory e.outputAddress 511 = .pageDescriptor (t * pageSize) PAGE_RW)
    (hlt : t < 2 ^ 31) (ht : t ∈ K) (his : ∀ i ∈ is, i < 512)
    (hloop : clearLoop fuel is m = some m') :
    m' = { m with
      memory := Function.update m.memory t fun x => if x ∈ is then .cleared else m.memory t x } := by
  induction is generalizing m with
  | nil =>
      cases hloop
      simp
  | cons i rest ih =>
      obtain ⟨m₁, hstore, hrest⟩ := Option.bind_eq_some_iff.1 hloop
      have hwrite : m.write (scratchAddr + 8 * i) .cleared = .ok (m.set t i .cleared) :=
        h.write_scratch hs hlast hentry hlt (his i List.mem_cons_self)
      cases fuel with
      | zero => cases hstore
      | succ fuel =>
          rw [store_ok hwrite] at hstore
          cases hstore
          have hne : e.outputAddress ≠ t := fun heq => (h.apart hlast).1 (heq ▸ ht)
          have h₁ : Tables K blocks (m.set t i .cleared) place := h.with_kept ht _
          have hentry₁ : (m.set t i .cleared).memory e.outputAddress 511 =
              .pageDescriptor (t * pageSize) PAGE_RW := by
            rw [set_memory, if_neg fun hand => hne hand.1, hentry]
          rw [ih h₁ hentry₁ (fun j hj => his j (List.mem_cons_of_mem i hj)) hrest]
          show ({ m with memory := _ } : Mmu) = _
          congr 1
          funext f
          by_cases hf : f = t
          · subst hf
            funext x
            rw [Function.update_self, Function.update_self, set_memory]
            by_cases hx : x = i
            · simp [hx]
            · simp [hx]
          · rw [Function.update_of_ne hf, Function.update_of_ne hf]
            exact Function.update_of_ne hf ..

/-- A new top table stands in a page frame of `K`. -/
theorem add_root (h : Tables K blocks m place) (ht : t ∈ K) (hlt : t < 2 ^ 31)
    (hself : m.memory t 511 = .tableDescriptor (t * pageSize))
    (hcleared : ∀ x < 511, m.memory t x = .cleared) :
    Tables (K \ {t}) blocks m
      (Function.update place (.space t, .top) (some (.tableDescriptor (t * pageSize)))) := by
  have hframe : (tableDescriptor (t * pageSize)).outputAddress = t :=
    PageAllocator.outputOf_page hlt
  have hfresh : ∀ {n e}, place n = some e → e.outputAddress ≠ t := fun hn heq =>
    (h.apart hn).1 (heq ▸ ht)
  have hroot : place (.space t, .top) = none := by
    cases htop : place (.space t, .top) with
    | none => rfl
    | some e => exact absurd (h.space htop) (hfresh htop)
  have hold : ∀ {n e}, n ≠ (.space t, .top) →
      Function.update place (.space t, .top) (some (tableDescriptor (t * pageSize))) n = some e →
      place n = some e := by
    intro n e hne hn
    rwa [Function.update_of_ne hne] at hn
  constructor
  · refine h.placed.add_root (fun n x hedge => hedge.ne_top rfl) hroot (fun hn => ?_) ?_
    · rw [hframe]
      exact hfresh hn
    · intro y d hedge
      have hentry := hedge.entry.2
      cases d with
      | mk o d =>
          cases hentry with
          | mid hi =>
              rw [hframe, hcleared y hi]
              rfl
  · intro o c e hn
    by_cases hne : (o, c) = (.space t, .top)
    · cases hne
      exact .inl rfl
    · exact h.reached (hold hne hn)
  · intro o e hn
    by_cases hne : (o, UserNode.top) = (.space t, .top)
    · cases hne
      rw [Function.update_self] at hn
      cases hn
      rw [hframe]
      exact ⟨hself, isTable_tableDescriptor _, writable_tableDescriptor _, rfl⟩
    · exact h.self (hold hne hn)
  · obtain ⟨e, hkernel, heq⟩ := h.kernel
    exact ⟨e, (Function.update_of_ne (fun heq => by cases heq) ..).trans hkernel, heq⟩
  · intro t' e hn
    by_cases hne : (Owner.space t', UserNode.top) = (.space t, .top)
    · cases hne
      rw [Function.update_self] at hn
      cases hn
      exact hframe
    · exact h.space (hold hne hn)
  · exact fun hentry hmem hn => h.blocked hentry hmem (hold (fun heq => by cases heq) hn)
  · intro n e hn
    by_cases hne : n = (.space t, .top)
    · subst hne
      rw [Function.update_self] at hn
      cases hn
      rw [hframe]
      exact ⟨fun hmem => hmem.2 rfl, fun hfree => h.free_apart t hfree ht⟩
    · have happart := h.apart (hold hne hn)
      exact ⟨fun hmem => happart.1 hmem.1, happart.2⟩
  · exact h.managed
  · exact fun f hf hmem => h.free_apart f hf hmem.1
  · exact h.free_cleared

/-- The top table of the kernel half alone. -/
theorem kernel_root {blocks : Set UserNode} (hlt : m.ttbr1 < 2 ^ 31)
    (hself : m.memory m.ttbr1 511 = .tableDescriptor (m.ttbr1 * pageSize))
    (hcleared : ∀ x < 511, m.memory m.ttbr1 x = .cleared) (hmanaged : m.pageAllocator.Managed)
    (hfree : ∀ f ∈ m.pageAllocator.freePages, f ≠ m.ttbr1 ∧ ∀ x < 512, m.memory f x = .cleared) :
    Tables {f | f ∉ m.pageAllocator.freePages ∧ f ≠ m.ttbr1} blocks m
      (Function.update (fun _ => none) (.kernel, .top)
        (some (.tableDescriptor (m.ttbr1 * pageSize)))) := by
  have hframe : (tableDescriptor (m.ttbr1 * pageSize)).outputAddress = m.ttbr1 :=
    PageAllocator.outputOf_page hlt
  have hcases : ∀ {n e}, Function.update (fun _ => none) (.kernel, .top)
      (some (tableDescriptor (m.ttbr1 * pageSize))) n = some e →
      n = ((.kernel, .top) : SpaceNode) ∧ e = .tableDescriptor (m.ttbr1 * pageSize) := by
    intro n e hn
    by_cases hne : n = (.kernel, .top)
    · subst hne
      rw [Function.update_self] at hn
      exact ⟨rfl, (Option.some.inj hn).symm⟩
    · rw [Function.update_of_ne hne] at hn
      cases hn
  have hempty : Placed (Edge blocks) outputAddress LeadsTo m.memory fun _ => none :=
    ⟨fun hn => (by cases hn), fun _ hn => (by cases hn), fun _ hn => (by cases hn)⟩
  constructor
  · refine hempty.add_root (fun n x hedge => hedge.ne_top rfl) rfl (fun hn => by cases hn) ?_
    intro y d hedge
    cases hedge with
    | kernel hentry =>
        cases hentry with
        | mid hi =>
            rw [hframe, hcleared y hi]
            rfl
  · exact fun hn => .inl (congrArg Prod.snd (hcases hn).1)
  · intro o e hn
    rw [(hcases hn).2, hframe]
    exact ⟨hself, isTable_tableDescriptor _, writable_tableDescriptor _, rfl⟩
  · exact ⟨_, Function.update_self .., hframe⟩
  · exact fun hn => by cases (hcases hn).1
  · intro n x c e hentry _ hn
    obtain ⟨hnode, rfl⟩ := hcases hn
    cases hnode
    cases hentry with
    | mid hi =>
        rw [hframe, hcleared x hi]
        exact ⟨rfl, fun _ => rfl⟩
  · intro n e hn
    rw [(hcases hn).2, hframe]
    exact ⟨fun hmem => hmem.2 rfl, fun hmem => (hfree _ hmem).1 rfl⟩
  · exact hmanaged
  · exact fun f hf hmem => hmem.1 hf
  · exact fun f hf => (hfree f hf).2

/-- Whoever has a node has a top table. -/
theorem exists_top (h : Tables K blocks m place) {o : Owner} {c : UserNode}
    (hc : place (o, c) = some e) : ∃ e', place (o, .top) = some e' := by
  have hparent : ∀ {c e}, place (o, c) = some e → c ≠ .top →
      ∃ n x e', Entry n x c ∧ place (o, n) = some e' := by
    intro c e hc hne
    obtain ⟨n, x, hedge⟩ := (h.reached hc).resolve_left hne
    obtain ⟨e', hn⟩ := h.placed.parent hedge hc
    exact ⟨n, x, e', hedge.entry.2, hn⟩
  have hmid : ∀ {i e}, place (o, .mid i) = some e → ∃ e', place (o, .top) = some e' := by
    intro i e hc
    obtain ⟨n, x, e', hentry, hn⟩ := hparent hc UserNode.noConfusion
    cases hentry
    exact ⟨e', hn⟩
  have hlast : ∀ {i j e}, place (o, .last i j) = some e → ∃ e', place (o, .top) = some e' := by
    intro i j e hc
    obtain ⟨n, x, e', hentry, hn⟩ := hparent hc UserNode.noConfusion
    cases hentry
    exact hmid hn
  cases c with
  | top => exact ⟨e, hc⟩
  | mid i => exact hmid hc
  | last i j => exact hlast hc
  | page i j k =>
      obtain ⟨n, x, e', hentry, hn⟩ := hparent hc UserNode.noConfusion
      cases hentry
      exact hlast hn

/-- A page frame of `K` is no top table, so nothing belongs to it. -/
theorem space_eq_none (h : Tables K blocks m place) (ht : t ∈ K) (c : UserNode) :
    place (.space t, c) = none := by
  cases hc : place (.space t, c) with
  | none => rfl
  | some e =>
      obtain ⟨e', htop⟩ := h.exists_top hc
      exact absurd ht (h.space htop ▸ (h.apart htop).1)

/-- The page frame `t` of `K` becomes the top table of a new address space. -/
theorem initializeTopTable (h : Tables K blocks m place) (hs : ScratchOpen blocks) (ht : t ∈ K)
    (hlt : t < 2 ^ 31) (hinit : initializeTopTable fuel m (t * pageSize) = some m') :
    ∃ place' e, Tables (K \ {t}) blocks m' place' ∧ Extends m place m' place' ∧
      place' (.space t, .top) = some e ∧ (∀ n, n.2.IsPage → place' n = place n) ∧
        ∀ c, c ≠ .top → place' (.space t, c) = none := by
  obtain ⟨buffer, -, hinit⟩ := Option.bind_eq_some_iff.1 hinit
  obtain ⟨m₁, hset, hinit⟩ := Option.bind_eq_some_iff.1 hinit
  obtain ⟨m₂, hloop, hinit⟩ := Option.bind_eq_some_iff.1 hinit
  obtain ⟨m₃, hmake, hback⟩ := Option.bind_eq_some_iff.1 hinit
  obtain ⟨place₁, e₁, h₁, hext₁, hlast₁, hpages₁, hentry₁⟩ := h.setScratch hs hset
  have hm₂ := h₁.clearLoop hs hlast₁ hentry₁ hlt ht (fun i hi => by
    have hlt := List.mem_range.1 hi
    omega) hloop
  have hne : e₁.outputAddress ≠ t := fun heq => (h₁.apart hlast₁).1 (heq ▸ ht)
  -- every state until the page is mapped back differs only in the page frame `t`
  have hwrite : ∀ (entries : Nat → PageTableEntry) (e : PageTableEntry),
      ({ m₁ with memory := Function.update m₁.memory t entries } : Mmu).write
        (scratchAddr + 8 * 511) e =
      .ok { m₁ with memory := Function.update m₁.memory t (Function.update entries 511 e) } := by
    intro entries e
    have hentry : ({ m₁ with memory := Function.update m₁.memory t entries } : Mmu).memory
        e₁.outputAddress 511 = .pageDescriptor (t * pageSize) PAGE_RW := by
      rw [← hentry₁]
      exact congrFun (Function.update_of_ne hne ..) 511
    rw [(h₁.with_kept ht entries).write_scratch hs hlast₁ hentry hlt (by decide), set]
    simp
  obtain ⟨m₂', hclear, hmake⟩ := Option.bind_eq_some_iff.1 hmake
  cases fuel with
  | zero => cases hclear
  | succ fuel =>
      rw [hm₂, store_ok (hwrite _ _)] at hclear
      cases hclear
      rw [hwrite] at hmake
      cases hmake
      obtain ⟨place₃, e₃, h₃, hext₃, hlast₃, hpages₃, -⟩ := (h₁.with_kept ht _).setScratch hs hback
      have hmemory : m'.memory t = _ := hext₃.memory_eq t fun n e _ hn heq =>
        (h₃.apart hn).1 (heq ▸ ht)
      have hroot := h₃.add_root ht hlt (by rw [hmemory]; simp) (fun x hx => by
        rw [hmemory]
        have hne : x ≠ 511 := by omega
        simp [hne, hx])
      refine ⟨_, _, hroot, ?_, Function.update_self .., fun n hn => ?_, fun c hc => ?_⟩
      · have hnot : ∀ {n e}, place₃ n = some e → n ≠ (.space t, .top) := by
          rintro n e hn rfl
          exact (h₃.apart hn).1 ((h₃.space hn).symm ▸ ht)
        have htables : ∀ {n e}, place₃ n = some e → Function.update place₃ (.space t, .top)
            (some (tableDescriptor (t * pageSize))) n = some e := fun hn =>
          (Function.update_of_ne (hnot hn) ..).trans hn
        refine ⟨hext₃.ttbr0_eq.trans hext₁.ttbr0_eq, hext₃.ttbr1_eq.trans hext₁.ttbr1_eq,
          hext₃.free_subset.trans hext₁.free_subset,
          fun hpage hn => htables (hext₃.tables hpage (hext₁.tables hpage hn)), fun f hf => ?_,
          fun {n c x e} hentry hpage hn hnone => ?_⟩
        swap
        · have hn₁ := hext₁.tables hentry.source_not_page hn
          have hnone₃ : place₃ (n.1, c) = none := by
            rwa [Function.update_of_ne] at hnone
            rintro heq
            obtain rfl := (Prod.mk.inj heq).2
            generalize n.2 = d at hentry
            cases hentry
          have hframe : e.outputAddress ≠ t := fun heq => (h₁.apart hn₁).1 (heq ▸ ht)
          rw [hext₃.entry_eq hentry hpage hn₁ hnone₃,
            ← hext₁.entry_eq hentry hpage hn (hext₃.eq_none hpage hnone₃)]
          exact congrFun (Function.update_of_ne hframe ..) x
        have hft : f ≠ t := by
          rintro rfl
          exact hf _ _ id (Function.update_self ..) (PageAllocator.outputOf_page hlt)
        rw [hext₃.memory_eq f fun n e hpage hn => hf n e hpage (htables hn)]
        refine (Function.update_of_ne hft ..).trans ?_
        exact hext₁.memory_eq f fun n e hpage hn => hf n e hpage (htables (hext₃.tables hpage hn))
      · rw [Function.update_of_ne, hpages₃ n hn, hpages₁ n hn]
        rintro rfl
        exact hn
      · rw [Function.update_of_ne fun heq => hc (Prod.mk.inj heq).2]
        exact h₃.space_eq_none ht c

/-- `createAddressSpace` adds the top table of an address space without pages, in a page frame that
was free. -/
theorem createAddressSpace {idCounter idCounter' : Nat} {space : Option AddressSpace}
    (h : Tables K blocks m place) (hs : ScratchOpen blocks)
    (hcreate : m.createAddressSpace fuel idCounter = some (m', idCounter', space)) :
    ∃ place', Tables K blocks m' place' ∧ Extends m place m' place' ∧
      (∀ n, n.2.IsPage → place' n = place n) ∧
      ∀ a ∈ space, ∃ t e, a.topLevelTable = t * pageSize ∧ t ∈ m.pageAllocator.freePages ∧
        place' (.space t, .top) = some e ∧ ∀ c, c ≠ .top → place' (.space t, c) = none := by
  rw [Mmu.createAddressSpace] at hcreate
  obtain hnone | ⟨al, index, hreserve, hne, hreserved, -⟩ :=
    h.managed.reserve (by decide : pageSize < 2 ^ 64)
  · rw [hnone] at hcreate
    cases hcreate
    exact ⟨place, h, .refl m place, fun _ _ => rfl, fun a ha => by cases ha⟩
  · rw [hreserve] at hcreate
    simp only [Option.bind_eq_bind, Option.bind_some, if_neg hne] at hcreate
    obtain ⟨m₁, hinit, hpure⟩ := Option.bind_eq_some_iff.1 hcreate
    cases hpure
    have hfree : index ∈ m.pageAllocator.freePages :=
      hreserved.subset (self_mem_block (index, _))
    obtain ⟨h₁, hext₁⟩ := h.reserve hreserved
    obtain ⟨place', e, h', hext', htop, hpages, hnone⟩ := h₁.initializeTopTable hs
      (.inr (self_mem_block (index, _))) (h.managed.lt_of_free hfree) hinit
    refine ⟨place', h'.mono fun f hf => ⟨.inl hf, ?_⟩, hext₁.trans hext', hpages, ?_⟩
    · rintro rfl
      exact h.free_apart f hfree hf
    · intro a ha
      cases ha
      exact ⟨index, e, rfl, hfree, htop, hnone⟩

end Tables

end Mmu

end CrosKernel.Memory
