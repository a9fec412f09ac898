import CrosKernel.Memory.SpacePages

/-!
# Mapping and unmapping in one address space

`setPageEntry` and `clearEntry` change one page of the current owner. `map_region` gives the pages of
a region page frames that were reserved for them, and `unmap_region` takes the pages away. What this
means for the pages that processes see is `Tables.mapLoop` and `Tables.unmapLoop`.
-/

namespace CrosKernel.Memory

open Lib PageTableEntry UserNode

namespace Mmu

variable {K : Set Nat} {blocks : Set UserNode} {m m' : Mmu}
  {place place' : SpaceNode → Option PageTableEntry} {o : Owner} {n n' : SpaceNode}
  {e e' : PageTableEntry} {f p r t b addr flags frame fuel : Nat} {qs : List Nat}

/-! ## One page -/

/-- The entry of a page in the window of the last level. -/
theorem entryAddress_half (o : Owner) (hp : p < userPages) (hr : r < pageSize) :
    entryAddress 0 (o.half.base + (p * pageSize + r)) = some (o.half.base +
      windowOffset (p / 2 ^ 18) (p / 2 ^ 9 % 512) (p % 512)) := by
  unfold userPages at hp
  unfold pageSize at *
  rw [entryAddress]
  cases o with
  | kernel =>
      have hhigh : highMem ≤ highMem + (p * 4096 + r) := Nat.le_add_right ..
      have hindex : (highMem + (p * 4096 + r) - highMem) / 2 ^ (12 + 9 * 0) = p := by omega
      show (if highMem ≤ highMem + (p * 4096 + r) then some (tables .kernel 2 +
        8 * ((highMem + (p * 4096 + r) - highMem) / 2 ^ (12 + 9 * 0))) else _) = _
      rw [if_pos hhigh, hindex, tables_two]
      rfl
  | space t =>
      have hlow : ¬ highMem ≤ 0 + (p * 4096 + r) := by
        unfold highMem
        omega
      have hlow' : 0 + (p * 4096 + r) < lowEnd := by
        unfold lowEnd
        omega
      have hindex : (0 + (p * 4096 + r)) / 2 ^ (12 + 9 * 0) = p := by omega
      show (if highMem ≤ 0 + (p * 4096 + r) then _ else if 0 + (p * 4096 + r) < lowEnd then
        some (tables .user 2 + 8 * ((0 + (p * 4096 + r)) / 2 ^ (12 + 9 * 0))) else none) = _
      rw [if_neg hlow, if_pos hlow', hindex, tables_two]
      rfl

/-- The number of the page that an address of the half of an owner lies in. -/
def pageIn (o : Owner) (va : Nat) : Nat := (va - o.half.base) / pageSize

/-- The address lies in the half of an owner, outside the windows and below tables that are not in
`blocks`. -/
structure InPages (blocks : Set UserNode) (o : Owner) (va : Nat) : Prop where
  base_le : o.half.base ≤ va
  lt : pageIn o va < userPages
  opened : Tables.Open blocks o (pageIn o va / 2 ^ 18) (pageIn o va / 2 ^ 9 % 512)

/-- The page of the address is not in `blocks` either. -/
structure Mappable (blocks : Set UserNode) (o : Owner) (va : Nat) : Prop extends
    InPages blocks o va where
  edge : Edge blocks (o, .last (pageIn o va / 2 ^ 18) (pageIn o va / 2 ^ 9 % 512))
    (pageIn o va % 512) (o, pageOf (pageIn o va))

theorem mappable_space {va : Nat} (hva : pageNumber va < userPages) :
    Mappable blocks (.space t) va :=
  ⟨⟨Nat.zero_le _, hva, Tables.openSpace hva⟩, Tables.edge_pageOf hva⟩

theorem InPages.entryAddress {va : Nat} (h : InPages blocks o va) : entryAddress 0 va =
    some (o.half.base + windowOffset (pageIn o va / 2 ^ 18) (pageIn o va / 2 ^ 9 % 512)
      (pageIn o va % 512)) := by
  have hr : (va - o.half.base) % pageSize < pageSize := Nat.mod_lt _ (by decide)
  have hva : o.half.base + (pageIn o va * pageSize + (va - o.half.base) % pageSize) = va := by
    rw [pageIn, Nat.div_add_mod', Nat.add_sub_cancel' h.base_le]
  have hentry := entryAddress_half o h.lt hr
  rwa [hva] at hentry

namespace Tables

theorem setPageEntry (h : Tables K blocks m place) (hc : m.Current o)
    (htop : place (o, .top) = some e) {va : Nat} (hva : InPages blocks o va)
    (hset : setPageEntry fuel m 0 va frame flags = some m') :
    ∃ m₁ place₁ e₂, Tables K blocks m₁ place₁ ∧ Extends m place m₁ place₁ ∧
      place₁ (o, .last (pageIn o va / 2 ^ 18) (pageIn o va / 2 ^ 9 % 512)) = some e₂ ∧
      (∀ n, n.2.IsPage → place₁ n = place n) ∧
      m' = m₁.set e₂.outputAddress (pageIn o va % 512) (.pageDescriptor frame flags) := by
  rw [Mmu.setPageEntry, if_neg (by decide), hva.entryAddress, Option.bind_eq_bind,
    Option.bind_some, if_pos rfl] at hset
  exact h.makeDescriptor hc htop hva.opened (Nat.mod_lt _ (by decide)) hset

theorem clearEntry (h : Tables K blocks m place) (hc : m.Current o)
    (htop : place (o, .top) = some e) {va : Nat} (hva : InPages blocks o va)
    (hclear : clearEntry fuel m 0 va = some m') :
    ∃ m₁ place₁ e₂, Tables K blocks m₁ place₁ ∧ Extends m place m₁ place₁ ∧
      place₁ (o, .last (pageIn o va / 2 ^ 18) (pageIn o va / 2 ^ 9 % 512)) = some e₂ ∧
      (∀ n, n.2.IsPage → place₁ n = place n) ∧
      m' = m₁.set e₂.outputAddress (pageIn o va % 512) .cleared := by
  rw [Mmu.clearEntry, hva.entryAddress, Option.bind_eq_bind, Option.bind_some] at hclear
  exact h.store hc htop hva.opened (Nat.mod_lt _ (by decide)) hclear

end Tables

/-- After an entry for a page is written, other pages may stand in the tree. -/
theorem extends_set {x : Nat} {c : UserNode} (h : Tables K blocks m place) (hn : place n' = some e)
    (hentry : Entry n'.2 x c) (hc : c.IsPage)
    (htables : ∀ n, ¬ n.2.IsPage → place' n = place n) :
    Extends m place (m.set e.outputAddress x e') place' where
  ttbr0_eq := rfl
  ttbr1_eq := rfl
  free_subset := subset_rfl
  tables := fun hn' hplace => (htables _ hn').trans hplace
  memory_eq := fun _ hf => Function.update_of_ne (hf n' e hentry.source_not_page
    ((htables n' hentry.source_not_page).trans hn)).symm ..
  entry_eq := by
    intro n d y e'' hentry' hd hplace _
    rw [set_memory, if_neg]
    rintro ⟨heq, rfl⟩
    obtain rfl := h.placed.injective hplace hn heq
    exact hd (hentry'.unique hentry ▸ hc)

namespace Tables

/-- The pages that stand where they stood are seen as before. -/
theorem pageAt_congr {K' : Set Nat} (h : Tables K blocks m place) (h' : Tables K' blocks m' place')
    (hext : Extends m place m' place') (htop : place (.space t, .top) = some e)
    (hsame : place' (.space t, pageOf p) = place (.space t, pageOf p)) :
    pageAt m'.memory t p = pageAt m.memory t p := by
  rw [h.pageAt_eq htop, h'.pageAt_eq (hext.tables id htop), hsame]
  cases hpage : place (.space t, pageOf p) with
  | none => rfl
  | some e' =>
      have hmemory : m'.memory e'.outputAddress = m.memory e'.outputAddress := by
        refine hext.memory_eq _ fun n e'' hn hplace heq => ?_
        obtain rfl := h'.placed.injective hplace (hsame.trans hpage) heq
        exact hn trivial
      simp only [Option.map_some, pageOfEntry, hmemory]

/-- `setPageEntry` gives a page frame of `K` to a page. -/
theorem mapPage (h : Tables K blocks m place) (hc : m.Current o) (htop : place (o, .top) = some e)
    {va : Nat} (hva : Mappable blocks o va) (hf : f ∈ K) (hlt : f < 2 ^ 31)
    (hfits : Fits (o, pageOf (pageIn o va)) (.pageDescriptor (f * pageSize) flags))
    (hset : Mmu.setPageEntry fuel m 0 va (f * pageSize) flags = some m') :
    ∃ place', Tables (K \ {f}) blocks m' place' ∧ Extends m place m' place' ∧
      place' (o, pageOf (pageIn o va)) = some (.pageDescriptor (f * pageSize) flags) ∧
      ∀ n, n.2.IsPage → n ≠ (o, pageOf (pageIn o va)) → place' n = place n := by
  obtain ⟨m₁, place₁, e₂, h₁, hext, hlast, hpages, rfl⟩ :=
    h.setPageEntry hc htop hva.toInPages hset
  have hframe : (pageDescriptor (f * pageSize) flags).outputAddress = f :=
    PageAllocator.outputOf_page hlt
  have htables : ∀ n, ¬ n.2.IsPage → Function.update place₁ (o, pageOf (pageIn o va))
      (some (pageDescriptor (f * pageSize) flags)) n = place₁ n := by
    intro n hn
    refine Function.update_of_ne ?_ ..
    rintro rfl
    exact hn trivial
  refine ⟨_, h₁.assign hva.edge hlast Set.sdiff_subset ⟨rfl, ⟨rfl, rfl⟩, hfits⟩ ?_ ?_ ?_ ?_ ?_,
    hext.trans (extends_set h₁ hlast hva.edge.entry.2 trivial htables), Function.update_self ..,
    fun n hn hne => ?_⟩
  · rw [hframe]
    exact fun hmem => hmem.2 rfl
  · rw [hframe]
    exact fun hmem => h₁.free_apart f hmem hf
  · intro n e'' hn heq
    rw [hframe] at heq
    exact (h₁.apart hn).1 (heq ▸ hf)
  · exact fun hedge => absurd trivial hedge.source_not_page
  · exact fun hpage => absurd trivial hpage
  · rw [Function.update_of_ne hne]
    exact hpages n hn

/-- `clearEntry` takes a page away. -/
theorem unmapPage (h : Tables K blocks m place) (hc : m.Current o)
    (htop : place (o, .top) = some e) {va : Nat} (hva : Mappable blocks o va)
    (hclear : Mmu.clearEntry fuel m 0 va = some m') :
    ∃ place', Tables K blocks m' place' ∧ Extends m place m' place' ∧
      place' (o, pageOf (pageIn o va)) = none ∧
      ∀ n, n.2.IsPage → n ≠ (o, pageOf (pageIn o va)) → place' n = place n := by
  obtain ⟨m₁, place₁, e₂, h₁, hext, hlast, hpages, rfl⟩ :=
    h.clearEntry hc htop hva.toInPages hclear
  have htables : ∀ n, ¬ n.2.IsPage →
      Function.update place₁ (o, pageOf (pageIn o va)) none n = place₁ n := by
    intro n hn
    refine Function.update_of_ne ?_ ..
    rintro rfl
    exact hn trivial
  refine ⟨_, h₁.unassign hva.edge hlast trivial,
    hext.trans (extends_set h₁ hlast hva.edge.entry.2 trivial htables), Function.update_self ..,
    fun n hn hne => ?_⟩
  rw [Function.update_of_ne hne]
  exact hpages n hn

end Tables

/-! ## What the processes see -/

/-- The processes see the same pages in both states, but for those of the owner, which changed. -/
def Sees (place : SpaceNode → Option PageTableEntry) (m m' : Mmu) (o : Owner)
    (change : (Nat → Option Page) → Nat → Option Page) : Prop :=
  ∀ t e, place (.space t, .top) = some e →
    pageAt m'.memory t = if o = .space t then change (pageAt m.memory t) else pageAt m.memory t

theorem Sees.refl (place : SpaceNode → Option PageTableEntry) (m : Mmu) (o : Owner) :
    Sees place m m o id := by
  intro t e _
  split <;> rfl

theorem Sees.trans {m'' : Mmu} {change change' : (Nat → Option Page) → Nat → Option Page}
    (h : Sees place m m' o change) (h' : Sees place' m' m'' o change')
    (hext : Extends m place m' place') :
    Sees place m m'' o fun pages => change' (change pages) := by
  intro t e htop
  rw [h' t e (hext.tables id htop), h t e htop]
  split <;> rfl

namespace Tables

/-- One page of the owner stands elsewhere. -/
theorem sees_update {K' : Set Nat} (h : Tables K blocks m place) (h' : Tables K' blocks m' place')
    (hext : Extends m place m' place')
    (hother : ∀ n, n.2.IsPage → n ≠ (o, pageOf p) → place' n = place n) :
    Sees place m m' o fun pages =>
      Function.update pages p ((place' (o, pageOf p)).map (pageOfEntry m.memory)) := by
  intro t e htop
  have hcongr : ∀ q, ¬ (o = .space t ∧ q = p) →
      pageAt m'.memory t q = pageAt m.memory t q := by
    intro q hne
    refine h.pageAt_congr h' hext htop (hother _ trivial fun heq => hne ?_)
    obtain ⟨ho, hq⟩ := Prod.mk.inj heq
    exact ⟨ho.symm, pageOf_inj.1 hq⟩
  split
  next ho =>
    subst ho
    ext1 q
    dsimp only
    by_cases hq : q = p
    · subst hq
      rw [Function.update_self, h'.pageAt_eq (hext.tables id htop)]
      cases hpage : place' (.space t, pageOf q) with
      | none => rfl
      | some e' =>
          -- the page frame is no table, so it was not written
          have hmemory : m'.memory e'.outputAddress = m.memory e'.outputAddress := by
            refine hext.memory_eq _ fun n e'' hn hplace heq => ?_
            obtain rfl := h'.placed.injective hplace hpage heq
            exact hn trivial
          simp only [Option.map_some, pageOfEntry, hmemory]
    · rw [Function.update_of_ne hq]
      exact hcongr q fun hand => hq hand.2
  next ho => exact funext fun q => hcongr q fun hand => ho hand.1

/-- A page frame that was cleared is a new page. -/
theorem newPage_eq (hlt : f < 2 ^ 31) (hcleared : ∀ x < 512, m.memory f x = .cleared) :
    pageOfEntry m.memory (.pageDescriptor (f * pageSize) flags) = newPage flags := by
  have hframe : (pageDescriptor (f * pageSize) flags).outputAddress = f :=
    PageAllocator.outputOf_page hlt
  refine Page.ext ?_ ?_ ?_
  · exact Bool.not_not _
  · rfl
  · funext x
    show m.memory (pageDescriptor (f * pageSize) flags).outputAddress x = .cleared
    rw [hframe]
    exact hcleared x x.isLt

/-! ## Regions -/

/-- The loop of `map_region` gives cleared page frames of `K` to pages of the owner. -/
theorem mapLoop (h : Tables K blocks m place) (hc : m.Current o) (htop : place (o, .top) = some e)
    (hpages : ∀ q ∈ qs, Mappable blocks o ((addr + q * pageSize) % 2 ^ 64))
    (hframes : ∀ q ∈ qs, b + q ∈ K ∧ b + q < 2 ^ 31 ∧ ∀ x < 512, m.memory (b + q) x = .cleared)
    (hnodup : qs.Nodup)
    (hfits : ∀ p frame, Fits (o, pageOf p) (.pageDescriptor frame flags))
    (hmap : mapLoop fuel addr (b * pageSize) flags (qs.map (· * pageSize)) m = some m') :
    ∃ place', Tables (K \ {f | ∃ q ∈ qs, f = b + q}) blocks m' place' ∧
      Extends m place m' place' ∧
      Sees place m m' o fun pages => qs.foldl (fun pages q => Function.update pages
        (pageIn o ((addr + q * pageSize) % 2 ^ 64)) (some (newPage flags))) pages := by
  induction qs generalizing m K place with
  | nil =>
      cases hmap
      refine ⟨place, ?_, .refl .., Sees.refl _ _ _⟩
      simpa using h
  | cons q rest ih =>
      obtain ⟨hnot, hnodup⟩ := List.nodup_cons.1 hnodup
      obtain ⟨hf, hlt, hcleared⟩ := hframes q List.mem_cons_self
      obtain ⟨m₁, hset, hrest⟩ := Option.bind_eq_some_iff.1 hmap
      have hframe : (b * pageSize + q * pageSize) % 2 ^ 64 = (b + q) * pageSize := by
        rw [← Nat.add_mul]
        exact Nat.mod_eq_of_lt (by unfold pageSize; omega)
      rw [hframe] at hset
      obtain ⟨place₁, h₁, hext₁, hpage, hother⟩ :=
        h.mapPage hc htop (hpages q List.mem_cons_self) hf hlt (hfits _ _) hset
      have hsees := h.sees_update h₁ hext₁ hother
      rw [hpage, Option.map_some, newPage_eq hlt hcleared] at hsees
      obtain ⟨place', h', hext', hsees'⟩ := ih h₁ (hext₁.current hc) (hext₁.tables id htop)
        (fun r hr => hpages r (List.mem_cons_of_mem q hr)) (fun r hr => by
          obtain ⟨hmem, hlt', hcleared'⟩ := hframes r (List.mem_cons_of_mem q hr)
          have hne : b + r ≠ b + q := by
            intro heq
            obtain rfl : r = q := by omega
            exact hnot hr
          refine ⟨⟨hmem, hne⟩, hlt', fun x hx => ?_⟩
          rw [hext₁.memory_eq _ fun n e' _ hn heq => ?_]
          · exact hcleared' x hx
          · exact (h₁.apart hn).1 (heq ▸ ⟨hmem, hne⟩)) hnodup hrest
      refine ⟨place', ?_, hext₁.trans hext', Sees.trans hsees hsees' hext₁⟩
      have hset : (K \ {b + q}) \ {f | ∃ r ∈ rest, f = b + r} =
          K \ {f | ∃ r ∈ q :: rest, f = b + r} := by
        ext f
        simp only [Set.mem_sdiff, Set.mem_singleton_iff, Set.mem_ofPred_eq, List.mem_cons,
          exists_eq_or_imp, not_or]
        exact and_assoc
      rwa [hset] at h'

/-- The loop of `unmap_region` takes pages of the owner away. -/
theorem unmapLoop (h : Tables K blocks m place) (hc : m.Current o)
    (htop : place (o, .top) = some e)
    (hpages : ∀ q ∈ qs, Mappable blocks o ((addr + q * pageSize) % 2 ^ 64))
    (hunmap : unmapLoop fuel addr (qs.map (· * pageSize)) m = some m') :
    ∃ place', Tables K blocks m' place' ∧ Extends m place m' place' ∧
      Sees place m m' o fun pages => qs.foldl (fun pages q => Function.update pages
        (pageIn o ((addr + q * pageSize) % 2 ^ 64)) none) pages := by
  induction qs generalizing m place with
  | nil =>
      cases hunmap
      exact ⟨place, h, .refl .., Sees.refl _ _ _⟩
  | cons q rest ih =>
      obtain ⟨m₁, hclear, hrest⟩ := Option.bind_eq_some_iff.1 hunmap
      obtain ⟨place₁, h₁, hext₁, hpage, hother⟩ :=
        h.unmapPage hc htop (hpages q List.mem_cons_self) hclear
      have hsees := h.sees_update h₁ hext₁ hother
      rw [hpage, Option.map_none] at hsees
      obtain ⟨place', h', hext', hsees'⟩ := ih h₁ (hext₁.current hc) (hext₁.tables id htop)
        (fun r hr => hpages r (List.mem_cons_of_mem q hr)) hrest
      exact ⟨place', h', hext₁.trans hext', Sees.trans hsees hsees' hext₁⟩

/-- Fewer page frames are kept. -/
theorem mono {K' : Set Nat} (h : Tables K blocks m place) (hK : K' ⊆ K) :
    Tables K' blocks m place :=
  h.with_allocator h.managed subset_rfl (fun _ hf => .inl (hK hf))
    (fun f hf hmem => h.free_apart f hf (hK hmem)) m.tableFrames

/-- A block of page frames was reserved, and is kept. -/
theorem reserve {a : PageAllocator} {index k : Nat} (h : Tables K blocks m place)
    (hreserved : PageAllocator.Reserved m.pageAllocator a index k) :
    Tables (K ∪ block (index, k)) blocks { m with pageAllocator := a } place ∧
      Extends m place { m with pageAllocator := a } place := by
  have hsub : a.freePages ⊆ m.pageAllocator.freePages := by
    rw [hreserved.freePages_eq]
    exact Set.sdiff_subset
  refine ⟨h.with_allocator hreserved.managed hsub
    (fun f hf => hf.imp_right fun hmem => hreserved.subset hmem) (fun f hf hmem => ?_)
    m.tableFrames, rfl, rfl, hsub, fun _ hn => hn, fun _ _ => rfl, fun _ _ _ _ => rfl⟩
  obtain hK | hblock := hmem
  · exact h.free_apart f (hsub hf) hK
  · rw [hreserved.freePages_eq] at hf
    exact hf.2 hblock

/-- A region is mapped to the block of page frames that was reserved for it. -/
theorem mapRegion {a : PageAllocator} {index k size : Nat} (h : Tables K blocks m place)
    (hc : m.Current o) (htop : place (o, .top) = some e)
    (hreserved : PageAllocator.Reserved m.pageAllocator a index k)
    (hsize : size ≤ 2 ^ k * pageSize)
    (hpages : ∀ p ∈ offsets size, Mappable blocks o ((addr + p) % 2 ^ 64))
    (hfits : ∀ p frame, Fits (o, pageOf p) (.pageDescriptor frame flags))
    (hmap : mapRegion fuel { m with pageAllocator := a } addr size (index * pageSize) flags =
      some m') :
    ∃ place', Tables K blocks m' place' ∧ Extends m place m' place' ∧
      Sees place m m' o fun pages => (offsets size).foldl (fun pages p => Function.update pages
        (pageIn o ((addr + p) % 2 ^ 64)) (some (newPage flags))) pages := by
  obtain ⟨h₁, hext₁⟩ := h.reserve hreserved
  have hfree : ∀ q ∈ List.range ((size + pageSize - 1) / pageSize),
      index + q ∈ block (index, k) := by
    intro q hq
    have hlt := List.mem_range.1 hq
    refine (mem_block_iff hreserved.aligned).2 ⟨Nat.le_add_right .., ?_⟩
    unfold pageSize at *
    omega
  have hmappable : ∀ q ∈ List.range ((size + pageSize - 1) / pageSize), _ := fun q hq =>
    hpages _ (List.mem_map.2 ⟨q, hq, rfl⟩)
  obtain ⟨place', h', hext', hsees⟩ := h₁.mapLoop (hext₁.current hc) htop (b := index) hmappable
    (fun q hq => ⟨.inr (hfree q hq), h.managed.lt_of_free (hreserved.subset (hfree q hq)),
      h.free_cleared _ (hreserved.subset (hfree q hq))⟩) List.nodup_range hfits hmap
  refine ⟨place', h'.mono fun f hf => ⟨.inl hf, ?_⟩, hext₁.trans hext', ?_⟩
  · rintro ⟨q, hq, rfl⟩
    exact h.free_apart _ (hreserved.subset (hfree q hq)) hf
  · intro t e' htop'
    simp only [hsees t e' htop', offsets, List.foldl_map]

/-- A region is unmapped. -/
theorem unmapRegion {size : Nat} (h : Tables K blocks m place) (hc : m.Current o)
    (htop : place (o, .top) = some e)
    (hpages : ∀ p ∈ offsets size, Mappable blocks o ((addr + p) % 2 ^ 64))
    (hunmap : unmapRegion fuel m addr size = some m') :
    ∃ place', Tables K blocks m' place' ∧ Extends m place m' place' ∧
      Sees place m m' o fun pages => (offsets size).foldl (fun pages p => Function.update pages
        (pageIn o ((addr + p) % 2 ^ 64)) none) pages := by
  obtain ⟨place', h', hext', hsees⟩ := h.unmapLoop hc htop
    (fun q hq => hpages _ (List.mem_map.2 ⟨q, hq, rfl⟩)) hunmap
  refine ⟨place', h', hext', fun t e' htop' => ?_⟩
  simp only [hsees t e' htop', offsets, List.foldl_map]

end Tables

end Mmu

end CrosKernel.Memory
