import CrosKernel.Memory.KernelHalf
import CrosKernel.Memory.PageFaults

/-!
# The pages of the user half

The tables of the user half and the pages that are mapped in it form a tree: an entry of a table
leads to a table of the next level or to a page. `UserSpace` says that the tree stands in memory,
with a page frame of its own for every node. `setPageEntry` adds a page to it, with the tables that
the page fault handler adds, and `map_region` the pages of a region.
-/

namespace CrosKernel.Memory

open PageTableEntry

/-! ## The tree -/

/-- A table of the user half or a page that is mapped in it, by the entries that lead there. -/
inductive UserNode where
  | top
  | mid (i : Nat)
  | last (i j : Nat)
  | page (i j k : Nat)
  deriving DecidableEq

namespace UserNode

/-- The entry `x` of the table `n` is the one that leads to `c`. -/
inductive Entry : UserNode → Nat → UserNode → Prop where
  | mid {i : Nat} : i < 511 → Entry .top i (.mid i)
  | last {i j : Nat} : i < 511 → j < 512 → Entry (.mid i) j (.last i j)
  | page {i j k : Nat} : i < 511 → j < 512 → k < 512 → Entry (.last i j) k (.page i j k)

variable {n n' c c' : UserNode} {x x' : Nat}

theorem Entry.unique (h : Entry n x c) (h' : Entry n x c') : c = c' := by
  cases h <;> cases h' <;> rfl

theorem Entry.source_unique (h : Entry n x c) (h' : Entry n' x' c) : n = n' ∧ x = x' := by
  cases h <;> cases h' <;> exact ⟨rfl, rfl⟩

theorem Entry.ne (h : Entry n x c) : n ≠ c := by
  cases h <;> exact UserNode.noConfusion

theorem Entry.lt (h : Entry n x c) : x < 512 := by
  cases h <;> omega

/-- The page with this number. -/
def pageOf (p : Nat) : UserNode := .page (p / 2 ^ 18) (p / 2 ^ 9 % 512) (p % 512)

theorem pageOf_inj {p q : Nat} : pageOf p = pageOf q ↔ p = q := by
  constructor
  · intro h
    injection h with hi hj hk
    omega
  · exact congrArg pageOf

end UserNode

open UserNode

/-- Where an entry leads. -/
def Leads (e : PageTableEntry) : Option Nat → Prop
  | none => e.present = false
  | some f => e.IsTable ∧ e.Writable ∧ e.outputAddress = f

/-- What `getPageFrame` makes of such an entry. -/
theorem Leads.frame_eq {e : PageTableEntry} {target : Option Nat} (h : Leads e target) :
    e.frame = target.getD 0 * pageSize := by
  rw [PageTableEntry.frame]
  cases target with
  | none =>
      rw [if_neg (ne_of_eq_of_ne h Bool.false_ne_true)]
      rfl
  | some f =>
      rw [if_pos h.1.1]
      exact congrArg (· * 4096) h.2.2

namespace Mmu

variable {m m' : Mmu} {K : Set Nat} {s : UserNode → Option Nat} {n c : UserNode}
  {e : PageTableEntry} {f g i j k x fuel : Nat} {al : PageAllocator}

/-- The tables and pages of the user half stand in the page frames that `s` gives, none of which is
free or among those of `K`. Nothing was left in the free page frames. -/
structure UserSpace (K : Set Nat) (m : Mmu) (s : UserNode → Option Nat) : Prop where
  self : m.SelfMapped .user
  managed : m.pageAllocator.Managed
  top_eq : s .top = some m.ttbr0
  injective : ∀ {n n' f}, s n = some f → s n' = some f → n = n'
  parent : ∀ {n x c f}, Entry n x c → s c = some f → ∃ g, s n = some g
  reached : ∀ {c f}, s c = some f → c = .top ∨ ∃ n x, Entry n x c
  leads : ∀ {n x c f}, Entry n x c → s n = some f → Leads (m.memory f x) (s c)
  apart : ∀ {n f}, s n = some f → f ∉ K ∧ f ∉ m.pageAllocator.freePages
  page_ne_zero : ∀ {i j k f}, s (.page i j k) = some f → f ≠ 0
  free_apart : ∀ f ∈ m.pageAllocator.freePages, f ∉ K ∧ f ≠ 0
  free_cleared : ∀ f ∈ m.pageAllocator.freePages, ∀ x < 512, (m.memory f x).present = false

/-- A page frame that was reserved and is not used yet. -/
structure Unused (K : Set Nat) (m : Mmu) (s : UserNode → Option Nat) (f : Nat) : Prop where
  not_mem : f ∉ K
  ne_zero : f ≠ 0
  not_free : f ∉ m.pageAllocator.freePages
  no_node : ∀ n, s n ≠ some f

/-- The state after some free page frames were reserved. -/
theorem UserSpace.with_allocator (h : UserSpace K m s) (hal : al.Managed)
    (hsub : al.freePages ⊆ m.pageAllocator.freePages) (frames : List Nat) :
    UserSpace K { m with pageAllocator := al, tableFrames := frames } s where
  self := ⟨h.self.isTable, h.self.writable, h.self.outputAddress_eq⟩
  managed := hal
  top_eq := h.top_eq
  injective := h.injective
  parent := h.parent
  reached := h.reached
  leads := h.leads
  apart := fun hn => ⟨(h.apart hn).1, fun hf => (h.apart hn).2 (hsub hf)⟩
  page_ne_zero := h.page_ne_zero
  free_apart := fun f hf => h.free_apart f (hsub hf)
  free_cleared := fun f hf => h.free_cleared f (hsub hf)

/-- A page frame that was free before. -/
theorem UserSpace.unused (h : UserSpace K m s) (hf : f ∈ m.pageAllocator.freePages)
    (hal : f ∉ al.freePages) (frames : List Nat) :
    Unused K { m with pageAllocator := al, tableFrames := frames } s f where
  not_mem := (h.free_apart f hf).1
  ne_zero := (h.free_apart f hf).2
  not_free := hal
  no_node := fun _ hn => (h.apart hn).2 hf

/-! ## A new node -/

/-- An entry of a table is written that leads nowhere so far, and then to an unused page frame. -/
theorem UserSpace.link (h : UserSpace K m s) (hentry : Entry n x c) (hn : s n = some f)
    (hc : s c = none) (hg : Unused K m s g) (he : Leads e (some g))
    (hcleared : ∀ y d, Entry c y d → (m.memory g y).present = false) :
    UserSpace K (m.set f x e) (Function.update s c (some g)) := by
  have hfg : g ≠ f := fun heq => hg.no_node n (heq ▸ hn)
  have hold : ∀ {d f'}, Function.update s c (some g) d = some f' → d ≠ c → s d = some f' := by
    intro d f' hd hdc
    rwa [Function.update_of_ne hdc] at hd
  constructor
  · -- the last entry of the top table is another one
    refine h.self.set ?_
    rintro ⟨heq, hx⟩
    obtain rfl : n = .top := h.injective hn (h.top_eq.trans (congrArg some heq))
    cases hentry
    omega
  · exact h.managed
  · rw [Function.update_of_ne, h.top_eq]
    · rfl
    · rintro rfl
      rw [h.top_eq] at hc
      cases hc
  · intro d d' f' hd hd'
    by_cases hdc : d = c
    · subst hdc
      rw [Function.update_self] at hd
      cases hd
      by_contra hne'
      exact hg.no_node d' (hold hd' fun heq => hne' heq.symm)
    · by_cases hdc' : d' = c
      · subst hdc'
        rw [Function.update_self] at hd'
        cases hd'
        exact absurd (hold hd hdc) (hg.no_node d)
      · exact h.injective (hold hd hdc) (hold hd' hdc')
  · intro d y d' f' hentry' hd'
    by_cases hdc : d = c
    · subst hdc
      exact ⟨g, Function.update_self ..⟩
    · rw [Function.update_of_ne hdc]
      by_cases hdc' : d' = c
      · subst hdc'
        obtain ⟨rfl, -⟩ := hentry.source_unique hentry'
        exact ⟨f, hn⟩
      · exact h.parent hentry' (hold hd' hdc')
  · intro d f' hd
    by_cases hdc : d = c
    · subst hdc
      exact .inr ⟨n, x, hentry⟩
    · exact h.reached (hold hd hdc)
  · intro d y d' f' hentry' hd
    rw [set_memory]
    by_cases hdc : d = c
    · -- the entries of the new table
      subst hdc
      rw [Function.update_self] at hd
      cases hd
      have hnone : s d' = none := by
        cases hd' : s d' with
        | none => rfl
        | some f' =>
            obtain ⟨g', hparent⟩ := h.parent hentry' hd'
            rw [hc] at hparent
            cases hparent
      rw [if_neg fun hand => hfg hand.1, Function.update_of_ne hentry'.ne.symm, hnone]
      exact hcleared y d' hentry'
    · have hold' := hold hd hdc
      split
      next heq =>
        obtain ⟨rfl, rfl⟩ := heq
        obtain rfl := h.injective hold' hn
        obtain rfl := hentry.unique hentry'
        rwa [Function.update_self]
      next heq =>
        have hdc' : d' ≠ c := by
          rintro rfl
          obtain ⟨rfl, rfl⟩ := hentry.source_unique hentry'
          rw [hn] at hold'
          cases hold'
          exact heq ⟨rfl, rfl⟩
        rw [Function.update_of_ne hdc']
        exact h.leads hentry' hold'
  · intro d f' hd
    by_cases hdc : d = c
    · subst hdc
      rw [Function.update_self] at hd
      cases hd
      exact ⟨hg.not_mem, hg.not_free⟩
    · exact h.apart (hold hd hdc)
  · intro i j k f' hd
    by_cases hdc : .page i j k = c
    · subst hdc
      rw [Function.update_self] at hd
      cases hd
      exact hg.ne_zero
    · exact h.page_ne_zero (hold hd hdc)
  · exact h.free_apart
  · intro f' hf' y hy
    have hne' : f' ≠ f := fun heq => (h.apart hn).2 (heq ▸ hf')
    rw [set_memory, if_neg fun hand => hne' hand.1]
    exact h.free_cleared f' hf' y hy

/-- An entry that leads nowhere is cleared. -/
theorem UserSpace.clear (h : UserSpace K m s) (hentry : Entry n x c) (hn : s n = some f)
    (hc : s c = none) : UserSpace K (m.set f x .cleared) s where
  self := by
    refine h.self.set ?_
    rintro ⟨heq, hx⟩
    obtain rfl : n = .top := h.injective hn (h.top_eq.trans (congrArg some heq))
    cases hentry
    omega
  managed := h.managed
  top_eq := h.top_eq
  injective := h.injective
  parent := h.parent
  reached := h.reached
  leads := by
    intro d y d' f' hentry' hd
    rw [set_memory]
    split
    next heq =>
      obtain ⟨rfl, rfl⟩ := heq
      obtain rfl := h.injective hd hn
      obtain rfl := hentry.unique hentry'
      rw [hc]
      rfl
    next => exact h.leads hentry' hd
  apart := h.apart
  page_ne_zero := h.page_ne_zero
  free_apart := h.free_apart
  free_cleared := by
    intro f' hf' y hy
    have hne' : f' ≠ f := fun heq => (h.apart hn).2 (heq ▸ hf')
    rw [set_memory, if_neg fun hand => hne' hand.1]
    exact h.free_cleared f' hf' y hy

/-! ## The tables that lead to a page -/

/-- The entry of the top table. -/
theorem UserSpace.topEntry (h : UserSpace K m s) (hi : i < 511) :
    Leads (m.topEntry .user i) (s (.mid i)) :=
  h.leads (.mid hi) h.top_eq

theorem UserSpace.midEntry (h : UserSpace K m s) (hi : i < 511) (hj : j < 512)
    (hmid : s (.mid i) = some f) : Leads (m.midEntry .user i j) (s (.last i j)) := by
  have htop := h.topEntry hi
  rw [hmid] at htop
  rw [Mmu.midEntry, htop.2.2]
  exact h.leads (.last hi hj) hmid

theorem UserSpace.lastEntry (h : UserSpace K m s) (hi : i < 511) (hj : j < 512) (hk : k < 512)
    (hlast : s (.last i j) = some f) : Leads (m.lastEntry .user i j k) (s (.page i j k)) := by
  obtain ⟨g, hmid⟩ := h.parent (.last hi hj) hlast
  have hentry := h.midEntry hi hj hmid
  rw [hlast] at hentry
  rw [Mmu.lastEntry, hentry.2.2]
  exact h.leads (.page hi hj hk) hlast

/-- A write to an entry of the last level. -/
theorem UserSpace.write (h : UserSpace K m s) (hi : i < 511) (hj : j < 512) (hk : k < 512)
    (hlast : s (.last i j) = some f) :
    m.write (Half.user.base + windowOffset i j k) e = .ok (m.set f k e) := by
  obtain ⟨g, hmid⟩ := h.parent (.last hi hj) hlast
  have htop := h.topEntry hi
  have hentry := h.midEntry hi hj hmid
  rw [hmid] at htop
  rw [hlast] at hentry
  rw [write_window h.self (by omega) hj hk htop.1 hentry.1, if_pos hentry.2.1, hentry.2.2]

/-! ## What grows -/

/-- Between the two states nodes were added: the pages `W`, in the page frames `G`, and tables in
page frames that were free. -/
structure Grows (K : Set Nat) (W : Set UserNode) (G : Set Nat) (m : Mmu)
    (s : UserNode → Option Nat) (m' : Mmu) (s' : UserNode → Option Nat) : Prop where
  keeps : Keeps K m m'
  free_subset : m'.pageAllocator.freePages ⊆ m.pageAllocator.freePages
  mono : ∀ {n f}, s n = some f → s' n = some f
  page_eq : ∀ {i j k}, .page i j k ∉ W → s' (.page i j k) = s (.page i j k)
  frames : ∀ {n f}, s' n = some f → s n = some f ∨ f ∈ m.pageAllocator.freePages ∨ f ∈ G
  memory_eq : ∀ {i j k f}, s (.page i j k) = some f → m'.memory f = m.memory f

theorem Grows.refl (K : Set Nat) (m : Mmu) (s : UserNode → Option Nat) : Grows K ∅ ∅ m s m s :=
  ⟨.refl K m, subset_rfl, id, fun _ => rfl, .inl, fun _ => rfl⟩

theorem Grows.trans {W W' : Set UserNode} {G G' : Set Nat} {s' s'' : UserNode → Option Nat}
    {m'' : Mmu} (h : Grows K W G m s m' s') (h' : Grows K W' G' m' s' m'' s'') :
    Grows K (W ∪ W') (G ∪ G') m s m'' s'' where
  keeps := h.keeps.trans h'.keeps
  free_subset := h'.free_subset.trans h.free_subset
  mono := fun hn => h'.mono (h.mono hn)
  page_eq := fun hnot =>
    (h'.page_eq fun hmem => hnot (.inr hmem)).trans (h.page_eq fun hmem => hnot (.inl hmem))
  frames := by
    intro n f hn
    obtain hn | hf | hf := h'.frames hn
    · exact (h.frames hn).imp_right (.imp_right .inl)
    · exact .inr (.inl (h.free_subset hf))
    · exact .inr (.inr (.inr hf))
  memory_eq := fun hn => (h'.memory_eq (h.mono hn)).trans (h.memory_eq hn)

/-- Tables are added first. -/
theorem Grows.tables_trans {W : Set UserNode} {G : Set Nat} {s' s'' : UserNode → Option Nat}
    {m'' : Mmu} (h : Grows K ∅ ∅ m s m' s') (h' : Grows K W G m' s' m'' s'') :
    Grows K W G m s m'' s'' := by
  have htrans := h.trans h'
  rwa [Set.empty_union, Set.empty_union] at htrans

/-- What was not used before and is not among the page frames of the new pages. -/
theorem Grows.unused {W : Set UserNode} {G : Set Nat} {s' : UserNode → Option Nat}
    (h : Grows K W G m s m' s') (hf : Unused K m s f) (hG : f ∉ G) : Unused K m' s' f where
  not_mem := hf.not_mem
  ne_zero := hf.ne_zero
  not_free := fun hmem => hf.not_free (h.free_subset hmem)
  no_node := by
    intro n hn
    obtain hn | hmem | hmem := h.frames hn
    exacts [hf.no_node n hn, hf.not_free hmem, hG hmem]

/-- A store to a table writes no page and no page frame of `K`. -/
theorem UserSpace.memory_set (h : UserSpace K m s) (hentry : Entry n x c) (hn : s n = some f) :
    Keeps K m (m.set f x e) ∧
      ∀ {i j k g}, s (.page i j k) = some g → (m.set f x e).memory g = m.memory g := by
  refine ⟨.set (h.apart hn).1, fun {i j k g} hpage => ?_⟩
  have hne : g ≠ f := by
    rintro rfl
    obtain rfl := h.injective hn hpage
    cases hentry
  exact Function.update_of_ne hne ..

theorem UserSpace.grows_set (h : UserSpace K m s) (hentry : Entry n x c) (hn : s n = some f) :
    Grows K ∅ ∅ m s (m.set f x e) s := by
  obtain ⟨hkeeps, hmemory⟩ := h.memory_set (e := e) hentry hn
  exact ⟨hkeeps, subset_rfl, id, fun _ => rfl, .inl, hmemory⟩

theorem UserSpace.grows_link (h : UserSpace K m s) (hentry : Entry n x c) (hn : s n = some f)
    (hc : s c = none) :
    Grows K {c} {g} m s (m.set f x e) (Function.update s c (some g)) := by
  obtain ⟨hkeeps, hmemory⟩ := h.memory_set (e := e) hentry hn
  refine ⟨hkeeps, subset_rfl, ?_, fun hnot => Function.update_of_ne hnot .., ?_, hmemory⟩
  · intro d f' hd
    rw [Function.update_of_ne, hd]
    rintro rfl
    rw [hc] at hd
    cases hd
  · intro d f' hd
    by_cases hdc : d = c
    · subst hdc
      rw [Function.update_self] at hd
      cases hd
      exact .inr (.inr rfl)
    · rw [Function.update_of_ne hdc] at hd
      exact .inl hd

/-- A page frame is reserved for a table, and linked. -/
theorem UserSpace.add_table (h : UserSpace K m s) {frame : Nat}
    (hreserve : m.pageAllocator.reserve pageSize = some (al, frame)) (hne : frame ≠ NOMEM)
    (hentry : Entry n x c) (hn : s n = some f) (hc : s c = none)
    (hpage : ∀ i j k, c ≠ .page i j k) :
    let m' := (m.reserved al frame).set f x (.tableDescriptor frame)
    let s' := Function.update s c (some (outputOf frame))
    UserSpace K m' s' ∧ Grows K ∅ ∅ m s m' s' := by
  obtain ⟨hmanaged, hfree, hpages⟩ := h.managed.reserve_outputOf hreserve hne
  have hsub : al.freePages ⊆ m.pageAllocator.freePages := by
    rw [hpages]
    exact Set.sdiff_subset
  have hnot : outputOf frame ∉ al.freePages := by
    rw [hpages]
    exact fun hmem => hmem.2 rfl
  have hreserved : UserSpace K (m.reserved al frame) s := h.with_allocator hmanaged hsub _
  have hlink := hreserved.link hentry hn hc (h.unused hfree hnot _)
    ⟨isTable_tableDescriptor frame, writable_tableDescriptor frame, rfl⟩
    fun y d hentry' => h.free_cleared _ hfree y hentry'.lt
  have hgrows := hreserved.grows_link (e := .tableDescriptor frame) (g := outputOf frame) hentry hn
    hc
  refine ⟨hlink, ⟨hgrows.keeps.ttbr0_eq, hgrows.keeps.ttbr1_eq, hgrows.keeps.memory_eq⟩, hsub,
    hgrows.mono, fun {i j k} _ => hgrows.page_eq (hpage i j k).symm, fun {d f'} hd => ?_,
    hgrows.memory_eq⟩
  obtain hd | hf | rfl := hgrows.frames hd
  exacts [.inl hd, .inr (.inl (hsub hf)), .inr (.inl hfree)]

/-- After an entry of the last level was cleared, the tables that lead to it are there. -/
theorem UserSpace.store_cleared (h : UserSpace K m s) (hi : i < 511) (hj : j < 512) (hk : k < 512)
    (hpage : s (.page i j k) = none)
    (hstore : store fuel m (Half.user.base + windowOffset i j k) .cleared = some m') :
    ∃ s' f, UserSpace K m' s' ∧ Grows K ∅ ∅ m s m' s' ∧ s' (.last i j) = some f := by
  -- clearing the entry when the table is there
  have hclear : ∀ {m : Mmu} {s : UserNode → Option Nat} {f : Nat}, UserSpace K m s →
      s (.last i j) = some f → s (.page i j k) = none →
      UserSpace K (m.set f k .cleared) s ∧ Grows K ∅ ∅ m s (m.set f k .cleared) s :=
    fun h hlast hpage => ⟨h.clear (.page hi hj hk) hlast hpage, h.grows_set (.page hi hj hk) hlast⟩
  cases hlast : s (.last i j) with
  | some f =>
      cases fuel with
      | zero => cases hstore
      | succ fuel =>
          rw [store_ok (h.write hi hj hk hlast)] at hstore
          cases hstore
          obtain ⟨h', hgrows⟩ := hclear h hlast hpage
          exact ⟨s, f, h', hgrows, hlast⟩
  | none =>
      cases hmid : s (.mid i) with
      | some f =>
          have htop := h.topEntry hi
          have hentry := h.midEntry hi hj hmid
          rw [hmid] at htop
          rw [hlast] at hentry
          have hne : (m.topEntry .user i).outputAddress ≠ m.top .user := by
            rw [htop.2.2]
            rintro rfl
            cases h.injective hmid h.top_eq
          obtain ⟨-, al, frame, hreserve, hnomem, hm'⟩ := store_third h.self hi hj hk htop.1
            (fun htable => Bool.false_ne_true (hentry.symm.trans htable.1)) hne hstore
          rw [htop.2.2] at hm'
          obtain ⟨h₁, hgrows₁⟩ := h.add_table hreserve hnomem (.last hi hj) hmid hlast
            fun _ _ _ => UserNode.noConfusion
          obtain ⟨h₂, hgrows₂⟩ := hclear h₁ (Function.update_self ..)
            ((Function.update_of_ne UserNode.noConfusion ..).trans hpage)
          rw [hm']
          exact ⟨_, _, h₂, hgrows₁.tables_trans hgrows₂, Function.update_self ..⟩
      | none =>
          have htop := h.topEntry hi
          rw [hmid] at htop
          obtain ⟨al, frame, al', frame', hreserve, hnomem, hreserve', hnomem', hm'⟩ :=
            store_second h.self hi hj hk htop (fun al frame hreserve hnomem heq => by
              obtain ⟨-, hfree, -⟩ := h.managed.reserve_outputOf hreserve hnomem
              rw [heq] at hfree
              exact (h.apart h.top_eq).2 hfree) hstore
          obtain ⟨h₁, hgrows₁⟩ := h.add_table hreserve hnomem (.mid hi) h.top_eq hmid
            fun _ _ _ => UserNode.noConfusion
          obtain ⟨h₂, hgrows₂⟩ := h₁.add_table hreserve' hnomem' (.last hi hj)
            (Function.update_self ..) ((Function.update_of_ne UserNode.noConfusion ..).trans hlast)
            fun _ _ _ => UserNode.noConfusion
          obtain ⟨h₃, hgrows₃⟩ := hclear h₂ (Function.update_self ..)
            ((Function.update_of_ne UserNode.noConfusion ..).trans
              ((Function.update_of_ne UserNode.noConfusion ..).trans hpage))
          rw [hm']
          exact ⟨_, _, h₃, (hgrows₁.tables_trans hgrows₂).tables_trans hgrows₃,
            Function.update_self ..⟩

/-! ## Mapping pages -/

variable {p q b flags : Nat}

/-- The pages outside the windows. -/
def userPages : Nat := 511 * 2 ^ 18

theorem entry_pageOf (hp : p < userPages) :
    Entry (.last (p / 2 ^ 18) (p / 2 ^ 9 % 512)) (p % 512) (pageOf p) := by
  unfold userPages at hp
  exact .page (by omega) (by omega) (by omega)

theorem entryAddress_page (hp : p < userPages) : entryAddress 0 (p * pageSize) =
    some (Half.user.base + windowOffset (p / 2 ^ 18) (p / 2 ^ 9 % 512) (p % 512)) := by
  unfold userPages at hp
  rw [entryAddress_low (by unfold lowEnd pageSize; omega)]
  unfold pageSize
  congr 3 <;> omega

/-- `setPageEntry` adds a page. -/
theorem UserSpace.setPageEntry (h : UserSpace K m s) (hp : p < userPages)
    (hpage : s (pageOf p) = none) (hg : Unused K m s g) (hlt : g < 2 ^ 31)
    (hflags : flags.testBit 0 = true)
    (hset : setPageEntry fuel m 0 (p * pageSize) (g * pageSize) flags = some m') :
    ∃ s', UserSpace K m' s' ∧ Grows K {pageOf p} {g} m s m' s' ∧ s' (pageOf p) = some g := by
  have hentry := entry_pageOf hp
  rw [Mmu.setPageEntry, if_neg (by decide), entryAddress_page hp, Option.bind_eq_bind,
    Option.bind_some, if_pos rfl] at hset
  obtain ⟨m₁, hclear, hwrite⟩ := Option.bind_eq_some_iff.1 hset
  obtain ⟨s₁, f, h₁, hgrows₁, hlast⟩ := h.store_cleared (by unfold userPages at hp; omega)
    (by omega) (by omega) hpage hclear
  have hpage₁ : s₁ (pageOf p) = none := (hgrows₁.page_eq (Set.notMem_empty _)).trans hpage
  have hg₁ : Unused K m₁ s₁ g := hgrows₁.unused hg (Set.notMem_empty _)
  rw [h₁.write (by unfold userPages at hp; omega) (by omega) (by omega) hlast] at hwrite
  cases hwrite
  have hleads : Leads (.pageDescriptor (g * pageSize) flags) (some g) :=
    ⟨⟨rfl, rfl⟩, ⟨rfl, by simp [pageDescriptor, blockDescriptor, hflags]⟩,
      PageAllocator.outputOf_page hlt⟩
  refine ⟨_, h₁.link hentry hlast hpage₁ hg₁ hleads fun y d hentry' => ?_,
    hgrows₁.tables_trans (h₁.grows_link hentry hlast hpage₁), Function.update_self ..⟩
  cases hentry'

/-- The loop of `map_region` adds pages. -/
theorem UserSpace.mapLoop {qs : List Nat} (h : UserSpace K m s) (hnodup : qs.Nodup)
    (hqs : ∀ q ∈ qs, p + q < userPages ∧ s (pageOf (p + q)) = none ∧ Unused K m s (b + q) ∧
      b + q < 2 ^ 31) (hflags : flags.testBit 0 = true)
    (hmap : mapLoop fuel (p * pageSize) (b * pageSize) flags (qs.map (· * pageSize)) m = some m') :
    ∃ s', UserSpace K m' s' ∧
      Grows K {n | ∃ q ∈ qs, n = pageOf (p + q)} {f | ∃ q ∈ qs, f = b + q} m s m' s' ∧
      ∀ q ∈ qs, s' (pageOf (p + q)) = some (b + q) := by
  induction qs generalizing m s with
  | nil =>
      cases hmap
      exact ⟨s, h, by simpa using Grows.refl K _ s, fun q hq => absurd hq List.not_mem_nil⟩
  | cons q rest ih =>
      obtain ⟨hnot, hnodup⟩ := List.nodup_cons.1 hnodup
      obtain ⟨hp, hpage, hunused, hlt⟩ := hqs q List.mem_cons_self
      obtain ⟨m₁, hset, hrest⟩ := Option.bind_eq_some_iff.1 hmap
      have haddr : (p * pageSize + q * pageSize) % 2 ^ 64 = (p + q) * pageSize := by
        unfold userPages at hp
        rw [← Nat.add_mul]
        exact Nat.mod_eq_of_lt (by unfold pageSize; omega)
      have hframe : (b * pageSize + q * pageSize) % 2 ^ 64 = (b + q) * pageSize := by
        rw [← Nat.add_mul]
        exact Nat.mod_eq_of_lt (by unfold pageSize; omega)
      rw [haddr, hframe] at hset
      obtain ⟨s₁, h₁, hgrows₁, hq⟩ := h.setPageEntry hp hpage hunused hlt hflags hset
      obtain ⟨s', h', hgrows', hrest'⟩ := ih h₁ hnodup (fun r hr => by
        obtain ⟨hp', hpage', hunused', hlt'⟩ := hqs r (List.mem_cons_of_mem q hr)
        have hne : r ≠ q := fun heq => hnot (heq ▸ hr)
        refine ⟨hp', ?_, hgrows₁.unused hunused' (by simpa using hne), hlt'⟩
        rw [← hpage']
        refine hgrows₁.page_eq fun hmem => hne ?_
        have heq := pageOf_inj.1 (Set.mem_singleton_iff.1 hmem)
        omega) hrest
      refine ⟨s', h', ?_, ?_⟩
      · have hgrows := hgrows₁.trans hgrows'
        convert hgrows using 1 <;> ext <;> simp
      · intro r hr
        obtain rfl | hr := List.mem_cons.1 hr
        exacts [hgrows'.mono hq, hrest' r hr]

/-- `map_region` maps the pages from `p` on to the page frames from `b` on. -/
theorem UserSpace.mapRegion {size : Nat} (h : UserSpace K m s)
    (hpages : ∀ q, q * pageSize < size → p + q < userPages ∧ s (pageOf (p + q)) = none ∧
      Unused K m s (b + q) ∧ b + q < 2 ^ 31) (hflags : flags.testBit 0 = true)
    (hmap : mapRegion fuel m (p * pageSize) size (b * pageSize) flags = some m') :
    ∃ s', UserSpace K m' s' ∧
      Grows K {n | ∃ q, q * pageSize < size ∧ n = pageOf (p + q)}
        {f | ∃ q, q * pageSize < size ∧ f = b + q} m s m' s' ∧
      ∀ q, q * pageSize < size → s' (pageOf (p + q)) = some (b + q) := by
  have hmem : ∀ q, q ∈ List.range ((size + pageSize - 1) / pageSize) ↔ q * pageSize < size := by
    intro q
    rw [List.mem_range]
    unfold pageSize
    omega
  obtain ⟨s', h', hgrows, hmapped⟩ := h.mapLoop List.nodup_range
    (fun q hq => hpages q ((hmem q).1 hq)) hflags hmap
  simp only [hmem] at hgrows hmapped
  exact ⟨s', h', hgrows, hmapped⟩

/-! ## Looking pages up -/

theorem UserSpace.lt_of_page (h : UserSpace K m s) (hpage : s (pageOf p) = some f) :
    p < userPages := by
  obtain heq | ⟨n, x, hentry⟩ := h.reached hpage
  · cases heq
  · have hi : p / 2 ^ 18 < 511 := by
      cases hentry
      assumption
    unfold userPages
    omega

/-- The translation of an address in a page that is mapped. -/
theorem UserSpace.walk (h : UserSpace K m s) (hpage : s (pageOf p) = some f) {o : Nat}
    (ho : o < pageSize) :
    ∃ leaf, m.walk (p * pageSize + o) = .ok (leaf, f * pageSize + o) ∧ leaf.Writable := by
  have hp := h.lt_of_page hpage
  obtain ⟨f₂, hlast⟩ := h.parent (entry_pageOf hp) hpage
  unfold userPages at hp
  have hi : p / 2 ^ 18 < 511 := by omega
  have hj : p / 2 ^ 9 % 512 < 512 := by omega
  obtain ⟨f₁, hmid⟩ := h.parent (.last hi hj) hlast
  have htop := h.topEntry hi
  have hmid' := h.midEntry hi hj hmid
  have hlast' := h.lastEntry hi hj (by omega : p % 512 < 512) hlast
  rw [hmid] at htop
  rw [hlast] at hmid'
  change Leads _ (s (pageOf p)) at hlast'
  rw [hpage] at hlast'
  unfold pageSize at ho ⊢
  have hfirst : (p * 4096 + o) / 2 ^ 30 = p / 2 ^ 18 := by omega
  have hsecond : (p * 4096 + o) / 2 ^ 21 % 512 = p / 2 ^ 9 % 512 := by omega
  have hthird : (p * 4096 + o) / 2 ^ 12 % 512 = p % 512 := by omega
  have hoffset : (p * 4096 + o) % 2 ^ 12 = o := by omega
  have htopEntry : m.memory m.ttbr0 (p / 2 ^ 18) = m.topEntry .user (p / 2 ^ 18) := rfl
  have hmidEntry : m.memory (m.topEntry .user (p / 2 ^ 18)).outputAddress (p / 2 ^ 9 % 512) =
      m.midEntry .user (p / 2 ^ 18) (p / 2 ^ 9 % 512) := rfl
  have hlastEntry :
      m.memory (m.midEntry .user (p / 2 ^ 18) (p / 2 ^ 9 % 512)).outputAddress (p % 512) =
        m.lastEntry .user (p / 2 ^ 18) (p / 2 ^ 9 % 512) (p % 512) := rfl
  refine ⟨m.lastEntry .user (p / 2 ^ 18) (p / 2 ^ 9 % 512) (p % 512), ?_, hlast'.2.1⟩
  have hlow : p * 4096 + o < lowEnd := by
    unfold lowEnd
    omega
  have hphysical : (m.lastEntry .user (p / 2 ^ 18) (p / 2 ^ 9 % 512) (p % 512)).physicalAddress =
      f * 4096 := congrArg (· * 4096) hlast'.2.2
  rw [Mmu.walk, if_pos hlow, walkFrom, hfirst, hsecond, hthird, hoffset, htopEntry]
  dsimp only
  rw [hmidEntry, hlastEntry, htop.1.1, htop.1.2, hmid'.1.1, hmid'.1.2, hlast'.1.1, hlast'.1.2,
    hphysical]
  rfl

/-- `getPageFrame` gives the page frame of the page that the address is in, or 0. -/
theorem UserSpace.getPageFrame (h : UserSpace K m s) {va : Nat} (hva : va < tables .user 2) :
    m.getPageFrame va = some ((s (pageOf (va / pageSize))).getD 0 * pageSize) := by
  unfold pageSize
  change va < 0x7FC0000000 at hva
  have hi : va / 4096 / 2 ^ 18 < 511 := by omega
  have hj : va / 4096 / 2 ^ 9 % 512 < 512 := by omega
  have hk : va / 4096 % 512 < 512 := by omega
  have haligned : m.getPageFrame va = m.getPageFrame (va / 4096 * 4096) := by
    have hhalf : ∀ w, w < 0x8000000000 → ¬ highMem < w := by
      unfold highMem
      omega
    rw [Mmu.getPageFrame, Mmu.getPageFrame, if_neg (hhalf va (by omega)),
      if_neg (hhalf _ (by omega))]
    have hfirst : va % 2 ^ 39 / 2 ^ 30 = va / 4096 * 4096 % 2 ^ 39 / 2 ^ 30 := by omega
    have hsecond : va % 2 ^ 39 / 2 ^ 21 = va / 4096 * 4096 % 2 ^ 39 / 2 ^ 21 := by omega
    have hthird : va % 2 ^ 39 / 2 ^ 12 = va / 4096 * 4096 % 2 ^ 39 / 2 ^ 12 := by omega
    rw [hfirst, hsecond, hthird]
  have hlookup : m.getPageFrame (va / 4096 * 4096) =
      frameFrom m.memory (m.top .user) (va / 4096 / 2 ^ 18) (va / 4096 / 2 ^ 9 % 512)
        (va / 4096 % 512) := by
    refine getPageFrame_eq h.self hi hj hk (if_neg ?_) ?_
    · unfold highMem
      omega
    · unfold pageOffset
      omega
  have htopEntry : m.memory (m.top .user) (va / 4096 / 2 ^ 18) =
      m.topEntry .user (va / 4096 / 2 ^ 18) := rfl
  have hmidEntry : m.memory (m.topEntry .user (va / 4096 / 2 ^ 18)).outputAddress
      (va / 4096 / 2 ^ 9 % 512) = m.midEntry .user (va / 4096 / 2 ^ 18) (va / 4096 / 2 ^ 9 % 512) :=
    rfl
  have hlastEntry : m.memory (m.midEntry .user (va / 4096 / 2 ^ 18)
      (va / 4096 / 2 ^ 9 % 512)).outputAddress (va / 4096 % 512) =
        m.lastEntry .user (va / 4096 / 2 ^ 18) (va / 4096 / 2 ^ 9 % 512) (va / 4096 % 512) := rfl
  -- a page is only below the tables that lead to it
  have habsent : ∀ {n x c}, Entry n x c → s n = none → s c = none := by
    intro n x c hentry hn
    cases hc : s c with
    | none => rfl
    | some f =>
        obtain ⟨g, hparent⟩ := h.parent hentry hc
        rw [hn] at hparent
        cases hparent
  have hpageEntry := entry_pageOf (by unfold userPages; omega : va / 4096 < userPages)
  have htop := h.topEntry hi
  rw [haligned, hlookup, frameFrom, htopEntry]
  cases hmid : s (.mid (va / 4096 / 2 ^ 18)) with
  | none =>
      rw [hmid] at htop
      rw [habsent hpageEntry (habsent (.last hi hj) hmid), htop]
      rfl
  | some f₁ =>
      rw [hmid] at htop
      rw [htop.1.1, htop.1.2, htop.2.1.1, frameBelow, hmidEntry]
      have hmid' := h.midEntry hi hj hmid
      cases hlast : s (.last (va / 4096 / 2 ^ 18) (va / 4096 / 2 ^ 9 % 512)) with
      | none =>
          rw [hlast] at hmid'
          rw [habsent hpageEntry hlast, hmid']
          rfl
      | some f₂ =>
          rw [hlast] at hmid'
          rw [hmid'.1.1, hmid'.1.2, hmid'.2.1.1, hlastEntry]
          have hlast' : Leads _ (s (pageOf (va / 4096))) := h.lastEntry hi hj hk hlast
          exact congrArg some hlast'.frame_eq

/-! ## What is in the pages -/

/-- The contents of a page are no part of the tree. -/
theorem UserSpace.with_memory {memory : Nat → Nat → PageTableEntry} (h : UserSpace K m s)
    (hpage : s (.page i j k) = some f) (hother : ∀ g, g ≠ f → memory g = m.memory g) :
    UserSpace K { m with memory := memory } s ∧ Keeps K m { m with memory := memory } := by
  have htable : ∀ {n x c g}, Entry n x c → s n = some g → memory g = m.memory g := by
    intro n x c g hentry hn
    refine hother g ?_
    rintro rfl
    obtain rfl := h.injective hn hpage
    cases hentry
  have htop : memory m.ttbr0 = m.memory m.ttbr0 := htable (.mid (by decide : 0 < 511)) h.top_eq
  constructor
  · constructor
    · have hentry : Mmu.topEntry { m with memory := memory } .user 511 = m.topEntry .user 511 :=
        congrFun htop 511
      exact ⟨hentry ▸ h.self.isTable, hentry ▸ h.self.writable, hentry ▸ h.self.outputAddress_eq⟩
    · exact h.managed
    · exact h.top_eq
    · exact h.injective
    · exact h.parent
    · exact h.reached
    · intro n x c g hentry hn
      show Leads (memory g x) (s c)
      rw [htable hentry hn]
      exact h.leads hentry hn
    · exact h.apart
    · exact h.page_ne_zero
    · exact h.free_apart
    · intro g hg x hx
      show (memory g x).present = false
      rw [hother g fun heq => (h.apart hpage).2 (heq ▸ hg)]
      exact h.free_cleared g hg x hx
  · refine ⟨rfl, rfl, fun g hg => hother g ?_⟩
    rintro rfl
    exact (h.apart hpage).1 hg

/-- A new address space: only the top table is there. -/
theorem UserSpace.of_empty (hself : m.SelfMapped .user) (hmanaged : m.pageAllocator.Managed)
    (hempty : ∀ i < 511, (m.topEntry .user i).present = false) (hK : m.ttbr0 ∉ K)
    (htop : m.ttbr0 ∉ m.pageAllocator.freePages)
    (hfree : ∀ f ∈ m.pageAllocator.freePages, f ∉ K ∧ f ≠ 0)
    (hcleared : ∀ f ∈ m.pageAllocator.freePages, ∀ x < 512, (m.memory f x).present = false) :
    UserSpace K m fun n => if n = .top then some m.ttbr0 else none := by
  have honly : ∀ {n f}, (if n = .top then some m.ttbr0 else none) = some f →
      n = UserNode.top ∧ f = m.ttbr0 := by
    intro n f hn
    split at hn
    next heq => exact ⟨heq, (Option.some.inj hn).symm⟩
    next => cases hn
  constructor
  · exact hself
  · exact hmanaged
  · rfl
  · intro n n' f hn hn'
    rw [(honly hn).1, (honly hn').1]
  · intro n x c f hentry hc
    obtain rfl := (honly hc).1
    cases hentry
  · exact fun hc => .inl (honly hc).1
  · intro n x c f hentry hn
    obtain ⟨rfl, rfl⟩ := honly hn
    cases hentry with
    | mid hi => exact hempty _ hi
  · intro n f hn
    obtain ⟨rfl, rfl⟩ := honly hn
    exact ⟨hK, htop⟩
  · intro i j k f hn
    cases (honly hn).1
  · exact hfree
  · exact hcleared

end Mmu

end CrosKernel.Memory
