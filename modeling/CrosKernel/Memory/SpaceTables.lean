import CrosKernel.Lib.PlacedTree
import CrosKernel.Memory.AddressSpace

/-!
# The tables of all address spaces

The kernel half and every address space have a tree of tables of their own. `Tables` says that these
trees stand in memory, with a page frame of its own for every node, apart from the page frames of `K`
and from the free ones. A store to an entry of the last level keeps it, with the tables that the page
fault handler adds, and writes no page: `Tables.store`.
-/

namespace CrosKernel.Memory

open Lib PageTableEntry UserNode

/-! ## The trees -/

/-- Whose tables: those of the kernel half, or of the address space with the top table `t`. -/
inductive Owner where
  | kernel
  | space (t : Nat)
  deriving DecidableEq

namespace Owner

/-- The half that the tables translate. -/
def half : Owner → Half
  | .kernel => .kernel
  | .space _ => .user

end Owner

/-- A table or a page of an owner. -/
abbrev SpaceNode := Owner × UserNode

/-- The node is a page. -/
def UserNode.IsPage : UserNode → Prop
  | .page .. => True
  | _ => False

/-- Entries are those of tables. -/
theorem UserNode.Entry.source_not_page {n c : UserNode} {x : Nat} (h : Entry n x c) :
    ¬ n.IsPage := by
  cases h <;> exact id

/-- The entry `x` of a table is the one that leads to a node of the same owner. The entries for the
nodes of `blocks` in the kernel half are left out: they are blocks of memory, or no part of the tree.
-/
inductive Edge (blocks : Set UserNode) : SpaceNode → Nat → SpaceNode → Prop where
  | kernel {n c : UserNode} {x : Nat} :
      Entry n x c → c ∉ blocks → Edge blocks (.kernel, n) x (.kernel, c)
  | space {n c : UserNode} {x t : Nat} : Entry n x c → Edge blocks (.space t, n) x (.space t, c)

/-- What the descriptor for a node allows: the kernel writes tables, and processes only use the pages
of address spaces. -/
def Fits : SpaceNode → PageTableEntry → Prop
  | (.space _, .page ..), e => e.af = true ∧ e.apEL0 = true
  | (.kernel, .page ..), e => e.apEL0 = false
  | _, e => e.Writable ∧ e.apEL0 = false

/-- An entry is not present, or it is the descriptor for a node. -/
def LeadsTo (c : SpaceNode) (e : PageTableEntry) : Option PageTableEntry → Prop
  | none => e.present = false
  | some e' => e = e' ∧ e.IsTable ∧ Fits c e

/-- A process cannot use what an entry for a node of `blocks` leads to, which is no table. -/
def Blocked (c : UserNode) (e : PageTableEntry) : Prop :=
  e.apEL0 = false ∧ (¬ c.IsPage → e.type = false)

section Trees

variable {blocks : Set UserNode} {n n' c c' : SpaceNode} {x x' : Nat} {o : Owner}

theorem Edge.entry (h : Edge blocks n x c) : n.1 = c.1 ∧ Entry n.2 x c.2 := by
  cases h with
  | kernel h => exact ⟨rfl, h⟩
  | space h => exact ⟨rfl, h⟩

theorem isForest (blocks : Set UserNode) : IsForest (Edge blocks) where
  unique := by
    intro n x c c' h h'
    exact Prod.ext (h.entry.1.symm.trans h'.entry.1) (h.entry.2.unique h'.entry.2)
  source_unique := by
    intro n n' x x' c h h'
    obtain ⟨hn, hx⟩ := h.entry.2.source_unique h'.entry.2
    exact ⟨Prod.ext (h.entry.1.trans h'.entry.1.symm) hn, hx⟩
  ne := by
    intro n x c h heq
    exact h.entry.2.ne (congrArg Prod.snd heq)

theorem Edge.ne_top (h : Edge blocks n x c) : c.2 ≠ .top := by
  intro htop
  cases h with
  | kernel hentry => cases hentry <;> cases htop
  | space hentry => cases hentry <;> cases htop

theorem Edge.source_not_page (h : Edge blocks n x c) : ¬ n.2.IsPage := h.entry.2.source_not_page

theorem Fits.table {e : PageTableEntry} (h : Fits c e) (hc : ¬ c.2.IsPage) :
    e.Writable ∧ e.apEL0 = false := by
  obtain ⟨o, c⟩ := c
  cases c with
  | page => exact absurd trivial hc
  | _ => cases o <;> exact h

theorem LeadsTo.present {e e' : PageTableEntry} (h : LeadsTo c e (some e')) : e'.IsTable :=
  h.1 ▸ h.2.1

theorem LeadsTo.fits {e e' : PageTableEntry} (h : LeadsTo c e (some e')) : Fits c e' :=
  h.1 ▸ h.2.2

end Trees

namespace Mmu

variable {K : Set Nat} {blocks : Set UserNode} {m m' m'' : Mmu}
  {place place' place'' : SpaceNode → Option PageTableEntry} {o : Owner} {n c : SpaceNode}
  {e e' : PageTableEntry} {f i j k x t fuel : Nat}

/-- The trees of the kernel half and of the address spaces stand in memory. The last entry of every
top table refers to the table itself, and the free page frames are cleared. -/
structure Tables (K : Set Nat) (blocks : Set UserNode) (m : Mmu)
    (place : SpaceNode → Option PageTableEntry) : Prop where
  placed : Placed (Edge blocks) outputAddress LeadsTo m.memory place
  reached : ∀ {o c e}, place (o, c) = some e → c = .top ∨ ∃ n x, Edge blocks (o, n) x (o, c)
  self : ∀ {o e}, place (o, .top) = some e →
    m.memory e.outputAddress 511 = e ∧ e.IsTable ∧ e.Writable ∧ e.apEL0 = false
  kernel : ∃ e, place (.kernel, .top) = some e ∧ e.outputAddress = m.ttbr1
  space : ∀ {t e}, place (.space t, .top) = some e → e.outputAddress = t
  blocked : ∀ {n x c e}, Entry n x c → c ∈ blocks → place (.kernel, n) = some e →
    Blocked c (m.memory e.outputAddress x)
  apart : ∀ {n e}, place n = some e →
    e.outputAddress ∉ K ∧ e.outputAddress ∉ m.pageAllocator.freePages
  managed : m.pageAllocator.Managed
  free_apart : ∀ f ∈ m.pageAllocator.freePages, f ∉ K
  free_cleared : ∀ f ∈ m.pageAllocator.freePages, ∀ x < 512, m.memory f x = .cleared

/-- The tables of this owner are the ones that the walk uses. -/
def Current (m : Mmu) : Owner → Prop
  | .kernel => True
  | .space t => m.ttbr0 = t

/-- Between the two states tables were added in free page frames, and only tables were written: the
entries for pages and for the tables that were added. -/
structure Extends (m : Mmu) (place : SpaceNode → Option PageTableEntry) (m' : Mmu)
    (place' : SpaceNode → Option PageTableEntry) : Prop where
  ttbr0_eq : m'.ttbr0 = m.ttbr0
  ttbr1_eq : m'.ttbr1 = m.ttbr1
  free_subset : m'.pageAllocator.freePages ⊆ m.pageAllocator.freePages
  tables : ∀ {n e}, ¬ n.2.IsPage → place n = some e → place' n = some e
  memory_eq : ∀ f, (∀ n e, ¬ n.2.IsPage → place' n = some e → e.outputAddress ≠ f) →
    m'.memory f = m.memory f
  entry_eq : ∀ {n : SpaceNode} {c : UserNode} {x e}, Entry n.2 x c → ¬ c.IsPage →
    place n = some e → place' (n.1, c) = none →
    m'.memory e.outputAddress x = m.memory e.outputAddress x

theorem Extends.refl (m : Mmu) (place : SpaceNode → Option PageTableEntry) :
    Extends m place m place :=
  ⟨rfl, rfl, subset_rfl, fun _ hn => hn, fun _ _ => rfl, fun _ _ _ _ => rfl⟩

/-- A node that is not there afterwards was not there before. -/
theorem Extends.eq_none (h : Extends m place m' place') (hc : ¬ c.2.IsPage)
    (hnone : place' c = none) : place c = none := by
  cases hplace : place c with
  | none => rfl
  | some e => exact absurd ((h.tables hc hplace).symm.trans hnone) (Option.some_ne_none e)

theorem Extends.trans (h : Extends m place m' place') (h' : Extends m' place' m'' place'') :
    Extends m place m'' place'' where
  ttbr0_eq := h'.ttbr0_eq.trans h.ttbr0_eq
  ttbr1_eq := h'.ttbr1_eq.trans h.ttbr1_eq
  free_subset := h'.free_subset.trans h.free_subset
  tables := fun hpage hn => h'.tables hpage (h.tables hpage hn)
  memory_eq := fun f hf => (h'.memory_eq f hf).trans
    (h.memory_eq f fun n e hpage hn => hf n e hpage (h'.tables hpage hn))
  entry_eq := fun hentry hpage hn hnone =>
    (h'.entry_eq hentry hpage (h.tables hentry.source_not_page hn) hnone).trans
      (h.entry_eq hentry hpage hn (h'.eq_none hpage hnone))

/-- The current owner stays. -/
theorem Extends.current (h : Extends m place m' place') (hc : m.Current o) : m'.Current o := by
  cases o with
  | kernel => trivial
  | space t => exact h.ttbr0_eq.trans hc

namespace Tables

/-! ## The current tables -/

/-- The top table of the current owner. -/
theorem top_eq (h : Tables K blocks m place) (hc : m.Current o) (htop : place (o, .top) = some e) :
    e.outputAddress = m.top o.half := by
  cases o with
  | kernel =>
      obtain ⟨e', he', hframe⟩ := h.kernel
      rw [htop] at he'
      cases he'
      exact hframe
  | space t => exact (h.space htop).trans hc.symm

theorem selfMapped (h : Tables K blocks m place) (hc : m.Current o)
    (htop : place (o, .top) = some e) : m.SelfMapped o.half := by
  obtain ⟨hself, htable, hwritable, -⟩ := h.self htop
  have hentry : m.topEntry o.half 511 = e := by
    rw [topEntry, ← h.top_eq hc htop]
    exact hself
  refine ⟨hentry ▸ htable, hentry ▸ hwritable, ?_⟩
  rw [hentry]
  exact h.top_eq hc htop

/-- The tables that lead to the entries of a table of the last level are not in `blocks`. -/
structure Open (blocks : Set UserNode) (o : Owner) (i j : Nat) : Prop where
  mid : Edge blocks (o, .top) i (o, .mid i)
  last : Edge blocks (o, .mid i) j (o, .last i j)

theorem Open.lt (h : Open blocks o i j) : i < 511 ∧ j < 512 := by
  have hmid := h.mid.entry.2
  have hlast := h.last.entry.2
  cases hmid
  cases hlast
  omega

/-- The entry of the top table. -/
theorem topEntry (h : Tables K blocks m place) (hc : m.Current o)
    (htop : place (o, .top) = some e) (hedge : Edge blocks (o, .top) i (o, .mid i)) :
    LeadsTo (o, .mid i) (m.topEntry o.half i) (place (o, .mid i)) := by
  rw [Mmu.topEntry, ← h.top_eq hc htop]
  exact h.placed.leads hedge htop

theorem topEntry_eq (h : Tables K blocks m place) (hc : m.Current o)
    (htop : place (o, .top) = some e) (hedge : Edge blocks (o, .top) i (o, .mid i))
    (hmid : place (o, .mid i) = some e') : m.topEntry o.half i = e' := by
  have hleads := h.topEntry hc htop hedge
  rw [hmid] at hleads
  exact hleads.1

theorem midEntry (h : Tables K blocks m place) (hc : m.Current o)
    (htop : place (o, .top) = some e) (hopen : Open blocks o i j)
    (hmid : place (o, .mid i) = some e') :
    LeadsTo (o, .last i j) (m.midEntry o.half i j) (place (o, .last i j)) := by
  rw [Mmu.midEntry, h.topEntry_eq hc htop hopen.mid hmid]
  exact h.placed.leads hopen.last hmid

/-- A write to an entry of a table of the last level. -/
theorem write_window (h : Tables K blocks m place) (hc : m.Current o) (hopen : Open blocks o i j)
    (hk : k < 512) (hlast : place (o, .last i j) = some e') :
    m.write (o.half.base + windowOffset i j k) e = .ok (m.set e'.outputAddress k e) := by
  obtain ⟨e₁, hmid⟩ := h.placed.parent hopen.last hlast
  obtain ⟨e₀, htop⟩ := h.placed.parent hopen.mid hmid
  have hleads := h.topEntry hc htop hopen.mid
  have hleads' := h.midEntry hc htop hopen hmid
  rw [hmid] at hleads
  rw [hlast] at hleads'
  obtain ⟨hi, hj⟩ := hopen.lt
  rw [Mmu.write_window (h.selfMapped hc htop) (by omega) hj hk hleads.2.1 hleads'.2.1,
    if_pos (hleads'.2.2.table id).1, hleads'.1]

/-! ## Writing an entry -/

/-- The entry of a table is another one than the entry that refers to the table itself. -/
theorem self_ne (h : Tables K blocks m place) {c : UserNode} (hentry : Entry n.2 x c)
    (hn : place n = some e) (htop : place (o, .top) = some e') :
    ¬ (e'.outputAddress = e.outputAddress ∧ 511 = x) := by
  rintro ⟨heq, rfl⟩
  obtain rfl := h.placed.injective htop hn heq
  cases hentry
  omega

theorem set_self (h : Tables K blocks m place) {c : UserNode} (hentry : Entry n.2 x c)
    (hn : place n = some e) (htop : place (o, .top) = some e') {e'' : PageTableEntry} :
    (m.set e.outputAddress x e'').memory e'.outputAddress 511 = e' := by
  rw [set_memory, if_neg (h.self_ne hentry hn htop)]
  exact (h.self htop).1

theorem set_free (h : Tables K blocks m place) (hn : place n = some e) {e'' : PageTableEntry} :
    ∀ f ∈ m.pageAllocator.freePages, ∀ y < 512,
      (m.set e.outputAddress x e'').memory f y = .cleared := by
  intro f hf y hy
  have hne : f ≠ e.outputAddress := fun heq => (h.apart hn).2 (heq ▸ hf)
  rw [set_memory, if_neg fun hand => hne hand.1]
  exact h.free_cleared f hf y hy

/-- An entry is written that becomes the descriptor for a page frame of `K`, which was cleared if it
is for a table. -/
theorem assign {K' : Set Nat} (h : Tables K blocks m place) (hedge : Edge blocks n x c)
    (hn : place n = some e) (hK : K' ⊆ K) (hleads : LeadsTo c e' (some e'))
    (hnot : e'.outputAddress ∉ K') (hfree : e'.outputAddress ∉ m.pageAllocator.freePages)
    (hfresh : ∀ {n e''}, place n = some e'' → e''.outputAddress ≠ e'.outputAddress)
    (hleaf : ∀ {y d}, Edge blocks c y d → place d = none)
    (hcleared : ¬ c.2.IsPage → ∀ y < 512, m.memory e'.outputAddress y = .cleared) :
    Tables K' blocks (m.set e.outputAddress x e') (Function.update place c (some e')) := by
  have hold : ∀ {d e''}, Function.update place c (some e') d = some e'' → d ≠ c →
      place d = some e'' := by
    intro d e'' hd hdc
    rwa [Function.update_of_ne hdc] at hd
  have htop : ∀ {o}, Function.update place c (some e') (o, .top) = place (o, .top) := fun {o} =>
    Function.update_of_ne (fun heq => hedge.ne_top (congrArg Prod.snd heq).symm) ..
  constructor
  · refine h.placed.assign (isForest blocks) hedge hn (fun _ hd => hfresh hd) hleaf hleads ?_
    intro y d hedge'
    rw [hcleared hedge'.source_not_page y hedge'.entry.2.lt]
    rfl
  · intro o d e'' hd
    by_cases hdc : (o, d) = c
    · subst hdc
      exact .inr ⟨n.2, x, by rwa [← Prod.mk.eta (p := n), hedge.entry.1] at hedge⟩
    · exact h.reached (hold hd hdc)
  · intro o e'' hd
    rw [htop] at hd
    exact ⟨h.set_self hedge.entry.2 hn hd, (h.self hd).2⟩
  · obtain ⟨e'', he'', hframe⟩ := h.kernel
    exact ⟨e'', htop.trans he'', hframe⟩
  · exact fun hd => h.space (htop.symm.trans hd)
  · intro d y d' e'' hentry hblocks hd
    rw [set_memory]
    by_cases hdc : (.kernel, d) = c
    · subst hdc
      rw [Function.update_self] at hd
      cases hd
      have hpage : ¬ d.IsPage := by cases hentry <;> exact id
      rw [if_neg fun hand => hfresh hn hand.1.symm, hcleared hpage y hentry.lt]
      exact ⟨rfl, fun _ => rfl⟩
    · have hold' := hold hd hdc
      rw [if_neg]
      · exact h.blocked hentry hblocks hold'
      · rintro ⟨heq, rfl⟩
        obtain rfl := h.placed.injective hold' hn heq
        cases hedge with
        | kernel hentry' hnot =>
            obtain rfl := hentry.unique hentry'
            exact hnot hblocks
  · intro d e'' hd
    by_cases hdc : d = c
    · subst hdc
      rw [Function.update_self] at hd
      cases hd
      exact ⟨hnot, hfree⟩
    · have happart := h.apart (hold hd hdc)
      exact ⟨fun hmem => happart.1 (hK hmem), happart.2⟩
  · exact h.managed
  · exact fun f hf hmem => h.free_apart f hf (hK hmem)
  · exact h.set_free hn

/-- An entry for a page is cleared. -/
theorem unassign (h : Tables K blocks m place) (hedge : Edge blocks n x c) (hn : place n = some e)
    (hc : c.2.IsPage) :
    Tables K blocks (m.set e.outputAddress x .cleared) (Function.update place c none) := by
  have hold : ∀ {d e''}, Function.update place c none d = some e'' → place d = some e'' := by
    intro d e'' hd
    by_cases hdc : d = c
    · subst hdc
      rw [Function.update_self] at hd
      cases hd
    · rwa [Function.update_of_ne hdc] at hd
  have htop : ∀ {o}, Function.update place c none (o, .top) = place (o, .top) := fun {o} =>
    Function.update_of_ne (fun heq => hedge.ne_top (congrArg Prod.snd heq).symm) ..
  constructor
  · exact h.placed.unassign (isForest blocks) hedge hn
      (fun hedge' => absurd hc hedge'.source_not_page) rfl
  · exact fun hd => h.reached (hold hd)
  · exact fun hd => ⟨h.set_self hedge.entry.2 hn (hold hd), (h.self (hold hd)).2⟩
  · obtain ⟨e'', he'', hframe⟩ := h.kernel
    exact ⟨e'', htop.trans he'', hframe⟩
  · exact fun hd => h.space (hold hd)
  · intro d y d' e'' hentry hblocks hd
    rw [set_memory, if_neg]
    · exact h.blocked hentry hblocks (hold hd)
    · rintro ⟨heq, rfl⟩
      obtain rfl := h.placed.injective (hold hd) hn heq
      cases hedge with
      | kernel hentry' hnot =>
          obtain rfl := hentry.unique hentry'
          exact hnot hblocks
  · exact fun hd => h.apart (hold hd)
  · exact h.managed
  · exact h.free_apart
  · exact h.set_free hn

/-- An entry for a node of `blocks` is written. -/
theorem set_blocked (h : Tables K blocks m place) {n c : UserNode} (hentry : Entry n x c)
    (hc : c ∈ blocks) (hn : place (.kernel, n) = some e) (he : Blocked c e') :
    Tables K blocks (m.set e.outputAddress x e') place where
  placed := by
    refine h.placed.congr fun {d y d' e''} hedge hd => ?_
    rw [set_memory, if_neg]
    rintro ⟨heq, rfl⟩
    obtain rfl := h.placed.injective hd hn heq
    cases hedge with
    | kernel hentry' hnot =>
        obtain rfl := hentry.unique hentry'
        exact hnot hc
  reached := h.reached
  self := fun hd => ⟨h.set_self (n := (.kernel, n)) hentry hn hd, (h.self hd).2⟩
  kernel := h.kernel
  space := h.space
  blocked := by
    intro d y d' e'' hentry' hblocks hd
    rw [set_memory]
    split
    next heq =>
      obtain ⟨hframe, rfl⟩ := heq
      cases h.placed.injective hd hn hframe
      obtain rfl := hentry.unique hentry'
      exact he
    next => exact h.blocked hentry' hblocks hd
  apart := h.apart
  managed := h.managed
  free_apart := h.free_apart
  free_cleared := h.set_free hn

/-- What is in page frames that are neither tables nor free does not matter. -/
theorem with_memory (h : Tables K blocks m place) {memory : Nat → Nat → PageTableEntry}
    (htable : ∀ n e, ¬ n.2.IsPage → place n = some e →
      memory e.outputAddress = m.memory e.outputAddress)
    (hfree : ∀ f ∈ m.pageAllocator.freePages, memory f = m.memory f) :
    Tables K blocks { m with memory := memory } place where
  placed := h.placed.congr fun hedge hn => congrFun (htable _ _ hedge.source_not_page hn) _
  reached := h.reached
  self := fun hd => ⟨(congrFun (htable _ _ id hd) _).trans (h.self hd).1, (h.self hd).2⟩
  kernel := h.kernel
  space := h.space
  blocked := by
    intro d y d' e'' hentry hblocks hd
    have hpage : ¬ d.IsPage := by cases hentry <;> exact id
    show Blocked d' (memory e''.outputAddress y)
    rw [htable (.kernel, d) e'' hpage hd]
    exact h.blocked hentry hblocks hd
  apart := h.apart
  managed := h.managed
  free_apart := h.free_apart
  free_cleared := fun f hf x hx => (congrFun (hfree f hf) x).trans (h.free_cleared f hf x hx)

/-- Other page frames are to be kept: some of `K`, and some that were free until now. -/
theorem with_allocator {K' : Set Nat} {al : PageAllocator} (h : Tables K blocks m place)
    (hal : al.Managed) (hsub : al.freePages ⊆ m.pageAllocator.freePages)
    (hK : ∀ f ∈ K', f ∈ K ∨ f ∈ m.pageAllocator.freePages) (hfree : ∀ f ∈ al.freePages, f ∉ K')
    (frames : List Nat) :
    Tables K' blocks { m with pageAllocator := al, tableFrames := frames } place where
  placed := h.placed
  reached := h.reached
  self := h.self
  kernel := h.kernel
  space := h.space
  blocked := h.blocked
  apart := by
    intro d e hd
    have happart := h.apart hd
    exact ⟨fun hmem => (hK _ hmem).elim happart.1 happart.2, fun hmem => happart.2 (hsub hmem)⟩
  managed := hal
  free_apart := hfree
  free_cleared := fun f hf => h.free_cleared f (hsub hf)

/-! ## The store to an entry of the last level -/

/-- A table is added in a page frame that was free. -/
theorem add_table {al : PageAllocator} {frame : Nat} (h : Tables K blocks m place)
    (hreserve : m.pageAllocator.reserve pageSize = some (al, frame)) (hne : frame ≠ NOMEM)
    (hedge : Edge blocks n x c) (hn : place n = some e) (hc : place c = none)
    (hpage : ¬ c.2.IsPage) :
    Tables K blocks ((m.reserved al frame).set e.outputAddress x (.tableDescriptor frame))
        (Function.update place c (some (.tableDescriptor frame))) ∧
      Extends m place ((m.reserved al frame).set e.outputAddress x (.tableDescriptor frame))
        (Function.update place c (some (.tableDescriptor frame))) := by
  obtain ⟨hmanaged, hfree, hpages⟩ := h.managed.reserve_outputOf hreserve hne
  have hsub : al.freePages ⊆ m.pageAllocator.freePages := hpages ▸ Set.sdiff_subset
  have hfits : Fits c (.tableDescriptor frame) := by
    obtain ⟨o, c⟩ := c
    cases c with
    | page => exact absurd trivial hpage
    | _ => cases o <;> exact ⟨writable_tableDescriptor frame, rfl⟩
  have h₁ : Tables K blocks (m.reserved al frame) place :=
    h.with_allocator hmanaged hsub (fun f hf => .inl hf)
      (fun f hf => h.free_apart f (hsub hf)) _
  have htables : ∀ {n' e'}, ¬ n'.2.IsPage → place n' = some e' →
      Function.update place c (some (tableDescriptor frame)) n' = some e' := by
    intro n' e' _ hn'
    rw [Function.update_of_ne, hn']
    rintro rfl
    rw [hc] at hn'
    cases hn'
  constructor
  · refine h₁.assign hedge hn subset_rfl ⟨rfl, isTable_tableDescriptor frame, hfits⟩ ?_ ?_ ?_ ?_ ?_
    · exact h.free_apart _ hfree
    · show outputOf frame ∉ al.freePages
      rw [hpages]
      exact fun hmem => hmem.2 rfl
    · intro n' e' hn' heq
      exact (h.apart hn').2 (heq ▸ hfree)
    · exact fun hedge' => h.placed.eq_none_of_parent hedge' hc
    · exact fun _ => h.free_cleared _ hfree
  · refine ⟨rfl, rfl, hsub, htables, fun f hf => ?_, fun {n' c' y e'} hentry _ hn' hnone => ?_⟩
    · exact Function.update_of_ne (hf n e hedge.source_not_page
        (htables hedge.source_not_page hn)).symm ..
    · rw [set_memory, if_neg]
      · rfl
      · rintro ⟨heq, rfl⟩
        obtain rfl := h.placed.injective hn' hn heq
        obtain rfl : (n'.1, c') = c :=
          Prod.ext hedge.entry.1 (hentry.unique hedge.entry.2)
        rw [Function.update_self] at hnone
        cases hnone

/-- A store to an entry of the last level adds the tables that are missing, and no page. -/
theorem store (h : Tables K blocks m place) (hc : m.Current o) (htop : place (o, .top) = some e')
    (hopen : Open blocks o i j) (hk : k < 512)
    (hstore : store fuel m (o.half.base + windowOffset i j k) e = some m') :
    ∃ m₁ place₁ e₂, Tables K blocks m₁ place₁ ∧ Extends m place m₁ place₁ ∧
      place₁ (o, .last i j) = some e₂ ∧ (∀ n, n.2.IsPage → place₁ n = place n) ∧
      m' = m₁.set e₂.outputAddress k e := by
  obtain ⟨hi, hj⟩ := hopen.lt
  have hself := h.selfMapped hc htop
  have hframe := h.top_eq hc htop
  have hpages : ∀ {c : SpaceNode} {place₁ : SpaceNode → Option PageTableEntry} {e₁}, ¬ c.2.IsPage →
      ∀ n : SpaceNode, n.2.IsPage → Function.update place₁ c e₁ n = place₁ n := by
    intro c place₁ e₁ hc n hn
    refine Function.update_of_ne ?_ ..
    rintro rfl
    exact hc hn
  have hleads := h.topEntry hc htop hopen.mid
  cases hmid : place (o, .mid i) with
  | none =>
      -- two tables are added
      rw [hmid] at hleads
      have hlast := h.placed.eq_none_of_parent hopen.last hmid
      obtain ⟨al, frame, al', frame', hreserve, hnomem, hreserve', hnomem', hm'⟩ :=
        store_second hself hi hj hk hleads (fun al frame hreserve hnomem heq => by
          obtain ⟨-, hfree, -⟩ := h.managed.reserve_outputOf hreserve hnomem
          rw [heq, ← hframe] at hfree
          exact (h.apart htop).2 hfree) hstore
      rw [← hframe] at hm'
      obtain ⟨h₁, hext₁⟩ := h.add_table hreserve hnomem hopen.mid htop hmid id
      obtain ⟨h₂, hext₂⟩ := h₁.add_table hreserve' hnomem' hopen.last (Function.update_self ..)
        ((Function.update_of_ne (fun heq => by cases heq) ..).trans hlast) id
      refine ⟨_, _, _, h₂, hext₁.trans hext₂, Function.update_self .., fun n hn => ?_, hm'⟩
      exact (hpages id n hn).trans (hpages id n hn)
  | some e₁ =>
      have htopEntry := h.topEntry_eq hc htop hopen.mid hmid
      rw [hmid] at hleads
      have hleads' := h.midEntry hc htop hopen hmid
      cases hlast : place (o, .last i j) with
      | none =>
          rw [hlast] at hleads'
          have hne : (m.topEntry o.half i).outputAddress ≠ m.top o.half := by
            rw [htopEntry, ← hframe]
            intro heq
            cases h.placed.injective hmid htop heq
          obtain ⟨-, al, frame, hreserve, hnomem, hm'⟩ := store_third hself hi hj hk hleads.2.1
            (fun htable => Bool.false_ne_true (hleads'.symm.trans htable.1)) hne hstore
          rw [htopEntry] at hm'
          obtain ⟨h₁, hext⟩ := h.add_table hreserve hnomem hopen.last hmid hlast id
          exact ⟨_, _, _, h₁, hext, Function.update_self .., hpages id, hm'⟩
      | some e₂ =>
          cases fuel with
          | zero => cases hstore
          | succ fuel =>
              rw [store_ok (h.write_window hc hopen hk hlast) fuel] at hstore
              exact ⟨m, place, e₂, h, .refl m place, hlast, fun _ _ => rfl,
                (Option.some.inj hstore).symm⟩

/-- An entry of the last level is cleared, and the tables stay. -/
theorem clear_entry (h : Tables K blocks m place) (hopen : Open blocks o i j) (hk : k < 512)
    (hlast : place (o, .last i j) = some e) :
    ∃ place', Tables K blocks (m.set e.outputAddress k .cleared) place' ∧
      place' (o, .last i j) = some e := by
  obtain ⟨hi, hj⟩ := hopen.lt
  have hentry : Entry (.last i j) k (.page i j k) := .page hi hj hk
  by_cases hblocks : o = .kernel ∧ .page i j k ∈ blocks
  · obtain ⟨rfl, hmem⟩ := hblocks
    exact ⟨place, h.set_blocked hentry hmem hlast ⟨rfl, fun _ => rfl⟩, hlast⟩
  · have hedge : Edge blocks (o, .last i j) k (o, .page i j k) := by
      cases o with
      | kernel => exact .kernel hentry fun hmem => hblocks ⟨rfl, hmem⟩
      | space => exact .space hentry
    exact ⟨_, h.unassign hedge hlast trivial,
      (Function.update_of_ne (fun heq => by cases heq) ..).trans hlast⟩

/-- The descriptor for an entry of the last level is made with two stores. -/
theorem makeDescriptor (h : Tables K blocks m place) (hc : m.Current o)
    (htop : place (o, .top) = some e') (hopen : Open blocks o i j) (hk : k < 512)
    (hmake : makeDescriptor (Mmu.store fuel) m (o.half.base + windowOffset i j k) e = some m') :
    ∃ m₁ place₁ e₂, Tables K blocks m₁ place₁ ∧ Extends m place m₁ place₁ ∧
      place₁ (o, .last i j) = some e₂ ∧ (∀ n, n.2.IsPage → place₁ n = place n) ∧
      m' = m₁.set e₂.outputAddress k e := by
  obtain ⟨m₂, hclear, hwrite⟩ := Option.bind_eq_some_iff.1 hmake
  obtain ⟨m₁, place₁, e₂, h₁, hext, hlast, hpages, rfl⟩ := h.store hc htop hopen hk hclear
  obtain ⟨place₂, h₂, hlast₂⟩ := h₁.clear_entry hopen hk hlast
  have hc₁ := hext.current hc
  have hc₂ : (m₁.set e₂.outputAddress k .cleared).Current o := by
    cases o <;> exact hc₁
  rw [h₂.write_window hc₂ hopen hk hlast₂, set_set] at hwrite
  exact ⟨m₁, place₁, e₂, h₁, hext, hlast, hpages, (Option.some.inj hwrite).symm⟩

end Tables

end Mmu

end CrosKernel.Memory
