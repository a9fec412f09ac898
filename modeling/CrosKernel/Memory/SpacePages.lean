import CrosKernel.Memory.SpaceTables

/-!
# The pages of all address spaces

What a walk finds in the tables of an address space: the descriptors of the pages that stand there,
and nothing that a process could use in the windows or in the kernel half. `Tables.mapRegion` and
`Tables.unmapRegion` say what mapping and unmapping a region does to the pages of every address
space.
-/

namespace CrosKernel.Memory

open Lib PageTableEntry UserNode

namespace Mmu

variable {K : Set Nat} {blocks : Set UserNode} {m m' : Mmu}
  {place place' : SpaceNode → Option PageTableEntry} {o : Owner} {n c : UserNode}
  {e e' leaf : PageTableEntry} {f i j k p r t x fuel pa linear : Nat}

namespace Tables

/-! ## The entries of a table -/

/-- An entry of a table is for a node of the tree, refers to the table itself, or is for a node of
`blocks`. -/
theorem entry_cases (h : Tables K blocks m place) (hn : place (o, n) = some e) (hpage : ¬ n.IsPage)
    (hx : x < 512) : (∃ c, Edge blocks (o, n) x (o, c)) ∨ (n = .top ∧ x = 511) ∨
      ∃ c, o = .kernel ∧ Entry n x c ∧ c ∈ blocks := by
  have hsplit : ∀ c, Entry n x c → (∃ c, Edge blocks (o, n) x (o, c)) ∨ (n = .top ∧ x = 511) ∨
      ∃ c, o = .kernel ∧ Entry n x c ∧ c ∈ blocks := by
    intro c hentry
    cases o with
    | space => exact .inl ⟨c, .space hentry⟩
    | kernel =>
        by_cases hmem : c ∈ blocks
        · exact .inr (.inr ⟨c, rfl, hentry, hmem⟩)
        · exact .inl ⟨c, .kernel hentry hmem⟩
  cases n with
  | top =>
      by_cases hlast : x = 511
      · exact .inr (.inl ⟨rfl, hlast⟩)
      · exact hsplit _ (.mid (by omega))
  | mid i =>
      obtain heq | ⟨n', y, hedge⟩ := h.reached hn
      · cases heq
      · have hentry := hedge.entry.2
        cases hentry with
        | mid hi => exact hsplit _ (.last hi hx)
  | last i j =>
      obtain heq | ⟨n', y, hedge⟩ := h.reached hn
      · cases heq
      · have hentry := hedge.entry.2
        cases hentry with
        | last hi hj => exact hsplit _ (.page hi hj hx)
  | page => exact absurd trivial hpage

/-- A process can only use the entries of the last level of an address space. -/
theorem hidden (h : Tables K blocks m place) (hn : place (o, n) = some e) (hpage : ¬ n.IsPage)
    (hx : x < 512) (hlast : ∀ t i j, ¬ (o = .space t ∧ n = .last i j))
    (hpresent : (m.memory e.outputAddress x).present = true) :
    (m.memory e.outputAddress x).apEL0 = false := by
  obtain ⟨c, hedge⟩ | ⟨rfl, rfl⟩ | ⟨c, rfl, hentry, hmem⟩ := h.entry_cases hn hpage hx
  · have hleads := h.placed.leads hedge hn
    cases hc : place (o, c) with
    | none =>
        rw [hc] at hleads
        rw [hleads] at hpresent
        cases hpresent
    | some e' =>
        rw [hc] at hleads
        obtain ⟨-, -, hfits⟩ := hleads
        have hentry := hedge.entry.2
        cases c with
        | page i j k =>
            cases hentry with
            | page hi hj hk =>
                cases o with
                | kernel => exact hfits
                | space t => exact absurd ⟨rfl, rfl⟩ (hlast t i j)
        | _ => exact (hfits.table id).2
  · rw [(h.self hn).1]
    exact (h.self hn).2.2.2
  · exact (h.blocked hentry hmem hn).1

/-- A table that an entry of a top table or of a table of the second level refers to. -/
theorem next_table (h : Tables K blocks m place) (hn : place (o, n) = some e) (hx : x < 512)
    (hlevel : n = .top ∨ ∃ i, n = .mid i) (htable : (m.memory e.outputAddress x).IsTable) :
    ∃ c, place (o, c) = some (m.memory e.outputAddress x) ∧ ¬ c.IsPage ∧
      (n = .top → c = .top ∨ ∃ i, c = .mid i) ∧
      (∀ i j, c = .last i j → ∃ y, n = .mid y) := by
  have hpage : ¬ n.IsPage := by
    obtain rfl | ⟨i, rfl⟩ := hlevel <;> exact id
  obtain ⟨c, hedge⟩ | ⟨rfl, rfl⟩ | ⟨c, rfl, hentry, hmem⟩ := h.entry_cases hn hpage hx
  · have hleads := h.placed.leads hedge hn
    cases hc : place (o, c) with
    | none =>
        rw [hc] at hleads
        exact absurd (hleads.symm.trans htable.1) Bool.false_ne_true
    | some e' =>
        rw [hc] at hleads
        have hentry := hedge.entry.2
        refine ⟨c, hc.trans (congrArg some hleads.1.symm), ?_⟩
        obtain rfl | ⟨i, rfl⟩ := hlevel
        · cases hentry with
          | mid => exact ⟨id, fun _ => .inr ⟨_, rfl⟩, fun i j heq => by cases heq⟩
        · cases hentry with
          | last => exact ⟨id, fun heq => (by cases heq), fun _ _ _ => ⟨i, rfl⟩⟩
  · refine ⟨.top, hn.trans (congrArg some (h.self hn).1.symm), id, fun _ => .inl rfl, ?_⟩
    exact fun i j heq => by cases heq
  · have hblocked := (h.blocked hentry hmem hn).2
    have hnot : ¬ c.IsPage := by
      obtain rfl | ⟨i, rfl⟩ := hlevel <;> cases hentry <;> exact id
    exact absurd ((hblocked hnot).symm.trans htable.2) Bool.false_ne_true

end Tables

/-! ## The walk -/

/-- The three steps of a walk that ends at a leaf. -/
theorem walkFrom_ok {memory : Nat → Nat → PageTableEntry} {top : Nat}
    (h : walkFrom memory top linear = .ok (leaf, pa)) :
    leaf.present = true ∧ (leaf = memory top (linear / 2 ^ 30) ∨
      (memory top (linear / 2 ^ 30)).IsTable ∧
        (leaf = memory (memory top (linear / 2 ^ 30)).outputAddress (linear / 2 ^ 21 % 512) ∨
          ∃ e, e = memory (memory top (linear / 2 ^ 30)).outputAddress (linear / 2 ^ 21 % 512) ∧
            e.IsTable ∧ leaf = memory e.outputAddress (linear / 2 ^ 12 % 512))) := by
  rw [walkFrom] at h
  cases hpresent : (memory top (linear / 2 ^ 30)).present with
  | false =>
      simp only [hpresent] at h
      cases h
  | true =>
      cases htype : (memory top (linear / 2 ^ 30)).type with
      | false =>
          simp only [hpresent, htype] at h
          cases h
          exact ⟨hpresent, .inl rfl⟩
      | true =>
          simp only [hpresent, htype] at h
          generalize memory (memory top (linear / 2 ^ 30)).outputAddress (linear / 2 ^ 21 % 512) =
            e₂ at h
          cases hpresent₂ : e₂.present with
          | false =>
              simp only [hpresent₂] at h
              cases h
          | true =>
              cases htype₂ : e₂.type with
              | false =>
                  simp only [hpresent₂, htype₂] at h
                  cases h
                  exact ⟨hpresent₂, .inr ⟨⟨hpresent, htype⟩, .inl rfl⟩⟩
              | true =>
                  simp only [hpresent₂, htype₂] at h
                  cases hlast : (memory e₂.outputAddress (linear / 2 ^ 12 % 512)).present &&
                      (memory e₂.outputAddress (linear / 2 ^ 12 % 512)).type with
                  | false =>
                      simp only [hlast] at h
                      cases h
                  | true =>
                      simp only [hlast] at h
                      cases h
                      exact ⟨(Bool.and_eq_true_iff.1 hlast).1, .inr ⟨⟨hpresent, htype⟩,
                        .inr ⟨e₂, rfl, ⟨hpresent₂, htype₂⟩, rfl⟩⟩⟩

namespace Tables

/-- A walk through the kernel half, or through the last entry of a top table, ends at nothing that a
process can use. -/
theorem walkFrom_hidden (h : Tables K blocks m place) (htop : place (o, .top) = some e)
    (hlinear : linear < 2 ^ 39) (hnot : o = .kernel ∨ 511 ≤ linear / 2 ^ 30)
    (hwalk : walkFrom m.memory e.outputAddress linear = .ok (leaf, pa)) : leaf.apEL0 = false := by
  have hi : linear / 2 ^ 30 < 512 := by omega
  have hj : linear / 2 ^ 21 % 512 < 512 := Nat.mod_lt _ (by decide)
  have hk : linear / 2 ^ 12 % 512 < 512 := Nat.mod_lt _ (by decide)
  obtain ⟨hpresent, rfl | ⟨htable, rfl | ⟨e₂, he₂, htable₂, rfl⟩⟩⟩ := walkFrom_ok hwalk
  · exact h.hidden htop id hi (fun t i j heq => by cases heq.2) hpresent
  · obtain ⟨c, hc, hpage, hlevel, -⟩ := h.next_table htop hi (.inl rfl) htable
    refine h.hidden hc hpage hj (fun t i j heq => ?_) hpresent
    obtain rfl | ⟨y, rfl⟩ := hlevel rfl <;> cases heq.2
  · obtain ⟨c, hc, -, hlevel, -⟩ := h.next_table htop hi (.inl rfl) htable
    rw [he₂] at htable₂
    obtain ⟨c', hc', hpage', -, hlast⟩ := h.next_table hc hj (hlevel rfl) htable₂
    rw [← he₂] at hc'
    refine h.hidden hc' hpage' hk (fun t i j heq => ?_) hpresent
    obtain ⟨rfl, rfl⟩ := heq
    obtain ⟨y, rfl⟩ := hlast i j rfl
    -- from the last entry of a top table the walk comes to the top table again
    obtain hkernel | hwindow := hnot
    · cases hkernel
    · obtain heq : linear / 2 ^ 30 = 511 := by omega
      rw [heq, (h.self htop).1] at hc
      have hsame := h.placed.injective htop hc rfl
      cases hsame

/-- The tables of an address space lead to its pages. -/
theorem openSpace (hp : p < userPages) : Open blocks (.space t) (p / 2 ^ 18) (p / 2 ^ 9 % 512) := by
  unfold userPages at hp
  exact ⟨.space (.mid (by omega)), .space (.last (by omega) (by omega))⟩

theorem edge_pageOf (hp : p < userPages) :
    Edge blocks (.space t, .last (p / 2 ^ 18) (p / 2 ^ 9 % 512)) (p % 512) (.space t, pageOf p) :=
  .space (entry_pageOf hp)

theorem lt_of_page (h : Tables K blocks m place) (hpage : place (o, pageOf p) = some e) :
    p < userPages := by
  obtain heq | ⟨n, x, hedge⟩ := h.reached hpage
  · cases heq
  · have hentry := hedge.entry.2
    have hi : p / 2 ^ 18 < 511 := by
      cases hentry
      assumption
    unfold userPages
    omega

/-- The walk to an address whose tables and page are not in `blocks`. -/
theorem walkFrom_open (h : Tables K blocks m place) (htop : place (o, .top) = some e)
    (hopen : Open blocks o (p / 2 ^ 18) (p / 2 ^ 9 % 512))
    (hedge : Edge blocks (o, .last (p / 2 ^ 18) (p / 2 ^ 9 % 512)) (p % 512) (o, pageOf p))
    (hr : r < pageSize) :
    match place (o, pageOf p) with
    | some e' => walkFrom m.memory e.outputAddress (p * pageSize + r) =
        .ok (e', e'.outputAddress * 2 ^ 12 + r)
    | none => ∃ a, walkFrom m.memory e.outputAddress (p * pageSize + r) = .error a := by
  have hfirst : (p * pageSize + r) / 2 ^ 30 = p / 2 ^ 18 := by
    unfold pageSize at *
    omega
  have hsecond : (p * pageSize + r) / 2 ^ 21 % 512 = p / 2 ^ 9 % 512 := by
    unfold pageSize at *
    omega
  have hthird : (p * pageSize + r) / 2 ^ 12 % 512 = p % 512 := by
    unfold pageSize at *
    omega
  have hoffset : (p * pageSize + r) % 2 ^ 12 = r := by
    unfold pageSize at *
    omega
  have hleads := h.placed.leads hopen.mid htop
  rw [walkFrom, hfirst, hsecond, hthird, hoffset]
  cases hmid : place (o, .mid (p / 2 ^ 18)) with
  | none =>
      rw [h.placed.eq_none_of_parent hedge (h.placed.eq_none_of_parent hopen.last hmid)]
      rw [hmid] at hleads
      exact ⟨.translation 1, by rw [hleads]; rfl⟩
  | some e₁ =>
      rw [hmid] at hleads
      obtain ⟨heq, htable, -⟩ := hleads
      have hleads' := h.placed.leads hopen.last hmid
      rw [heq, (heq ▸ htable : e₁.IsTable).1, (heq ▸ htable : e₁.IsTable).2]
      cases hlast : place (o, .last (p / 2 ^ 18) (p / 2 ^ 9 % 512)) with
      | none =>
          rw [h.placed.eq_none_of_parent hedge hlast]
          rw [hlast] at hleads'
          exact ⟨.translation 2, by dsimp only; rw [hleads']; rfl⟩
      | some e₂ =>
          rw [hlast] at hleads'
          obtain ⟨heq', htable', -⟩ := hleads'
          have hleads'' := h.placed.leads hedge hlast
          dsimp only
          rw [heq', (heq' ▸ htable' : e₂.IsTable).1, (heq' ▸ htable' : e₂.IsTable).2]
          cases hpage : place (o, pageOf p) with
          | none =>
              rw [hpage] at hleads''
              exact ⟨.translation 3, by rw [hleads'']; rfl⟩
          | some e₃ =>
              rw [hpage] at hleads''
              obtain ⟨heq'', htable'', -⟩ := hleads''
              dsimp only
              rw [heq'', (heq'' ▸ htable'' : e₃.IsTable).1, (heq'' ▸ htable'' : e₃.IsTable).2]
              rfl

/-- The walk to an address of the lower half, outside the windows. -/
theorem walkFrom_space (h : Tables K blocks m place) (htop : place (.space t, .top) = some e)
    (hp : p < userPages) (hr : r < pageSize) :
    match place (.space t, pageOf p) with
    | some e' => walkFrom m.memory t (p * pageSize + r) =
        .ok (e', e'.outputAddress * 2 ^ 12 + r)
    | none => ∃ a, walkFrom m.memory t (p * pageSize + r) = .error a := by
  have hwalk := h.walkFrom_open htop (openSpace hp) (edge_pageOf hp) hr
  rwa [h.space htop] at hwalk

end Tables

/-- Below the windows the page fault handler has no table to add. -/
theorem handlePageFault_user {store : Mmu → Nat → PageTableEntry → Option Mmu} {va : Nat}
    (hva : pageNumber va < userPages) (level : Nat) :
    handlePageFault store m level va = none := by
  have hlow : va < 0x7FC0000000 := by
    unfold pageNumber userPages pageSize at hva
    omega
  have hnot : ∀ half i, ¬ tables half i ≤ va := by
    intro half i
    unfold tables
    split <;> omega
  simp only [handlePageFault, hnot, if_false, ite_self]

/-- A page by its descriptor. -/
def pageOfEntry (memory : Nat → Nat → PageTableEntry) (e : PageTableEntry) : Page :=
  ⟨!e.apReadOnly, e.xn, fun x => memory e.outputAddress x⟩

namespace Tables

/-- A process sees the pages of its address space. -/
theorem pageAt_eq (h : Tables K blocks m place) (htop : place (.space t, .top) = some e) (p : Nat) :
    pageAt m.memory t p = (place (.space t, pageOf p)).map (pageOfEntry m.memory) := by
  by_cases hp : p < userPages
  · have hwalk := h.walkFrom_space htop hp (by decide : 0 < pageSize)
    have hlow : p < lowPages := by
      unfold userPages at hp
      unfold lowPages
      omega
    rw [pageAt, if_pos hlow]
    cases hpage : place (.space t, pageOf p) with
    | none =>
        rw [hpage] at hwalk
        obtain ⟨a, hwalk⟩ := hwalk
        rw [Nat.add_zero] at hwalk
        rw [hwalk]
        rfl
    | some e' =>
        rw [hpage] at hwalk
        obtain ⟨f, hlast⟩ := h.placed.parent (edge_pageOf hp) hpage
        have hleads := h.placed.leads (edge_pageOf hp) hlast
        rw [hpage] at hleads
        obtain ⟨haf, huser⟩ : e'.af = true ∧ e'.apEL0 = true := hleads.fits
        have hframe : (e'.outputAddress * 2 ^ 12 + 0) / 2 ^ 12 = e'.outputAddress := by omega
        rw [Nat.add_zero] at hwalk
        rw [hwalk]
        dsimp only
        rw [haf, huser, ← Nat.add_zero (e'.outputAddress * 2 ^ 12), hframe]
        rfl
  · have hnone : place (.space t, pageOf p) = none := by
      cases hpage : place (.space t, pageOf p) with
      | none => rfl
      | some e' => exact absurd (h.lt_of_page hpage) hp
    rw [hnone, pageAt]
    split
    next hlow =>
      split
      next leaf pa hwalk =>
        -- the windows
        rw [← h.space htop] at hwalk
        have hhidden := h.walkFrom_hidden htop (by unfold lowPages at hlow; unfold pageSize; omega)
          (.inr (by unfold userPages at hp; unfold pageSize; omega)) hwalk
        rw [hhidden, Bool.and_false]
        rfl
      next => rfl
    next => rfl

/-- What is in one page does not matter for the trees and for the other pages. -/
theorem with_page (h : Tables K blocks m place) (hpage : place (.space t, pageOf p) = some e)
    {memory : Nat → Nat → PageTableEntry}
    (hother : ∀ f, f ≠ e.outputAddress → memory f = m.memory f) :
    Tables K blocks { m with memory := memory } place ∧
      ∀ t' e' q, place (.space t', .top) = some e' → ¬ (t = t' ∧ q = p) →
        pageAt memory t' q = pageAt m.memory t' q := by
  have hnode : ∀ {n e'}, n ≠ (.space t, pageOf p) → place n = some e' →
      memory e'.outputAddress = m.memory e'.outputAddress := fun hne hn =>
    hother _ fun heq => hne (h.placed.injective hn hpage heq)
  have h' : Tables K blocks { m with memory := memory } place := by
    refine h.with_memory (fun n e' hn hplace => hnode ?_ hplace) fun f hf => hother f ?_
    · rintro rfl
      exact hn trivial
    · rintro rfl
      exact (h.apart hpage).2 hf
  refine ⟨h', fun t' e' q htop hne => ?_⟩
  have hafter := h'.pageAt_eq htop q
  dsimp only at hafter
  rw [h.pageAt_eq htop, hafter]
  cases hq : place (.space t', pageOf q) with
  | none => rfl
  | some leaf =>
      have hmemory := hnode (fun heq => hne (by
        obtain ⟨ht, hq⟩ := Prod.mk.inj heq
        exact ⟨(Owner.space.inj ht).symm, pageOf_inj.1 hq⟩)) hq
      simp only [Option.map_some, pageOfEntry, hmemory]

/-! ## What a process can access -/

theorem walk_space (h : Tables K blocks m place) (hc : m.Current (.space t))
    (htop : place (.space t, .top) = some e) {va : Nat}
    (hpage : place (.space t, pageOf (pageNumber va)) = some e') :
    m.walk va = .ok (e', e'.outputAddress * 2 ^ 12 + va % pageSize) := by
  have hp := h.lt_of_page hpage
  have hwalk := h.walkFrom_space htop hp (Nat.mod_lt va (by decide))
  rw [hpage] at hwalk
  have hva : pageNumber va * pageSize + va % pageSize = va := Nat.div_add_mod' va pageSize
  have hlow : va < lowEnd := by
    unfold pageNumber pageSize userPages at hp
    unfold lowEnd
    omega
  rw [hva, ← hc] at hwalk
  rw [walk, if_pos hlow, hwalk]

theorem walk_space_none (h : Tables K blocks m place) (hc : m.Current (.space t))
    (htop : place (.space t, .top) = some e) {va : Nat} (hva : pageNumber va < userPages)
    (hpage : place (.space t, pageOf (pageNumber va)) = none) : ∃ a, m.walk va = .error a := by
  have hwalk := h.walkFrom_space htop hva (Nat.mod_lt va (by decide))
  have hdiv : pageNumber va * pageSize + va % pageSize = va := Nat.div_add_mod' va pageSize
  have hlow : va < lowEnd := by
    unfold pageNumber userPages pageSize at hva
    unfold lowEnd
    omega
  rw [hpage, hdiv, ← hc] at hwalk
  rw [walk, if_pos hlow]
  exact hwalk

/-- Where a process has no page it can access nothing. -/
theorem not_accessible (h : Tables K blocks m place) (hc : m.Current (.space t))
    (htop : place (.space t, .top) = some e) {va : Nat} 
    (hpage : place (.space t, pageOf (pageNumber va)) = none)
    (hwalk : m.walk va = .ok (leaf, pa)) : leaf.apEL0 = false := by
  rw [walk] at hwalk
  split at hwalk
  next hlow =>
    rw [hc] at hwalk
    by_cases hp : pageNumber va < userPages
    · have hnone := h.walkFrom_space htop hp (Nat.mod_lt va (by decide))
      have hva : pageNumber va * pageSize + va % pageSize = va := Nat.div_add_mod' va pageSize
      rw [hpage, hva] at hnone
      obtain ⟨a, hnone⟩ := hnone
      rw [hnone] at hwalk
      cases hwalk
    · rw [← h.space htop] at hwalk
      unfold lowEnd at hlow
      unfold userPages pageNumber pageSize at hp
      exact h.walkFrom_hidden htop (by omega) (.inr (by omega)) hwalk
  next =>
    split at hwalk
    next hhigh =>
      obtain ⟨e₀, hkernel, hframe⟩ := h.kernel
      rw [← hframe] at hwalk
      refine h.walkFrom_hidden hkernel ?_ (.inl rfl) hwalk
      unfold highMem
      omega
    next => cases hwalk

theorem descriptor_fits (h : Tables K blocks m place)
    (hpage : place (.space t, pageOf p) = some e) : e.IsTable ∧ e.af = true ∧ e.apEL0 = true := by
  have hp := h.lt_of_page hpage
  obtain ⟨f, hlast⟩ := h.placed.parent (edge_pageOf hp) hpage
  have hleads := h.placed.leads (edge_pageOf hp) hlast
  rw [hpage] at hleads
  exact ⟨hleads.present, hleads.fits⟩

/-- A process reads what is in its pages, and nothing else. -/
theorem userLoad_eq (h : Tables K blocks m place) (hc : m.Current (.space t))
    (htop : place (.space t, .top) = some e) (va : Nat) :
    m.userLoad va = (pageAt m.memory t (pageNumber va)).map fun pg =>
      pg.contents ⟨va % pageSize / 8, entryIndex_lt va⟩ := by
  rw [h.pageAt_eq htop, userLoad]
  cases hpage : place (.space t, pageOf (pageNumber va)) with
  | some e' =>
      obtain ⟨-, haf, huser⟩ := h.descriptor_fits hpage
      have hframe : (e'.outputAddress * 2 ^ 12 + va % pageSize) / 2 ^ 12 = e'.outputAddress := by
        unfold pageSize
        omega
      have hentry : (e'.outputAddress * 2 ^ 12 + va % pageSize) % 2 ^ 12 = va % pageSize := by
        unfold pageSize
        omega
      rw [h.walk_space hc htop hpage]
      dsimp only
      rw [haf, huser, hframe, hentry]
      rfl
  | none =>
      split
      next leaf pa hwalk =>
        rw [h.not_accessible hc htop hpage hwalk, Bool.and_false]
        rfl
      next => rfl

/-- A process writes to its writable pages, and nowhere else. -/
theorem userStore_eq (h : Tables K blocks m place) (hc : m.Current (.space t))
    (htop : place (.space t, .top) = some e) (va : Nat) (e' : PageTableEntry) :
    m.userStore va e' = match place (.space t, pageOf (pageNumber va)) with
      | some leaf => if leaf.apReadOnly then none
          else some (m.set leaf.outputAddress (va % pageSize / 8) e')
      | none => none := by
  rw [userStore]
  cases hpage : place (.space t, pageOf (pageNumber va)) with
  | some leaf =>
      obtain ⟨-, haf, huser⟩ := h.descriptor_fits hpage
      have hframe : (leaf.outputAddress * 2 ^ 12 + va % pageSize) / 2 ^ 12 =
          leaf.outputAddress := by
        unfold pageSize
        omega
      have hentry : (leaf.outputAddress * 2 ^ 12 + va % pageSize) % 2 ^ 12 = va % pageSize := by
        unfold pageSize
        omega
      rw [h.walk_space hc htop hpage]
      dsimp only
      rw [haf, huser, hframe, hentry]
      cases leaf.apReadOnly <;> rfl
  | none =>
      split
      next leaf pa hwalk =>
        rw [h.not_accessible hc htop hpage hwalk, Bool.and_false]
        rfl
      next => rfl

/-- A write of the kernel to a page of the address space. -/
theorem write_page (h : Tables K blocks m place) (hc : m.Current (.space t))
    (htop : place (.space t, .top) = some e) {va : Nat} {e'' : PageTableEntry}
    (hpage : place (.space t, pageOf (pageNumber va)) = some e') :
    m.write va e'' = if e'.apReadOnly then .error .other
      else .ok (m.set e'.outputAddress (va % pageSize / 8) e'') := by
  obtain ⟨-, haf, -⟩ := h.descriptor_fits hpage
  have hframe : (e'.outputAddress * 2 ^ 12 + va % pageSize) / 2 ^ 12 = e'.outputAddress := by
    unfold pageSize
    omega
  have hentry : (e'.outputAddress * 2 ^ 12 + va % pageSize) % 2 ^ 12 = va % pageSize := by
    unfold pageSize
    omega
  rw [write, h.walk_space hc htop hpage]
  dsimp only
  rw [haf, hframe, hentry]
  cases e'.apReadOnly <;> rfl

end Tables

end Mmu

end CrosKernel.Memory
