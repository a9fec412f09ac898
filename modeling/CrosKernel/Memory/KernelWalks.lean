import CrosKernel.Memory.NewSpace

/-!
# Walks through the kernel half

What the kernel finds at its own addresses does not change when tables are added: a page that is
mapped stays where it is, and so do the blocks of memory. `Tables.walk_kept` says this of one
address.
-/

namespace CrosKernel.Memory

open Lib PageTableEntry UserNode

namespace Mmu

variable {K K' : Set Nat} {blocks : Set UserNode} {m m' : Mmu}
  {place place' : SpaceNode → Option PageTableEntry} {n : UserNode} {e e' leaf : PageTableEntry}
  {f i j x va pa : Nat}

/-- A walk to a block of memory goes through two tables at most. -/
theorem walkFrom_block {memory memory' : Nat → Nat → PageTableEntry} {top linear : Nat}
    (hblock : leaf.type = false) (hwalk : walkFrom memory top linear = .ok (leaf, pa))
    (hfirst : (memory top (linear / 2 ^ 30)).present = true →
      memory' top (linear / 2 ^ 30) = memory top (linear / 2 ^ 30))
    (hsecond : (memory top (linear / 2 ^ 30)).IsTable →
      (memory (memory top (linear / 2 ^ 30)).outputAddress (linear / 2 ^ 21 % 512)).present = true →
      memory' (memory top (linear / 2 ^ 30)).outputAddress (linear / 2 ^ 21 % 512) =
        memory (memory top (linear / 2 ^ 30)).outputAddress (linear / 2 ^ 21 % 512)) :
    walkFrom memory' top linear = .ok (leaf, pa) := by
  obtain ⟨hpresent, hleaf | ⟨htable, hleaf | ⟨e, he, htable', hleaf⟩⟩⟩ := walkFrom_ok hwalk
  · rw [walkFrom, hfirst (hleaf ▸ hpresent)]
    rw [walkFrom] at hwalk
    simpa only [← hleaf, hpresent, hblock, Bool.not_true, Bool.not_false, Bool.false_eq_true,
      if_true, if_false] using hwalk
  · rw [walkFrom, hfirst htable.1]
    rw [walkFrom] at hwalk
    simp only [htable.1, htable.2, Bool.not_true, Bool.false_eq_true, if_false] at hwalk ⊢
    rw [hsecond htable (hleaf ▸ hpresent)]
    simpa only [← hleaf, hpresent, hblock, Bool.not_true, Bool.not_false, Bool.false_eq_true,
      if_true, if_false] using hwalk
  · -- a leaf of the last level is no block
    rw [walkFrom] at hwalk
    subst he
    simp only [htable.1, htable.2, htable'.1, htable'.2, ← hleaf, hblock, Bool.not_true,
      Bool.false_eq_true, if_false, Bool.and_false] at hwalk
    cases hwalk

namespace Tables

/-- The page frames with tables of the kernel half are those of its tree. -/
theorem kernelFrames_placed (h : Tables K blocks m place) (hf : f ∈ m.kernelFrames) :
    ∃ n e, ¬ n.2.IsPage ∧ n.1 = .kernel ∧ place n = some e ∧ e.outputAddress = f := by
  obtain ⟨e, htop, hframe⟩ := h.kernel
  have htopEntry : ∀ i, m.topEntry .kernel i = m.memory e.outputAddress i := fun i => by
    rw [Mmu.topEntry, hframe]
    rfl
  obtain rfl | ⟨i, hi, htable, rfl | ⟨j, hj, htable', rfl⟩⟩ := hf
  · exact ⟨(.kernel, .top), e, id, rfl, htop, hframe⟩
  · rw [htopEntry] at htable ⊢
    obtain ⟨c, hc, hpage, -, -⟩ := h.next_table htop hi (.inl rfl) htable
    exact ⟨(.kernel, c), _, hpage, rfl, hc, rfl⟩
  · rw [Mmu.midEntry, htopEntry] at htable' ⊢
    rw [htopEntry] at htable
    obtain ⟨c, hc, -, hlevel, -⟩ := h.next_table htop hi (.inl rfl) htable
    obtain ⟨c', hc', hpage', -, -⟩ := h.next_table hc hj (hlevel rfl) htable'
    exact ⟨(.kernel, c'), _, hpage', rfl, hc', rfl⟩

/-- A node of `blocks` never stands in the tree. -/
theorem eq_none_of_blocks (h : Tables K blocks m place) {c : UserNode} (hentry : Entry n x c)
    (hc : c ∈ blocks) : place (.kernel, c) = none := by
  cases hplace : place (.kernel, c) with
  | none => rfl
  | some e =>
      obtain rfl | ⟨n', x', hedge⟩ := h.reached hplace
      · cases hentry
      · cases hedge with
        | kernel _ hnot => exact absurd hc hnot

/-- An entry of the first two levels that is present stays when tables are added. -/
theorem entry_kept (h : Tables K blocks m place) (h' : Tables K' blocks m' place')
    (hext : Extends m place m' place') (hn : place (.kernel, n) = some e) (hx : x < 512)
    (hlevel : n = .top ∨ ∃ i, n = .mid i)
    (hpresent : (m.memory e.outputAddress x).present = true) :
    m'.memory e.outputAddress x = m.memory e.outputAddress x := by
  have hpage : ¬ n.IsPage := by
    obtain rfl | ⟨i, rfl⟩ := hlevel <;> exact id
  have hbelow : ∀ {c}, Entry n x c → ¬ c.IsPage := by
    intro c hentry
    obtain rfl | ⟨i, rfl⟩ := hlevel <;> cases hentry <;> exact id
  have hn' := hext.tables (n := (.kernel, n)) hpage hn
  obtain ⟨c, hedge⟩ | ⟨rfl, rfl⟩ | ⟨c, -, hentry, hmem⟩ := h.entry_cases hn hpage hx
  · have hleads := h.placed.leads hedge hn
    have hleads' := h'.placed.leads hedge hn'
    cases hc : place (.kernel, c) with
    | none =>
        rw [hc] at hleads
        exact absurd (hpresent.symm.trans hleads) (by decide)
    | some e' =>
        rw [hc] at hleads
        rw [hext.tables (hbelow hedge.entry.2) hc] at hleads'
        exact hleads'.1.trans hleads.1.symm
  · exact (h'.self hn').1.trans (h.self hn).1.symm
  · exact hext.entry_eq hentry (hbelow hentry) hn (h'.eq_none_of_blocks hentry hmem)

/-- The walk to an address in the kernel half. -/
theorem walk_high (hhigh : highMem ≤ va) (hlt : va < 2 ^ 64) :
    m.walk va = walkFrom m.memory m.ttbr1 (va - highMem) := by
  have hnot : ¬ va < lowEnd := by
    unfold highMem at hhigh
    unfold lowEnd
    omega
  rw [walk, if_neg hnot, if_pos ⟨hhigh, hlt⟩]

/-- The walk to an address of the kernel whose tables and page are not in `blocks`. -/
theorem walk_page (h : Tables K blocks m place) (hva : Mappable blocks .kernel va)
    (hlt : va < 2 ^ 64) :
    match place (.kernel, pageOf (pageIn .kernel va)) with
    | some e => m.walk va = .ok (e, e.outputAddress * 2 ^ 12 + va % pageSize)
    | none => ∃ a, m.walk va = .error a := by
  obtain ⟨e, htop, hframe⟩ := h.kernel
  have hhigh : highMem ≤ va := hva.base_le
  have hoffset : (va - highMem) % pageSize = va % pageSize := by
    unfold highMem at hhigh ⊢
    unfold pageSize
    omega
  have hwalk := h.walkFrom_open htop hva.opened hva.edge (Nat.mod_lt (va - highMem) (by decide))
  have hdiv : pageIn .kernel va * pageSize + (va - highMem) % pageSize = va - highMem :=
    Nat.div_add_mod' ..
  rw [hdiv, hframe, hoffset] at hwalk
  rwa [walk_high hhigh hlt]

/-- An address of the kernel that leads to a block of memory or to a page keeps doing so when tables
are added and the pages stay. -/
theorem walk_kept (h : Tables K blocks m place) (h' : Tables K' blocks m' place')
    (hext : Extends m place m' place') (hpages : ∀ n, n.2.IsPage → place' n = place n)
    (hhigh : highMem ≤ va) (hlt : va < 2 ^ 64)
    (hlands : leaf.type = false ∨ Mappable blocks .kernel va)
    (hwalk : m.walk va = .ok (leaf, pa)) : m'.walk va = .ok (leaf, pa) := by
  obtain hblock | hpage := hlands
  · obtain ⟨e, htop, hframe⟩ := h.kernel
    have hi : (va - highMem) / 2 ^ 30 < 512 := by
      unfold highMem at *
      omega
    have hj : (va - highMem) / 2 ^ 21 % 512 < 512 := Nat.mod_lt _ (by decide)
    rw [walk_high hhigh hlt] at hwalk ⊢
    rw [hext.ttbr1_eq, ← hframe]
    rw [← hframe] at hwalk
    refine walkFrom_block hblock hwalk (fun hpresent => ?_) fun htable hpresent => ?_
    · exact h.entry_kept h' hext htop hi (.inl rfl) hpresent
    · obtain ⟨c, hc, -, hlevel, -⟩ := h.next_table htop hi (.inl rfl) htable
      exact h.entry_kept h' hext hc hj (hlevel rfl) hpresent
  · have hstart := h.walk_page hpage hlt
    have hend := h'.walk_page hpage hlt
    rw [hpages (.kernel, pageOf _) trivial] at hend
    cases hplace : place (.kernel, pageOf (pageIn .kernel va)) with
    | none =>
        rw [hplace] at hstart
        obtain ⟨a, hstart⟩ := hstart
        rw [hstart] at hwalk
        cases hwalk
    | some e =>
        rw [hplace] at hstart hend
        rw [← hwalk, hstart]
        exact hend

end Tables

end Mmu

end CrosKernel.Memory
