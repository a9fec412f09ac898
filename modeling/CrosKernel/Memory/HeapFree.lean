import CrosKernel.Memory.HeapMerge

/-!
# What a call of `rfree` frees

`rfree` on a heap whose blocks tile it exactly, whatever the links of the free blocks are. The words
of the freed block join the free ones, in a heap that is tiled as before: `rfree_frees`.
-/

namespace CrosKernel.Memory

open Lib

namespace Heap

variable {h h' : Heap} {tiles tiles' l r : List Tile} {s t : Tile} {a b x : Nat}

/-- The words of a block with its header and its footer. -/
def Covers (t : Tile) (x : Nat) : Prop := t.addr ≤ x ∧ x < t.addr + t.len

/-- A word of a free block. -/
def FreeWord (tiles : List Tile) (x : Nat) : Prop := ∃ t ∈ tiles, t.used = false ∧ Covers t x

/-- The blocks fill the heap up to its end, the last one is free and the start of the list, and no
two free blocks follow each other. -/
structure WellTiled (h : Heap) (tiles : List Tile) : Prop where
  laid : Laid h tiles
  fill : Tiling Tile.addr Tile.len h.heap tiles h.heapEnd
  apart : NoneAdjacent tiles

/-- A word of the heap is free when it lies in no block in use. -/
theorem freeWord_iff (hfill : Tiling Tile.addr Tile.len a tiles b) :
    FreeWord tiles x ↔ (a ≤ x ∧ x < b) ∧ ∀ s ∈ usedTiles tiles, ¬Covers s x := by
  constructor
  · intro hword
    obtain ⟨t, ht, hfree, hlow, hhigh⟩ := hword
    have hbounds := hfill.bounds ht
    refine ⟨⟨hbounds.1.trans hlow, hhigh.trans_le hbounds.2⟩, fun s hs hcover => ?_⟩
    obtain ⟨hs, hused⟩ := mem_usedTiles.1 hs
    obtain rfl | hapart | hapart := hfill.apart hs ht
    · rw [hfree] at hused
      cases hused
    · exact absurd (hcover.2.trans_le hapart) (Nat.not_lt_of_le hlow)
    · exact absurd (hhigh.trans_le hapart) (Nat.not_lt_of_le hcover.1)
  · intro hword
    obtain ⟨⟨hlow, hhigh⟩, hnone⟩ := hword
    obtain ⟨t, ht, hcover⟩ := hfill.covers hlow hhigh
    cases hused : t.used with
    | false => exact ⟨t, ht, hused, hcover⟩
    | true => exact absurd hcover (hnone t (mem_usedTiles.2 ⟨ht, hused⟩))

/-- When the other blocks in use stay, the words of the freed block are the new free ones. -/
theorem freeWord_merged (hfill : Tiling Tile.addr Tile.len a (l ++ [t] ++ r) b)
    (hfill' : Tiling Tile.addr Tile.len a tiles' b) (hused : t.used = true)
    (hsame : usedTiles tiles' = usedTiles (l ++ r)) :
    FreeWord tiles' x ↔ FreeWord (l ++ [t] ++ r) x ∨ Covers t x := by
  have ht : t ∈ l ++ [t] ++ r := by simp
  have hsplit : ∀ s, s ∈ usedTiles (l ++ [t] ++ r) ↔ s = t ∨ s ∈ usedTiles (l ++ r) := by
    intro s
    simp only [mem_usedTiles, List.mem_append, List.mem_singleton]
    constructor
    · tauto
    · rintro (rfl | hs)
      · exact ⟨by tauto, hused⟩
      · tauto
  rw [freeWord_iff hfill, freeWord_iff hfill', hsame]
  constructor
  · intro hword
    obtain ⟨hin, hnone⟩ := hword
    by_cases hcover : Covers t x
    · exact .inr hcover
    · refine .inl ⟨hin, fun s hs => ?_⟩
      obtain rfl | hs := (hsplit s).1 hs
      · exact hcover
      · exact hnone s hs
  · intro hword
    obtain ⟨hin, hnone⟩ | hcover := hword
    · exact ⟨hin, fun s hs => hnone s ((hsplit s).2 (.inr hs))⟩
    · have hbounds := hfill.bounds ht
      refine ⟨⟨hbounds.1.trans hcover.1, hcover.2.trans_le hbounds.2⟩, fun s hs hboth => ?_⟩
      rw [List.append_assoc] at hfill
      obtain hapart | hapart := hfill.beside (mem_usedTiles.1 hs).1
      · exact absurd (hboth.2.trans_le hapart) (Nat.not_lt_of_le hcover.1)
      · exact absurd (hcover.2.trans_le hapart) (Nat.not_lt_of_le hboth.1)

/-- `rfree` of a block in use returns, leaves the heap tiled in the same place, adds the words of
the block to the free ones, and does not touch the other blocks in use. -/
theorem rfree_frees (htiled : WellTiled h tiles) (ht : t ∈ tiles) (hused : t.used = true)
    (hprevious : h.searchPrevious = 0 ∨ h.searchPrevious ∈ freeAddrs tiles) :
    ∃ n, ∀ fuel, n ≤ fuel → ∃ h' tiles', h.rfree fuel (t.addr + 24) = some h' ∧
      h'.heap = h.heap ∧ h'.heapEnd = h.heapEnd ∧ WellTiled h' tiles' ∧
      (∀ x, FreeWord tiles' x ↔ FreeWord tiles x ∨ Covers t x) ∧
      ∀ s ∈ tiles, s.used = true → s ≠ t →
        s ∈ tiles' ∧ ∀ x, Covers s x → h'.mem x = h.mem x := by
  obtain ⟨hl, hfill, hapart⟩ := htiled
  obtain ⟨l, r, rfl⟩ := List.append_of_mem ht
  rw [List.append_cons] at hl hfill hapart hprevious ⊢
  have hsafe : InsertSafe h l r t := hprevious.imp_right .inl
  obtain ⟨n, hreturns⟩ := hl.rfree_returns hused hsafe
  refine ⟨n, fun fuel hfuel => ?_⟩
  obtain ⟨h', hrun⟩ := hreturns fuel hfuel
  obtain ⟨tiles', h₁, hmerged, -, -⟩ := hl.rfree hused hsafe hrun
  have hfill' := hmerged.fill _ _ hfill
  have hsides : NoneAdjacent l ∧ NoneAdjacent r := by
    rw [NoneAdjacent, List.append_assoc] at hapart
    exact ⟨hapart.left_of_append, (List.isChain_of_isChain_cons hapart.right_of_append)⟩
  refine ⟨h', tiles', hrun, hmerged.keeps.heap, hmerged.keeps.heapEnd,
    ⟨hmerged.laid, ?_, hmerged.apart hsides.1 hsides.2⟩,
    fun x => freeWord_merged hfill hfill' hused hmerged.used, fun s hs huse hne => ?_⟩
  · rw [hmerged.keeps.heap, hmerged.keeps.heapEnd]
    exact hfill'
  · have hother : s ∈ usedTiles (l ++ r) := by
      refine mem_usedTiles.2 ⟨?_, huse⟩
      simp only [List.mem_append, List.mem_singleton, hne, or_false] at hs ⊢
      exact hs
    refine ⟨(mem_usedTiles.1 (hmerged.used ▸ hother)).1, fun x hcover => ?_⟩
    exact hmerged.keeps.words s hother x (Tile.owns_iff.2 ⟨hcover.1, hcover.2, .inl huse⟩)

/-- The first one of two blocks is freed, and the heap is one block. -/
theorem rfree_frees_first :
    ∃ n, ∀ fuel, n ≤ fuel → ∃ h' tiles',
      Heap.rfree fuel ⟨fun a => if a ∈ [8, 24, 40, 48] then 1 else 0, 8, 56, 0, 0, 0, 96⟩ 32 =
        some h' ∧ h'.heap = 8 ∧ h'.heapEnd = 96 ∧ WellTiled h' tiles' ∧
      (∀ x, FreeWord tiles' x ↔
        FreeWord [⟨8, 1, true⟩, ⟨56, 0, false⟩] x ∨ Covers ⟨8, 1, true⟩ x) ∧
      ∀ s ∈ [⟨8, 1, true⟩, ⟨56, 0, false⟩], s.used = true → s ≠ ⟨8, 1, true⟩ →
        s ∈ tiles' ∧ ∀ x, Covers s x → h'.mem x = if x ∈ [8, 24, 40, 48] then 1 else 0 := by
  have htagged : ∀ t ∈ [⟨8, 1, true⟩, ⟨56, 0, false⟩],
      Tile.Tagged (fun a => if a ∈ [8, 24, 40, 48] then 1 else 0) t := by
    intro t ht
    simp only [List.mem_cons, List.not_mem_nil, or_false] at ht
    obtain rfl | rfl := ht
    · exact ⟨rfl, rfl, rfl, rfl⟩
    · exact ⟨rfl, rfl, rfl, rfl⟩
  have hlaid : Laid ⟨fun a => if a ∈ [8, 24, 40, 48] then 1 else 0, 8, 56, 0, 0, 0, 96⟩
      [⟨8, 1, true⟩, ⟨56, 0, false⟩] :=
    ⟨⟨96, ⟨rfl, rfl, rfl⟩, le_rfl⟩, htagged, ⟨[⟨8, 1, true⟩], _, rfl, rfl, rfl⟩, by decide,
      by decide⟩
  exact rfree_frees ⟨hlaid, ⟨rfl, rfl, rfl⟩, List.isChain_pair.2 (.inl rfl)⟩
    (t := ⟨8, 1, true⟩) (by simp) rfl (.inl rfl)

end Heap

end CrosKernel.Memory
