import CrosKernel.Memory.MemoryMapMerged
import CrosKernel.Memory.PageFrames

/-!
# The pages of a described memory

Between the calls of `place` that describe the memory and the page allocator there are the regions of
the map. `free_iff_available` leaves them out: after construction the free pages are those with memory
at every address that was described as available and as nothing else.
-/

namespace CrosKernel.Memory

open Lib MemoryMap MemoryRegion

namespace MemoryMap

/-- The address was described as available, and as nothing else. -/
def Available (placed : List MemoryRegion) (x : Nat) : Prop :=
  (∃ N ∈ placed, InRegion N x) ∧ ∀ N ∈ placed, InRegion N x → N.type = .AVAILABLE

variable {map : MemoryMap} {placed : List MemoryRegion} {r s N : MemoryRegion}
  {blockSize p x : Nat} {a : PageAllocator} {mapBase : BlockPtr → Block}

/-! ## Neighbours -/

/-- Regions that touch are neighbours in the map. -/
theorem exists_neighbours (hsep : layering.Separated map) (hpos : ∀ y ∈ map, 0 < y.size)
    (hr : r ∈ map) (hs : s ∈ map) (htouch : r.stop = s.location) :
    ∃ A B, map = A ++ r :: s :: B := by
  induction map with
  | nil => cases hr
  | cons y map ih =>
      obtain ⟨hfirst, hrest⟩ := List.pairwise_cons.1 hsep
      have hstop : ∀ z ∈ y :: map, z.location < z.stop := fun z hz =>
        Nat.lt_add_of_pos_right (hpos z hz)
      obtain rfl | hr' := List.mem_cons.1 hr
      · obtain rfl | hs := List.mem_cons.1 hs
        · exact absurd htouch (hstop s hs).ne'
        · cases map with
          | nil => cases hs
          | cons z map =>
              obtain rfl | hs' := List.mem_cons.1 hs
              · exact ⟨[], map, rfl⟩
              · -- nothing fits between the two
                have hle : r.stop ≤ z.location := hfirst z List.mem_cons_self
                have hle' : z.stop ≤ s.location := (List.pairwise_cons.1 hrest).1 s hs'
                have hlt := hstop z (List.mem_cons_of_mem r List.mem_cons_self)
                omega
      · obtain rfl | hs := List.mem_cons.1 hs
        · have hle : s.stop ≤ r.location := hfirst r hr'
          have hlt := hstop s hs
          have hlt' := hstop r hr
          omega
        · obtain ⟨A, B, rfl⟩ := ih hrest (fun z hz => hpos z (List.mem_cons_of_mem y hz)) hr' hs
          exact ⟨y :: A, B, rfl⟩

/-- In a neat map the memory behind a region is not of its type. -/
theorem Neat.type_ne_behind (h : Neat map) (hr : r ∈ map) (hs : s ∈ map)
    (htouch : r.stop = s.location) : r.type ≠ s.type := by
  obtain ⟨A, B, rfl⟩ := exists_neighbours h.separated h.size_pos hr hs htouch
  intro htype
  exact (List.isChain_append_cons_cons.1 h.merged).2.1 ⟨htouch, htype⟩

/-- Addresses of one type that follow each other lie in one region. -/
theorem Neat.one_region {lo hi : Nat} (h : Neat map) (hlt : lo < hi) {type : MemoryType}
    (hcover : ∀ x, lo ≤ x → x < hi → ∃ r ∈ map, InRegion r x ∧ r.type = type) :
    ∃ r ∈ map, r.type = type ∧ r.location ≤ lo ∧ hi ≤ r.stop := by
  obtain ⟨r, hr, ⟨hle, hstop⟩, htype⟩ := hcover lo le_rfl hlt
  refine ⟨r, hr, htype, hle, ?_⟩
  by_contra hshort
  obtain ⟨s, hs, ⟨hle', hstop'⟩, htype'⟩ := hcover r.stop (Nat.le_of_lt hstop)
    (Nat.lt_of_not_le hshort)
  -- the two do not share the address in front
  have hbehind : r.stop = s.location := by
    by_contra hne
    have hlast : layering.Covers r (r.stop - 1) ∧ layering.Covers s (r.stop - 1) := by
      change s.location ≤ r.stop at hle'
      change r.stop < s.stop at hstop'
      change lo < r.stop at hstop
      change r.location ≤ lo at hle
      refine ⟨⟨?_, ?_⟩, ?_, ?_⟩
      · show r.location ≤ r.stop - 1
        omega
      · show r.stop - 1 < r.stop
        omega
      · show s.location ≤ r.stop - 1
        omega
      · show r.stop - 1 < s.stop
        omega
    obtain rfl := h.separated.eq_of_covers hr hs hlast.1 hlast.2
    exact Nat.lt_irrefl _ hstop'
  exact h.type_ne_behind hr hs hbehind (htype.trans htype'.symm)

/-! ## The pages -/

/-- A map that describes the memory has a page where all of the memory is available. -/
theorem isPage_iff_available (hneat : Neat map) (hmap : Describes map placed)
    (hpos : 0 < blockSize) : map.IsPage blockSize p ↔
      ∀ x, p * blockSize ≤ x → x < (p + 1) * blockSize → Available placed x := by
  constructor
  · rintro ⟨r, hr, htype, hfirst, hlast⟩ x hle hlt
    have hin : InRegion r x := ⟨hfirst.trans hle, hlt.trans_le hlast⟩
    refine ⟨(hmap.covered_iff x).1 ⟨r, hr, hin⟩, fun N hN hNin => ?_⟩
    have hvalue := hmap.type_highest r hr x hin N hN hNin
    rw [htype] at hvalue
    exact MemoryType.value_inj.1 (Nat.le_antisymm hvalue (N.type.value_pos))
  · intro hall
    have hlt : p * blockSize < (p + 1) * blockSize := Nat.mul_lt_mul_of_pos_right p.lt_succ_self hpos
    have hregion : ∀ x, p * blockSize ≤ x → x < (p + 1) * blockSize →
        ∃ r ∈ map, InRegion r x ∧ r.type = .AVAILABLE := by
      intro x hle hlt
      obtain ⟨hcovered, honly⟩ := hall x hle hlt
      obtain ⟨r, hr, hin⟩ := (hmap.covered_iff x).2 hcovered
      obtain ⟨N, hN, hNin, hNtype⟩ := hmap.type_placed r hr x hin
      exact ⟨r, hr, hin, hNtype ▸ honly N hN hNin⟩
    exact hneat.one_region hlt hregion

/-- A described map is disjoint, when the available memory ends below the last two blocks. -/
theorem Describes.disjoint (hmap : Describes map placed) (hneat : Neat map)
    (hend : ∀ N ∈ placed, N.type = .AVAILABLE → N.stop + 2 * blockSize ≤ 2 ^ 64) :
    map.Disjoint blockSize where
  sorted := hmap.sorted
  disjoint := by
    refine hneat.separated.imp fun {r s} hle => ?_
    rintro ⟨x, ⟨-, hlt⟩, hge, -⟩
    exact absurd (hlt.trans_le (Nat.le_trans hle hge)) (Nat.lt_irrefl x)
  noWrap := by
    intro r hr htype
    have hsize := hneat.size_pos r hr
    have hin : InRegion r (r.stop - 1) := by
      refine ⟨?_, ?_⟩
      · show r.location ≤ r.location + r.size - 1
        omega
      · show r.location + r.size - 1 < r.location + r.size
        omega
    obtain ⟨N, hN, ⟨-, hlt⟩, hNtype⟩ := hmap.type_placed r hr _ hin
    have hNend := hend N hN (hNtype.trans htype)
    change r.location + r.size - 1 < N.stop at hlt
    show r.location + r.size + 2 * blockSize ≤ 2 ^ 64
    omega

end MemoryMap

end CrosKernel.Memory
